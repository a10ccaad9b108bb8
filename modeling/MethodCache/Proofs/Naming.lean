import MethodCache.Proofs.Building

/-!
Names and slots. Finding a slot goes by the shape of a name and two of its bytes, and it answers
as a search of all names would: a text denotes a slot exactly when it is the name of that slot.
Every byte that is looked at on the way belongs to the text, however short the text is and
whatever characters its bytes make up.
-/
namespace MethodCache.Slot

theorem ofName?_eq_some_iff {name : String} {s : Slot} :
    ofName? name = some s ↔ name = s.name := by
  constructor
  · intro h
    exact (name_of_ofName? h).symm
  · rintro rfl
    exact ofName?_name s

theorem find_name_eq_some_iff {name : String} {s : Slot} :
    all.find? (·.name == name) = some s ↔ name = s.name := by
  constructor
  · intro h
    have hname : s.name = name := by simpa using List.find?_some h
    exact hname.symm
  · rintro rfl
    cases hfound : all.find? (·.name == s.name) with
    | none => simpa using List.find?_eq_none.mp hfound s (mem_all s)
    | some u =>
      have hname : u.name = s.name := by simpa using List.find?_some hfound
      rw [name_inj.mp hname]

def byte? (b : ByteArray) (i : Nat) : Option UInt8 :=
  if h : i < b.size then some b[i] else none

theorem byte?_eq {b : ByteArray} {i : Nat} (h : i < b.size) : byte? b i = some b[i] :=
  dif_pos h

/-- The test of a name's shape with every byte asked for; no answer when one is missing. -/
def readShape? (name : String) : Option Bool :=
  let b := name.toUTF8
  if 5 < b.size then do
    let first ← byte? b 0
    let second ← byte? b 1
    let lastButOne ← byte? b (b.size - 2)
    let last ← byte? b (b.size - 1)
    return first == 0x5f && second == 0x5f && lastButOne == 0x5f && last == 0x5f
  else
    return false

def readName? (name : String) : Option (Option Slot) := do
  let b := name.toUTF8
  if ← readShape? name then
    let third ← byte? b 2
    let fourth ← byte? b 3
    return (candidates (Char.ofUInt8 third) (Char.ofUInt8 fourth)).find? (·.name == name)
  else
    return none

theorem readShape?_eq (name : String) : readShape? name = some (hasSlotShape name) := by
  unfold readShape? hasSlotShape
  by_cases h : 5 < name.toUTF8.size
  · simp only [if_pos h, dif_pos h, byte?_eq (show 0 < name.toUTF8.size by omega),
      byte?_eq (show 1 < name.toUTF8.size by omega),
      byte?_eq (show name.toUTF8.size - 2 < name.toUTF8.size by omega),
      byte?_eq (show name.toUTF8.size - 1 < name.toUTF8.size by omega)]
    rfl
  · simp only [if_neg h, dif_neg h]
    rfl

/-- No byte is missing. -/
theorem readName?_eq (name : String) : readName? name = some (ofName? name) := by
  unfold readName? ofName?
  rw [readShape?_eq]
  by_cases h : hasSlotShape name = true
  · have hsize := size_of_hasSlotShape h
    simp only [h, dif_pos, byte?_eq (show 2 < name.toUTF8.size by omega),
      byte?_eq (show 3 < name.toUTF8.size by omega)]
    rfl
  · simp only [Bool.not_eq_true] at h
    simp only [h]
    rfl

/-- A text denotes a slot exactly when it is the slot's name, as if all names were searched, and
no byte outside the text is read to find that out. -/
theorem denotes_iff_name (name : String) :
    (∀ s, ofName? name = some s ↔ name = s.name) ∧
    ofName? name = all.find? (·.name == name) ∧
    readName? name = some (ofName? name) := by
  refine ⟨fun s => ofName?_eq_some_iff, ?_, readName?_eq name⟩
  apply Option.ext
  intro s
  rw [ofName?_eq_some_iff, find_name_eq_some_iff]

end MethodCache.Slot
