import MethodCache.Value.Basic
import MethodCache.Slot.Resolve

/-!
The members a class defines itself: a map from names to values in which each name stands once.
-/
namespace MethodCache

/-- The members of a class, latest first. -/
structure Members where
  entries : List (String × Value)
  nodup : (entries.map (·.1)).Nodup

namespace Members

def empty : Members := ⟨[], .nil⟩

def find (name : String) : List (String × Value) → Option Value
  | [] => none
  | e :: es => if e.1 = name then some e.2 else find name es

def get? (m : Members) (name : String) : Option Value := find name m.entries

def erase (m : Members) (name : String) : Members where
  entries := m.entries.filter fun e => e.1 ≠ name
  nodup := m.nodup.sublist (List.filter_sublist.map _)

def insert (m : Members) (name : String) (v : Value) : Members where
  entries := (name, v) :: (m.erase name).entries
  nodup := by
    refine List.nodup_cons.2 ⟨fun h => ?_, (m.erase name).nodup⟩
    obtain ⟨e, he, rfl⟩ := List.mem_map.1 h
    simp [erase] at he

/-- Defines a name, or removes it when there is no value. -/
def write (m : Members) (name : String) : Option Value → Members
  | some v => m.insert name v
  | none => m.erase name

/-- The members that a list of definitions leaves, later ones written over earlier ones. -/
def ofList (es : List (String × Value)) : Members :=
  es.foldl (fun m e => m.insert e.1 e.2) empty

def names (m : Members) : List String := m.entries.map (·.1)

def size (m : Members) : Nat := m.entries.length

def slots (m : Members) : List (Slot × Value) :=
  m.entries.filterMap fun e => (Slot.ofName? e.1).map (·, e.2)

theorem find_filter_ne (name other : String) (es : List (String × Value)) :
    find other (es.filter fun e => e.1 ≠ name) = if name = other then none else find other es := by
  induction es with
  | nil => simp [find]
  | cons e es ih => grind [find]

theorem get?_erase (m : Members) (name other : String) :
    (m.erase name).get? other = if name = other then none else m.get? other :=
  find_filter_ne name other m.entries

theorem get?_insert (m : Members) (name other : String) (v : Value) :
    (m.insert name v).get? other = if name = other then some v else m.get? other := by
  have h := get?_erase m name other
  simp only [get?, insert, find] at h ⊢
  split
  · rfl
  · next hne => rw [h, if_neg hne]

theorem get?_write (m : Members) (name other : String) (v : Option Value) :
    (m.write name v).get? other = if name = other then v else m.get? other := by
  cases v with
  | some v => exact get?_insert m name other v
  | none => exact get?_erase m name other

theorem ne_of_find_eq_none {name : String} {es : List (String × Value)} (h : find name es = none)
    {e : String × Value} (he : e ∈ es) : e.1 ≠ name := by
  induction es with
  | nil => simp at he
  | cons d ds ih => grind [find]

theorem erase_of_get?_eq_none {m : Members} {name : String} (h : m.get? name = none) :
    m.erase name = m := by
  have hkeep : (m.entries.filter fun e => e.1 ≠ name) = m.entries := by
    refine List.filter_eq_self.2 fun e he => ?_
    simpa using ne_of_find_eq_none h he
  cases m with
  | mk entries nodup => simp only [erase, hkeep]

theorem write_write (m : Members) (name : String) (v : Option Value) :
    (m.write name v).write name v = m.write name v := by
  cases v with
  | none => exact erase_of_get?_eq_none (by simp [write, get?_erase])
  | some v => simp [write, insert, erase]

end Members

end MethodCache
