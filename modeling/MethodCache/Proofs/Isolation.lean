import MethodCache.Proofs.Transparency

/-!
What shared tables take from the class graph they are made from. Two graphs may differ in the
function objects that built-in classes hold, as the graphs of two contexts do; as long as the
natives behind them are the same, and the same classes define each slot, the tables made from the
two graphs are the same, with the same owners and the same numbers. And whatever the graph, no
entry holds an object of its context: a constant is a plain value, and a descriptor names a native
that depends on its arguments alone, under a slot that may be described. An entry is left open
only where its value does belong to the context, or may come to.
-/
namespace MethodCache

/-- Values that differ in no more than which function object they are: functions of users stand
for each other, and function objects of contexts do when they are for the same native. -/
inductive Value.Resembles : Value → Value → Prop
  | same (v : Value) : Resembles v v
  | function (f f' : FunctionObject) : Resembles (.function f) (.function f')
  | builtin {f f' : BuiltinFunction} (h : f.native = f'.native) :
      Resembles (.builtin f) (.builtin f')

namespace ClassGraph

/-- For each built-in type the graphs have the same order of ancestors, in which the same classes
define each slot, and entries of its table that resemble each other. -/
structure Resembles (g h : ClassGraph) : Prop where
  order : ∀ t : BuiltinType, h.mro t.classId = g.mro t.classId
  definers : ∀ t : BuiltinType, ∀ a ∈ g.mro t.classId, ∀ s : Slot,
    (h.ownMember a s.name).isSome = (g.ownMember a s.name).isSome
  entries : ∀ (t : BuiltinType) (s : Slot),
    Option.Rel Value.Resembles (g.cached t.classId s) (h.cached t.classId s)

variable {g h : ClassGraph} {t : BuiltinType} {s : Slot} {v w : Option Value}

theorem findFrom_definer {name : String} {order : List ClassId} (i : ℕ)
    (hown : ∀ a ∈ order, (h.ownMember a name).isSome = (g.ownMember a name).isSome) :
    (h.findFrom name i order).map Found.definer = (g.findFrom name i order).map Found.definer := by
  induction order generalizing i with
  | nil => rfl
  | cons a rest ih =>
    have hhere := hown a List.mem_cons_self
    have hrest := ih (i + 1) fun b hb => hown b (List.mem_cons_of_mem a hb)
    rw [findFrom, findFrom]
    cases hg : g.ownMember a name <;> cases hh : h.ownMember a name
    · exact hrest
    · simp [hg, hh] at hhere
    · simp [hg, hh] at hhere
    · rfl

theorem slotOwner_eq (g : ClassGraph) (t : BuiltinType) (s : Slot) :
    g.slotOwner t s = (((g.lookup t.classId s.name).map Found.definer).bind
      BuiltinType.ofClassId?).getD t := by
  rw [slotOwner, Option.bind_map]
  rfl

theorem Resembles.slotOwner (r : g.Resembles h) (t : BuiltinType) (s : Slot) :
    h.slotOwner t s = g.slotOwner t s := by
  rw [slotOwner_eq, slotOwner_eq, lookup, lookup, r.order,
    findFrom_definer 0 fun a ha => r.definers t a ha s]

theorem Resembles.classify (r : g.Resembles h) (x : DescriptorIndex) (t : BuiltinType) (s : Slot)
    (hv : Option.Rel Value.Resembles v w) : h.classify x t s w = g.classify x t s v := by
  unfold ClassGraph.classify
  split
  · rfl
  · cases hv with
    | none => rfl
    | @some a b hvalue =>
      cases hvalue with
      | same => cases a <;> simp only [r.slotOwner]
      | function f f' => rfl
      | builtin hnative => simp only [hnative, r.slotOwner]

theorem Resembles.classifySlots (r : g.Resembles h) {own own' : SlotTable}
    (hown : ∀ s, Option.Rel Value.Resembles (own.get s) (own'.get s)) (slots : List Slot)
    (p : SlotArray SharedEntry × DescriptorIndex) :
    h.classifySlots t own' slots p = g.classifySlots t own slots p := by
  induction slots generalizing p with
  | nil => rfl
  | cons s rest ih =>
    simp only [ClassGraph.classifySlots, r.classify p.2 t s (hown s), ih]

theorem get_getD_table? (g : ClassGraph) (id : ClassId) (s : Slot) :
    ((g.table? id).getD .absent).get s = g.cached id s := by
  unfold cached
  cases g.table? id with
  | none => exact SlotArray.get_fill none s
  | some table => rfl

theorem Resembles.shareTable (r : g.Resembles h) (x : DescriptorIndex) (t : BuiltinType) :
    h.shareTable x t = g.shareTable x t := by
  have hown : ∀ s, Option.Rel Value.Resembles
      (((g.table? t.classId).getD .absent).get s) (((h.table? t.classId).getD .absent).get s) := by
    intro s
    rw [get_getD_table?, get_getD_table?]
    exact r.entries t s
  simp only [ClassGraph.shareTable, r.classifySlots hown]

theorem Resembles.shareTables (r : g.Resembles h) (ts : List BuiltinType) (x : DescriptorIndex) :
    h.shareTables ts x = g.shareTables ts x := by
  induction ts generalizing x with
  | nil => rfl
  | cons t rest ih => rw [shareTables_cons, shareTables_cons, r.shareTable, ih]

/-! ### Contexts -/

section Contexts

variable {id id' : ContextId} {defines : BuiltinType → List Slot}

theorem Equipped.cached (q : g.Equipped id defines) (t : BuiltinType) (s : Slot) :
    g.cached t.classId s =
      (t.definer? defines s).map fun u => .builtin ((Native.mk u s).ownedBy id) := by
  obtain ⟨table, htable, hagrees⟩ := q.right t
  rw [← q.resolve t s, ← hagrees s]
  unfold ClassGraph.cached
  rw [htable, Option.bind_some]

/-- The graphs of two contexts resemble each other once their types define the same slots. -/
theorem Equipped.resembles (q : g.Equipped id defines) (q' : h.Equipped id' defines) :
    g.Resembles h where
  order t := (q'.mro t).trans (q.mro t).symm
  definers t a ha s := by
    rw [q.mro] at ha
    obtain ⟨u, -, rfl⟩ := List.mem_map.mp ha
    rw [(q.stocked u).ownMember, (q'.stocked u).ownMember]
    split <;> rfl
  entries t s := by
    rw [q.cached, q'.cached]
    cases t.definer? defines s with
    | none => exact .none
    | some u => exact .some (.builtin rfl)

end Contexts

/-! ### Entries -/

theorem get_classifySlots (g : ClassGraph) (t : BuiltinType) (own : SlotTable) {slots : List Slot}
    (hs : s ∈ slots) (p : SlotArray SharedEntry × DescriptorIndex) :
    ∃ y, (g.classifySlots t own slots p).1.get s = (g.classify y t s (own.get s)).1 := by
  have hkept : ∀ (rest : List Slot) (p : SlotArray SharedEntry × DescriptorIndex), s ∉ rest →
      (g.classifySlots t own rest p).1.get s = p.1.get s := by
    intro rest
    induction rest with
    | nil => exact fun p _ => rfl
    | cons u rest ih =>
      intro p hmem
      obtain ⟨hu, hrest⟩ := not_or.mp (mt List.mem_cons.mpr hmem)
      rw [ClassGraph.classifySlots, ih _ hrest, SlotArray.get_set, if_neg (Ne.symm hu)]
  induction slots generalizing p with
  | nil => simp at hs
  | cons u rest ih =>
    by_cases hrest : s ∈ rest
    · exact ih hrest _
    · obtain rfl := (List.mem_cons.mp hs).resolve_right hrest
      refine ⟨p.2, ?_⟩
      rw [ClassGraph.classifySlots, hkept rest _ hrest, SlotArray.get_set, if_pos rfl]

theorem find_shareTables (g : ClassGraph) {ts : List BuiltinType} (ht : t ∈ ts)
    (x : DescriptorIndex) :
    ∃ y, (g.shareTables ts x).1.find? (·.type = t) = some (g.shareTable y t).1 := by
  induction ts generalizing x with
  | nil => simp at ht
  | cons u rest ih =>
    have htype : (g.shareTable x u).1.type = u := rfl
    rw [shareTables_cons, List.find?_cons]
    by_cases hu : u = t
    · subst hu
      exact ⟨x, by simp [htype]⟩
    · obtain ⟨y, hy⟩ := ih ((List.mem_cons.mp ht).resolve_left (Ne.symm hu)) (g.shareTable x u).2
      exact ⟨y, by simpa [htype, hu] using hy⟩

end ClassGraph

theorem Slot.allowsDescriptor_iff {s : Slot} :
    s.allowsDescriptor = true ↔ s ∉ [.new, .init, .setName, .call] := by
  cases s <;> simp [allowsDescriptor]

/-- The value of a slot belongs to its context: it is a function of a user, or a function object
that is needed for itself or whose native depends on the context. -/
inductive Value.Bound (s : Slot) : Value → Prop
  | function (f : FunctionObject) : Bound s (.function f)
  | hook {f : BuiltinFunction} (hs : s ∈ [.new, .init, .setName, .call]) : Bound s (.builtin f)
  | native {f : BuiltinFunction} (hfree : f.native.contextFree = false) : Bound s (.builtin f)

/-- What an entry takes from the table that the graph has published: nothing that belongs to the
context, and everything else. -/
inductive SharedEntry.Takes (g : ClassGraph) (t : BuiltinType) (s : Slot) : SharedEntry → Prop
  | late (hlate : t.redefines s = true) : Takes g t s .unknown
  | bound (hbound : ∀ v, g.cached t.classId s = some v → v.Bound s) : Takes g t s .unknown
  | constant {v : Value} (hlate : t.redefines s = false) (hv : g.cached t.classId s = some v)
      (hfunction : ∀ f, v ≠ .function f) (hbuiltin : ∀ f, v ≠ .builtin f) :
      Takes g t s (.constant v)
  | descriptor {d : Descriptor} {f : BuiltinFunction} (hlate : t.redefines s = false)
      (hv : g.cached t.classId s = some (.builtin f)) (hnative : d.native = f.native)
      (hfree : d.native.contextFree = true) (hslot : d.slot = s)
      (hs : s ∉ [.new, .init, .setName, .call]) (howner : d.owner = g.slotOwner t s) :
      Takes g t s (.descriptor d)

theorem ClassGraph.classify_takes (g : ClassGraph) (x : DescriptorIndex) (t : BuiltinType)
    (s : Slot) : (g.classify x t s (g.cached t.classId s)).1.Takes g t s := by
  unfold classify
  cases hlate : t.redefines s with
  | true => exact .late hlate
  | false =>
    simp only [Bool.false_eq_true, if_false]
    cases hv : g.cached t.classId s with
    | none => exact .bound (by simp [hv])
    | some v =>
      cases v with
      | builtin f =>
        simp only
        split
        · next hshared =>
          obtain ⟨hs, hfree⟩ := Bool.and_eq_true_iff.mp hshared
          exact .descriptor hlate hv rfl hfree rfl (Slot.allowsDescriptor_iff.mp hs) rfl
        · next hshared =>
          refine .bound fun w hw => ?_
          obtain rfl := Option.some.inj (hv.symm.trans hw)
          rcases Bool.and_eq_false_iff.mp (Bool.eq_false_iff.mpr hshared) with hs | hfree
          · have hhook := mt Slot.allowsDescriptor_iff.mpr (Bool.eq_false_iff.mp hs)
            exact .hook (not_not.mp hhook)
          · exact .native hfree
      | function f =>
        refine .bound fun w hw => ?_
        obtain rfl := Option.some.inj (hv.symm.trans hw)
        exact .function f
      | _ => exact .constant hlate hv (by simp) (by simp)

namespace SharedTables

theorem fill_empty (g : ClassGraph) (x : DescriptorIndex) :
    ({} : SharedTables).fill g x =
      (⟨some (g.shareTables BuiltinType.all x).1⟩, (g.shareTables BuiltinType.all x).2) := rfl

/-- An entry of tables made from a graph is what may be shared about the entry of the table that
the graph has published, under some numbers given so far. -/
theorem entry_fill (g : ClassGraph) (x : DescriptorIndex) (t : BuiltinType) (s : Slot) :
    ∃ y, (({} : SharedTables).fill g x).1.entry t s =
      (g.classify y t s (g.cached t.classId s)).1 := by
  obtain ⟨y, hy⟩ := g.find_shareTables t.mem_all x
  obtain ⟨z, hz⟩ := g.get_classifySlots t ((g.table? t.classId).getD .absent) (Slot.mem_all s)
    (.fill .unknown, y)
  refine ⟨z, ?_⟩
  rw [fill_empty, entry, get?, Option.bind_some, hy, ← ClassGraph.get_getD_table?]
  exact hz

/-- Nothing of a context enters the shared tables. Graphs that differ in the function objects of
their built-in classes only are shared alike, entry for entry and with the same owners and
numbers; and from any graph an entry takes what does not belong to the context, and no more. -/
theorem fill_unbound (g : ClassGraph) (x : DescriptorIndex) :
    (∀ h, g.Resembles h → ({} : SharedTables).fill h x = ({} : SharedTables).fill g x) ∧
    ∀ t s, ((({} : SharedTables).fill g x).1.entry t s).Takes g t s := by
  refine ⟨fun h r => ?_, fun t s => ?_⟩
  · rw [fill_empty, fill_empty, r.shareTables]
  · obtain ⟨y, hy⟩ := entry_fill g x t s
    rw [hy]
    exact g.classify_takes y t s

/-- The graphs of two contexts with different settings are shared alike, although the first is
full of function objects of one context and the second of function objects of the other. -/
theorem fill_second_context :
    (Context.withBuiltins 1 .checked).graph.Resembles (Context.withBuiltins 2 .unchecked).graph ∧
    ({} : SharedTables).fill (Context.withBuiltins 2 .unchecked).graph {} =
      ({} : SharedTables).fill (Context.withBuiltins 1 .checked).graph {} ∧
    (Context.withBuiltins 2 .unchecked).graph.cached BuiltinType.int.classId .add ≠
      (Context.withBuiltins 1 .checked).graph.cached BuiltinType.int.classId .add := by
  have hfirst := Context.equipped_withBuiltins 1 .checked
  have hsecond := Context.equipped_withBuiltins 2 .unchecked
  have hresembles := hfirst.resembles hsecond
  refine ⟨hresembles, (fill_unbound _ {}).1 _ hresembles, ?_⟩
  rw [hsecond.cached, hfirst.cached]
  decide

end SharedTables

end MethodCache
