import Mathlib.Data.List.Nodup
import MethodCache.Proofs.Transparency

/-!
What the checks of tables tell. Checking classes reports each slot whose table entry is not what
looking the slot up finds, once for every class that is asked for, whatever state the classes are
in. Checking the shared tables resolves call targets on the way. Two shared descriptors with the
same number are the same descriptor, so a target that is resolved for one of them is not seen by
any other, and no report depends on the order in which the entries are visited: nothing is
reported exactly when every entry stands for what its slot is found to hold.
-/
namespace MethodCache

open ClassGraph

namespace ClassGraph

variable {g : ClassGraph} {id : ClassId} {m : Mismatch}

/-- A mismatch that names a class with a table and a slot at which the table does not hold what
looking the slot up finds, and gives both. -/
def Tells (g : ClassGraph) (m : Mismatch) : Prop :=
  ∃ cls table, g.class? m.id = some cls ∧ cls.table? = some table ∧
    g.resolve m.id m.slot ≠ table.get m.slot ∧
    m = ⟨m.id, cls.name, m.slot, g.resolve m.id m.slot, table.get m.slot, .own⟩

theorem classMismatches_of_table {cls : ClassObject} {table : SlotTable}
    (hcls : g.class? id = some cls) (htable : cls.table? = some table) :
    g.classMismatches id = Slot.all.filterMap fun s =>
      if g.resolve id s = table.get s then none
      else some ⟨id, cls.name, s, g.resolve id s, table.get s, .own⟩ := by
  simp only [classMismatches, hcls, htable]

theorem mem_classMismatches : m ∈ g.classMismatches id ↔ m.id = id ∧ g.Tells m := by
  constructor
  · intro h
    unfold classMismatches at h
    split at h
    · simp at h
    · next cls hcls =>
      split at h
      · simp at h
      · next table htable =>
        obtain ⟨s, -, hs⟩ := List.mem_filterMap.mp h
        dsimp only at hs
        split at hs
        · simp at hs
        · next hne =>
          obtain rfl := Option.some.inj hs
          exact ⟨rfl, cls, table, hcls, htable, hne, rfl⟩
  · rintro ⟨rfl, cls, table, hcls, htable, hne, hm⟩
    rw [classMismatches_of_table hcls htable]
    exact List.mem_filterMap.mpr ⟨m.slot, Slot.mem_all _, by rw [if_neg hne, ← hm]⟩

theorem exists_tells {table : SlotTable} {s : Slot} (htable : g.table? id = some table)
    (hne : g.resolve id s ≠ table.get s) :
    ∃ m, g.Tells m ∧ m.id = id ∧ m.slot = s ∧
      m.expected = g.resolve id s ∧ m.actual = table.get s := by
  obtain ⟨cls, hcls, hcell⟩ := Option.bind_eq_some_iff.mp htable
  exact ⟨⟨id, cls.name, s, g.resolve id s, table.get s, .own⟩,
    ⟨cls, table, hcls, hcell, hne, rfl⟩, rfl, rfl, rfl, rfl⟩

def place (m : Mismatch) : ClassId × Slot := (m.id, m.slot)

theorem classMismatches_nodup (g : ClassGraph) (id : ClassId) :
    ((g.classMismatches id).map place).Nodup := by
  unfold classMismatches
  split
  · exact List.nodup_nil
  · split
    · exact List.nodup_nil
    · rw [List.map_filterMap]
      refine Slot.all_nodup.filterMap ?_
      intro s u p hs hu
      simp only [Option.mem_def, Option.map_eq_some_iff] at hs hu
      obtain ⟨m, hm, rfl⟩ := hs
      obtain ⟨m', hm', hplace⟩ := hu
      split at hm
      · simp at hm
      · split at hm'
        · simp at hm'
        · obtain rfl := Option.some.inj hm
          obtain rfl := Option.some.inj hm'
          exact (Prod.mk.inj hplace).2.symm

/-- Every mismatch there is among the classes is reported, none stands for another, and nothing
else is reported. -/
theorem mem_mismatches {ids : List ClassId} :
    m ∈ g.mismatches ids ↔ m.id ∈ ids ∧ g.Tells m := by
  simp only [mismatches, List.mem_flatMap, mem_classMismatches]
  constructor
  · rintro ⟨id, hid, rfl, htells⟩
    exact ⟨hid, htells⟩
  · rintro ⟨hid, htells⟩
    exact ⟨m.id, hid, rfl, htells⟩

theorem mismatches_nodup (g : ClassGraph) {ids : List ClassId} (hids : ids.Nodup) :
    ((g.mismatches ids).map place).Nodup := by
  rw [mismatches, List.map_flatMap, List.nodup_flatMap]
  refine ⟨fun id _ => g.classMismatches_nodup id, hids.imp ?_⟩
  intro a b hab p ha hb
  obtain ⟨m, hm, rfl⟩ := List.mem_map.mp ha
  obtain ⟨m', hm', hplace⟩ := List.mem_map.mp hb
  have hid := (mem_classMismatches.mp hm).1
  have hid' := (mem_classMismatches.mp hm').1
  exact hab (hid.symm.trans ((congrArg Prod.fst hplace).symm.trans hid'))

end ClassGraph

/-! ### Shared tables -/

namespace CallTargets

theorem getOrResolve_fst (t : CallTargets) (i : ℕ) (resolve : Option CallTarget) :
    (t.getOrResolve i resolve).1 = (t.get? i).or resolve := by
  unfold getOrResolve
  cases t.get? i with
  | some target => rfl
  | none => cases resolve <;> rfl

/-- Resolving a number is seen at that number only, by the target it answered with. -/
theorem get?_getOrResolve (t : CallTargets) (i j : ℕ) (resolve : Option CallTarget) :
    (t.getOrResolve i resolve).2.get? j =
      if i = j then (t.getOrResolve i resolve).1 else t.get? j := by
  have hkept : ∀ answer, t.get? i = answer →
      t.get? j = if i = j then answer else t.get? j := by
    rintro _ rfl
    split
    · next hij => rw [hij]
    · rfl
  unfold getOrResolve
  cases hget : t.get? i with
  | some target => exact hkept _ hget
  | none =>
    cases resolve with
    | none => exact hkept _ hget
    | some target => exact get?_put t i j target

end CallTargets

/-- The entry stands in the context for what the slot of the type is found to hold: its value is
the one found, and where it is a descriptor, the slot is one that descriptors may occupy and the
function found is one for the native described. -/
inductive SharedEntry.Stands (c : Context) (t : BuiltinType) (s : Slot) : SharedEntry → Prop
  | unknown : Stands c t s .unknown
  | constant {v : Value} (hv : (c.materialize (.value v)).1 = c.graph.resolve t.classId s) :
      Stands c t s (.constant v)
  | descriptor {d : Descriptor} {f : BuiltinFunction}
      (hv : (c.materialize (.descriptor d)).1 = c.graph.resolve t.classId s)
      (hs : s.allowsDescriptor = true) (hf : c.graph.resolve t.classId s = some (.builtin f))
      (hnative : f.native = d.native) : Stands c t s (.descriptor d)

namespace SharedEntry

variable {c : Context} {t : BuiltinType} {s : Slot}

theorem stands_constant_iff {v : Value} :
    (constant v).Stands c t s ↔ c.graph.resolve t.classId s = some v := by
  constructor
  · intro h
    cases h with
    | constant hv => exact hv.symm
  · exact fun h => .constant h.symm

theorem stands_descriptor_iff {d : Descriptor} :
    (descriptor d).Stands c t s ↔
      (c.materialize (.descriptor d)).1 = c.graph.resolve t.classId s ∧
        s.allowsDescriptor = true ∧
        ∃ f, c.graph.resolve t.classId s = some (.builtin f) ∧ f.native = d.native := by
  constructor
  · intro h
    cases h with
    | descriptor hv hs hf hnative => exact ⟨hv, hs, _, hf, hnative⟩
  · rintro ⟨hv, hs, f, hf, hnative⟩
    exact .descriptor hv hs hf hnative

end SharedEntry

namespace SharedTables

/-- Shared descriptors with the same number are the same. -/
def Separate (h : SharedTables) : Prop :=
  ∀ t s d t' s' d', h.entry t s = .descriptor d → h.entry t' s' = .descriptor d' →
    d.index = d'.index → d = d'

/-- The number of a native tells its owner and its slot. -/
theorem Describe.separate {h : SharedTables} {x : DescriptorIndex} (hd : h.Describe x) :
    h.Separate := by
  rintro t s ⟨slot, native, index, owner⟩ t' s' ⟨slot', native', index', owner'⟩ he he' hindex
  obtain ⟨-, -, hnative, hi⟩ := hd.of_entry he
  obtain ⟨-, -, hnative', hi'⟩ := hd.of_entry he'
  obtain rfl : index = index' := hindex
  obtain rfl : native = native' := Option.some.inj (hi.symm.trans hi')
  obtain ⟨rfl, rfl⟩ := Native.mk.inj (hnative.symm.trans hnative')
  rfl

end SharedTables

namespace Context

variable {h : SharedTables} {c c' k : Context} {t : BuiltinType} {s : Slot} {e : SharedEntry}

/-- Two contexts with the same graph in which every shared descriptor stands for the same. -/
structure Alike (h : SharedTables) (c k : Context) : Prop where
  graph : k.graph = c.graph
  value : ∀ t s d, h.entry t s = .descriptor d →
    (k.materialize (.descriptor d)).1 = (c.materialize (.descriptor d)).1

theorem Alike.refl (h : SharedTables) (c : Context) : Alike h c c :=
  ⟨rfl, fun _ _ _ _ => rfl⟩

theorem Alike.trans (r : Alike h c k) (r' : Alike h k c') : Alike h c c' :=
  ⟨r'.graph.trans r.graph,
    fun t s d hd => (r'.value t s d hd).trans (r.value t s d hd)⟩

/-- Resolving the call target of one shared descriptor changes for none of them what it stands
for: another descriptor has another number, and the same one finds its target again. -/
theorem alike_callTarget (hsep : h.Separate) {d : Descriptor} (hd : h.entry t s = .descriptor d)
    (c : Context) : Alike h c (c.callTarget d).2 := by
  refine ⟨rfl, fun t' s' e he => ?_⟩
  have hsame : ((c.callTarget d).2.callTarget e).1 = (c.callTarget e).1 := by
    unfold callTarget
    simp only [CallTargets.getOrResolve_fst, CallTargets.get?_getOrResolve]
    split
    · next hindex =>
      obtain rfl := hsep t s d t' s' e hd he hindex
      cases c.targets.get? d.index with
      | some target => rfl
      | none =>
        simp only [Option.none_or]
        exact Option.or_self
    · rfl
  simp only [materialize, hsame]

theorem Alike.stands_iff (r : Alike h c k) (t : BuiltinType) (s : Slot) :
    (h.entry t s).Stands k t s ↔ (h.entry t s).Stands c t s := by
  cases he : h.entry t s with
  | unknown => exact iff_of_true .unknown .unknown
  | constant v => rw [SharedEntry.stands_constant_iff, SharedEntry.stands_constant_iff, r.graph]
  | descriptor d =>
    rw [SharedEntry.stands_descriptor_iff, SharedEntry.stands_descriptor_iff, r.graph,
      r.value t s d he]

theorem sharedMismatch?_eq_none_iff (cls : ClassObject) :
    (c.sharedMismatch? t cls s e).1 = none ↔ e.Stands c t s := by
  cases e with
  | unknown => exact iff_of_true rfl .unknown
  | constant v =>
    rw [SharedEntry.stands_constant_iff]
    simp only [sharedMismatch?]
    split <;> simp_all
  | descriptor d =>
    rw [SharedEntry.stands_descriptor_iff]
    simp only [sharedMismatch?]
    generalize (c.materialize (.descriptor d)).1 = actual
    cases hr : c.graph.resolve t.classId s with
    | none => simp
    | some v =>
      cases v with
      | builtin f =>
        simp only [Descriptor.describes, Option.some.injEq, Value.builtin.injEq, exists_eq_left']
        grind
      | _ => simp

theorem alike_sharedMismatch? (hsep : h.Separate) (he : h.entry t s = e) (cls : ClassObject)
    (c : Context) : Alike h c (c.sharedMismatch? t cls s e).2 := by
  cases e with
  | unknown => exact .refl h c
  | constant v => exact .refl h c
  | descriptor d => exact alike_callTarget hsep he c

theorem sharedMismatchesOf_eq_nil_iff (hsep : h.Separate) {table : SharedTable}
    (htable : ∀ s, h.entry t s = table.entries.get s) (cls : ClassObject) (slots : List Slot)
    (c : Context) :
    (sharedMismatchesOf t cls table slots c).1 = [] ↔
      ∀ s ∈ slots, (h.entry t s).Stands c t s := by
  induction slots generalizing c with
  | nil => simp [sharedMismatchesOf]
  | cons s rest ih =>
    have halike := alike_sharedMismatch? hsep (htable s) cls c
    have hlater : ∀ u,
        (h.entry t u).Stands (c.sharedMismatch? t cls s (table.entries.get s)).2 t u ↔
          (h.entry t u).Stands c t u := halike.stands_iff t
    simp only [sharedMismatchesOf, List.append_eq_nil_iff, Option.toList_eq_nil_iff,
      sharedMismatch?_eq_none_iff, ih, hlater, List.forall_mem_cons, htable s]

theorem sharedMismatches_eq_nil_iff (hsep : h.Separate) (ts : List BuiltinType) (c : Context) :
    (sharedMismatches h ts c).1 = [] ↔
      ∀ t ∈ ts, c.graph.contains t.classId = true → ∀ s, (h.entry t s).Stands c t s := by
  induction ts generalizing c with
  | nil => simp [sharedMismatches]
  | cons t rest ih =>
    rw [List.forall_mem_cons]
    cases htable : h.get? t with
    | none =>
      have hopen : ∀ s, h.entry t s = .unknown := by simp [SharedTables.entry, htable]
      simp [sharedMismatches, htable, hopen, SharedEntry.Stands.unknown, ih]
    | some table =>
      cases hcls : c.graph.class? t.classId with
      | none =>
        have hmissing : ¬ c.graph.contains t.classId = true := by
          rw [contains_iff]
          simp [hcls]
        simp [sharedMismatches, htable, hcls, hmissing, ih]
      | some cls =>
        have hentry : ∀ s, h.entry t s = table.entries.get s := by
          simp [SharedTables.entry, htable]
        have halike : Alike h c (sharedMismatchesOf t cls table Slot.all c).2 :=
          sharedMismatchesOf_induction (P := Alike h c)
            (fun k s d hd hk => hk.trans (alike_callTarget hsep ((hentry s).trans hd) k))
            cls Slot.all (.refl h c)
        have hlater : ∀ u s,
            (h.entry u s).Stands (sharedMismatchesOf t cls table Slot.all c).2 u s ↔
              (h.entry u s).Stands c u s := halike.stands_iff
        simp only [sharedMismatches, htable, hcls, List.append_eq_nil_iff, ih, hlater,
          halike.graph, sharedMismatchesOf_eq_nil_iff hsep hentry, Slot.mem_all, true_implies,
          contains_of_class? hcls]

end Context

namespace Process

/-- Checking tells what is wrong, whatever state the classes and the context are in. Of the
classes asked for, each slot of a table that does not hold what looking the slot up finds is
reported, once and with both values, and nothing else is. Of the shared tables nothing is reported
exactly when each entry, where the context has a class for its type, stands for what its slot is
found to hold there. -/
theorem checks_tell {p : Process} (hp : p.Reachable) :
    (∀ (g : ClassGraph) (ids : List ClassId), ids.Nodup →
      ((g.mismatches ids).map place).Nodup ∧
      ∀ m, m ∈ g.mismatches ids ↔ m.id ∈ ids ∧ g.Tells m) ∧
    ∀ c : Context, (c.sharedMismatches p.host.shared BuiltinType.all).1 = [] ↔
      ∀ t : BuiltinType, c.graph.contains t.classId = true →
        ∀ s, (p.host.shared.entry t s).Stands c t s := by
  refine ⟨fun g ids hids => ⟨g.mismatches_nodup hids, fun m => mem_mismatches⟩, fun c => ?_⟩
  have hsep := hp.serves.host.separate
  simp only [Context.sharedMismatches_eq_nil_iff hsep, BuiltinType.mem_all, true_implies]

def plainEdits : List ClassEdit := [.define "Top" [] []]

/-- The context of that class after two members were written without any update: the class has
been given a length, and whole numbers have lost their own comparison. -/
def altered : Context :=
  let c := (({} : Host).start .unchecked).1.run plainEdits
  let g := c.graph.modify 64 fun cls =>
    { cls with members := cls.members.insert Slot.len.name (.int 7) }
  { c with graph := g.modify BuiltinType.int.classId fun cls =>
      { cls with members := cls.members.erase Slot.eq.name } }

/-- The length is missing in the table of the class, and what is shared about comparing whole
numbers describes a function that is no longer found. Both are told. -/
theorem altered_is_told :
    (ofRun .unchecked plainEdits).Reachable ∧ [64].Nodup ∧
    (∃ m ∈ altered.graph.mismatches [64],
      m.slot = .len ∧ m.expected = some (.int 7) ∧ m.actual = none) ∧
    (altered.sharedMismatches
      (ofRun .unchecked plainEdits).host.shared BuiltinType.all).1 ≠ [] := by
  have hp := reachable_ofRun .unchecked plainEdits
  have hids : [64].Nodup := List.nodup_singleton 64
  obtain ⟨hlen, hcached, hreg, hentry, hfound⟩ :
      altered.graph.resolve 64 .len = some (.int 7) ∧
      (altered.graph.table? 64).map (·.get .len) = some none ∧
      altered.graph.contains BuiltinType.int.classId = true ∧
      (ofRun .unchecked plainEdits).host.shared.entry .int .eq =
        .descriptor ⟨.eq, ⟨.int, .eq⟩, 18, .int⟩ ∧
      altered.graph.resolve BuiltinType.int.classId .eq =
        some (.builtin ⟨⟨.object, .eq⟩, 1, 0⟩) := by decide +kernel
  obtain ⟨hclasses, hshared⟩ := checks_tell hp
  refine ⟨hp, hids, ?_, ?_⟩
  · obtain ⟨table, htable, hnone⟩ := Option.map_eq_some_iff.mp hcached
    have hne : altered.graph.resolve 64 .len ≠ table.get .len := by
      rw [hlen, hnone]
      simp
    obtain ⟨m, htells, hid, hslot, hexpected, hactual⟩ := exists_tells htable hne
    have hmem : m.id ∈ [64] := List.mem_singleton.mpr hid
    exact ⟨m, ((hclasses altered.graph [64] hids).2 m).mpr ⟨hmem, htells⟩, hslot,
      hexpected.trans hlen, hactual.trans hnone⟩
  · intro hnothing
    have hstands := (hshared altered).mp hnothing .int hreg .eq
    rw [hentry] at hstands
    cases hstands with
    | descriptor _ _ hf hnative =>
      obtain rfl := Value.builtin.inj (Option.some.inj (hfound.symm.trans hf))
      exact absurd hnative (by decide)

end Process
end MethodCache
