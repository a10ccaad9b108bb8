import Mathlib.Data.List.Find
import MethodCache.Proofs.Locality

/-!
The built-in classes of a context. Every context makes them alike, except that each one owns its
function objects. Looking a slot of a built-in class up therefore finds the function object for
the first type along its chain of bases that defines the slot, whatever the context. This is so
for good: built-in classes cannot be changed, and what can be changed never stands above them.
-/
namespace MethodCache

open Relation

/-- The function object that a context makes for a native. -/
def Native.ownedBy (n : Native) (id : ContextId) : BuiltinFunction :=
  { native := n, context := id }

namespace BuiltinType

def slots (t : BuiltinType) : List Slot := t.installedSlots ++ t.lateSlots

/-- The type that defines a slot for another one, when it is given which slots types define: the
first along the chain of bases. -/
def definer? (defines : BuiltinType → List Slot) (t : BuiltinType) (s : Slot) :
    Option BuiltinType :=
  t.ancestry.find? (s ∈ defines ·)

theorem mem_of_definer? {defines : BuiltinType → List Slot} {t u : BuiltinType} {s : Slot}
    (h : t.definer? defines s = some u) : s ∈ defines u := by
  simpa using List.find?_some h

/-- What is installed late on a type itself is the only thing that changes the definer. -/
theorem definer?_slots {t : BuiltinType} {s : Slot} (h : s ∉ t.lateSlots) :
    t.definer? slots s = t.definer? installedSlots s := by
  unfold definer?
  apply List.find?_congr
  intro u hu
  have hlate : s ∉ u.lateSlots := by
    intro hs
    rw [eq_of_mem_ancestry (List.ne_nil_of_mem hs) hu] at h
    exact h hs
  simp [slots, hlate]

end BuiltinType

theorem Members.get?_ofList_slots (value : Slot → Value) (l : List Slot) (s : Slot) :
    (Members.ofList (l.map fun u => (u.name, value u))).get? s.name =
      if s ∈ l then some (value s) else none := by
  have hfold : ∀ m : Members, ((l.map fun u => (u.name, value u)).foldl
      (fun m e => m.insert e.1 e.2) m).get? s.name =
        if s ∈ l then some (value s) else m.get? s.name := by
    induction l with
    | nil => intro m; rfl
    | cons u rest ih =>
      intro m
      rw [List.map_cons, List.foldl_cons, ih, Members.get?_insert]
      simp only [Slot.name_inj, List.mem_cons]
      by_cases hrest : s ∈ rest
      · simp [hrest]
      · by_cases hu : u = s
        · simp [hu]
        · simp [hrest, hu, Ne.symm hu]
  exact hfold .empty

/-- The class of a built-in type that defines some slots through function objects of one
context. -/
structure ClassObject.IsBuiltin (c : ClassObject) (id : ContextId) (t : BuiltinType)
    (slots : List Slot) : Prop where
  builtin : c.builtin? = some t
  managed : c.isForeign = false
  members : ∀ s : Slot, c.members.get? s.name =
    if s ∈ slots then some (.builtin ((Native.mk t s).ownedBy id)) else none

namespace ClassGraph

def Stocked (g : ClassGraph) (id : ContextId) (t : BuiltinType) (slots : List Slot) : Prop :=
  ∃ c, g.class? t.classId = some c ∧ c.IsBuiltin id t slots

namespace Stocked

variable {g h : ClassGraph} {id : ContextId} {t : BuiltinType} {slots : List Slot}

theorem congr_slots (q : g.Stocked id t slots) {slots' : List Slot}
    (hsame : ∀ s, s ∈ slots' ↔ s ∈ slots) : g.Stocked id t slots' := by
  obtain ⟨c, hc, hb, hm, hmem⟩ := q
  refine ⟨c, hc, hb, hm, fun s => ?_⟩
  simp only [hmem, hsame]

theorem of_map (q : g.Stocked id t slots)
    (hsame : (h.class? t.classId).map (fun c => (c.builtin?, c.isForeign, c.members)) =
      (g.class? t.classId).map fun c => (c.builtin?, c.isForeign, c.members)) :
    h.Stocked id t slots := by
  obtain ⟨c, hc, hb, hm, hmem⟩ := q
  rw [hc, Option.map_some] at hsame
  obtain ⟨c', hc', heq⟩ := Option.map_eq_some_iff.mp hsame
  simp only [Prod.mk.injEq] at heq
  obtain ⟨hb', hm', hmem'⟩ := heq
  exact ⟨c', hc', hb'.trans hb, hm'.trans hm, fun s => by rw [hmem', hmem]⟩

theorem retabled (q : g.Stocked id t slots) (r : g.Retabled h) : h.Stocked id t slots :=
  q.of_map (r.map_class? _ (fun c => by
    rw [c.untabled_builtin?, c.untabled_isForeign, c.untabled_members]) _)

theorem reflagged (q : g.Stocked id t slots) (r : g.Reflagged h) : h.Stocked id t slots :=
  q.of_map (r.map_class? _ (fun _ => rfl) _)

theorem congr (q : g.Stocked id t slots) (hsame : h.class? t.classId = g.class? t.classId) :
    h.Stocked id t slots :=
  q.of_map (congrArg _ hsame)

theorem ownMember (q : g.Stocked id t slots) (s : Slot) : g.ownMember t.classId s.name =
    if s ∈ slots then some (.builtin ((Native.mk t s).ownedBy id)) else none := by
  obtain ⟨c, hc, -, -, hmem⟩ := q
  rw [ownMember_of_class? hc, hmem]

theorem isManaged (q : g.Stocked id t slots) : g.Managed t.classId := by
  obtain ⟨c, hc, -, hm, -⟩ := q
  exact ⟨c, hc, hm⟩

end Stocked

/-- The graph holds all built-in classes, each with the slots given for it, and their tables are
right. -/
structure Equipped (g : ClassGraph) (id : ContextId) (defines : BuiltinType → List Slot) :
    Prop where
  stocked : ∀ t, g.Stocked id t (defines t)
  order : ∀ t : BuiltinType, g.mro? t.classId = some (t.ancestry.map BuiltinType.classId)
  right : ∀ t : BuiltinType, ∃ table, g.table? t.classId = some table ∧ g.Agrees t.classId table

theorem Holds.equipped {g : ClassGraph} {id : ContextId} {defines : BuiltinType → List Slot}
    (p : g.Holds BuiltinType.all.reverse) (q : ∀ t, g.Stocked id t (defines t)) :
    g.Equipped id defines :=
  ⟨q, fun t => p.orders t (List.mem_reverse.mpr t.mem_all), fun t => p.exact _ (q t).isManaged⟩

namespace Equipped

variable {g h : ClassGraph} {id : ContextId} {defines : BuiltinType → List Slot}

theorem mro (q : g.Equipped id defines) (t : BuiltinType) :
    g.mro t.classId = t.ancestry.map BuiltinType.classId := by
  rw [mro_eq, q.order, Option.getD_some]

theorem resolve (q : g.Equipped id defines) (t : BuiltinType) (s : Slot) :
    g.resolve t.classId s =
      (t.definer? defines s).map fun u => .builtin ((Native.mk u s).ownedBy id) := by
  rw [resolve_eq, q.mro, BuiltinType.definer?]
  induction t.ancestry with
  | nil => rfl
  | cons u rest ih =>
    rw [List.map_cons, List.findSome?_cons, (q.stocked u).ownMember, List.find?_cons]
    by_cases hu : s ∈ defines u
    · simp [hu]
    · simpa [hu] using ih

theorem definer_lookup (q : g.Equipped id defines) (t : BuiltinType) (s : Slot) :
    ((g.lookup t.classId s.name).bind fun f => BuiltinType.ofClassId? f.definer) =
      t.definer? defines s := by
  have hfrom : ∀ (ts : List BuiltinType) (i : ℕ),
      ((g.findFrom s.name i (ts.map BuiltinType.classId)).bind fun f =>
        BuiltinType.ofClassId? f.definer) = ts.find? (s ∈ defines ·) := by
    intro ts
    induction ts with
    | nil => intro i; rfl
    | cons u rest ih =>
      intro i
      rw [List.map_cons, findFrom, (q.stocked u).ownMember, List.find?_cons]
      by_cases hu : s ∈ defines u
      · simp [hu, BuiltinType.ofClassId_classId]
      · simpa [hu] using ih (i + 1)
  rw [lookup, q.mro]
  exact hfrom t.ancestry 0

theorem slotValue (q : g.Equipped id defines) (t : BuiltinType) (s : Slot) :
    g.slotValue t.classId s = g.resolve t.classId s := by
  obtain ⟨table, ht, hagrees⟩ := q.right t
  obtain ⟨c, hc, hbind⟩ := Option.bind_eq_some_iff.mp ht
  obtain ⟨cell, hcell, htable⟩ := Option.bind_eq_some_iff.mp hbind
  have hentry : cell.entry s = some (table.get s) := by
    rw [TableCell.entry, htable, Option.map_some]
  simp only [ClassGraph.slotValue, hc, Option.bind_some, hcell, hentry, hagrees s]

/-- Only the built-in classes matter. -/
theorem congr (q : g.Equipped id defines)
    (hsame : ∀ t : BuiltinType, h.class? t.classId = g.class? t.classId) :
    h.Equipped id defines := by
  have q' : ∀ t, h.Stocked id t (defines t) := fun t => (q.stocked t).congr (hsame t)
  have horder : ∀ t : BuiltinType,
      h.mro? t.classId = some (t.ancestry.map BuiltinType.classId) := by
    intro t
    rw [← q.order t]
    unfold mro?
    rw [hsame]
  refine ⟨q', horder, fun t => ?_⟩
  obtain ⟨table, ht, hagrees⟩ := q.right t
  refine ⟨table, ?_, fun s => ?_⟩
  · rw [← ht]
    unfold table?
    rw [hsame]
  · rw [hagrees s]
    symm
    apply resolve_congr
    · rw [mro_eq, mro_eq, horder, q.order]
    · intro a ha
      rw [q.mro] at ha
      obtain ⟨u, -, rfl⟩ := List.mem_map.mp ha
      rw [(q' u).ownMember, (q.stocked u).ownMember]

/-- No class that can be changed is a built-in class or stands above one. -/
theorem apart (q : g.Equipped id defines) (hs : g.Sound) (t : BuiltinType) {d : ClassId}
    (hd : g.Mutable d) : t.classId ≠ d ∧ t.classId ∉ g.descendants d := by
  refine ⟨(hs.ne_of_mutable hd t).symm, fun hmem => ?_⟩
  have hreg : g.contains d = true := by
    obtain ⟨c, hc, -⟩ := hd
    exact contains_of_class? hc
  obtain ⟨-, hchain⟩ := mem_descendants.mp hmem
  have habove := hs.wellFormed.mem_mro_of_derives hreg ((hs.wellFormed.chain_iff hreg).mp hchain)
  rw [q.mro] at habove
  obtain ⟨u, -, hu⟩ := List.mem_map.mp habove
  exact hs.ne_of_mutable hd u hu.symm

end Equipped

/-- A change leaves alone what is neither changed nor below what can be changed. -/
theorem Sound.class?_kept {g h : ClassGraph} {mayExtend : Bool} {e : ClassEdit} (hs : g.Sound)
    (hstep : GraphStep mayExtend g e h) {d : ClassId} (hreg : g.contains d = true)
    (hapart : ∀ id, g.Mutable id → d ≠ id ∧ d ∉ g.descendants id) :
    h.class? d = g.class? d := by
  have hne : d ≠ g.nextId := Nat.ne_of_lt (hs.wellFormed.lt_nextId hreg)
  cases hstep with
  | refused hclasses =>
    unfold class?
    rw [hclasses]
  | defined _ _ _ hothers => exact hothers d hne
  | definedForeign _ _ _ hothers => exact hothers d hne
  | written he hc hmut hw =>
    obtain ⟨hid, hdesc⟩ := hapart _ ⟨_, hc, hmut⟩
    exact (confined_written hs.published hc hw).others d hid hdesc
  | rebased hm hok =>
    obtain ⟨hid, hdesc⟩ := hapart _ hm
    exact (confined_rebased hs hm hok).others d hid hdesc
  | removed hm => exact class?_remove_of_ne g (hapart _ hm).1

/-- No change reaches the built-in classes. -/
theorem Equipped.step {g h : ClassGraph} {id : ContextId} {defines : BuiltinType → List Slot}
    {mayExtend : Bool} {e : ClassEdit} (q : g.Equipped id defines) (hs : g.Sound)
    (hstep : GraphStep mayExtend g e h) : h.Equipped id defines := by
  apply q.congr
  intro t
  exact hs.class?_kept hstep (q.stocked t).isManaged.contains fun d hd => q.apart hs t hd

end ClassGraph

end MethodCache
