import Mathlib.Data.List.Basic
import MethodCache.Table.Update

/-!
What looking a member up depends on. A lookup takes the first class of the linearization that
defines the name, so it sees linearizations and members and nothing else. Two graphs that differ
in their published tables only look every member up alike.
-/
namespace MethodCache

def ClassObject.untabled (c : ClassObject) : ClassObject :=
  match c.kind with
  | .managed _ => { c with kind := .managed {} }
  | .foreign _ => c

namespace ClassObject

theorem untabled_bases (c : ClassObject) : c.untabled.bases = c.bases := by
  unfold untabled
  split <;> rfl

theorem untabled_mro (c : ClassObject) : c.untabled.mro = c.mro := by
  unfold untabled
  split <;> rfl

theorem untabled_members (c : ClassObject) : c.untabled.members = c.members := by
  unfold untabled
  split <;> rfl

theorem untabled_flags (c : ClassObject) : c.untabled.flags = c.flags := by
  unfold untabled
  split <;> rfl

theorem untabled_builtin? (c : ClassObject) : c.untabled.builtin? = c.builtin? := by
  unfold untabled
  split <;> rfl

theorem untabled_isForeign (c : ClassObject) : c.untabled.isForeign = c.isForeign := by
  cases hk : c.kind with
  | managed cell => simp [untabled, isForeign, hk]
  | foreign ro => simp [untabled, isForeign, hk]

theorem untabled_publish (c : ClassObject) (t : SlotTable) :
    (c.publish t).untabled = c.untabled := by
  unfold publish
  split
  · next cell h => simp [untabled, h]
  · rfl

theorem untabled_setCell (c : ClassObject) (cell cell' : TableCell) (h : c.kind = .managed cell) :
    ({ c with kind := .managed cell' } : ClassObject).untabled = c.untabled := by
  simp [untabled, h]

theorem isForeign_eq_false_iff {c : ClassObject} :
    c.isForeign = false ↔ ∃ cell, c.kind = .managed cell := by
  unfold isForeign
  cases c.kind <;> simp

theorem isForeign_eq_false_of_table? {c : ClassObject} {t : SlotTable} (h : c.table? = some t) :
    c.isForeign = false := by
  unfold table? cell? at h
  unfold isForeign
  cases hk : c.kind with
  | managed cell => rfl
  | foreign ro => simp [hk] at h

end ClassObject

namespace ClassGraph

theorem class?_modify (g : ClassGraph) (id d : ClassId) (f : ClassObject → ClassObject) :
    (g.modify id f).class? d = if id = d then (g.class? d).map f else g.class? d :=
  IndexMap.get?_modify g.classes id d f

theorem class?_modify_of_ne (g : ClassGraph) {id d : ClassId} (h : id ≠ d)
    (f : ClassObject → ClassObject) : (g.modify id f).class? d = g.class? d := by
  rw [class?_modify, if_neg h]

theorem modify_of_fixed {g : ClassGraph} {id : ClassId} {f : ClassObject → ClassObject}
    (h : ∀ c, g.class? id = some c → f c = c) : g.modify id f = g := by
  have hsame : g.classes.modify id f = g.classes := IndexMap.modify_of_fixed h
  rw [modify, hsame]

theorem modify_comm (g : ClassGraph) {b d : ClassId} (hne : b ≠ d)
    (f f' : ClassObject → ClassObject) :
    (g.modify b f).modify d f' = (g.modify d f').modify b f := by
  simp only [modify, g.classes.modify_comm hne f f']

theorem mro_eq (g : ClassGraph) (id : ClassId) : g.mro id = (g.mro? id).getD [] := rfl

theorem mro_of_class? {g : ClassGraph} {id : ClassId} {c : ClassObject}
    (h : g.class? id = some c) : g.mro id = c.mro := by
  simp [mro, h]

theorem mro?_of_class? {g : ClassGraph} {id : ClassId} {c : ClassObject}
    (h : g.class? id = some c) : g.mro? id = some c.mro := by
  simp [mro?, h]

theorem contains_iff {g : ClassGraph} {id : ClassId} :
    g.contains id = true ↔ ∃ c, g.class? id = some c :=
  Option.isSome_iff_exists

theorem contains_of_class? {g : ClassGraph} {id : ClassId} {c : ClassObject}
    (h : g.class? id = some c) : g.contains id = true :=
  contains_iff.mpr ⟨c, h⟩

theorem ownMember_of_class? {g : ClassGraph} {id : ClassId} {c : ClassObject}
    (h : g.class? id = some c) (name : String) : g.ownMember id name = c.members.get? name := by
  simp [ownMember, h]

theorem ownMember_eq (g : ClassGraph) (id : ClassId) (name : String) :
    g.ownMember id name = (((g.class? id).map ClassObject.members).bind (·.get? name)) := by
  unfold ownMember
  cases g.class? id <;> rfl

/-- A search along a list answers with the first class that defines the name. -/
theorem findFrom_value (g : ClassGraph) (name : String) (i : ℕ) (order : List ClassId) :
    (g.findFrom name i order).map Found.value =
      order.findSome? fun a => g.ownMember a name := by
  induction order generalizing i with
  | nil => rfl
  | cons a rest ih =>
    rw [findFrom, List.findSome?_cons]
    cases g.ownMember a name with
    | none => exact ih (i + 1)
    | some v => rfl

/-- What a slot resolves to: the value in the first class of the linearization that has one. -/
theorem resolve_eq (g : ClassGraph) (id : ClassId) (s : Slot) :
    g.resolve id s = (g.mro id).findSome? fun a => g.ownMember a s.name :=
  findFrom_value g s.name 0 (g.mro id)

theorem findSome?_congr {order : List ClassId} {f h : ClassId → Option Value}
    (heq : ∀ a ∈ order, f a = h a) : order.findSome? f = order.findSome? h := by
  induction order with
  | nil => rfl
  | cons a rest ih =>
    rw [List.findSome?_cons, List.findSome?_cons, heq a List.mem_cons_self,
      ih fun b hb => heq b (List.mem_cons_of_mem a hb)]

theorem findFrom_congr {g h : ClassGraph} {name : String} {order : List ClassId} (i : ℕ)
    (hown : ∀ a ∈ order, h.ownMember a name = g.ownMember a name) :
    h.findFrom name i order = g.findFrom name i order := by
  induction order generalizing i with
  | nil => rfl
  | cons a rest ih =>
    rw [findFrom, findFrom, hown a List.mem_cons_self,
      ih (i + 1) fun b hb => hown b (List.mem_cons_of_mem a hb)]

theorem lookup_congr {g h : ClassGraph} {id : ClassId} {name : String}
    (hmro : h.mro id = g.mro id)
    (hown : ∀ a ∈ g.mro id, h.ownMember a name = g.ownMember a name) :
    h.lookup id name = g.lookup id name := by
  unfold lookup
  rw [hmro]
  exact findFrom_congr 0 hown

theorem resolve_congr {g h : ClassGraph} {id : ClassId} {s : Slot} (hmro : h.mro id = g.mro id)
    (hown : ∀ a ∈ g.mro id, h.ownMember a s.name = g.ownMember a s.name) :
    h.resolve id s = g.resolve id s := by
  unfold resolve
  rw [lookup_congr hmro hown]

/-- Whatever does not read a part of the classes is the same in graphs that differ in that part
only. -/
theorem map_class?_of_strip {α : Type} {g h : ClassGraph} {id : ClassId}
    {strip : ClassObject → ClassObject}
    (hsame : (h.class? id).map strip = (g.class? id).map strip) (f : ClassObject → α)
    (hf : ∀ c, f (strip c) = f c) : (h.class? id).map f = (g.class? id).map f := by
  have hmap := congrArg (Option.map f) hsame
  rw [Option.map_map, Option.map_map] at hmap
  have hcomp : f ∘ strip = f := funext hf
  rwa [hcomp] at hmap

/-- Two graphs with the same classes and links, tables apart. -/
structure Retabled (g h : ClassGraph) : Prop where
  classes : ∀ id, (h.class? id).map ClassObject.untabled =
    (g.class? id).map ClassObject.untabled
  links : h.links = g.links
  nextId : h.nextId = g.nextId
  constructing : h.constructing = g.constructing
  tracks : h.tracksConstruction = g.tracksConstruction

namespace Retabled

variable {g h k : ClassGraph}

theorem refl (g : ClassGraph) : g.Retabled g := ⟨fun _ => rfl, rfl, rfl, rfl, rfl⟩

theorem symm (r : g.Retabled h) : h.Retabled g :=
  ⟨fun id => (r.classes id).symm, r.links.symm, r.nextId.symm, r.constructing.symm,
    r.tracks.symm⟩

theorem trans (r : g.Retabled h) (r' : h.Retabled k) : g.Retabled k :=
  ⟨fun id => (r'.classes id).trans (r.classes id), r'.links.trans r.links,
    r'.nextId.trans r.nextId, r'.constructing.trans r.constructing, r'.tracks.trans r.tracks⟩

theorem modify (g : ClassGraph) (id : ClassId) (f : ClassObject → ClassObject)
    (hf : ∀ c, g.class? id = some c → (f c).untabled = c.untabled) :
    g.Retabled (g.modify id f) := by
  refine ⟨?_, rfl, rfl, rfl, rfl⟩
  intro d
  rw [class?_modify]
  split
  · next hd =>
    subst hd
    cases hc : g.class? id with
    | none => rfl
    | some c =>
      simp only [Option.map_some]
      rw [hf c hc]
  · rfl

theorem exists_class (r : g.Retabled h) {id : ClassId} {c : ClassObject}
    (hc : g.class? id = some c) : ∃ c', h.class? id = some c' ∧ c'.untabled = c.untabled := by
  have hmap := r.classes id
  rw [hc, Option.map_some] at hmap
  obtain ⟨c', hc', heq⟩ := Option.map_eq_some_iff.mp hmap
  exact ⟨c', hc', heq⟩

theorem map_class? {α : Type} (r : g.Retabled h) (f : ClassObject → α)
    (hf : ∀ c, f c.untabled = f c) (id : ClassId) :
    (h.class? id).map f = (g.class? id).map f :=
  map_class?_of_strip (r.classes id) f hf

theorem mro? (r : g.Retabled h) (id : ClassId) : h.mro? id = g.mro? id :=
  r.map_class? _ ClassObject.untabled_mro id

theorem mro (r : g.Retabled h) (id : ClassId) : h.mro id = g.mro id := by
  rw [mro_eq, mro_eq, r.mro?]

theorem contains (r : g.Retabled h) (id : ClassId) : h.contains id = g.contains id := by
  have hmap := congrArg Option.isSome (r.classes id)
  rwa [Option.isSome_map, Option.isSome_map] at hmap

theorem ownMember (r : g.Retabled h) (id : ClassId) (name : String) :
    h.ownMember id name = g.ownMember id name := by
  rw [ownMember_eq, ownMember_eq, r.map_class? _ ClassObject.untabled_members]

theorem lookup (r : g.Retabled h) (id : ClassId) (name : String) :
    h.lookup id name = g.lookup id name :=
  lookup_congr (r.mro id) fun a _ => r.ownMember a name

theorem resolve (r : g.Retabled h) (id : ClassId) (s : Slot) : h.resolve id s = g.resolve id s :=
  resolve_congr (r.mro id) fun a _ => r.ownMember a s.name

theorem subclasses (r : g.Retabled h) (id : ClassId) : h.subclasses id = g.subclasses id := by
  unfold ClassGraph.subclasses
  rw [r.links]

theorem linked (r : g.Retabled h) : h.linked = g.linked := by
  unfold ClassGraph.linked
  rw [r.links]

end Retabled

end ClassGraph

end MethodCache
