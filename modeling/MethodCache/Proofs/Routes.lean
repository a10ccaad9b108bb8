import MethodCache.Proofs.Removal

/-!
The two routes to a table. One extends the table of the base by the members of the class, the
other lays the members of all ancestors over the table of the root, while a search goes the other
way along the linearization and stops at the first class that defines the name. Where the tables
that the routes start from are right, all three find the same, in whatever order the members of
each class are listed.
-/
namespace MethodCache

theorem Members.find_eq_some_iff {name : String} {v : Value} {es : List (String × Value)}
    (hnd : (es.map (·.1)).Nodup) : Members.find name es = some v ↔ (name, v) ∈ es := by
  induction es with
  | nil => simp [find]
  | cons e rest ih =>
    rw [List.map_cons, List.nodup_cons] at hnd
    rw [find, List.mem_cons]
    split
    · next hname =>
      have hnot : (name, v) ∉ rest := by
        intro hmem
        exact hnd.1 (hname ▸ List.mem_map_of_mem hmem)
      simp [Prod.ext_iff, hname, hnot, eq_comm]
    · next hname =>
      rw [ih hnd.2]
      simp [Prod.ext_iff, Ne.symm hname]

theorem Members.get?_of_perm {m m' : Members} (h : m'.entries.Perm m.entries) (name : String) :
    m'.get? name = m.get? name := by
  apply Option.ext
  intro v
  rw [get?, get?, find_eq_some_iff m'.nodup, find_eq_some_iff m.nodup]
  exact h.mem_iff

theorem Slot.exists_ordinal (i : Fin count) : ∃ s : Slot, s.ordinal = i := by
  have hi : i.val < all.length := i.isLt
  refine ⟨all[i.val], Fin.ext ?_⟩
  have hsame := getElem_ordinal all[i.val]
  rw [← List.getElem?_eq_getElem hi] at hsame
  exact ((List.getElem?_inj hi all_nodup).mp hsame.symm).symm

theorem SlotArray.ext_of_get {α : Type} {t u : SlotArray α} (h : ∀ s, t.get s = u.get s) :
    t = u := by
  obtain ⟨ts⟩ := t
  obtain ⟨us⟩ := u
  congr 1
  apply Vector.ext
  intro i hi
  obtain ⟨s, hs⟩ := Slot.exists_ordinal ⟨i, hi⟩
  have hentry := h s
  simpa only [get, hs, Fin.getElem_fin] using hentry

def ClassObject.bare (c : ClassObject) : ClassObject := { c with members := .empty }

namespace ClassGraph

/-- Two graphs with the same classes, except that the members of a class may be listed in another
order. -/
structure Reordered (g h : ClassGraph) : Prop where
  classes : ∀ d, (h.class? d).map ClassObject.bare = (g.class? d).map ClassObject.bare
  members : ∀ d c c', g.class? d = some c → h.class? d = some c' →
    c'.members.entries.Perm c.members.entries

namespace Reordered

variable {g h : ClassGraph}

theorem refl (g : ClassGraph) : g.Reordered g := by
  refine ⟨fun _ => rfl, ?_⟩
  intro d c c' hc hc'
  obtain rfl : c = c' := Option.some.inj (hc.symm.trans hc')
  exact List.Perm.refl _

theorem map_class? {α : Type} (r : g.Reordered h) (f : ClassObject → α)
    (hf : ∀ c, f c.bare = f c) (d : ClassId) : (h.class? d).map f = (g.class? d).map f :=
  map_class?_of_strip (r.classes d) f hf

theorem mro (r : g.Reordered h) (d : ClassId) : h.mro d = g.mro d := by
  unfold ClassGraph.mro
  rw [r.map_class? ClassObject.mro fun _ => rfl]

theorem table? (r : g.Reordered h) (d : ClassId) : h.table? d = g.table? d := by
  have hmap := congrArg (·.bind id) (r.map_class? ClassObject.table? (fun _ => rfl) d)
  simp only [Option.bind_map] at hmap
  exact hmap

theorem ownMember (r : g.Reordered h) (a : ClassId) (name : String) :
    h.ownMember a name = g.ownMember a name := by
  have hsome := congrArg Option.isSome (r.classes a)
  rw [Option.isSome_map, Option.isSome_map] at hsome
  unfold ClassGraph.ownMember
  cases hc : g.class? a with
  | none =>
    rw [hc, Option.isSome_none, Option.isSome_eq_false_iff, Option.isNone_iff_eq_none] at hsome
    rw [hsome]
  | some c =>
    rw [hc, Option.isSome_some] at hsome
    obtain ⟨c', hc'⟩ := Option.isSome_iff_exists.mp hsome
    rw [hc']
    exact Members.get?_of_perm (r.members a c c' hc hc') name

theorem resolve (r : g.Reordered h) (d : ClassId) (s : Slot) : h.resolve d s = g.resolve d s :=
  resolve_congr (r.mro d) fun a _ => r.ownMember a s.name

end Reordered

/-- Both routes to the table of a class lead to what looking each slot up finds, however the
members of the classes are listed, provided that the root and a single base do not have wrong
tables. -/
theorem build_routes_agree {g : ClassGraph} {id root : ClassId}
    (hhead : (g.mro id).head? = some id) (hlast : (g.mro id).getLast? = some root)
    (hroot : g.mro root = [root])
    (htable : root ≠ id → ∀ t, g.table? root = some t → g.Agrees root t)
    (hbase : ∀ c b t, g.class? id = some c → c.bases = [b] → g.table? b = some t → g.Agrees b t)
    {h : ClassGraph} (r : g.Reordered h) :
    (h.build id true).1 = (h.build id false).1 ∧
    ∀ mayExtend (s : Slot), (h.build id mayExtend).1.get s = g.resolve id s := by
  have hagrees : ∀ d t, g.Agrees d t → h.Agrees d t := by
    intro d t ht s
    rw [ht s, r.resolve]
  have hbuild : ∀ mayExtend, h.Agrees id (h.build id mayExtend).1 := by
    intro mayExtend
    have hhead' : (h.mro id).head? = some id := by rw [r.mro, hhead]
    have hlast' : (h.mro id).getLast? = some root := by rw [r.mro, hlast]
    have hroot' : h.mro root = [root] := by rw [r.mro, hroot]
    apply agrees_build mayExtend hhead' hlast' hroot'
    · intro hne t ht
      rw [r.table?] at ht
      exact hagrees root t (htable hne t ht)
    · intro _ c' b t hc' hb ht
      have hbases := r.map_class? ClassObject.bases (fun _ => rfl) id
      rw [hc', Option.map_some, hb] at hbases
      obtain ⟨c, hc, hb⟩ := Option.map_eq_some_iff.mp hbases.symm
      rw [r.table?] at ht
      exact hagrees b t (hbase c b t hc hb ht)
  refine ⟨SlotArray.ext_of_get fun s => (hbuild true s).trans (hbuild false s).symm, ?_⟩
  intro mayExtend s
  rw [hbuild mayExtend s, r.resolve]

end ClassGraph

namespace Host

open ClassGraph

/-- A class outside of the object system, and two classes below it that each add a member of their
own. -/
def layeredEdits : List ClassEdit :=
  let f : Value := .function ⟨1, "f"⟩
  let g : Value := .function ⟨2, "g"⟩
  [.defineForeign "Outside" [] [("__len__", f), ("__iter__", f)] false,
   .define "Above" [64] [("__call__", f)],
   .define "Below" [65] [("__len__", g)]]

def layered : ClassGraph := ((({} : Host).start .unchecked).1.run layeredEdits).graph

/-- The class below has its table by one route or the other, and it is the same table. -/
theorem layered_routes_agree :
    (layered.build 66 true).2 = .extension ∧ (layered.build 66 false).2 = .ancestors ∧
    (layered.build 66 true).1 = (layered.build 66 false).1 := by
  have hright : layered.TablesRight :=
    tablesRight_of_no_write {} .unchecked (by decide) (by decide) (by decide)
  have hrun : layered.mro 66 = [66, 65, 64, 0] ∧ layered.mro 0 = [0] ∧
      (layered.build 66 true).2 = .extension ∧ (layered.build 66 false).2 = .ancestors := by
    decide +kernel
  obtain ⟨hmro, hroot, htrue, hfalse⟩ := hrun
  have hhead : (layered.mro 66).head? = some 66 := by
    rw [hmro]
    rfl
  have hlast : (layered.mro 66).getLast? = some 0 := by
    rw [hmro]
    rfl
  obtain ⟨hsame, -⟩ := build_routes_agree hhead hlast hroot (fun _ t ht => hright 0 t ht)
    (fun _ b t _ _ ht => hright b t ht) (Reordered.refl layered)
  exact ⟨htrue, hfalse, hsame⟩

end Host

end MethodCache
