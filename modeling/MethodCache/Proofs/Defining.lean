import MethodCache.Context.Edit
import MethodCache.Proofs.Rebuilding

/-!
Defining classes. A class comes in under an id that no class has heard of, so no lookup of another
class changes, and the table it publishes is right because the tables it is made from are. Flags
and the record of construction are nothing that lookups or tables depend on.
-/
namespace MethodCache

def ClassObject.unflagged (c : ClassObject) : ClassObject := { c with flags := {} }

namespace ClassGraph

/-- Two graphs with the same classes and links, flags and ids to come apart. -/
structure Reflagged (g h : ClassGraph) : Prop where
  classes : ∀ d, (h.class? d).map ClassObject.unflagged =
    (g.class? d).map ClassObject.unflagged
  links : h.links = g.links

namespace Reflagged

variable {g h k : ClassGraph}

theorem trans (r : g.Reflagged h) (r' : h.Reflagged k) : g.Reflagged k :=
  ⟨fun d => (r'.classes d).trans (r.classes d), r'.links.trans r.links⟩

theorem of_classes (hclasses : h.classes = g.classes) (hlinks : h.links = g.links) :
    g.Reflagged h := by
  refine ⟨?_, hlinks⟩
  intro d
  unfold class?
  rw [hclasses]

theorem addFlags (g : ClassGraph) (id : ClassId) (f : ClassFlags) :
    g.Reflagged (g.modify id (·.addFlags f)) := by
  refine ⟨?_, rfl⟩
  intro d
  rw [class?_modify]
  split
  · rw [Option.map_map]
    rfl
  · rfl

theorem map_class? {α : Type} (r : g.Reflagged h) (f : ClassObject → α)
    (hf : ∀ c, f c.unflagged = f c) (d : ClassId) :
    (h.class? d).map f = (g.class? d).map f :=
  map_class?_of_strip (r.classes d) f hf

theorem mro? (r : g.Reflagged h) (d : ClassId) : h.mro? d = g.mro? d :=
  r.map_class? ClassObject.mro (fun _ => rfl) d

theorem contains (r : g.Reflagged h) (d : ClassId) : h.contains d = g.contains d := by
  rw [← mro?_isSome, ← mro?_isSome, r.mro?]

theorem resolve (r : g.Reflagged h) (d : ClassId) (s : Slot) : h.resolve d s = g.resolve d s := by
  apply resolve_congr
  · rw [mro_eq, mro_eq, r.mro?]
  · intro a _
    rw [ownMember_eq, ownMember_eq, r.map_class? ClassObject.members fun _ => rfl]

theorem table? (r : g.Reflagged h) (d : ClassId) : h.table? d = g.table? d := by
  have hmap := congrArg (·.bind id) (r.map_class? ClassObject.table? (fun _ => rfl) d)
  simp only [Option.bind_map] at hmap
  exact hmap

theorem managed_iff (r : g.Reflagged h) (d : ClassId) : h.Managed d ↔ g.Managed d :=
  managed_congr (r.map_class? ClassObject.isForeign (fun _ => rfl) d)

theorem published (r : g.Reflagged h) (hpub : g.Published) : h.Published := by
  intro d hd
  rw [r.table?]
  exact hpub d ((r.managed_iff d).mp hd)

theorem rootRight (r : g.Reflagged h) (hroot : g.RootRight) : h.RootRight := by
  intro t ht s
  rw [r.table?] at ht
  rw [hroot t ht s, r.resolve]

theorem exact (r : g.Reflagged h) (hexact : g.Exact) : h.Exact := by
  intro d hd
  obtain ⟨t, ht, hagrees⟩ := hexact d ((r.managed_iff d).mp hd)
  exact ⟨t, (r.table? d).trans ht, fun s => (hagrees s).trans (r.resolve d s).symm⟩

theorem closed (r : g.Reflagged h) (hcl : g.Closed) : h.Closed := by
  intro d c hc b hb
  have hmap := r.map_class? ClassObject.bases (fun _ => rfl) d
  rw [hc, Option.map_some] at hmap
  obtain ⟨c', hc', heq⟩ := Option.map_eq_some_iff.mp hmap.symm
  rw [r.contains]
  exact hcl d c' hc' b (heq ▸ hb)

theorem wellFormed (r : g.Reflagged h) (hnext : g.nextId ≤ h.nextId) (hwf : g.WellFormed) :
    h.WellFormed := by
  have hahead : ({ g with idCounter := h.idCounter } : ClassGraph).WellFormed :=
    hwf.of_nextId_le rfl rfl hnext
  have hsame : ({ g with idCounter := h.idCounter } : ClassGraph).SameOrders h :=
    ⟨r.map_class? (fun c => (c.bases, c.mro)) fun _ => rfl, r.links, rfl⟩
  exact hsame.wellFormed hahead

end Reflagged

/-! A class comes in. -/

/-- While no base is missing, linearizations hold registered classes only. -/
theorem contains_of_mem_mro {g : ClassGraph} (hwf : g.WellFormed) (hcl : g.Closed)
    {d a : ClassId} (ha : a ∈ g.mro d) : g.contains a = true := by
  induction hn : (g.mro d).length using Nat.strongRecOn generalizing d a with
  | ind n ih =>
    cases hc : g.class? d with
    | none => simp [mro, hc] at ha
    | some c =>
      have hlin := (hwf.placed d c hc).linearized fun b hb =>
        (mro?_isSome g b).trans (hcl d c hc b hb)
      rw [mro_of_class? hc] at ha
      refine forall_mem_of_linearize (P := fun x => g.contains x = true)
        (contains_of_class? hc) hwf.contains_root (fun b _ o ho => hwf.mem_of_mro? ho) ?_ hlin a ha
      intro b hb o ho x hx
      have hlink : g.Link b d :=
        (hwf.links b d).mpr ⟨hcl d c hc b hb, c, hc, mem_effectiveBases_of_mem hb⟩
      apply ih _ (hn ▸ hwf.mro_length_lt hlink) _ rfl
      rwa [mro_eq, ho, Option.getD_some]

section Insert

variable {g : ClassGraph} {id : ClassId} {c : ClassObject}

theorem table?_insert (g : ClassGraph) (id d : ClassId) (c : ClassObject) :
    (g.insert id c).table? d = if id = d then c.table? else g.table? d := by
  unfold table?
  rw [class?_insert]
  split <;> rfl

/-- Lookups do not see a class that stands in no linearization. -/
theorem resolve_insert {d : ClassId} (hne : d ≠ id) (hunseen : id ∉ g.mro d) (s : Slot) :
    (g.insert id c).resolve d s = g.resolve d s := by
  apply resolve_congr
  · rw [mro_eq, mro_eq, mro?_insert, if_neg (Ne.symm hne)]
  · intro a ha
    have hna : id ≠ a := fun h => hunseen (h ▸ ha)
    unfold ownMember
    rw [class?_insert, if_neg hna]

theorem managed_insert_of_ne {d : ClassId} (hne : d ≠ id) :
    (g.insert id c).Managed d ↔ g.Managed d := by
  unfold Managed
  rw [class?_insert_of_ne g hne]

theorem agrees_insert (hexact : g.Exact) (hunseen : ∀ d, id ∉ g.mro d) {d : ClassId}
    (hne : d ≠ id) (hd : (g.insert id c).Managed d) :
    ∃ t, (g.insert id c).table? d = some t ∧ (g.insert id c).Agrees d t := by
  obtain ⟨t, ht, hagrees⟩ := hexact d ((managed_insert_of_ne hne).mp hd)
  refine ⟨t, ?_, ?_⟩
  · rw [table?_insert, if_neg (Ne.symm hne), ht]
  · intro s
    rw [hagrees s, resolve_insert hne (hunseen d)]

theorem exact_insert_foreign (hexact : g.Exact) (hunseen : ∀ d, id ∉ g.mro d)
    (hf : c.isForeign = true) : (g.insert id c).Exact := by
  intro d hd
  apply agrees_insert hexact hunseen _ hd
  rintro rfl
  obtain ⟨e, he, hf'⟩ := hd
  rw [class?_insert_self] at he
  obtain rfl := Option.some.inj he
  rw [hf] at hf'
  simp at hf'

theorem install_of_managed {id : ClassId} (h : g.Managed id) (mayExtend : Bool) :
    g.install id mayExtend = g.modify id (·.publish (g.build id mayExtend).1) := by
  obtain ⟨c, hc, hf⟩ := h
  obtain ⟨cell, hk⟩ := ClassObject.isForeign_eq_false_iff.mp hf
  have hcell : c.cell? = some cell := by
    rw [ClassObject.cell?, hk]
  unfold install
  rw [install?_eq_some.mpr ⟨c, cell, hc, hcell, rfl, rfl⟩]
  rfl

theorem exact_install_insert (hwf : (g.insert id c).WellFormed) (hexact : g.Exact)
    (hunseen : ∀ d, id ∉ g.mro d) (hnew : c.isForeign = false) (hempty : c.table? = none)
    (mayExtend : Bool) : ((g.insert id c).install id mayExtend).Exact := by
  have hm : (g.insert id c).Managed id := ⟨c, class?_insert_self g id c, hnew⟩
  have hothers : (g.insert id c).TablesRight := by
    intro d t ht
    have hne : d ≠ id := by
      rintro rfl
      rw [table?_insert, if_pos rfl, hempty] at ht
      simp at ht
    obtain ⟨u, hu, hagrees⟩ :=
      agrees_insert (c := c) hexact hunseen hne (managed_of_table? ht)
    obtain rfl : t = u := Option.some.inj (ht.symm.trans hu)
    exact hagrees
  have hagrees := hwf.agrees_build (hothers _) hm.contains mayExtend
    fun _ _ b u _ _ hu => hothers b u hu
  have htable := table?_publish hm ((g.insert id c).build id mayExtend).1
  have r := retabled_publish (g.insert id c) id ((g.insert id c).build id mayExtend).1
  rw [install_of_managed hm]
  intro d hd
  rw [r.managed_iff] at hd
  rw [htable]
  by_cases hdid : id = d
  · subst hdid
    exact ⟨_, if_pos rfl, (r.agrees_iff id _).mpr hagrees⟩
  · obtain ⟨t, ht, ha⟩ := agrees_insert hexact hunseen (Ne.symm hdid) hd
    exact ⟨t, by rw [if_neg hdid, ht], (r.agrees_iff d t).mpr ha⟩

end Insert

/-! The record of construction. -/

theorem beginConstruction_eq (g : ClassGraph) (id : ClassId) :
    ∃ l, g.beginConstruction id = { g with constructing := l } := by
  unfold beginConstruction
  split
  · exact ⟨_, rfl⟩
  · exact ⟨g.constructing, rfl⟩

theorem finishConstruction_eq (g : ClassGraph) (id : ClassId) :
    ∃ l, g.finishConstruction id = { g with constructing := l } := by
  unfold finishConstruction
  split
  · exact ⟨_, rfl⟩
  · exact ⟨g.constructing, rfl⟩

end ClassGraph

namespace Context

open ClassGraph

structure Registered (mayExtend : Bool) (g : ClassGraph) (id : ClassId) (c : ClassObject)
    (h : ClassGraph) : Prop where
  reflagged : ((g.insert id c).install id mayExtend).Reflagged h
  nextId : h.nextId = g.nextId
  others : ∀ d, d ≠ id → h.class? d = g.class? d

theorem registered (c : Context) (id : ClassId) (cls : ClassObject) (hm : cls.isForeign = false) :
    Registered c.config.extendsBase c.graph id cls (c.register id cls).graph := by
  obtain ⟨l, hbegin⟩ := c.graph.beginConstruction_eq id
  have hself : (c.graph.insert id cls).Managed id := ⟨cls, class?_insert_self _ id cls, hm⟩
  have hself' : (({ c.graph with constructing := l } : ClassGraph).insert id cls).Managed id :=
    hself
  obtain ⟨l', hfinish⟩ := ((((({ c.graph with constructing := l } : ClassGraph).insert id
    cls).install id c.config.extendsBase).modify id
      (·.addFlags { initialized := true })).finishConstruction_eq id)
  have hgraph : (c.register id cls).graph = { (((({ c.graph with
      constructing := l } : ClassGraph).insert id cls).install id
        c.config.extendsBase).modify id (·.addFlags { initialized := true })) with
      constructing := l' } := by
    rw [← hfinish, ← hbegin]
    rfl
  rw [hgraph, install_of_managed hself']
  refine ⟨?_, rfl, ?_⟩
  · rw [install_of_managed hself]
    exact (Reflagged.addFlags _ id _).trans (.of_classes rfl rfl)
  · intro d hd
    have hne := Ne.symm hd
    rw [show ∀ k : ClassGraph, ({ k with constructing := l' } : ClassGraph).class? d = k.class? d
      from fun _ => rfl, class?_modify_of_ne _ hne, class?_modify_of_ne _ hne, class?_insert,
      if_neg hne]
    rfl

end Context

end MethodCache
