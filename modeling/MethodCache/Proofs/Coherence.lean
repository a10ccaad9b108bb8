import MethodCache.Proofs.Linearize
import MethodCache.Proofs.Links
import MethodCache.Proofs.Lookup

/-!
The invariant of the class graph. Linearizations and links are two records of who derives from
whom, and here it is said how they agree: a link leads from each registered base to the class,
the linearization of a class holds those of its registered bases unchanged, and while all bases
are registered it is the linearization of the bases. Registering and removing classes keep this.
-/
namespace MethodCache.ClassGraph

open Relation

/-- One class derives directly from another, which need not be registered any more. -/
def Derives (g : ClassGraph) (d b : ClassId) : Prop :=
  ∃ c, g.class? d = some c ∧ b ∈ effectiveBases d c.bases

/-- What a registered class shows of its place in the graph. -/
structure Placed (g : ClassGraph) (d : ClassId) (c : ClassObject) : Prop where
  cons : c.mro = d :: c.mro.tail
  nodup : c.mro.Nodup
  last : c.mro.getLast? = some ClassId.root
  bases_nodup : c.bases.Nodup
  bases_mem : ∀ b ∈ effectiveBases d c.bases, b ∈ c.mro.tail
  nested : ∀ b ∈ effectiveBases d c.bases, ∀ o, g.mro? b = some o → o.Sublist c.mro.tail
  linearized : (∀ b ∈ c.bases, (g.mro? b).isSome) → linearize d c.bases g.mro? = .ok c.mro
  known : ∀ a ∈ c.mro, a < g.nextId

/-- Linearizations and links agree on who derives from whom. -/
structure WellFormed (g : ClassGraph) : Prop where
  root : ∃ c, g.class? ClassId.root = some c ∧ c.bases = []
  links : ∀ b d, g.Link b d ↔ g.contains b = true ∧ g.Derives d b
  placed : ∀ d c, g.class? d = some c → g.Placed d c

theorem mem_effectiveBases {id b : ClassId} {bases : List ClassId} :
    b ∈ effectiveBases id bases ↔
      b ∈ bases ∨ (bases = [] ∧ id ≠ ClassId.root ∧ b = ClassId.root) := by
  unfold effectiveBases
  cases bases with
  | nil =>
    by_cases h : id = ClassId.root
    · simp [h]
    · simp [h]
  | cons a rest => simp

theorem mem_effectiveBases_of_mem {id b : ClassId} {bases : List ClassId} (h : b ∈ bases) :
    b ∈ effectiveBases id bases := mem_effectiveBases.mpr (Or.inl h)

theorem mro?_isSome (g : ClassGraph) (id : ClassId) : (g.mro? id).isSome = g.contains id := by
  unfold mro?
  rw [Option.isSome_map]
  rfl

theorem mro?_eq_some {g : ClassGraph} {id : ClassId} {o : List ClassId} :
    g.mro? id = some o ↔ ∃ c, g.class? id = some c ∧ c.mro = o :=
  Option.map_eq_some_iff

theorem Derives.contains {g : ClassGraph} {d b : ClassId} (h : g.Derives d b) :
    g.contains d = true := by
  obtain ⟨c, hc, -⟩ := h
  exact contains_of_class? hc

theorem Derives.mem {g : ClassGraph} {d b : ClassId} {c : ClassObject} (h : g.Derives d b)
    (hc : g.class? d = some c) : b ∈ effectiveBases d c.bases := by
  obtain ⟨c', hc', hb⟩ := h
  obtain rfl : c' = c := Option.some.inj (hc'.symm.trans hc)
  exact hb

theorem Placed.congr {g : ClassGraph} {d : ClassId} {c c' : ClassObject} (p : g.Placed d c)
    (hbases : c'.bases = c.bases) (hmro : c'.mro = c.mro) : g.Placed d c' := by
  refine ⟨?_, ?_, ?_, ?_, ?_, ?_, ?_, ?_⟩
  · exact hmro ▸ p.cons
  · exact hmro ▸ p.nodup
  · exact hmro ▸ p.last
  · exact hbases ▸ p.bases_nodup
  · exact hbases ▸ hmro ▸ p.bases_mem
  · exact hbases ▸ hmro ▸ p.nested
  · exact hbases ▸ hmro ▸ p.linearized
  · exact hmro ▸ p.known

/-- A class stays in place while its registered bases keep their orders. -/
theorem Placed.frame {g h : ClassGraph} {d : ClassId} {c : ClassObject} (p : g.Placed d c)
    (hbases : ∀ b ∈ effectiveBases d c.bases, ∀ o, h.mro? b = some o → g.mro? b = some o)
    (hnext : g.nextId ≤ h.nextId) : h.Placed d c := by
  refine ⟨p.cons, p.nodup, p.last, p.bases_nodup, p.bases_mem, ?_, ?_, ?_⟩
  · intro b hb o ho
    exact p.nested b hb o (hbases b hb o ho)
  · intro hall
    have hsame : ∀ b ∈ c.bases, h.mro? b = g.mro? b := by
      intro b hb
      obtain ⟨o, ho⟩ := Option.isSome_iff_exists.mp (hall b hb)
      rw [ho, hbases b (mem_effectiveBases_of_mem hb) o ho]
    rw [linearize_congr hsame]
    apply p.linearized
    intro b hb
    rw [← hsame b hb]
    exact hall b hb
  · intro a ha
    exact Nat.lt_of_lt_of_le (p.known a ha) hnext

/-- A class is in place once it is linearized from bases whose orders are as they should be. -/
theorem Placed.of_linearize {g : ClassGraph} {d : ClassId} {c : ClassObject}
    (hne : d ≠ ClassId.root) (hroot : g.mro? ClassId.root = some [ClassId.root])
    (hself : ∀ b ∈ c.bases, ∀ o, g.mro? b = some o → b ∈ o)
    (hlast : ∀ b ∈ c.bases, ∀ o, g.mro? b = some o → o.getLast? = some ClassId.root)
    (hlin : linearize d c.bases g.mro? = .ok c.mro)
    (hlt : d < g.nextId ∧ ClassId.root < g.nextId)
    (hknown : ∀ b ∈ c.bases, ∀ o, g.mro? b = some o → ∀ a ∈ o, a < g.nextId) :
    g.Placed d c := by
  have hnil : c.bases = [] → c.mro.tail = [ClassId.root] := by
    intro h
    rw [h] at hlin
    rw [linearize_nil hne hlin]
    rfl
  refine ⟨linearize_eq_cons hlin, nodup_of_linearize hlin,
    getLast?_of_linearize hself hlast hlin, bases_nodup_of_linearize hne hlin, ?_, ?_,
    fun _ => hlin, forall_mem_of_linearize hlt.1 hlt.2 hself hknown hlin⟩
  · intro b hb
    rcases mem_effectiveBases.mp hb with hb | ⟨hempty, -, rfl⟩
    · obtain ⟨o, ho, -, hsub⟩ := base_order_of_linearize hne hlin hb
      exact hsub.subset (hself b hb o ho)
    · rw [hnil hempty]
      exact List.mem_singleton_self ClassId.root
  · intro b hb o ho
    rcases mem_effectiveBases.mp hb with hb | ⟨hempty, -, rfl⟩
    · obtain ⟨o', ho', -, hsub⟩ := base_order_of_linearize hne hlin hb
      rwa [Option.some.inj (ho.symm.trans ho')]
    · rw [hnil hempty, Option.some.inj (ho.symm.trans hroot)]

namespace WellFormed

variable {g : ClassGraph}

theorem contains_root (hwf : g.WellFormed) : g.contains ClassId.root = true := by
  obtain ⟨c, hc, -⟩ := hwf.root
  exact contains_of_class? hc

theorem mro?_root (hwf : g.WellFormed) : g.mro? ClassId.root = some [ClassId.root] := by
  obtain ⟨c, hc, hbases⟩ := hwf.root
  have hlin := (hwf.placed _ c hc).linearized (by simp [hbases])
  rw [mro?_of_class? hc, linearize_root hlin]

theorem mem_of_mro? (hwf : g.WellFormed) {b : ClassId} {o : List ClassId}
    (h : g.mro? b = some o) : b ∈ o := by
  obtain ⟨c, hc, rfl⟩ := mro?_eq_some.mp h
  rw [(hwf.placed b c hc).cons]
  exact List.mem_cons_self

theorem last_of_mro? (hwf : g.WellFormed) {b : ClassId} {o : List ClassId}
    (h : g.mro? b = some o) : o.getLast? = some ClassId.root := by
  obtain ⟨c, hc, rfl⟩ := mro?_eq_some.mp h
  exact (hwf.placed b c hc).last

theorem known_of_mro? (hwf : g.WellFormed) {b : ClassId} {o : List ClassId}
    (h : g.mro? b = some o) : ∀ a ∈ o, a < g.nextId := by
  obtain ⟨c, hc, rfl⟩ := mro?_eq_some.mp h
  exact (hwf.placed b c hc).known

theorem lt_nextId (hwf : g.WellFormed) {d : ClassId} (h : g.contains d = true) :
    d < g.nextId := by
  obtain ⟨c, hc⟩ := contains_iff.mp h
  exact hwf.known_of_mro? (mro?_of_class? hc) d (hwf.mem_of_mro? (mro?_of_class? hc))

theorem root_lt_nextId (hwf : g.WellFormed) : ClassId.root < g.nextId :=
  hwf.lt_nextId hwf.contains_root

theorem contains_of_link (hwf : g.WellFormed) {b d : ClassId} (h : g.Link b d) :
    g.contains d = true := ((hwf.links b d).mp h).2.contains

theorem contains_of_mem_descendants (hwf : g.WellFormed) {id d : ClassId}
    (h : d ∈ g.descendants id) : g.contains d = true := by
  obtain ⟨-, hchain⟩ := mem_descendants.mp h
  cases hchain with
  | single hl => exact hwf.contains_of_link hl
  | tail _ hl => exact hwf.contains_of_link hl

theorem mro_length_lt (hwf : g.WellFormed) {b d : ClassId} (h : g.Link b d) :
    (g.mro b).length < (g.mro d).length := by
  obtain ⟨hb, hd⟩ := (hwf.links b d).mp h
  obtain ⟨e, he⟩ := contains_iff.mp hb
  obtain ⟨c, hc, hmem⟩ := hd
  have p := hwf.placed d c hc
  have hle := (p.nested b hmem e.mro (mro?_of_class? he)).length_le
  have hlen := congrArg List.length p.cons
  rw [List.length_cons] at hlen
  rw [mro_of_class? he, mro_of_class? hc]
  omega

theorem mro_length_lt_of_chain (hwf : g.WellFormed) {b d : ClassId} (h : TransGen g.Link b d) :
    (g.mro b).length < (g.mro d).length := by
  induction h with
  | single hl => exact hwf.mro_length_lt hl
  | tail _ hl ih => exact ih.trans (hwf.mro_length_lt hl)

theorem acyclic (hwf : g.WellFormed) : g.Acyclic := by
  intro a h
  exact Nat.lt_irrefl _ (hwf.mro_length_lt_of_chain h)

/-- Links from a registered class down are derivations from it up. -/
theorem chain_iff (hwf : g.WellFormed) {b d : ClassId} (hb : g.contains b = true) :
    TransGen g.Link b d ↔ TransGen g.Derives d b := by
  constructor
  · intro h
    induction h with
    | single hl => exact TransGen.single ((hwf.links _ _).mp hl).2
    | tail _ hl ih => exact TransGen.head ((hwf.links _ _).mp hl).2 ih
  · intro h
    induction h using TransGen.head_induction_on with
    | single hd => exact TransGen.single ((hwf.links _ _).mpr ⟨hb, hd⟩)
    | head hd hrest ih =>
      have hmid := (TransGen.head'_iff.mp hrest).choose_spec.1.contains
      exact ih.tail ((hwf.links _ _).mpr ⟨hmid, hd⟩)

theorem mem_mro_of_derives (hwf : g.WellFormed) {d b : ClassId} (hb : g.contains b = true)
    (h : TransGen g.Derives d b) : b ∈ g.mro d := by
  have hstep : ∀ x y, g.Derives x y → ∀ z, z ∈ g.mro y → z ∈ g.mro x := by
    intro x y hxy z hz
    obtain ⟨c, hc, hmem⟩ := hxy
    rw [mro_eq] at hz
    cases ho : g.mro? y with
    | none => simp [ho] at hz
    | some o =>
      rw [ho, Option.getD_some] at hz
      have hsub := (hwf.placed x c hc).nested y hmem o ho
      rw [mro_of_class? hc]
      exact List.mem_of_mem_tail (hsub.subset hz)
  induction h using TransGen.head_induction_on with
  | single hd =>
    obtain ⟨e, he⟩ := contains_iff.mp hb
    apply hstep _ _ hd
    rw [mro_of_class? he, (hwf.placed b e he).cons]
    exact List.mem_cons_self
  | head hd _ ih => exact hstep _ _ hd _ ih

/-- While no class of a linearization has been removed, it holds exactly what the class derives
from. -/
theorem derives_of_mem_mro (hwf : g.WellFormed) {d a : ClassId}
    (hall : ∀ x ∈ g.mro d, g.contains x = true) (ha : a ∈ g.mro d) :
    a = d ∨ TransGen g.Derives d a := by
  induction hn : (g.mro d).length using Nat.strongRecOn generalizing d with
  | ind n ih =>
    cases hc : g.class? d with
    | none => simp [mro, hc] at ha
    | some c =>
      have p := hwf.placed d c hc
      have hmro := mro_of_class? hc
      rw [hmro, p.cons] at ha
      rcases List.mem_cons.mp ha with rfl | htail
      · exact Or.inl rfl
      · right
        have hbase : ∀ b ∈ c.bases, g.contains b = true := by
          intro b hb
          apply hall
          rw [hmro]
          exact List.mem_of_mem_tail (p.bases_mem b (mem_effectiveBases_of_mem hb))
        have hlin := p.linearized fun b hb => (mro?_isSome g b).trans (hbase b hb)
        have hdrv : ∀ b ∈ c.bases, g.Derives d b :=
          fun b hb => ⟨c, hc, mem_effectiveBases_of_mem hb⟩
        by_cases hroot : d = ClassId.root
        · subst hroot
          rw [linearize_root hlin] at htail
          simp at htail
        · by_cases hnil : c.bases = []
          · rw [hnil] at hlin
            rw [linearize_nil hroot hlin] at htail
            obtain rfl : a = ClassId.root := by simpa using htail
            exact TransGen.single ⟨c, hc, mem_effectiveBases.mpr (Or.inr ⟨hnil, hroot, rfl⟩)⟩
          · rcases mem_tail_of_linearize hroot hnil hlin htail with hab | ⟨b, hb, o, ho, hao⟩
            · exact TransGen.single (hdrv a hab)
            · have hmrob : g.mro b = o := by rw [mro_eq, ho, Option.getD_some]
              have hsub := p.nested b (mem_effectiveBases_of_mem hb) o ho
              have hlt := hwf.mro_length_lt ((hwf.links b d).mpr ⟨hbase b hb, hdrv b hb⟩)
              have hallb : ∀ x ∈ g.mro b, g.contains x = true := by
                intro x hx
                apply hall
                rw [hmrob] at hx
                rw [hmro]
                exact List.mem_of_mem_tail (hsub.subset hx)
              rcases ih _ (hn ▸ hlt) hallb (hmrob ▸ hao) rfl with rfl | hchain
              · exact TransGen.single (hdrv a hb)
              · exact TransGen.head (hdrv b hb) hchain

end WellFormed

structure SameOrders (g h : ClassGraph) : Prop where
  orders : ∀ id, (h.class? id).map (fun c => (c.bases, c.mro)) =
    (g.class? id).map (fun c => (c.bases, c.mro))
  links : h.links = g.links
  nextId : h.nextId = g.nextId

namespace SameOrders

variable {g h k : ClassGraph}

theorem symm (r : g.SameOrders h) : h.SameOrders g :=
  ⟨fun id => (r.orders id).symm, r.links.symm, r.nextId.symm⟩

theorem trans (r : g.SameOrders h) (r' : h.SameOrders k) : g.SameOrders k :=
  ⟨fun id => (r'.orders id).trans (r.orders id), r'.links.trans r.links,
    r'.nextId.trans r.nextId⟩

theorem of_retabled (r : g.Retabled h) : g.SameOrders h :=
  ⟨r.map_class? _ fun c => by rw [c.untabled_bases, c.untabled_mro], r.links, r.nextId⟩

theorem exists_class (r : g.SameOrders h) {d : ClassId} {c : ClassObject}
    (hc : g.class? d = some c) : ∃ c', h.class? d = some c' ∧ c'.bases = c.bases ∧
      c'.mro = c.mro := by
  have hmap := r.orders d
  rw [hc, Option.map_some] at hmap
  obtain ⟨c', hc', heq⟩ := Option.map_eq_some_iff.mp hmap
  exact ⟨c', hc', congrArg Prod.fst heq, congrArg Prod.snd heq⟩

theorem mro? (r : g.SameOrders h) (d : ClassId) : h.mro? d = g.mro? d := by
  have hmap := congrArg (Option.map Prod.snd) (r.orders d)
  rw [Option.map_map, Option.map_map] at hmap
  exact hmap

theorem mro (r : g.SameOrders h) (d : ClassId) : h.mro d = g.mro d := by
  rw [mro_eq, mro_eq, r.mro?]

theorem contains (r : g.SameOrders h) (d : ClassId) : h.contains d = g.contains d := by
  rw [← mro?_isSome, ← mro?_isSome, r.mro?]

theorem subclasses (r : g.SameOrders h) (b : ClassId) : h.subclasses b = g.subclasses b := by
  unfold ClassGraph.subclasses
  rw [r.links]

theorem derives (r : g.SameOrders h) {d b : ClassId} (hd : g.Derives d b) : h.Derives d b := by
  obtain ⟨c, hc, hb⟩ := hd
  obtain ⟨c', hc', hbases, -⟩ := r.exists_class hc
  exact ⟨c', hc', hbases ▸ hb⟩

theorem wellFormed (r : g.SameOrders h) (hwf : g.WellFormed) : h.WellFormed := by
  refine ⟨?_, ?_, ?_⟩
  · obtain ⟨c, hc, hbases⟩ := hwf.root
    obtain ⟨c', hc', hbases', -⟩ := r.exists_class hc
    exact ⟨c', hc', hbases'.trans hbases⟩
  · intro b d
    have hlink : h.Link b d ↔ g.Link b d := by
      unfold Link
      rw [r.subclasses]
    rw [hlink, hwf.links, r.contains]
    exact and_congr_right fun _ => ⟨r.derives, r.symm.derives⟩
  · intro d c hc
    obtain ⟨c', hc', hbases, hmro⟩ := r.symm.exists_class hc
    have p := (hwf.placed d c' hc').congr hbases.symm hmro.symm
    exact p.frame (fun b _ o ho => (r.mro? b).symm.trans ho) (Nat.le_of_eq r.nextId.symm)

end SameOrders

end MethodCache.ClassGraph
