import MethodCache.Proofs.Answering

/-!
What a change of bases comes to, told beforehand. The bases of the classes determine the orders
that the change may lead to, so whoever names orders that fit knows the outcome: the change leads
to these orders, or it fails with the error of a class below that has no order by them. A change
back to the bases that a class had leads to the orders that were in force then; what can stand in
its way is a class below with a base that is no longer registered.
-/
namespace MethodCache

open Relation

namespace ClassGraph

namespace WellFormed

variable {g : ClassGraph} {id b : ClassId} {c : ClassObject}

/-- A registered base of a class is neither the class nor below it. -/
theorem base_above (hwf : g.WellFormed) (hc : g.class? id = some c) (hb : b ∈ c.bases)
    (hreg : g.contains b = true) : b ≠ id ∧ b ∉ g.descendants id := by
  have hl : g.Link b id := (hwf.links b id).mpr ⟨hreg, c, hc, mem_effectiveBases_of_mem hb⟩
  constructor
  · rintro rfl
    exact hwf.acyclic b (.single hl)
  · intro hbelow
    exact hwf.acyclic id ((mem_descendants.mp hbelow).2.tail hl)

theorem link_iff_of_registered (hwf : g.WellFormed) (hc : g.class? id = some c)
    (hreg : ∀ b ∈ c.bases, g.contains b = true) :
    g.Link b id ↔ b ∈ effectiveBases id c.bases := by
  rw [hwf.links]
  constructor
  · rintro ⟨-, hderives⟩
    exact hderives.mem hc
  · intro hb
    refine ⟨?_, c, hc, hb⟩
    rcases mem_effectiveBases.mp hb with hb | ⟨-, -, rfl⟩
    · exact hreg b hb
    · exact hwf.contains_root

theorem linearize_class (hwf : g.WellFormed) (hc : g.class? id = some c)
    (hreg : ∀ b ∈ c.bases, g.contains b = true) : linearize id c.bases g.mro? = .ok c.mro :=
  (hwf.placed id c hc).linearized fun b hb => (mro?_isSome g b).trans (hreg b hb)

theorem unknownBase_of_error (hwf : g.WellFormed) (hc : g.class? id = some c)
    {e : LinearizationError} (h : linearize id c.bases g.mro? = .error e) :
    ∃ b ∈ c.bases, g.contains b = false ∧ e = .unknownBase id b := by
  have p := hwf.placed id c hc
  have hnd : id ∉ c.mro.tail := by
    have hnodup := p.nodup
    rw [p.cons] at hnodup
    exact (List.nodup_cons.mp hnodup).1
  have hself : id ∉ c.bases := fun hmem => hnd (p.bases_mem id (mem_effectiveBases_of_mem hmem))
  rcases linearize_error_cases h with hplaced | ⟨b, hb, hfails⟩ | ⟨hknown, -⟩
  · exact absurd ⟨hself, p.bases_nodup⟩ hplaced
  · rcases Linearization.baseOrder_error_cases hfails with ⟨hnone, rfl⟩ | ⟨o, ho, hmem, -⟩
    · refine ⟨b, hb, ?_, rfl⟩
      rw [← mro?_isSome, hnone, Option.isSome_none]
    · -- the order of a base stands within that of the class, behind the class itself
      exact absurd ((p.nested b (mem_effectiveBases_of_mem hb) o ho).subset hmem) hnd
  · -- the class has its order from its bases once they are all there
    have hreg : ∀ b ∈ c.bases, g.contains b = true := by
      intro b hb
      obtain ⟨o, ho⟩ := hknown b hb
      rw [← mro?_isSome, ho, Option.isSome_some]
    rw [hwf.linearize_class hc hreg] at h
    simp at h

end WellFormed

/-- Bases above the class that give it an order put nothing in the way of the turns. -/
theorem relinearize_of_above {g : ClassGraph} {id : ClassId} {bases first : List ClassId}
    (habove : ∀ b ∈ bases, b ≠ id ∧ b ∉ g.descendants id)
    (hfirst : linearize id bases g.mro? = .ok first) :
    ∃ turns, g.relinearize id bases =
      g.relinearizeWithin turns (g.startRelinearization (g.descendants id) id first) := by
  have hnone : bases.find? (fun b => b = id || (g.descendants id).contains b) = none := by
    apply List.find?_eq_none.mpr
    intro b hb
    simpa using habove b hb
  exact ⟨_, by simp only [relinearize, hnone, hfirst]; rfl⟩

/-- The orders that a change of bases leads to if it leads to any: the class has the first one,
classes that are not below keep theirs, and each class below has the order that its bases give it,
if they give it one. -/
structure Foreseen (g : ClassGraph) (id : ClassId) (first : List ClassId)
    (order? : ClassId → Option (List ClassId)) : Prop where
  first : order? id = some first
  kept : ∀ d, d ≠ id → d ∉ g.descendants id → order? d = g.mro? d
  below : ∀ d ∈ g.descendants id, ∀ o,
    linearize d (g.basesOf d) order? = .ok o → order? d = some o

/-- All orders found so far are the ones foreseen. -/
def Follows (r : Relinearization) (order? : ClassId → Option (List ClassId)) : Prop :=
  ∀ d o, r.pending.get? d = some o → order? d = some o

namespace Foreseen

variable {g : ClassGraph} {id : ClassId} {first : List ClassId}
  {order? : ClassId → Option (List ClassId)} {r : Relinearization}

/-- An order that is in force is foreseen, unless the class is below and has yet to have its
turn. -/
theorem orderIn?_eq (f : g.Foreseen id first order?) (ord : g.Ordered id first r)
    (hr : Follows r order?) {b : ClassId} (hb : b ∈ g.descendants id → b ∈ r.order) :
    g.orderIn? r.pending b = order? b := by
  unfold orderIn?
  cases ho : r.pending.get? b with
  | some o => exact (hr b o ho).symm
  | none =>
    have hnew : ¬ (b = id ∨ b ∈ r.order) := by
      rw [← ord.known, ho]
      simp
    obtain ⟨hid, hnot⟩ := not_or.mp hnew
    exact (f.kept b hid fun hmem => hnot (hb hmem)).symm

/-- When a class has its turn, the orders of all its bases are the ones foreseen. -/
theorem linearize_eq (f : g.Foreseen id first order?) (s : g.Scheduled (g.descendants id) r)
    (ord : g.Ordered id first r) (hr : Follows r order?) {x : ClassId} {rest : List ClassId}
    (hready : r.ready = x :: rest) :
    linearize x (g.basesOf x) (g.orderIn? r.pending) = linearize x (g.basesOf x) order? := by
  apply linearize_congr
  intro b hb
  exact f.orderIn?_eq ord hr (s.bases_done hready hb)

/-- The turns follow what is foreseen, until a class has no order by it. -/
theorem relinearizeWithin (f : g.Foreseen id first order?) (hwf : g.WellFormed)
    (s : g.Scheduled (g.descendants id) r) (ord : g.Ordered id first r) (hr : Follows r order?)
    (turns : ℕ) :
    (∀ r', g.relinearizeWithin turns r = .ok r' → Follows r' order?) ∧
    ∀ e, g.relinearizeWithin turns r = .error (.linearization e) →
      ∃ d ∈ g.descendants id, linearize d (g.basesOf d) order? = .error e := by
  have hbelow := hwf.registered_below id
  have hid : id ∉ g.descendants id := fun hmem => (mem_descendants.mp hmem).1 rfl
  induction turns generalizing r with
  | zero =>
    unfold ClassGraph.relinearizeWithin
    cases r.ready with
    | nil => exact ⟨fun r' h => Except.ok.inj h ▸ hr, fun e h => by simp at h⟩
    | cons x rest => simp
  | succ turns ih =>
    unfold ClassGraph.relinearizeWithin
    cases hready : r.ready with
    | nil => exact ⟨fun r' h => Except.ok.inj h ▸ hr, fun e h => by simp at h⟩
    | cons x rest =>
      have hx := s.head_mem_below hready
      obtain ⟨hreg, hne⟩ := hbelow x hx
      obtain ⟨c, hc⟩ := contains_iff.mp hreg
      have hlin := f.linearize_eq s ord hr hready
      simp only [relinearizeNext, hc, ← basesOf_of_class? hc]
      cases ho : linearize x (g.basesOf x) (g.orderIn? r.pending) with
      | error e =>
        refine ⟨fun r' h => by simp at h, ?_⟩
        rintro _ ⟨⟩
        exact ⟨x, hx, hlin.symm.trans ho⟩
      | ok o =>
        refine ih (s.next hwf hbelow hready _) (ord.next s hready hid hne ho) ?_
        intro d p hp
        rw [(foldl_release _ (g.subclasses_nodup x)).1, IndexMap.get?_insert] at hp
        split at hp
        · next hxd =>
          rw [← hxd, ← Option.some.inj hp]
          exact f.below x hx o (hlin.symm.trans ho)
        · exact hr d p hp

theorem follows_start (f : g.Foreseen id first order?) (below : List ClassId) :
    Follows (g.startRelinearization below id first) order? := by
  have ord := g.startRelinearization_ordered below id first
  intro d o ho
  have hknown := (ord.known d).mp (by rw [ho, Option.isSome_some])
  rcases hknown with rfl | hnone
  · rw [f.first, ← ord.first, ho]
  · simp [startRelinearization] at hnone

/-- A change to bases above the class leads to the orders foreseen, or it fails with the error of
a class below that has no order by them. -/
theorem rebase (f : g.Foreseen id first order?) (hwf : g.WellFormed) {bases : List ClassId}
    (hreg : g.contains id = true) (habove : ∀ b ∈ bases, b ≠ id ∧ b ∉ g.descendants id)
    (hfirst : linearize id bases g.mro? = .ok first) :
    (∃ changed h, g.rebase id bases = .ok (changed, h) ∧ ∀ d, h.mro? d = order? d) ∨
    ∃ d ∈ g.descendants id, ∃ e, linearize d (g.basesOf d) order? = .error e ∧
      g.rebase id bases = .error (.linearization e) := by
  obtain ⟨turns, hturns⟩ := relinearize_of_above habove hfirst
  obtain ⟨hfollows, hfails⟩ := f.relinearizeWithin hwf
    (g.startRelinearization_scheduled (g.descendants_nodup id) id first)
    (g.startRelinearization_ordered (g.descendants id) id first) (f.follows_start _) turns
  rw [← hturns] at hfollows hfails
  obtain ⟨c, hc⟩ := contains_iff.mp hreg
  have hends := rebase_ne_endless hwf id bases
  simp only [ClassGraph.rebase, hc] at hends ⊢
  cases hr : g.relinearize id bases with
  | error e =>
    cases e with
    | linearization e =>
      obtain ⟨d, hd, he⟩ := hfails e hr
      exact Or.inr ⟨d, hd, e, he, rfl⟩
    | endless => simp [hr] at hends
  | ok r =>
    have p := relinearize_ok hwf hr
    obtain ⟨first', hfirst', ord⟩ := p.ordered
    obtain rfl : first = first' := Except.ok.inj (hfirst.symm.trans hfirst')
    refine Or.inl ⟨_, g.rewritten id c.bases bases r.pending, rfl, ?_⟩
    intro d
    rw [mro?_rewritten c.bases hwf hreg p]
    exact f.orderIn?_eq ord (hfollows r hr) (p.mem_order d).mpr

end Foreseen

/-- Tables apart, one graph differs from the other at most in the bases of one class, in the links
to it, and in the orders of the class and what is below it. -/
structure DiffersAt (g : ClassGraph) (id : ClassId) (h : ClassGraph) : Prop where
  contains : ∀ d, h.contains d = g.contains d
  managed : ∀ d, h.Managed d ↔ g.Managed d
  ownMember : ∀ d name, h.ownMember d name = g.ownMember d name
  basesOf : ∀ d, d ≠ id → h.basesOf d = g.basesOf d
  links : ∀ b d, d ≠ id → (h.Link b d ↔ g.Link b d)
  kept : ∀ d, d ≠ id → d ∉ g.descendants id → h.mro? d = g.mro? d

namespace DiffersAt

variable {g h k : ClassGraph} {id : ClassId} {c : ClassObject}

theorem refl (g : ClassGraph) (id : ClassId) : g.DiffersAt id g :=
  ⟨fun _ => rfl, fun _ => Iff.rfl, fun _ _ => rfl, fun _ _ => rfl, fun _ _ _ => Iff.rfl,
    fun _ _ _ => rfl⟩

theorem of_rebased {bases : List ClassId} (r : g.Rebased id bases h) : g.DiffersAt id h := by
  refine ⟨r.contains, r.managed_iff, r.ownMember, ?_, ?_, r.kept⟩
  · intro d hd
    rw [r.basesOf, if_neg hd]
  · intro b d hd
    rw [r.links]
    simp [hd]

theorem retabled (r : g.DiffersAt id h) (t : h.Retabled k) : g.DiffersAt id k := by
  refine ⟨fun d => (t.contains d).trans (r.contains d),
    fun d => (t.managed_iff d).trans (r.managed d),
    fun d name => (t.ownMember d name).trans (r.ownMember d name), ?_, ?_, ?_⟩
  · exact fun d hd => (t.basesOf d).trans (r.basesOf d hd)
  · rw [t.link_eq]
    exact r.links
  · exact fun d hd hdesc => (t.mro? d).trans (r.kept d hd hdesc)

theorem mem_descendants_iff (r : g.DiffersAt id h) (hwf : g.WellFormed) (hwf' : h.WellFormed)
    (d : ClassId) : d ∈ h.descendants id ↔ d ∈ g.descendants id := by
  rw [mem_descendants, mem_descendants,
    chain_iff_of_links hwf.acyclic hwf'.acyclic r.links]

/-- The orders in force in one graph are foreseen for a change of the other back to its bases. -/
theorem foreseen (r : g.DiffersAt id h) (hwf : g.WellFormed) (hwf' : h.WellFormed)
    (hc : g.class? id = some c) : h.Foreseen id c.mro g.mro? := by
  have hbelow := r.mem_descendants_iff hwf hwf'
  refine ⟨mro?_of_class? hc, ?_, ?_⟩
  · intro d hd hdesc
    exact (r.kept d hd fun hmem => hdesc ((hbelow d).mpr hmem)).symm
  · intro d hd o ho
    have hd' := (hbelow d).mp hd
    obtain ⟨hreg, hroot⟩ := hwf.registered_below id d hd'
    obtain ⟨e, he⟩ := contains_iff.mp hreg
    rw [r.basesOf d (mem_descendants.mp hd').1, basesOf_of_class? he] at ho
    have hlin := hwf.linearize_class he (WellFormed.contains_of_linearize hroot ho)
    rw [mro?_of_class? he, Except.ok.inj (hlin.symm.trans ho)]

/-- A change back to the bases that the class has in the other graph leads to the orders and the
links of that graph, unless a class below has a base that is not registered. -/
theorem rebase_back (r : g.DiffersAt id h) (hwf : g.WellFormed) (hwf' : h.WellFormed)
    (hc : g.class? id = some c) (hreg : ∀ b ∈ c.bases, g.contains b = true) :
    (∃ changed k, h.rebase id c.bases = .ok (changed, k) ∧ (∀ d, k.mro? d = g.mro? d) ∧
      ∀ b, k.subclasses b = g.subclasses b) ∨
    ∃ d ∈ g.descendants id, ∃ b ∈ g.basesOf d, g.contains b = false ∧
      h.rebase id c.bases = .error (.linearization (.unknownBase d b)) := by
  have hbelow := r.mem_descendants_iff hwf hwf'
  have hid : h.contains id = true := (r.contains id).trans (contains_of_class? hc)
  have habove : ∀ b ∈ c.bases, b ≠ id ∧ b ∉ h.descendants id := by
    intro b hb
    rw [hbelow]
    exact hwf.base_above hc hb (hreg b hb)
  have hfirst : linearize id c.bases h.mro? = .ok c.mro := by
    rw [← hwf.linearize_class hc hreg]
    apply linearize_congr
    intro b hb
    obtain ⟨hne, hdesc⟩ := habove b hb
    exact r.kept b hne fun hmem => hdesc ((hbelow b).mpr hmem)
  rcases (r.foreseen hwf hwf' hc).rebase hwf' hid habove hfirst with
    ⟨changed, k, hok, hmro⟩ | ⟨d, hd, e, he, hfails⟩
  · refine Or.inl ⟨changed, k, hok, hmro, ?_⟩
    obtain ⟨q, -⟩ := rebase_ok hwf' hok
    intro b
    apply subclasses_of_link
    intro d
    rw [q.links]
    by_cases hd : d = id
    · subst hd
      simp [hwf.link_iff_of_registered hc hreg]
    · simp [hd, r.links b d hd]
  · have hd' := (hbelow d).mp hd
    obtain ⟨e', he'⟩ := contains_iff.mp (hwf.contains_of_mem_descendants hd')
    rw [r.basesOf d (mem_descendants.mp hd').1, basesOf_of_class? he'] at he
    obtain ⟨b, hb, hmissing, rfl⟩ := hwf.unknownBase_of_error he' he
    exact Or.inr ⟨d, hd', b, basesOf_of_class? he' ▸ hb, hmissing, hfails⟩

theorem rebase_back_of_closed (r : g.DiffersAt id h) (hwf : g.WellFormed) (hwf' : h.WellFormed)
    (hcl : g.Closed) (hc : g.class? id = some c) :
    ∃ changed k, h.rebase id c.bases = .ok (changed, k) ∧ (∀ d, k.mro? d = g.mro? d) ∧
      ∀ b, k.subclasses b = g.subclasses b := by
  rcases r.rebase_back hwf hwf' hc (hcl id c hc) with hback | ⟨d, -, b, hb, hmissing, -⟩
  · exact hback
  · obtain ⟨e, he, hmem⟩ := exists_class_of_mem_basesOf hb
    simp [hcl d e he b hmem] at hmissing

end DiffersAt

end ClassGraph

end MethodCache
