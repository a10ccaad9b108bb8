import MethodCache.Proofs.Coherence

/-!
Registering and removing classes. A class that comes in under a new id, linearized from bases
that are registered, leaves the graph well formed; so does taking a class other than the root
away with its links, although the classes below it still name it.
-/
namespace MethodCache.ClassGraph

open Relation

/-- Every base of a registered class is registered. -/
def Closed (g : ClassGraph) : Prop :=
  ∀ d c, g.class? d = some c → ∀ b ∈ c.bases, g.contains b = true

theorem class?_insert (g : ClassGraph) (id d : ClassId) (c : ClassObject) :
    (g.insert id c).class? d = if id = d then some c else g.class? d :=
  IndexMap.get?_insert g.classes id d c

theorem class?_insert_self (g : ClassGraph) (id : ClassId) (c : ClassObject) :
    (g.insert id c).class? id = some c := by
  rw [class?_insert, if_pos rfl]

theorem class?_insert_of_ne (g : ClassGraph) {id d : ClassId} (h : d ≠ id) (c : ClassObject) :
    (g.insert id c).class? d = g.class? d := by
  rw [class?_insert, if_neg (Ne.symm h)]

theorem contains_insert {g : ClassGraph} {id b : ClassId} {c : ClassObject} :
    (g.insert id c).contains b = true ↔ b = id ∨ g.contains b = true := by
  unfold contains IndexMap.contains
  show ((g.insert id c).class? b).isSome = true ↔ b = id ∨ (g.class? b).isSome = true
  rw [class?_insert]
  by_cases hb : b = id
  · simp [hb]
  · simp [hb, Ne.symm hb]

theorem link_insert {g : ClassGraph} {id b d : ClassId} {c : ClassObject} :
    (g.insert id c).Link b d ↔ g.Link b d ∨ (d = id ∧ b ∈ effectiveBases id c.bases) :=
  mem_subclasses_link

theorem SameOrders.closed {g h : ClassGraph} (r : g.SameOrders h) (hcl : g.Closed) :
    h.Closed := by
  intro d c hc b hb
  obtain ⟨c', hc', hbases, -⟩ := r.symm.exists_class hc
  rw [r.contains]
  exact hcl d c' hc' b (hbases ▸ hb)

theorem mro?_insert (g : ClassGraph) (id d : ClassId) (c : ClassObject) :
    (g.insert id c).mro? d = if id = d then some c.mro else g.mro? d := by
  unfold mro?
  rw [class?_insert]
  split <;> rfl

theorem class?_remove (g : ClassGraph) (id d : ClassId) :
    (g.remove id).class? d = if id = d then none else g.class? d := by
  unfold remove
  split
  · next hnone =>
    split
    · next hd => rw [← hd, hnone]
    · rfl
  · exact IndexMap.get?_erase g.classes id d

theorem class?_remove_of_ne (g : ClassGraph) {id d : ClassId} (h : d ≠ id) :
    (g.remove id).class? d = g.class? d := by
  rw [class?_remove, if_neg (Ne.symm h)]

theorem class?_of_remove {g : ClassGraph} {id d : ClassId} {c : ClassObject}
    (h : (g.remove id).class? d = some c) : d ≠ id ∧ g.class? d = some c := by
  rw [class?_remove] at h
  split at h
  · simp at h
  · next hd => exact ⟨Ne.symm hd, h⟩

theorem table?_remove (g : ClassGraph) (id d : ClassId) :
    (g.remove id).table? d = if id = d then none else g.table? d := by
  unfold table?
  rw [class?_remove]
  split <;> rfl

theorem mro?_remove (g : ClassGraph) (id d : ClassId) :
    (g.remove id).mro? d = if id = d then none else g.mro? d := by
  unfold mro?
  rw [class?_remove]
  split <;> rfl

theorem link_remove {g : ClassGraph} {id b d : ClassId} {c : ClassObject}
    (hc : g.class? id = some c) :
    (g.remove id).Link b d ↔
      b ≠ id ∧ g.Link b d ∧ ¬ (d = id ∧ b ∈ effectiveBases id c.bases) := by
  have hlinks : (g.remove id).links = (g.unlink id (effectiveBases id c.bases)).links.erase id := by
    simp [remove, hc]
  unfold Link
  rw [subclasses_eq_listed, hlinks]
  by_cases hb : b = id
  · subst hb
    simp [listed, IndexMap.get?_erase]
  · have hsame : listed ((g.unlink id (effectiveBases id c.bases)).links.erase id) b =
        (g.unlink id (effectiveBases id c.bases)).subclasses b := by
      unfold listed subclasses
      rw [IndexMap.get?_erase, if_neg (Ne.symm hb)]
    rw [hsame, mem_subclasses_unlink]
    simp [hb]

theorem nextId_remove (g : ClassGraph) (id : ClassId) : (g.remove id).nextId = g.nextId := by
  unfold ClassGraph.remove
  split <;> rfl

namespace WellFormed

variable {g : ClassGraph}

theorem of_nextId_le {h : ClassGraph} (hwf : g.WellFormed) (hclasses : h.classes = g.classes)
    (hlinks : h.links = g.links) (hnext : g.nextId ≤ h.nextId) : h.WellFormed := by
  have hclass : ∀ d, h.class? d = g.class? d := by
    intro d
    unfold class?
    rw [hclasses]
  have hmro : ∀ d, h.mro? d = g.mro? d := by
    intro d
    unfold mro?
    rw [hclass]
  refine ⟨?_, ?_, ?_⟩
  · rw [hclass]
    exact hwf.root
  · intro b d
    have hlink : h.Link b d ↔ g.Link b d := by
      unfold Link subclasses
      rw [hlinks]
    have hderives : h.Derives d b ↔ g.Derives d b := by
      unfold Derives
      rw [hclass]
    rw [hlink, hwf.links, hderives, ← mro?_isSome, ← mro?_isSome, hmro]
  · intro d c hc
    rw [hclass] at hc
    exact (hwf.placed d c hc).frame (fun b _ o ho => (hmro b).symm.trans ho) hnext

theorem contains_of_linearize {id : ClassId} {bases order : List ClassId}
    (hne : id ≠ ClassId.root) (hlin : linearize id bases g.mro? = .ok order) :
    ∀ b ∈ bases, g.contains b = true := by
  intro b hb
  obtain ⟨o, ho, -, -⟩ := base_order_of_linearize hne hlin hb
  rw [← mro?_isSome, ho]
  rfl

theorem contains_of_mem_effectiveBases (hwf : g.WellFormed) {id : ClassId}
    {bases order : List ClassId} (hne : id ≠ ClassId.root)
    (hlin : linearize id bases g.mro? = .ok order) :
    ∀ b ∈ effectiveBases id bases, g.contains b = true := by
  intro b hb
  rcases mem_effectiveBases.mp hb with hb | ⟨-, -, rfl⟩
  · exact contains_of_linearize hne hlin b hb
  · exact hwf.contains_root

theorem links_insert (hwf : g.WellFormed) {id : ClassId} {c : ClassObject}
    (hnew : g.class? id = none) (hbases : ∀ b ∈ effectiveBases id c.bases, g.contains b = true)
    (hunnamed : ∀ d e, g.class? d = some e → id ∉ effectiveBases d e.bases) (b d : ClassId) :
    (g.insert id c).Link b d ↔
      (g.insert id c).contains b = true ∧ (g.insert id c).Derives d b := by
  rw [link_insert, hwf.links, contains_insert]
  by_cases hd : d = id
  · subst hd
    constructor
    · rintro (⟨-, e, he, -⟩ | ⟨-, hb⟩)
      · rw [hnew] at he
        simp at he
      · exact ⟨Or.inr (hbases b hb), c, class?_insert_self g d c, hb⟩
    · rintro ⟨-, e, he, hb⟩
      obtain rfl : c = e := Option.some.inj ((class?_insert_self g d c).symm.trans he)
      exact Or.inr ⟨rfl, hb⟩
  · have hderives : (g.insert id c).Derives d b ↔ g.Derives d b := by
      unfold Derives
      rw [class?_insert_of_ne g hd]
    rw [hderives]
    constructor
    · rintro (⟨hb, hdrv⟩ | ⟨hd', -⟩)
      · exact ⟨Or.inr hb, hdrv⟩
      · exact absurd hd' hd
    · rintro ⟨rfl | hb, hdrv⟩
      · obtain ⟨e, he, hmem⟩ := hdrv
        exact absurd hmem (hunnamed d e he)
      · exact Or.inl ⟨hb, hdrv⟩

theorem placed_new (hwf : g.WellFormed) {id : ClassId} {c : ClassObject}
    (hne : id ≠ ClassId.root) (hlt : id < g.nextId)
    (hlin : linearize id c.bases g.mro? = .ok c.mro) : g.Placed id c := by
  apply Placed.of_linearize hne hwf.mro?_root
  · exact fun b _ o ho => hwf.mem_of_mro? ho
  · exact fun b _ o ho => hwf.last_of_mro? ho
  · exact hlin
  · exact ⟨hlt, hwf.root_lt_nextId⟩
  · exact fun b _ o ho => hwf.known_of_mro? ho

theorem insert (hwf : g.WellFormed) {id : ClassId} {c : ClassObject} (hnew : g.class? id = none)
    (hne : id ≠ ClassId.root) (hlt : id < g.nextId)
    (hunnamed : ∀ d e, g.class? d = some e → id ∉ e.bases)
    (hlin : linearize id c.bases g.mro? = .ok c.mro) : (g.insert id c).WellFormed := by
  have hbases := hwf.contains_of_mem_effectiveBases hne hlin
  have hid : ∀ d e, g.class? d = some e → id ∉ effectiveBases d e.bases := by
    intro d e he hmem
    rcases mem_effectiveBases.mp hmem with hmem | ⟨-, -, hroot⟩
    · exact hunnamed d e he hmem
    · exact hne hroot
  -- no class has the new one among its bases, so what the bases of a class are did not change
  have hframe : ∀ d e, g.Placed d e → id ∉ effectiveBases d e.bases →
      (g.insert id c).Placed d e := by
    intro d e p hnot
    refine p.frame ?_ (Nat.le_refl _)
    intro b hb o ho
    have hbd : id ≠ b := fun h => hnot (h ▸ hb)
    rwa [mro?_insert, if_neg hbd] at ho
  refine ⟨?_, hwf.links_insert hnew hbases hid, ?_⟩
  · rw [class?_insert_of_ne g (Ne.symm hne)]
    exact hwf.root
  · intro d e he
    by_cases hd : d = id
    · subst hd
      obtain rfl : c = e := Option.some.inj ((class?_insert_self g d c).symm.trans he)
      apply hframe d c (hwf.placed_new hne hlt hlin)
      intro hmem
      obtain ⟨e, he⟩ := contains_iff.mp (hbases d hmem)
      rw [hnew] at he
      simp at he
    · rw [class?_insert_of_ne g hd] at he
      exact hframe d e (hwf.placed d e he) (hid d e he)

theorem closed_insert (hcl : g.Closed) {id : ClassId} {c : ClassObject}
    (hne : id ≠ ClassId.root) (hlin : linearize id c.bases g.mro? = .ok c.mro) :
    (g.insert id c).Closed := by
  intro d e he b hb
  rw [contains_insert]
  right
  rw [class?_insert] at he
  split at he
  · obtain rfl := Option.some.inj he
    exact contains_of_linearize hne hlin b hb
  · exact hcl d e he b hb

theorem insert_root (hempty : ∀ d, g.class? d = none) (hlinks : ∀ b d, ¬ g.Link b d)
    {c : ClassObject} (hbases : c.bases = []) (hmro : c.mro = [ClassId.root])
    (hlt : ClassId.root < g.nextId) : (g.insert ClassId.root c).WellFormed := by
  have honly : ∀ d e, (g.insert ClassId.root c).class? d = some e →
      d = ClassId.root ∧ e = c := by
    intro d e he
    rw [class?_insert] at he
    split at he
    · next hd => exact ⟨hd.symm, (Option.some.inj he).symm⟩
    · rw [hempty] at he
      simp at he
  have heff : effectiveBases ClassId.root c.bases = [] := by
    simp [effectiveBases, hbases]
  refine ⟨⟨c, class?_insert_self g _ c, hbases⟩, ?_, ?_⟩
  · intro b d
    rw [link_insert, heff]
    constructor
    · rintro (hl | ⟨-, hb⟩)
      · exact absurd hl (hlinks b d)
      · simp at hb
    · rintro ⟨-, e, he, hb⟩
      obtain ⟨rfl, rfl⟩ := honly d e he
      rw [heff] at hb
      simp at hb
  · intro d e he
    obtain ⟨rfl, rfl⟩ := honly d e he
    refine ⟨?_, ?_, ?_, ?_, ?_, ?_, ?_, ?_⟩
    · rw [hmro]
      rfl
    · simp [hmro]
    · simp [hmro]
    · simp [hbases]
    · simp [heff]
    · simp [heff]
    · intro _
      simp [linearize, hmro]
    · intro a ha
      rw [hmro, List.mem_singleton] at ha
      rw [ha]
      exact hlt

theorem remove (hwf : g.WellFormed) {id : ClassId} (hne : id ≠ ClassId.root) :
    (g.remove id).WellFormed := by
  cases hc : g.class? id with
  | none =>
    have hsame : g.remove id = g := by simp [ClassGraph.remove, hc]
    rw [hsame]
    exact hwf
  | some c =>
    have hcontains : ∀ b, (g.remove id).contains b = true ↔ b ≠ id ∧ g.contains b = true := by
      intro b
      rw [← mro?_isSome, ← mro?_isSome, mro?_remove]
      by_cases hb : b = id
      · simp [hb]
      · simp [hb, Ne.symm hb]
    refine ⟨?_, ?_, ?_⟩
    · rw [class?_remove_of_ne g (Ne.symm hne)]
      exact hwf.root
    · intro b d
      rw [link_remove hc, hwf.links, hcontains]
      constructor
      · rintro ⟨hb, ⟨hcb, e, he, hmem⟩, hnot⟩
        refine ⟨⟨hb, hcb⟩, e, ?_, hmem⟩
        have hd : d ≠ id := by
          rintro rfl
          obtain rfl : c = e := Option.some.inj (hc.symm.trans he)
          exact hnot ⟨rfl, hmem⟩
        rw [class?_remove_of_ne g hd]
        exact he
      · rintro ⟨⟨hb, hcb⟩, e, he, hmem⟩
        obtain ⟨hd, he'⟩ := class?_of_remove he
        exact ⟨hb, ⟨hcb, e, he', hmem⟩, fun h => hd h.1⟩
    · intro d e he
      obtain ⟨-, he'⟩ := class?_of_remove he
      apply (hwf.placed d e he').frame
      · intro b _ o ho
        rw [mro?_remove] at ho
        split at ho
        · simp at ho
        · exact ho
      · exact Nat.le_of_eq (nextId_remove g id).symm

end WellFormed

end MethodCache.ClassGraph
