import MethodCache.Proofs.Rebasing
import MethodCache.Proofs.Walk

/-!
Bringing tables up to date after a change of bases. A rebuilt class has a right table, and each
slot that its new table changed is looked up again below it, so that afterwards every class
directly below a class with a changed entry is right at that slot. This is what the classes that
are not rebuilt live on: such a class adds its own members to those of one managed base, and
either the base has kept its entry or the walk from the base has come by.
-/
namespace MethodCache.ClassGraph

/-- Every change of an entry was followed down the links. -/
def Followed (g h : ClassGraph) : Prop :=
  ∀ a d s, h.cached a s ≠ g.cached a s → g.Link a d → g.Managed d → h.cached d s = g.resolve d s

def RootRight (g : ClassGraph) : Prop :=
  ∀ t, g.table? ClassId.root = some t → g.Agrees ClassId.root t

theorem Followed.refl (g : ClassGraph) : g.Followed g :=
  fun _ _ _ hne _ _ => absurd rfl hne

theorem Followed.trans {g h k : ClassGraph} {V W : ClassId → Slot → Prop} (f : g.Followed h)
    (r : g.Refreshed h V) (f' : h.Followed k) (r' : h.Refreshed k W) : g.Followed k := by
  intro a d s hne hl hm
  have hm' := (r.retabled.managed_iff d).mpr hm
  by_cases hsame : h.cached a s = g.cached a s
  · rw [← hsame] at hne
    rw [f' a d s hne (r.retabled.link_eq ▸ hl) hm', r.retabled.resolve]
  · have hd := f a d s hsame hl hm
    rw [← r.retabled.resolve] at hd ⊢
    exact r'.stays hm' hd

theorem Refreshed.rootRight {g h : ClassGraph} {V : ClassId → Slot → Prop}
    (r : g.Refreshed h V) (hroot : g.RootRight) : h.RootRight := by
  intro t ht s
  have hsome : (g.table? ClassId.root).isSome = true := by
    rw [← r.published, ht]
    rfl
  obtain ⟨u, hu⟩ := Option.isSome_iff_exists.mp hsome
  have hcached : g.cached ClassId.root s = g.resolve ClassId.root s := by
    rw [cached, hu]
    exact hroot u hu s
  have hstays := r.stays (managed_of_table? hu) hcached
  rw [cached, ht, Option.bind_some] at hstays
  rw [hstays, r.retabled.resolve]

theorem Retabled.needsRebuild {g h : ClassGraph} (r : g.Retabled h) (d : ClassId) :
    h.needsRebuild d = g.needsRebuild d := by
  have hforeign : ∀ b, (h.class? b).map ClassObject.isForeign =
      (g.class? b).map ClassObject.isForeign := r.map_class? _ ClassObject.untabled_isForeign
  unfold ClassGraph.needsRebuild
  cases hc : g.class? d with
  | none =>
    have hnone := hforeign d
    rw [hc, Option.map_none, Option.map_eq_none_iff] at hnone
    rw [hnone]
  | some c =>
    obtain ⟨c', hc', heq⟩ := r.exists_class hc
    have hf : c'.isForeign = c.isForeign := by
      rw [← c'.untabled_isForeign, heq, c.untabled_isForeign]
    have hb : c'.bases = c.bases := by rw [← c'.untabled_bases, heq, c.untabled_bases]
    rw [hc']
    simp only [hf, hb]
    split
    · rfl
    · split
      · next b _ =>
        have hfb := hforeign b
        cases hcb : g.class? b with
        | none =>
          rw [hcb, Option.map_none, Option.map_eq_none_iff] at hfb
          rw [hfb]
        | some e =>
          rw [hcb, Option.map_some] at hfb
          obtain ⟨e', he', heq'⟩ := Option.map_eq_some_iff.mp hfb
          rw [he']
          exact heq'
      · rfl

theorem bases_of_needsRebuild {g : ClassGraph} {d : ClassId} (hm : g.Managed d)
    (h : g.needsRebuild d = false) :
    ∃ c b, g.class? d = some c ∧ c.bases = [b] ∧ g.Managed b := by
  obtain ⟨c, hc, hf⟩ := hm
  simp only [needsRebuild, hc, hf] at h
  split at h
  · next h' => simp at h'
  · split at h
    · next b hb =>
      refine ⟨c, b, hc, hb, ?_⟩
      split at h
      · simp at h
      · next e he => exact ⟨e, he, h⟩
    · simp at h

theorem Exact.rootRight {g : ClassGraph} (h : g.Exact) : g.RootRight := by
  intro t ht
  obtain ⟨u, hu, hagrees⟩ := h ClassId.root (managed_of_table? ht)
  obtain rfl : t = u := Option.some.inj (ht.symm.trans hu)
  exact hagrees

/-- The table built for a registered class is right when the root's and its base's are. -/
theorem WellFormed.agrees_build {g : ClassGraph} (hwf : g.WellFormed) (hroot : g.RootRight)
    {id : ClassId} (hid : g.contains id = true) (mayExtend : Bool)
    (hbase : mayExtend = true → ∀ c b u, g.class? id = some c → c.bases = [b] →
      g.table? b = some u → g.Agrees b u) : g.Agrees id (g.build id mayExtend).1 := by
  obtain ⟨c, hc⟩ := contains_iff.mp hid
  have p := hwf.placed id c hc
  have hmro := mro_of_class? hc
  have hhead : (g.mro id).head? = some id := by rw [hmro, p.cons, List.head?_cons]
  have hlast : (g.mro id).getLast? = some ClassId.root := by rw [hmro, p.last]
  have hmroot : g.mro ClassId.root = [ClassId.root] := by
    rw [mro_eq, hwf.mro?_root, Option.getD_some]
  exact ClassGraph.agrees_build mayExtend hhead hlast hmroot (fun _ t ht => hroot t ht) hbase

theorem WellFormed.mro_of_singleton {g : ClassGraph} (hwf : g.WellFormed) {d b : ClassId}
    {c : ClassObject} (hc : g.class? d = some c) (hbases : c.bases = [b])
    (hb : g.contains b = true) : g.mro d = d :: g.mro b := by
  have hne : d ≠ ClassId.root := by
    rintro rfl
    obtain ⟨e, he, hnil⟩ := hwf.root
    obtain rfl : c = e := Option.some.inj (hc.symm.trans he)
    rw [hbases] at hnil
    simp at hnil
  obtain ⟨o, ho⟩ := Option.isSome_iff_exists.mp ((mro?_isSome g b).trans hb)
  have hlin := (hwf.placed d c hc).linearized fun a ha => by
    rw [hbases, List.mem_singleton] at ha
    rw [ha, ho, Option.isSome_some]
  rw [hbases] at hlin
  rw [mro_of_class? hc, linearize_singleton hne hlin ho (hwf.mem_of_mro? ho), mro_eq, ho,
    Option.getD_some]

/-- A class in front of the linearization of another finds its own members, and else what the other
finds. -/
theorem resolve_of_mro_eq_cons {g : ClassGraph} {d b : ClassId} (hmro : g.mro d = d :: g.mro b)
    (s : Slot) : g.resolve d s = (g.ownMember d s.name).or (g.resolve b s) := by
  rw [resolve_eq, resolve_eq, hmro, List.findSome?_cons]
  cases g.ownMember d s.name <;> rfl

theorem refreshed_publish {g : ClassGraph} {id : ClassId} {t : SlotTable} (hm : g.Managed id)
    (hpub : (g.table? id).isSome = true) (hagrees : g.Agrees id t) :
    g.Refreshed (g.modify id (·.publish t)) fun d _ => d = id := by
  have htable := table?_publish hm t
  refine ⟨retabled_publish g id t, ?_, ?_, ?_⟩
  · intro d
    rw [htable]
    split
    · next hd => rw [← hd, hpub, Option.isSome_some]
    · rfl
  · rintro d s rfl -
    rw [cached, htable, if_pos rfl]
    exact hagrees s
  · intro d s hd
    rw [cached, cached, htable, if_neg (Ne.symm hd)]

end MethodCache.ClassGraph

namespace MethodCache.Update

open ClassGraph

theorem propagateAll_ok (id : ClassId) {slots : List Slot} (hnd : slots.Nodup) {u : Update}
    (hpub : u.graph.Published) (hac : u.graph.Acyclic) :
    ∃ u', forEach (fun s u => propagate s (u.graph.subclasses id) u) slots u = (u', none) ∧
      u.graph.Refreshed u'.graph fun d s =>
        s ∈ slots ∧ u.graph.Visited s (u.graph.subclasses id) d := by
  induction slots generalizing u with
  | nil =>
    refine ⟨u, rfl, (Refreshed.refl _).congr fun d s _ => ?_⟩
    simp
  | cons s rest ih =>
    obtain ⟨hs, hrest⟩ := List.nodup_cons.mp hnd
    obtain ⟨u₁, hwalk, r₁⟩ := propagate_ok s (u.graph.subclasses id) hpub hac
    obtain ⟨u₂, hwalks, r₂⟩ := ih hrest (r₁.publishedAll hpub) (hac.congr r₁.retabled.links)
    refine ⟨u₂, ?_, (r₁.trans r₂).congr ?_⟩
    · rw [forEach, hwalk]
      exact hwalks
    · intro d v _
      rw [r₁.retabled.subclasses]
      -- the walk of one slot leaves the entries of the others, so these walks go the same way
      have hsame : v ∈ rest → (u₁.graph.Visited v (u.graph.subclasses id) d ↔
          u.graph.Visited v (u.graph.subclasses id) d) := by
        intro hv
        have hcached : ∀ a, u₁.graph.cached a v = u.graph.cached a v := by
          intro a
          apply r₁.kept
          rintro ⟨rfl, -⟩
          exact hs hv
        exact ⟨visited_congr r₁.retabled.symm fun a => (hcached a).symm,
          visited_congr r₁.retabled hcached⟩
      rw [List.mem_cons]
      constructor
      · rintro (⟨rfl, hvis⟩ | ⟨hv, hvis⟩)
        · exact ⟨Or.inl rfl, hvis⟩
        · exact ⟨Or.inr hv, (hsame hv).mp hvis⟩
      · rintro ⟨rfl | hv, hvis⟩
        · exact Or.inl ⟨rfl, hvis⟩
        · exact Or.inr ⟨hv, (hsame hv).mpr hvis⟩

theorem rebuild_of_not_managed {u : Update} {id : ClassId} (h : ¬ u.graph.Managed id) :
    rebuild id u = (u.visit, none) := by
  have hnone : u.visit.graph.install? id false = none := by
    show u.graph.install? id false = none
    cases hi : u.graph.install? id false with
    | none => rfl
    | some i =>
      obtain ⟨c, cell, hc, hcell, -, -⟩ := install?_eq_some.mp hi
      unfold ClassObject.cell? at hcell
      split at hcell
      · next hk => exact absurd (managed_of_kind hc hk) h
      · simp at hcell
  simp only [rebuild, hnone]

theorem rebuild_of_table? {u : Update} {id : ClassId} {t : SlotTable}
    (h : u.graph.table? id = some t) :
    rebuild id u =
      forEach (fun s u => propagate s (u.graph.subclasses id) u)
        (t.diff (u.graph.build id false).1)
        ⟨u.graph.modify id (·.publish (u.graph.build id false).1),
          { u.visit.report with rebuilt := u.report.rebuilt ++ [id] }⟩ := by
  obtain ⟨c, hc, ht⟩ := Option.bind_eq_some_iff.mp h
  obtain ⟨cell, hcell, ht⟩ := Option.bind_eq_some_iff.mp ht
  have hinstall : u.visit.graph.install? id false =
      some (⟨(u.graph.build id false).2, some t, (u.graph.build id false).1⟩,
        u.graph.modify id (·.publish (u.graph.build id false).1)) :=
    install?_eq_some.mpr ⟨c, cell, hc, hcell, by rw [ht]; rfl, rfl⟩
  simp only [rebuild, hinstall]
  rfl

/-- Rebuilding a class makes its table right and follows every change down. -/
theorem rebuild_ok (id : ClassId) {u : Update} (hwf : u.graph.WellFormed)
    (hpub : u.graph.Published) (hroot : u.graph.RootRight) :
    ∃ u' V, rebuild id u = (u', none) ∧ u.graph.Refreshed u'.graph V ∧
      u.graph.Followed u'.graph ∧
      (u.graph.Managed id → ∀ s, u'.graph.cached id s = u.graph.resolve id s) := by
  by_cases hm : u.graph.Managed id
  · obtain ⟨t, ht⟩ := Option.isSome_iff_exists.mp (hpub id hm)
    have hagrees := hwf.agrees_build hroot hm.contains false (by simp)
    have hsome : (u.graph.table? id).isSome = true := by rw [ht, Option.isSome_some]
    have r₁ := refreshed_publish hm hsome hagrees
    have hac := hwf.acyclic.congr r₁.retabled.links
    have hnd : (t.diff (u.graph.build id false).1).Nodup := Slot.all_nodup.filter _
    obtain ⟨u', hwalks, r₂⟩ := propagateAll_ok id hnd
      (u := ⟨u.graph.modify id (·.publish (u.graph.build id false).1),
        { u.visit.report with rebuilt := u.report.rebuilt ++ [id] }⟩)
      (r₁.publishedAll hpub) hac
    refine ⟨u', _, (rebuild_of_table? ht).trans hwalks, r₁.trans r₂, ?_, ?_⟩
    · intro a d s hne hl hd
      have hl₁ : (u.graph.modify id (·.publish (u.graph.build id false).1)).Link a d :=
        r₁.retabled.link_eq ▸ hl
      rw [← r₁.retabled.resolve]
      apply r₂.looked d s _ ((r₁.retabled.managed_iff d).mpr hd)
      by_cases ha : a = id
      · -- the class itself: were the slot not among the changed ones, its entry would be as before
        subst ha
        refine ⟨?_, .start hl₁⟩
        by_contra hs
        apply hne
        rw [SlotTable.mem_diff, not_not] at hs
        rw [r₂.kept a s fun h => (SlotTable.mem_diff.mp h.1) hs, r₁.looked a s rfl hm, cached, ht,
          Option.bind_some, hs, hagrees]
      · have hreg := (((hwf.links a d).mp hl).1 : u.graph.contains a = true)
        rw [← r₁.kept a s ha] at hne
        obtain ⟨⟨hs, hvis⟩, hpasses⟩ := r₂.passesOn ((r₁.retabled.contains a).trans hreg) hne
        exact ⟨hs, hvis.down hpasses hl₁⟩
    · intro _ s
      rw [← r₁.retabled.resolve]
      apply r₂.stays ((r₁.retabled.managed_iff id).mpr hm)
      rw [r₁.looked id s rfl hm, r₁.retabled.resolve]
  · refine ⟨u.visit, _, rebuild_of_not_managed hm, Refreshed.refl _, Followed.refl _, ?_⟩
    intro h
    exact absurd h hm

theorem rebuildAll_ok (changed : List ClassId) {u : Update} (hwf : u.graph.WellFormed)
    (hpub : u.graph.Published) (hroot : u.graph.RootRight) :
    ∃ u' V, forEach
        (fun d u => if u.graph.needsRebuild d then rebuild d u else (u, none)) changed u =
          (u', none) ∧
      u.graph.Refreshed u'.graph V ∧ u.graph.Followed u'.graph ∧
      ∀ d ∈ changed, u.graph.needsRebuild d = true → u.graph.Managed d →
        ∀ s, u'.graph.cached d s = u.graph.resolve d s := by
  induction changed generalizing u with
  | nil =>
    refine ⟨u, _, rfl, Refreshed.refl _, Followed.refl _, ?_⟩
    intro d hd
    simp at hd
  | cons d rest ih =>
    by_cases hneeds : u.graph.needsRebuild d = true
    · obtain ⟨u₁, V₁, hbuild, r₁, f₁, hd⟩ := rebuild_ok d hwf hpub hroot
      obtain ⟨u₂, V₂, hrest, r₂, f₂, hall⟩ :=
        ih ((SameOrders.of_retabled r₁.retabled).wellFormed hwf) (r₁.publishedAll hpub)
          (r₁.rootRight hroot)
      refine ⟨u₂, _, ?_, r₁.trans r₂, f₁.trans r₁ f₂ r₂, ?_⟩
      · simp only [forEach, hneeds, if_true, hbuild]
        exact hrest
      · intro e he hne hm s
        have hm₁ := (r₁.retabled.managed_iff e).mpr hm
        rw [← r₁.retabled.resolve]
        rcases List.mem_cons.mp he with rfl | he
        · apply r₂.stays hm₁
          rw [hd hm s, r₁.retabled.resolve]
        · exact hall e he ((r₁.retabled.needsRebuild e).trans hne) hm₁ s
    · obtain ⟨u₂, V₂, hrest, r₂, f₂, hall⟩ := ih hwf hpub hroot
      refine ⟨u₂, V₂, ?_, r₂, f₂, ?_⟩
      · simp only [forEach, hneeds]
        exact hrest
      · intro e he hne hm s
        rcases List.mem_cons.mp he with rfl | he
        · exact absurd hne hneeds
        · exact hall e he hne hm s

end MethodCache.Update

namespace MethodCache.ClassGraph

/-- After a change of bases the class itself and all classes that need it are rebuilt, and every
change is followed down. -/
theorem basesReplaced_ok {g : ClassGraph} (id : ClassId) (changed : List ClassId)
    (hwf : g.WellFormed) (hpub : g.Published) (hroot : g.RootRight) :
    ∃ u V, g.basesReplaced id changed = (u, none) ∧ g.Refreshed u.graph V ∧
      g.Followed u.graph ∧
      ∀ d, d = id ∨ (d ∈ changed ∧ g.needsRebuild d = true) → g.Managed d →
        ∀ s, u.graph.cached d s = g.resolve d s := by
  obtain ⟨u₁, V₁, hbuild, r₁, f₁, hid⟩ :=
    Update.rebuild_ok id (u := ⟨g, {}⟩) hwf hpub hroot
  obtain ⟨u₂, V₂, hrest, r₂, f₂, hall⟩ := Update.rebuildAll_ok changed
    ((SameOrders.of_retabled r₁.retabled).wellFormed hwf) (r₁.publishedAll hpub)
    (r₁.rootRight hroot)
  refine ⟨u₂, _, ?_, r₁.trans r₂, f₁.trans r₁ f₂ r₂, ?_⟩
  · simp only [basesReplaced, hbuild]
    exact hrest
  · intro d hd hm s
    have hm₁ := (r₁.retabled.managed_iff d).mpr hm
    show _ = (⟨g, {}⟩ : Update).graph.resolve d s
    rw [← r₁.retabled.resolve]
    rcases hd with rfl | ⟨hd, hneeds⟩
    · apply r₂.stays hm₁
      rw [hid hm s, r₁.retabled.resolve]
    · exact hall d hd ((r₁.retabled.needsRebuild d).trans hneeds) hm₁ s

namespace Rebased

variable {g h : ClassGraph} {id : ClassId} {bases : List ClassId}

theorem table? (r : g.Rebased id bases h) (d : ClassId) : h.table? d = g.table? d := by
  unfold ClassGraph.table?
  rw [r.classes]
  cases g.class? d <;> rfl

theorem managed_iff (r : g.Rebased id bases h) (d : ClassId) : h.Managed d ↔ g.Managed d := by
  unfold Managed
  rw [r.classes]
  cases g.class? d <;> simp [ClassObject.isForeign]

theorem cached (r : g.Rebased id bases h) (d : ClassId) (s : Slot) :
    h.cached d s = g.cached d s := by
  unfold ClassGraph.cached
  rw [r.table?]

theorem resolve_of_mro? (r : g.Rebased id bases h) {d : ClassId} (hmro : h.mro? d = g.mro? d)
    (s : Slot) : h.resolve d s = g.resolve d s :=
  resolve_congr (by rw [mro_eq, mro_eq, hmro]) fun a _ => r.ownMember a s.name

theorem published (r : g.Rebased id bases h) (hpub : g.Published) : h.Published := by
  intro d hd
  rw [r.table?]
  exact hpub d ((r.managed_iff d).mp hd)

theorem rootRight (r : g.Rebased id bases h) (hwf : g.WellFormed) (hne : id ≠ ClassId.root)
    (hroot : g.RootRight) : h.RootRight := by
  intro t ht s
  rw [r.table?] at ht
  rw [hroot t ht s]
  exact (r.resolve_of_mro? (r.kept _ (Ne.symm hne) (hwf.root_not_mem_descendants id)) s).symm

theorem cached_eq_resolve (r : g.Rebased id bases h) (hexact : g.Exact) {d : ClassId}
    (hd : h.Managed d) (s : Slot) : h.cached d s = g.resolve d s := by
  rw [r.cached]
  exact (exact_iff.mp hexact).2 d ((r.managed_iff d).mp hd) s

/-- Where lookups find what they found before, an update leaves the entry right. -/
theorem cached_of_same (r : g.Rebased id bases h) (hexact : g.Exact) {k : ClassGraph}
    {V : ClassId → Slot → Prop} (hk : h.Refreshed k V) {d : ClassId} (hd : h.Managed d) {s : Slot}
    (hsame : h.resolve d s = g.resolve d s) : k.cached d s = h.resolve d s := by
  rcases hk.kept_or_looked hd s with hkept | hlooked
  · rw [hkept, r.cached_eq_resolve hexact hd, hsame]
  · exact hlooked

/-- A class that need not be rebuilt is right when its only base is: it finds what the base finds
unless it has a member itself, and it is looked up again when the entry of the base moves. -/
theorem cached_of_base (r : g.Rebased id bases h) (hwf : g.WellFormed) (hne : id ≠ ClassId.root)
    (hexact : g.Exact) {k : ClassGraph} {V : ClassId → Slot → Prop} (hk : h.Refreshed k V)
    (hfollowed : h.Followed k) {d : ClassId} (hd : h.Managed d) (hdid : d ≠ id)
    (hneeds : h.needsRebuild d = false) (s : Slot)
    (hbase : ∀ b, h.Managed b → h.Link b d → k.cached b s = h.resolve b s) :
    k.cached d s = h.resolve d s := by
  have hwf' := r.wellFormed hwf hne
  obtain ⟨c', b, hc', hbases', hmb⟩ := bases_of_needsRebuild hd hneeds
  obtain ⟨c, hc, hbases, -⟩ := r.exists_class hc'
  rw [if_neg hdid, hbases'] at hbases
  have hreg := (r.contains b).symm.trans hmb.contains
  have hnew := resolve_of_mro_eq_cons (hwf'.mro_of_singleton hc' hbases' hmb.contains) s
  have hbefore := resolve_of_mro_eq_cons (hwf.mro_of_singleton hc hbases.symm hreg) s
  have hlink : h.Link b d :=
    (hwf'.links b d).mpr ⟨hmb.contains, c', hc', by simp [effectiveBases, hbases']⟩
  by_cases hmoved : k.cached b s = h.cached b s
  · apply r.cached_of_same hexact hk hd
    rw [hnew, hbefore, r.ownMember, ← hbase b hmb hlink, hmoved, r.cached_eq_resolve hexact hmb]
  · exact hfollowed b d s hmoved hlink hd

/-- Tables are right again once a change of bases was followed up. -/
theorem exact_basesReplaced (r : g.Rebased id bases h) (hwf : g.WellFormed)
    (hne : id ≠ ClassId.root) (hexact : g.Exact) {changed : List ClassId}
    (hchanged : ∀ d, d ∈ changed ↔ d ∈ g.descendants id ∧ h.mro? d ≠ g.mro? d) :
    ∃ u, h.basesReplaced id changed = (u, none) ∧ h.Retabled u.graph ∧ u.graph.Exact := by
  have hwf' := r.wellFormed hwf hne
  have hpub := r.published (exact_iff.mp hexact).1
  obtain ⟨u, V, hdone, hu, hfollowed, hrebuilt⟩ :=
    basesReplaced_ok id changed hwf' hpub (r.rootRight hwf hne hexact.rootRight)
  refine ⟨u, hdone, hu.retabled, ?_⟩
  -- bases have shorter orders than the classes below them
  have hright : ∀ d, h.Managed d → ∀ s, u.graph.cached d s = h.resolve d s := by
    intro d hd s
    induction hn : (h.mro d).length using Nat.strongRecOn generalizing d with
    | ind n ih =>
      by_cases hmro : h.mro? d = g.mro? d
      · exact r.cached_of_same hexact hu hd (r.resolve_of_mro? hmro s)
      · by_cases hdid : d = id
        · exact hrebuilt d (Or.inl hdid) hd s
        · have hdesc : d ∈ g.descendants id := by
            by_contra hdesc
            exact hmro (r.kept d hdid hdesc)
          have hmem := (hchanged d).mpr ⟨hdesc, hmro⟩
          cases hneeds : h.needsRebuild d with
          | true => exact hrebuilt d (Or.inr ⟨hmem, hneeds⟩) hd s
          | false =>
            apply r.cached_of_base hwf hne hexact hu hfollowed hd hdid hneeds
            intro b hb hl
            exact ih _ (hn ▸ hwf'.mro_length_lt hl) b hb rfl
  rw [exact_iff]
  refine ⟨hu.publishedAll hpub, ?_⟩
  intro d hd s
  rw [hu.retabled.resolve]
  exact hright d ((hu.retabled.managed_iff d).mp hd) s

end Rebased

end MethodCache.ClassGraph
