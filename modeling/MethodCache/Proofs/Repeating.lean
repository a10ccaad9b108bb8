import MethodCache.Proofs.ExactRuns
import MethodCache.Proofs.Foreseeing
import MethodCache.Proofs.Process
import MethodCache.Proofs.Reporting

/-!
Changes that are repeated. Writing a member a second time with the same value does nothing, in
whatever state the tables are: a managed class has the value cached by then, and all that a walk
below a foreign class comes to was brought up to date by the walk before. Giving a class the bases
that it has leaves orders and links as they are, but it is refused when a class below has a base
that was taken away.
-/
namespace MethodCache

open ClassGraph

namespace ClassGraph

/-- What a walk has visited is not stale after it, and a second walk goes no further. -/
theorem Refreshed.visited_before {g h : ClassGraph} {s : Slot} {start : List ClassId}
    {d : ClassId} (r : g.Refreshed h fun a w => w = s ∧ g.Visited s start a)
    (hd : h.Visited s start d) : g.Visited s start d ∧ ¬ h.Stale d s := by
  have hright : ∀ a, g.Visited s start a → h.Managed a → h.cached a s = h.resolve a s := by
    intro a ha hm
    rw [r.looked a s ⟨rfl, ha⟩ ((r.retabled.managed_iff a).mp hm), r.retabled.resolve]
  have hvisited : g.Visited s start d := by
    induction hd with
    | start hmem => exact .start hmem
    | @down a d _ hp hl ih =>
      rw [r.retabled.link_eq] at hl
      refine ih.down ⟨(r.retabled.contains a).symm.trans hp.1, ?_⟩ hl
      intro hm
      have hm' := (r.retabled.managed_iff a).mpr hm
      exact absurd (hright a ih hm') (hp.2 hm')
  exact ⟨hvisited, fun hstale => hstale.2 (hright d hvisited hstale.1)⟩

end ClassGraph

namespace Update

/-- A walk that comes to no stale entry leaves the graph alone and lists no class. -/
theorem walkWithin_quiet {s : Slot} {steps : ℕ} {stack : List ClassId} {u : Update}
    (hpub : u.graph.Published) (hright : ∀ d, u.graph.Visited s stack d → ¬ u.graph.Stale d s) :
    (walkWithin s steps stack u).1.graph = u.graph ∧
    (walkWithin s steps stack u).1.report.updated = u.report.updated ∧
    (walkWithin s steps stack u).1.report.rebuilt = u.report.rebuilt := by
  induction steps generalizing stack u with
  | zero => cases stack <;> exact ⟨rfl, rfl, rfl⟩
  | succ steps ih =>
    cases stack with
    | nil => exact ⟨rfl, rfl, rfl⟩
    | cons id stack =>
      obtain ⟨v, below, hvisit, r, -, hbelow⟩ := visitClass_ok s id hpub
      obtain ⟨v', below', hvisit', -, hrebuilt, hcases⟩ := visitClass_cases s id hpub
      obtain rfl : v = v' := congrArg Prod.fst (hvisit.symm.trans hvisit')
      rcases hcases with ⟨hgraph, hupdated⟩ | ⟨hstale, -⟩
      · have hrest : ∀ d, v.graph.Visited s (below ++ stack) d → ¬ v.graph.Stale d s := by
          intro d hd
          rw [hgraph]
          exact hright d ((visited_cons r hbelow).mpr (Or.inr hd))
        obtain ⟨hg, hu, hb⟩ := ih (r.publishedAll hpub) hrest
        rw [walkWithin, hvisit]
        exact ⟨hg.trans hgraph, hu.trans hupdated, hb.trans hrebuilt⟩
      · exact absurd hstale (hright id (.start List.mem_cons_self))

theorem propagate_quiet {s : Slot} {start : List ClassId} {u : Update}
    (hpub : u.graph.Published) (hac : u.graph.Acyclic)
    (hright : ∀ d, u.graph.Visited s start d → ¬ u.graph.Stale d s) :
    ∃ u', propagate s start u = (u', none) ∧ u'.graph = u.graph ∧
      u'.report.updated = u.report.updated ∧ u'.report.rebuilt = u.report.rebuilt := by
  obtain ⟨u', hwalk, -⟩ := propagate_ok s start hpub hac
  have hreverse : ∀ d, u.graph.Visited s start.reverse d → ¬ u.graph.Stale d s := fun d hd =>
    hright d (hd.mono (List.reverse_subset.mpr (List.Subset.refl start)))
  refine ⟨u', hwalk, ?_⟩
  obtain rfl : (propagate s start u).1 = u' := congrArg Prod.fst hwalk
  exact walkWithin_quiet hpub hreverse

end Update

namespace ClassGraph

/-- An update after a write that brings nothing about. Where a slot of a managed class is written,
the class has the value cached already, and nothing else is looked at. -/
structure Settled (g : ClassGraph) (id : ClassId) (name : String) (u : Update) : Prop where
  graph : u.graph = g
  updated : u.report.updated = []
  rebuilt : u.report.rebuilt = []
  early : g.Managed id → (Slot.ofName? name).isSome = true →
    u.report.earlyExit = true ∧ u.report.visited = 1

section Again

variable {h : ClassGraph} {id : ClassId} {s : Slot} {v : Option Value} {u : Update}

theorem memberWritten_again_managed (hpub : h.Published) (hac : h.Acyclic) (hm : h.Managed id)
    (hfound : h.resolve id s = v) (hdone : h.memberWritten id s.name v = (u, none)) :
    ∃ u', u.graph.memberWritten id s.name v = (u', none) ∧ u.graph.Settled id s.name u' := by
  obtain ⟨u', hdone', hcases⟩ := memberWritten_slot s id v hpub hac
  obtain rfl : u = u' := congrArg Prod.fst (hdone.symm.trans hdone')
  have hentry : u.graph.cached id s = v ∧ u.graph.Managed id ∧ u.graph.Published := by
    rcases hcases with ⟨-, hearly, hsame⟩ | r
    · rw [hsame]
      exact ⟨hearly, hm, hpub⟩
    · refine ⟨?_, (r.retabled.managed_iff id).mpr hm, r.publishedAll hpub⟩
      rw [r.looked id s ⟨rfl, .start (List.mem_singleton_self id)⟩ hm, hfound]
  obtain ⟨hcached, ⟨c, hc, hf⟩, hpub'⟩ := hentry
  obtain ⟨cell, hk⟩ := ClassObject.isForeign_eq_false_iff.mp hf
  obtain ⟨t, ht, hcell⟩ := hpub'.table_of_kind hc hk
  rw [cached, ht, Option.bind_some] at hcached
  exact ⟨_, memberWritten_early hc hk hcell hcached, rfl, rfl, rfl, fun _ _ => ⟨rfl, rfl⟩⟩

/-- Below a foreign class the first notice has left nothing stale on the way of the second. -/
theorem memberWritten_again_foreign (hpub : h.Published) (hac : h.Acyclic) {c : ClassObject}
    (hc : u.graph.class? id = some c) (hf : c.isForeign = true)
    (hdone : h.memberWritten id s.name v = (u, none)) :
    ∃ u', u.graph.memberWritten id s.name v = (u', none) ∧ u.graph.Settled id s.name u' := by
  obtain ⟨ro, hk⟩ : ∃ ro, c.kind = .foreign ro := by
    cases hk : c.kind with
    | managed cell => simp [ClassObject.isForeign, hk] at hf
    | foreign ro => exact ⟨ro, rfl⟩
  have hnot := not_managed_of_kind hc hk
  obtain ⟨u', hdone', hcases⟩ := memberWritten_slot s id v hpub hac
  obtain rfl : u = u' := congrArg Prod.fst (hdone.symm.trans hdone')
  rcases hcases with ⟨hm, -, hsame⟩ | r
  · rw [hsame] at hnot
    exact absurd hm hnot
  -- a foreign class hands the walk on, so it is as if the walk had begun with the class
  have hp : u.graph.PassesOn s id := ⟨contains_of_class? hc, fun hm => absurd hm hnot⟩
  have hright : ∀ d, u.graph.Visited s (u.graph.subclasses id) d → ¬ u.graph.Stale d s :=
    fun d hd => (r.visited_before (visited_singleton.mpr (Or.inr ⟨hp, hd⟩))).2
  obtain ⟨k, hwalk, hgraph, hupdated, hrebuilt⟩ :=
    Update.propagate_quiet (u := Update.visit ⟨u.graph, { slot := some s }⟩)
      (r.publishedAll hpub) (hac.congr r.retabled.links) hright
  exact ⟨k, (memberWritten_foreign hc hk).trans hwalk, hgraph, hupdated, hrebuilt,
    fun hm => absurd hm hnot⟩

theorem memberWritten_again {name : String} (hpub : h.Published) (hac : h.Acyclic)
    (hid : h.contains id = true) (hfound : ∀ s : Slot, s.name = name → h.resolve id s = v)
    (hdone : h.memberWritten id name v = (u, none)) :
    ∃ u', u.graph.memberWritten id name v = (u', none) ∧ u.graph.Settled id name u' := by
  cases hname : Slot.ofName? name with
  | none =>
    refine ⟨_, memberWritten_of_not_slot hname, rfl, rfl, rfl, ?_⟩
    simp [hname]
  | some s =>
    obtain rfl := Slot.name_of_ofName? hname
    obtain ⟨u', V, hdone', r⟩ := memberWritten_ok id s.name v hpub hac
    obtain rfl : u = u' := congrArg Prod.fst (hdone.symm.trans hdone')
    obtain ⟨c, hc⟩ := contains_iff.mp ((r.retabled.contains id).trans hid)
    cases hf : c.isForeign with
    | true => exact memberWritten_again_foreign hpub hac hc hf hdone
    | false =>
      have hm := (r.retabled.managed_iff id).mp ⟨c, hc, hf⟩
      exact memberWritten_again_managed hpub hac hm (hfound s rfl) hdone

end Again

end ClassGraph

namespace Context

variable {c : Context} {id : ClassId} {cls : ClassObject}

theorem settled_after_write (hs : c.graph.Sound) (hcls : c.graph.class? id = some cls)
    (hwritable : cls.isWritable = true) (name : String) (x : Value) :
    ∃ r u, (c.write id name (some x)).2 = .ok r ∧
      ((c.write id name (some x)).1.write id name (some x)).2 = .ok u.report ∧
      ((c.write id name (some x)).1.write id name (some x)).1.graph = u.graph ∧
      (c.write id name (some x)).1.graph.Settled id name u ∧
      ((c.write id name (some x)).1.graph.Managed id ↔ c.graph.Managed id) := by
  have hthere : some x = none → (c.graph.ownMember id name).isSome = true := by simp
  have hvalue : some x = none → (some x).isSome = true := by simp
  obtain ⟨h, u, h', k, q, hdone, -, hsame, hagain, hok, hgraph, hok', hgraph'⟩ :=
    write_twice hs hcls hwritable hthere hvalue
  obtain rfl := hsame rfl
  have hpub := q.published hs.published
  have hac := hs.wellFormed.acyclic.congr q.orders.links
  obtain ⟨k', hagain', hsettled⟩ := memberWritten_again hpub hac
    ((q.orders.contains id).trans (contains_of_class? hcls))
    (fun s hname => q.resolve_self hs.wellFormed hname (contains_of_class? hcls) rfl) hdone
  obtain rfl : k = k' := congrArg Prod.fst (hagain.symm.trans hagain')
  obtain ⟨u', V, hdone', hu⟩ := memberWritten_ok id name (some x) hpub hac
  obtain rfl : u = u' := congrArg Prod.fst (hdone.symm.trans hdone')
  rw [← hgraph] at hsettled hu
  exact ⟨u.report, k, hok, hok', hgraph', hsettled,
    (hu.retabled.managed_iff id).trans (q.managed id)⟩

/-- A class is given the bases that it has. Either every base of a class below is registered, and
orders and links stay, or one is not, and the change is refused for it. -/
theorem setBases_same (hs : c.graph.Sound) (hcls : c.graph.class? id = some cls)
    (hmut : cls.isImmutable = false) (hreg : ∀ b ∈ cls.bases, c.graph.contains b = true) :
    ((∃ r, (c.setBases id cls.bases).2 = .ok r) ∧
      (∀ d ∈ c.graph.descendants id, ∀ b ∈ c.graph.basesOf d, c.graph.contains b = true) ∧
      (∀ d, (c.setBases id cls.bases).1.graph.mro? d = c.graph.mro? d) ∧
      ∀ b, (c.setBases id cls.bases).1.graph.subclasses b = c.graph.subclasses b) ∨
    ∃ d ∈ c.graph.descendants id, ∃ b ∈ c.graph.basesOf d, c.graph.contains b = false ∧
      c.setBases id cls.bases = c.refuse (.linearization (.unknownBase d b)) := by
  have hmutable : c.graph.Mutable id := ⟨cls, hcls, hmut⟩
  have hback := (DiffersAt.refl c.graph id).rebase_back hs.wellFormed hs.wellFormed hcls hreg
  rcases setBases_of_mutable hs hmutable cls.bases with
    ⟨e, hfails, hans⟩ | ⟨changed, k, u, hrebase, hdone, hans⟩
  · rcases hback with ⟨changed, k, hok, -⟩ | ⟨d, hd, b, hb, hmissing, herror⟩
    · simp [hok] at hfails
    · rw [herror] at hfails
      obtain rfl := RebaseError.linearization.inj (Except.error.inj hfails)
      exact Or.inr ⟨d, hd, b, hb, hmissing, hans⟩
  · rcases hback with ⟨changed', k', hok, hmro, hsubclasses⟩ | ⟨_, _, _, _, _, herror⟩
    · obtain ⟨rfl, rfl⟩ := Prod.mk.inj (Except.ok.inj (hok.symm.trans hrebase))
      obtain ⟨u', V, hdone', q, -, hu⟩ := hs.exists_basesReplaced hmutable hrebase
      obtain rfl : u = u' := congrArg Prod.fst (hdone.symm.trans hdone')
      rw [hans]
      refine Or.inl ⟨⟨u.report, rfl⟩, ?_, ?_, ?_⟩
      · exact fun d hd b hb => q.contains_of_mem_basesOf hs.wellFormed hd hb
      · exact fun d => (hu.retabled.mro? d).trans (hmro d)
      · exact fun b => (hu.retabled.subclasses b).trans (hsubclasses b)
    · simp [herror] at hrebase

end Context

namespace Process

/-- In any context, whatever its tables hold, a member of a class that may be written is set, and
then set again to the same value. The second time no class is listed and nothing changes, and where
a slot of a managed class is written, only that class is looked at. -/
theorem settled_after_set {p : Process} (hp : p.Reachable) {c : Context} {n : ℕ}
    (hc : (c, n) ∈ p.contexts) (hn : n < ClassId.available) {id : ClassId} {cls : ClassObject}
    (hcls : c.graph.class? id = some cls) (hwritable : cls.isWritable = true) (name : String)
    (x : Value) :
    ∃ r r', (c.setMember id name x).2 = .ok r ∧
      ((c.setMember id name x).1.setMember id name x).2 = .ok r' ∧
      r'.updated = [] ∧ r'.rebuilt = [] ∧
      ((c.setMember id name x).1.setMember id name x).1.graph = (c.setMember id name x).1.graph ∧
      (cls.isForeign = false → (Slot.ofName? name).isSome = true →
        r'.earlyExit = true ∧ r'.visited = 1) := by
  obtain ⟨r, u, hok, hagain, hgraph, hsettled, hmanaged⟩ :=
    Context.settled_after_write (hp.sound hc hn) hcls hwritable name x
  refine ⟨r, u.report, hok, hagain, hsettled.updated, hsettled.rebuilt, ?_, ?_⟩
  · exact hgraph.trans hsettled.graph
  · intro hf
    exact hsettled.early (hmanaged.mpr ⟨cls, hcls, hf⟩)

/-- The class outside of the object system gets another value for the classes below it. -/
theorem rehung_settled :
    ∃ c n r r', (c, n) ∈ (ofRun .unchecked Host.rehungEdits).contexts ∧ n < ClassId.available ∧
      (c.setMember 64 "__len__" (.function ⟨2, "g"⟩)).2 = .ok r ∧ r.updated = [65, 67] ∧
      ((c.setMember 64 "__len__" (.function ⟨2, "g"⟩)).1.setMember 64 "__len__"
        (.function ⟨2, "g"⟩)).2 = .ok r' ∧ r'.updated = [] := by
  have hrun : (Host.rehung.graph.class? 64).any ClassObject.isWritable = true ∧
      (Host.rehung.setMember 64 "__len__" (.function ⟨2, "g"⟩)).2 =
        .ok ⟨some .len, false, 3, [65, 67], []⟩ := by decide +kernel
  obtain ⟨hany, hfirst⟩ := hrun
  obtain ⟨cls, hcls, hwritable⟩ := (Option.any_eq_true _ _).mp hany
  have hc : (Host.rehung, 4) ∈ (ofRun .unchecked Host.rehungEdits).contexts :=
    List.mem_singleton_self _
  obtain ⟨r, r', -, hagain, hupdated, -⟩ := settled_after_set
    (reachable_ofRun .unchecked Host.rehungEdits) hc (by decide) hcls hwritable "__len__"
    (.function ⟨2, "g"⟩)
  exact ⟨Host.rehung, 4, _, r', hc, by decide, hfirst, rfl, hagain, hupdated⟩

end Process

namespace Host

/-- After any run that leaves ids to the context a class that may be changed, and whose bases are
all registered, is given the bases that it has. That is done exactly when every base of every class
below is registered too; else the error names a class below and a base of it that is not. Either
way, orders and links stay as they are. -/
theorem setBases_same_iff (p : Host) (config : Config) (edits : List ClassEdit)
    (hids : edits.countP ClassEdit.isDefinition < ClassId.available) {id : ClassId}
    {cls : ClassObject} (hcls : ((p.start config).1.run edits).graph.class? id = some cls)
    (hmut : cls.isImmutable = false)
    (hreg : ∀ b ∈ cls.bases, ((p.start config).1.run edits).graph.contains b = true) :
    ((((p.start config).1.run edits).setBases id cls.bases).2.isOk = true ↔
      ∀ d ∈ ((p.start config).1.run edits).graph.descendants id,
        ∀ b ∈ ((p.start config).1.run edits).graph.basesOf d,
          ((p.start config).1.run edits).graph.contains b = true) ∧
    (∀ f, (((p.start config).1.run edits).setBases id cls.bases).2 = .error f →
      ∃ d ∈ ((p.start config).1.run edits).graph.descendants id,
        ∃ b ∈ ((p.start config).1.run edits).graph.basesOf d,
          ((p.start config).1.run edits).graph.contains b = false ∧
            f = .refused (.linearization (.unknownBase d b))) ∧
    (∀ d, (((p.start config).1.run edits).setBases id cls.bases).1.graph.mro? d =
      ((p.start config).1.run edits).graph.mro? d) ∧
    ∀ b, (((p.start config).1.run edits).setBases id cls.bases).1.graph.subclasses b =
      ((p.start config).1.run edits).graph.subclasses b := by
  have hs := p.sound_run config hids
  rcases Context.setBases_same hs hcls hmut hreg with
    ⟨⟨r, hok⟩, hall, hmro, hsubclasses⟩ | ⟨d, hd, b, hb, hmissing, hans⟩
  · rw [hok]
    refine ⟨⟨fun _ => hall, fun _ => rfl⟩, ?_, hmro, hsubclasses⟩
    intro f hf
    simp at hf
  · rw [hans]
    refine ⟨⟨?_, ?_⟩, ?_, fun _ => rfl, fun _ => rfl⟩
    · intro hok
      simp [Context.refuse, Except.isOk, Except.toBool] at hok
    · intro hall
      simp [hall d hd b hb] at hmissing
    · intro f hf
      exact ⟨d, hd, b, hb, hmissing, (Except.error.inj hf).symm⟩

/-- Two classes and one with the given bases, and then the second of the two is taken away. -/
def orphanedEdits (bases : List ClassId) : List ClassEdit :=
  [.define "Kept" [] [], .define "Gone" [] [], .define "Below" bases [], .unregister 65]

def orphaned (bases : List ClassId) : Context :=
  (({} : Host).start .unchecked).1.run (orphanedEdits bases)

/-- A class that was taken away is in nobody's way while no class below has it as a base. -/
theorem orphaned_same :
    ((orphaned [64]).setBases 64 []).2.isOk = true ∧
    (orphaned [64]).graph.descendants 64 = [66] ∧ (orphaned [64]).graph.contains 65 = false := by
  have hrun : ((orphaned [64]).graph.class? 64).any
        (fun cls => cls.bases = [] && !cls.isImmutable) = true ∧
      (orphaned [64]).graph.descendants 64 = [66] ∧ (orphaned [64]).graph.basesOf 66 = [64] ∧
      (orphaned [64]).graph.contains 64 = true ∧ (orphaned [64]).graph.contains 65 = false := by
    decide +kernel
  obtain ⟨hany, hbelow, hbases, hkept, hgone⟩ := hrun
  obtain ⟨cls, hcls, hsame⟩ := (Option.any_eq_true _ _).mp hany
  obtain ⟨hnone, hmut⟩ : cls.bases = [] ∧ cls.isImmutable = false := by simpa using hsame
  have hreg : ∀ b ∈ cls.bases, (orphaned [64]).graph.contains b = true := by simp [hnone]
  obtain ⟨hiff, -⟩ :=
    setBases_same_iff {} .unchecked (orphanedEdits [64]) (by decide) hcls hmut hreg
  rw [hnone] at hiff
  refine ⟨hiff.mpr ?_, hbelow, hgone⟩
  intro d hd b hb
  obtain rfl : d = 66 := List.mem_singleton.mp (hbelow ▸ hd)
  obtain rfl : b = 64 := List.mem_singleton.mp (hbases ▸ hb)
  exact hkept

/-- A class that is below both cannot be linearized any more, so the first class cannot even be
given its bases again. -/
theorem orphaned_not_same :
    ¬ ∀ (p : Host) (config : Config) (edits : List ClassEdit) (id : ClassId) (cls : ClassObject),
      ((p.start config).1.run edits).graph.class? id = some cls → cls.isImmutable = false →
      (∀ b ∈ cls.bases, ((p.start config).1.run edits).graph.contains b = true) →
        (((p.start config).1.run edits).setBases id cls.bases).2.isOk = true ∧
        (∀ d, (((p.start config).1.run edits).setBases id cls.bases).1.graph.mro? d =
          ((p.start config).1.run edits).graph.mro? d) ∧
        ∀ b, (((p.start config).1.run edits).setBases id cls.bases).1.graph.subclasses b =
          ((p.start config).1.run edits).graph.subclasses b := by
  intro hall
  have hrun : ((orphaned [64, 65]).graph.class? 64).any
        (fun cls => cls.bases = [] && !cls.isImmutable) = true ∧
      ((orphaned [64, 65]).setBases 64 []).2.isOk = false := by decide +kernel
  obtain ⟨hany, hrefused⟩ := hrun
  obtain ⟨cls, hcls, hsame⟩ := (Option.any_eq_true _ _).mp hany
  obtain ⟨hnone, hmut⟩ : cls.bases = [] ∧ cls.isImmutable = false := by simpa using hsame
  have hreg : ∀ b ∈ cls.bases, (orphaned [64, 65]).graph.contains b = true := by simp [hnone]
  obtain ⟨hok, -⟩ := hall {} .unchecked (orphanedEdits [64, 65]) 64 cls hcls hmut hreg
  rw [hnone] at hok
  exact Bool.false_ne_true (hrefused.symm.trans hok)

end Host

end MethodCache
