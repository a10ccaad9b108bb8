import MethodCache.Proofs.Carrying
import MethodCache.Proofs.Foreseeing
import MethodCache.Proofs.Process
import MethodCache.Proofs.Routes

/-!
Changes that can be undone. Where all tables are right, writing a member and then writing back
what the class had before leaves every table and all members as they were, even where the first
write is not carried to all classes that it concerns: the second walk reaches every class whose
entry the first one changed, and what the first one missed holds the old value still. Likewise a
change of bases is undone by a change back to the former bases, which is never refused while no
base is missing.
-/
namespace MethodCache

open ClassGraph

namespace ClassGraph

/-- One graph is as the other was: the same classes are registered, with the same bases, orders,
members and tables, and the same links lead down from them. -/
structure Restored (g h : ClassGraph) : Prop where
  mro? : ∀ d, h.mro? d = g.mro? d
  basesOf : ∀ d, h.basesOf d = g.basesOf d
  subclasses : ∀ b, h.subclasses b = g.subclasses b
  ownMember : ∀ d name, h.ownMember d name = g.ownMember d name
  table? : ∀ d, h.table? d = g.table? d

theorem table?_of_cached {g h : ClassGraph} {d : ClassId}
    (hsome : (h.table? d).isSome = (g.table? d).isSome)
    (hcached : ∀ s, h.cached d s = g.cached d s) : h.table? d = g.table? d := by
  cases ht : g.table? d with
  | none => simpa [ht] using hsome
  | some t =>
    rw [ht, Option.isSome_some] at hsome
    obtain ⟨t', ht'⟩ := Option.isSome_iff_exists.mp hsome
    rw [ht', SlotArray.ext_of_get (t := t') (u := t)]
    intro s
    simpa only [cached, ht, ht', Option.bind_some] using hcached s

namespace Written

variable {g h h' k : ClassGraph} {id : ClassId} {s : Slot} {v : Option Value}

theorem ownMember_back {name : String} (r : g.Written id name v h) (t : h.Retabled h')
    (r' : h'.Written id name (g.ownMember id name) k) (a : ClassId) (n : String) :
    k.ownMember a n = g.ownMember a n := by
  rw [r'.ownMember, t.ownMember, r.ownMember, t.contains, r.orders.contains]
  split
  · next ha => rw [ha.1, ha.2.1]
  · rfl

theorem mro?_back {name : String} {v' : Option Value} (r : g.Written id name v h)
    (t : h.Retabled h') (r' : h'.Written id name v' k) (d : ClassId) : k.mro? d = g.mro? d :=
  (r'.orders.mro? d).trans ((t.mro? d).trans (r.orders.mro? d))

theorem resolve_back {name : String} (r : g.Written id name v h) (t : h.Retabled h')
    (r' : h'.Written id name (g.ownMember id name) k) (d : ClassId) (w : Slot) :
    k.resolve d w = g.resolve d w :=
  resolve_congr (by rw [mro_eq, mro_eq, r.mro?_back t r']) fun a _ => r.ownMember_back t r' a w.name

/-- The walk after the second write comes to every class that the first write was handed to: the
entry of a managed class on the way is what the first write led to, and that is to go. -/
theorem visited_back (r : g.Written id s.name v h) (hwf : g.WellFormed) (hexact : g.Exact)
    (hu : h.Refreshed h' fun d w => w = s ∧ h.Visited s [id] d)
    (r' : h'.Written id s.name (g.ownMember id s.name) k) {d : ClassId}
    (hd : Handed g h s id d) : k.Visited s [id] d := by
  induction hd with
  | self => exact .start (List.mem_singleton_self id)
  | @down a d ha hmoved hl ih =>
    have hlink : k.Link a d := by
      rw [r'.link_eq, hu.retabled.link_eq, r.link_eq]
      exact hl
    refine ih.down ⟨?_, ?_⟩ hlink
    · rw [r'.orders.contains, hu.retabled.contains, r.orders.contains]
      exact ((hwf.links a d).mp hl).1
    · intro hm
      have hm₁ := (hu.retabled.managed_iff a).mp ((r'.managed a).mp hm)
      have hvis := (r.visited_iff hwf hexact).mpr ha
      rw [r'.cached, hu.looked a s ⟨rfl, hvis⟩ hm₁, r.resolve_back hu.retabled r']
      exact (hmoved ((r.managed a).mp hm₁)).symm

/-- The second write has the slot looked up again along its walk. If it stops at once, the entry
of the class is the old value, and so it is right. -/
theorem refreshed_back (r : g.Written id s.name v h) (hwf : g.WellFormed) (hpub : g.Published)
    (hid : g.contains id = true) (hthere : v = none → (g.ownMember id s.name).isSome = true)
    (hu : h.Refreshed h' fun d w => w = s ∧ h.Visited s [id] d)
    (r' : h'.Written id s.name (g.ownMember id s.name) k) :
    ∃ u, k.memberWritten id s.name (g.ownMember id s.name) = (u, none) ∧
      k.Refreshed u.graph fun d w => w = s ∧ k.Visited s [id] d := by
  have hwf' : h'.WellFormed :=
    (SameOrders.of_retabled hu.retabled).wellFormed (r.orders.wellFormed hwf)
  have hid' : h'.contains id = true :=
    (hu.retabled.contains id).trans ((r.orders.contains id).trans hid)
  obtain ⟨u, hdone, ⟨hm, hearly, hsame⟩ | hk⟩ := memberWritten_slot s id
    (g.ownMember id s.name) (r'.published (hu.publishedAll (r.published hpub)))
    (hwf'.acyclic.congr r'.orders.links)
  · refine ⟨u, hdone, ?_⟩
    rw [hsame]
    apply Refreshed.of_fresh hm
    cases hold : g.ownMember id s.name with
    | some y => rw [r'.resolve_self hwf' rfl hid' hold, hearly, hold]
    | none =>
      -- the first write put a value in, and the entry of the class shows it
      obtain ⟨x, hx⟩ : ∃ x, v = some x := by
        cases v with
        | some x => exact ⟨x, rfl⟩
        | none => simp [hold] at hthere
      have hm₁ := (hu.retabled.managed_iff id).mp ((r'.managed id).mp hm)
      have hvis : h.Visited s [id] id := .start (List.mem_singleton_self id)
      rw [r'.cached, hu.looked id s ⟨rfl, hvis⟩ hm₁, r.resolve_self hwf rfl hid hx, hold] at hearly
      simp at hearly
  · exact ⟨u, hdone, hk⟩

theorem cached_back (r : g.Written id s.name v h) (hwf : g.WellFormed) (hexact : g.Exact)
    (hu : h.Refreshed h' fun d w => w = s ∧ h.Visited s [id] d)
    (r' : h'.Written id s.name (g.ownMember id s.name) k) {l : ClassGraph}
    (hk : k.Refreshed l fun d w => w = s ∧ k.Visited s [id] d) (d : ClassId) (w : Slot) :
    l.cached d w = g.cached d w := by
  by_cases hvis : w = s ∧ k.Visited s [id] d
  · by_cases hm : k.Managed d
    · have hm₁ := (r.managed d).mp ((hu.retabled.managed_iff d).mp ((r'.managed d).mp hm))
      rw [hk.looked d w hvis hm, r.resolve_back hu.retabled r', (exact_iff.mp hexact).2 d hm₁]
    · have hml : ¬ l.Managed d := fun h => hm ((hk.retabled.managed_iff d).mp h)
      have hmg : ¬ g.Managed d := fun h =>
        hm ((r'.managed d).mpr ((hu.retabled.managed_iff d).mpr ((r.managed d).mpr h)))
      rw [cached_of_not_managed hml, cached_of_not_managed hmg]
  · -- the second walk does not come here, so the first one did not either
    have hnot : ¬ (w = s ∧ h.Visited s [id] d) := by
      rintro ⟨hw, hd⟩
      exact hvis ⟨hw, r.visited_back hwf hexact hu r' ((r.visited_iff hwf hexact).mp hd)⟩
    rw [hk.kept d w hvis, r'.cached, hu.kept d w hnot, r.cached]

theorem restored (r : g.Written id s.name v h) (hwf : g.WellFormed) (hexact : g.Exact)
    (hu : h.Refreshed h' fun d w => w = s ∧ h.Visited s [id] d)
    (r' : h'.Written id s.name (g.ownMember id s.name) k) {l : ClassGraph}
    (hk : k.Refreshed l fun d w => w = s ∧ k.Visited s [id] d) : g.Restored l := by
  have horders : g.SameOrders l :=
    ((r.orders.trans (.of_retabled hu.retabled)).trans r'.orders).trans (.of_retabled hk.retabled)
  refine ⟨horders.mro?, ?_, horders.subclasses, ?_, ?_⟩
  · intro d
    have hbases := congrArg (Option.map Prod.fst) (horders.orders d)
    rw [Option.map_map, Option.map_map] at hbases
    exact congrArg (·.getD []) hbases
  · intro d n
    rw [hk.retabled.ownMember, r.ownMember_back hu.retabled r']
  · intro d
    apply table?_of_cached
    · rw [hk.published, r'.tables, hu.published, r.tables]
    · exact r.cached_back hwf hexact hu r' hk d

end Written

theorem Exact.table?_eq {g h : ClassGraph} (hg : g.Exact) (hh : h.Exact) {d : ClassId}
    (hmanaged : h.Managed d ↔ g.Managed d) (hresolve : ∀ s, h.resolve d s = g.resolve d s) :
    h.table? d = g.table? d := by
  obtain ⟨hpub, hcached⟩ := exact_iff.mp hg
  obtain ⟨hpub', hcached'⟩ := exact_iff.mp hh
  apply table?_of_cached
  · by_cases hm : g.Managed d
    · rw [hpub d hm, hpub' d (hmanaged.mpr hm)]
    · have hnone : ∀ k : ClassGraph, ¬ k.Managed d → (k.table? d).isSome = false := by
        intro k hk
        cases ht : k.table? d with
        | none => rfl
        | some t => exact absurd (managed_of_table? ht) hk
      rw [hnone g hm, hnone h fun hm' => hm (hmanaged.mp hm')]
  · intro s
    by_cases hm : g.Managed d
    · rw [hcached d hm, hcached' d (hmanaged.mpr hm), hresolve]
    · rw [cached_of_not_managed hm, cached_of_not_managed fun hm' => hm (hmanaged.mp hm')]

theorem Mutable.congr {g h : ClassGraph} {id : ClassId} (hm : g.Mutable id)
    (hflags : (h.class? id).map ClassObject.flags = (g.class? id).map ClassObject.flags) :
    h.Mutable id := by
  obtain ⟨c, hc, hmut⟩ := hm
  rw [hc, Option.map_some] at hflags
  obtain ⟨c', hc', hsame⟩ := Option.map_eq_some_iff.mp hflags
  refine ⟨c', hc', ?_⟩
  rw [ClassObject.isImmutable, hsame]
  exact hmut

theorem Rebased.mutable {g h k : ClassGraph} {id d : ClassId} {bases : List ClassId}
    (r : g.Rebased id bases h) (t : h.Retabled k) (hm : g.Mutable d) : k.Mutable d := by
  apply hm.congr
  rw [t.map_class? ClassObject.flags ClassObject.untabled_flags, r.classes, Option.map_map]
  rfl

theorem DiffersAt.restored {g h k l : ClassGraph} {id : ClassId} {c : ClassObject}
    (r : g.DiffersAt id h) (hexact : g.Exact) (hc : g.class? id = some c)
    (q : h.Rebased id c.bases k) (hmro : ∀ d, k.mro? d = g.mro? d)
    (hsubclasses : ∀ b, k.subclasses b = g.subclasses b) (t : k.Retabled l)
    (hexact' : l.Exact) : g.Restored l := by
  have hmro' : ∀ d, l.mro? d = g.mro? d := fun d => (t.mro? d).trans (hmro d)
  have hown : ∀ d name, l.ownMember d name = g.ownMember d name := fun d name =>
    (t.ownMember d name).trans ((q.ownMember d name).trans (r.ownMember d name))
  refine ⟨hmro', ?_, fun b => (t.subclasses b).trans (hsubclasses b), hown, ?_⟩
  · intro d
    rw [t.basesOf, q.basesOf]
    split
    · next hd => rw [hd, basesOf_of_class? hc]
    · next hd => exact r.basesOf d hd
  · intro d
    apply hexact.table?_eq hexact'
    · exact (t.managed_iff d).trans ((q.managed_iff d).trans (r.managed d))
    · intro s
      exact resolve_congr (by rw [mro_eq, mro_eq, hmro']) fun a _ => hown a s.name

end ClassGraph

namespace Context

variable {c : Context} {id : ClassId} {cls : ClassObject}

theorem restored_after_write (hs : c.graph.Sound) (hexact : c.graph.Exact)
    (hcls : c.graph.class? id = some cls) (hwritable : cls.isWritable = true) {s : Slot}
    {v : Option Value} (hthere : v = none → (c.graph.ownMember id s.name).isSome = true) :
    ∃ r r', (c.write id s.name v).2 = .ok r ∧
      ((c.write id s.name v).1.write id s.name (c.graph.ownMember id s.name)).2 = .ok r' ∧
      c.graph.Restored
        ((c.write id s.name v).1.write id s.name (c.graph.ownMember id s.name)).1.graph := by
  have hid := contains_of_class? hcls
  have hthere' : c.graph.ownMember id s.name = none → v.isSome = true := by
    intro hnone
    by_contra hv
    have hfound := hthere (Option.not_isSome_iff_eq_none.mp hv)
    simp [hnone] at hfound
  obtain ⟨h, u, h', k, q, hdone, q', -, hback, hok, hgraph, hok', hgraph'⟩ :=
    write_twice hs hcls hwritable hthere hthere'
  obtain ⟨u', hdone', hu⟩ := q.refreshed hs.wellFormed hexact hid rfl hthere
  obtain rfl : u = u' := congrArg Prod.fst (hdone.symm.trans hdone')
  obtain ⟨k', hback', hk⟩ := q.refreshed_back hs.wellFormed hs.published hid hthere hu q'
  obtain rfl : k = k' := congrArg Prod.fst (hback.symm.trans hback')
  refine ⟨u.report, k.report, hok, hok', ?_⟩
  rw [hgraph']
  exact q.restored hs.wellFormed hexact hu q' hk

theorem restored_after_rebase (hs : c.graph.Sound) (hcl : c.graph.Closed)
    (hexact : c.graph.Exact) (hcls : c.graph.class? id = some cls) {bases : List ClassId}
    (hok : (c.setBases id bases).2.isOk = true) :
    ∃ r, ((c.setBases id bases).1.setBases id cls.bases).2 = .ok r ∧
      c.graph.Restored ((c.setBases id bases).1.setBases id cls.bases).1.graph := by
  rcases setBases_cases hs id bases with ⟨err, hans⟩ | ⟨changed, k, u, hm, hrebase, hdone, hans⟩
  · rw [hans] at hok
    simp [refuse, Except.isOk, Except.toBool] at hok
  have hne := hs.ne_root hm
  obtain ⟨q, hchanged⟩ := rebase_ok hs.wellFormed hrebase
  obtain ⟨u', hdone', ht, hexact'⟩ := q.exact_basesReplaced hs.wellFormed hne hexact hchanged
  obtain rfl : u = u' := congrArg Prod.fst (hdone.symm.trans hdone')
  have hs' : u.graph.Sound := by
    have hstep := hs.step (by simp [ClassEdit.isDefinition])
      (c.apply_step (.setBases id bases))
    simpa only [apply, hans] using hstep
  have hdiff : c.graph.DiffersAt id u.graph := (DiffersAt.of_rebased q).retabled ht
  obtain ⟨changed', k', hback, hmro, hsubclasses⟩ :=
    hdiff.rebase_back_of_closed hs.wellFormed hs'.wellFormed hcl hcls
  rw [hans]
  rcases setBases_of_mutable
    (c := { c with graph := u.graph, updates := c.updates.addBaseChange u.report })
    hs' (q.mutable ht hm) cls.bases with ⟨e, hfails, -⟩ | ⟨_, _, l, hrebase', hagain, hans'⟩
  · simp [hback] at hfails
  · obtain ⟨rfl, rfl⟩ := Prod.mk.inj (Except.ok.inj (hback.symm.trans hrebase'))
    obtain ⟨q', hchanged'⟩ := rebase_ok hs'.wellFormed hback
    obtain ⟨l', hagain', ht', hafter⟩ :=
      q'.exact_basesReplaced hs'.wellFormed hne hexact' hchanged'
    obtain rfl : l = l' := congrArg Prod.fst (hagain.symm.trans hagain')
    refine ⟨l.report, congrArg Prod.snd hans', ?_⟩
    rw [hans']
    exact hdiff.restored hexact hcls q' hmro hsubclasses ht' hafter

end Context

namespace Process

/-- In a context with right tables a slot of a class that may be written is set, or deleted where
the class defines it, and then what the class had before is put back. Neither is refused, and
afterwards all classes and tables are as they were. -/
theorem undone_after_write {p : Process} (hp : p.Reachable) {c : Context} {n : ℕ}
    (hc : (c, n) ∈ p.contexts) (hn : n < ClassId.available) (hright : c.graph.TablesRight)
    {id : ClassId} {cls : ClassObject}
    (hcls : c.graph.class? id = some cls) (hwritable : cls.isWritable = true) {s : Slot}
    {v : Option Value} (hthere : v = none → (c.graph.ownMember id s.name).isSome = true)
    {e e' : ClassEdit} (he : e.write? = some (id, s.name, v))
    (he' : e'.write? = some (id, s.name, c.graph.ownMember id s.name)) :
    ∃ r r', c.answer e = .ok (some r) ∧ (c.apply e).answer e' = .ok (some r') ∧
      c.graph.Restored ((c.apply e).apply e').graph := by
  have hs := hp.sound hc hn
  obtain ⟨r, r', hok, hback, hrestored⟩ := Context.restored_after_write hs
    (hright.exact hs.published) hcls hwritable hthere
  obtain ⟨hanswer, happly⟩ := c.answer_of_write? he
  obtain ⟨hanswer', happly'⟩ := (c.apply e).answer_of_write? he'
  refine ⟨r, r', ?_, ?_, ?_⟩
  · rw [hanswer, hok]
    rfl
  · rw [hanswer', happly, hback]
    rfl
  · rw [happly', happly]
    exact hrestored

/-- The class on the left of a diamond comes to define the value that it inherited, so the class
at the bottom is missed; when the member is deleted again, its table is right as before. -/
theorem diamond_undone :
    ∃ c n r r', (c, n) ∈ (ofRun .unchecked Host.diamondEdits).contexts ∧ n < ClassId.available ∧
      c.answer (.setMember 65 "__len__" (.function ⟨1, "f"⟩)) = .ok (some r) ∧
      (c.apply (.setMember 65 "__len__" (.function ⟨1, "f"⟩))).answer
        (.deleteMember 65 "__len__") = .ok (some r') ∧
      c.graph.Restored ((c.apply (.setMember 65 "__len__" (.function ⟨1, "f"⟩))).apply
        (.deleteMember 65 "__len__")).graph := by
  have hrun : (Host.diamond.graph.class? 65).any ClassObject.isWritable = true ∧
      Host.diamond.graph.ownMember 65 Slot.len.name = none := by decide +kernel
  obtain ⟨hany, hnone⟩ := hrun
  obtain ⟨cls, hcls, hwritable⟩ := (Option.any_eq_true _ _).mp hany
  have hc : (Host.diamond, 4) ∈ (ofRun .unchecked Host.diamondEdits).contexts :=
    List.mem_singleton_self _
  have hdelete : (ClassEdit.deleteMember 65 "__len__").write? =
      some (65, Slot.len.name, Host.diamond.graph.ownMember 65 Slot.len.name) := by
    rw [hnone]
    rfl
  obtain ⟨r, r', hundone⟩ := undone_after_write
    (reachable_ofRun .unchecked Host.diamondEdits) hc (by decide) Host.diamond_tablesRight hcls
    hwritable (v := some (.function ⟨1, "f"⟩)) (by simp)
    (e := .setMember 65 "__len__" (.function ⟨1, "f"⟩)) rfl hdelete
  exact ⟨Host.diamond, 4, r, r', hc, by decide, hundone⟩

end Process

namespace Host

/-- After a run that takes no class away and leaves all tables right, the bases of a class are
replaced. Then they can be replaced by the former bases, and afterwards all classes, links and
tables are as they were. -/
theorem undone_after_setBases (p : Host) (config : Config) (edits : List ClassEdit)
    (hids : edits.countP ClassEdit.isDefinition < ClassId.available)
    (hkeeps : ∀ e ∈ edits, e.isRemoval = false)
    (hright : ((p.start config).1.run edits).graph.TablesRight) {id : ClassId} {cls : ClassObject}
    (hcls : ((p.start config).1.run edits).graph.class? id = some cls) {bases : List ClassId}
    (hok : (((p.start config).1.run edits).setBases id bases).2.isOk = true) :
    ∃ r, ((((p.start config).1.run edits).setBases id bases).1.setBases id cls.bases).2 = .ok r ∧
      ((p.start config).1.run edits).graph.Restored
        ((((p.start config).1.run edits).setBases id bases).1.setBases id cls.bases).1.graph := by
  have hs := p.sound_run config hids
  exact Context.restored_after_rebase hs (p.closed_run config hids hkeeps)
    (hright.exact hs.published) hcls hok

/-- The class in the middle is taken from below the outside class and put back. -/
theorem rehung_undone :
    ∃ cls r, rehung.graph.class? 65 = some cls ∧ cls.bases = [64] ∧
      (rehung.setBases 65 []).2.isOk = true ∧
      ((rehung.setBases 65 []).1.setBases 65 cls.bases).2 = .ok r ∧
      rehung.graph.Restored ((rehung.setBases 65 []).1.setBases 65 cls.bases).1.graph := by
  have hright : rehung.graph.TablesRight :=
    tablesRight_of_no_write {} .unchecked (by decide) (by decide) (by decide)
  have hrun : (rehung.setBases 65 []).2.isOk = true ∧
      (rehung.graph.class? 65).any (fun c => c.bases = [64]) = true := by decide +kernel
  obtain ⟨hok, hany⟩ := hrun
  obtain ⟨cls, hcls, hbases⟩ := (Option.any_eq_true _ _).mp hany
  unfold rehung at hright hcls hok ⊢
  obtain ⟨r, hback⟩ := undone_after_setBases {} .unchecked rehungEdits (by decide) (by decide)
    hright hcls hok
  exact ⟨cls, r, hcls, of_decide_eq_true hbases, hok, hback⟩

end Host

end MethodCache
