import MethodCache.Proofs.Process
import MethodCache.Proofs.Reporting

/-!
How far a change goes. Writing a member of a class or replacing its bases touches that class and
the classes below it and no other, and the answer tells which tables it touched: every class whose
table is another one afterwards is listed, and every class listed as updated has an entry that is
another one afterwards. A write changes entries of the written slot only, and under a name that
denotes no slot it changes no table.
-/
namespace MethodCache

open ClassGraph Relation

namespace ClassGraph

/-- A change that reaches no further than a class and the classes below it, and a report that
tells whose tables it changed. -/
structure Confined (g h : ClassGraph) (id : ClassId) (r : UpdateReport) : Prop where
  others : ∀ d, d ≠ id → d ∉ g.descendants id → h.class? d = g.class? d
  listed : ∀ d, h.table? d ≠ g.table? d → d ∈ r.updated ∨ d ∈ r.rebuilt
  moved : ∀ d ∈ r.updated, ∃ t t' s,
    g.table? d = some t ∧ h.table? d = some t' ∧ t.get s ≠ t'.get s

variable {g h : ClassGraph} {id : ClassId}

theorem mem_reach {d : ClassId} (hchain : ∀ a, TransGen h.Link id a → TransGen g.Link id a)
    (hd : ReflTransGen h.Link id d) : d = id ∨ d ∈ g.descendants id := by
  by_cases hid : d = id
  · exact Or.inl hid
  · have hdown := (reflTransGen_iff_eq_or_transGen.mp hd).resolve_left hid
    exact Or.inr (mem_descendants.mpr ⟨hid, hchain d hdown⟩)

/-- An update that starts from the tables as they were, and is reported, stays within its reach. -/
theorem confined_of_reported {u : Update} (htables : ∀ d, h.table? d = g.table? d)
    (hothers : ∀ d, d ≠ id → d ∉ g.descendants id → h.class? d = g.class? d)
    (hchain : ∀ d, TransGen h.Link id d → TransGen g.Link id d) (hpub : h.Published)
    (r : Update.Reported (ReflTransGen h.Link id) ⟨h, {}⟩ u) :
    g.Confined u.graph id u.report := by
  have hnone : ∀ d, ¬ (⟨h, {}⟩ : Update).Lists d := by
    rintro d (hd | hd) <;> simp at hd
  refine ⟨?_, ?_, ?_⟩
  · intro d hd hdesc
    rw [← hothers d hd hdesc]
    by_contra hne
    have hreach := (r.within d (r.listed d hne)).resolve_left (hnone d)
    exact (mem_reach hchain hreach).elim hd hdesc
  · intro d hne
    apply r.listed d
    intro hsame
    apply hne
    rw [← htables]
    unfold table?
    rw [hsame]
  · intro d hd
    obtain ⟨s, ⟨hm, hstale⟩, hright⟩ := (r.moved d hd).resolve_left (by simp)
    obtain ⟨V, hV⟩ := r.refreshed
    obtain ⟨t, ht⟩ := Option.isSome_iff_exists.mp (hpub d hm)
    obtain ⟨t', ht'⟩ := Option.isSome_iff_exists.mp
      (hV.publishedAll hpub d ((hV.retabled.managed_iff d).mpr hm))
    refine ⟨t, t', s, (htables d).symm.trans ht, ht', ?_⟩
    rw [cached, ht'] at hright
    rw [cached, ht] at hstale
    intro hsame
    exact hstale (hsame.trans hright)

/-! A write. -/

theorem entry_congr {d : ClassId} {s : Slot} (hsome : (h.table? d).isSome = (g.table? d).isSome)
    (hcached : h.cached d s = g.cached d s) :
    (h.table? d).map (·.get s) = (g.table? d).map (·.get s) := by
  unfold cached at hcached
  cases ht : g.table? d with
  | none => simpa [ht] using hsome
  | some t =>
    rw [ht, Option.isSome_some] at hsome
    obtain ⟨t', ht'⟩ := Option.isSome_iff_exists.mp hsome
    rw [ht, ht', Option.bind_some, Option.bind_some] at hcached
    rw [ht', Option.map_some, Option.map_some, hcached]

namespace Written

variable {name : String} {v : Option Value} {u : Update}

theorem entry_of_ne (r : g.Written id name v h) (hwf : g.WellFormed) (hpub : g.Published)
    (hdone : h.memberWritten id name v = (u, none)) (d : ClassId) {s : Slot}
    (hs : s.name ≠ name) : (u.graph.table? d).map (·.get s) = (g.table? d).map (·.get s) := by
  rw [← r.tables]
  cases hname : Slot.ofName? name with
  | none =>
    rw [memberWritten_of_not_slot hname] at hdone
    obtain rfl : ⟨h, {}⟩ = u := congrArg Prod.fst hdone
    rfl
  | some w =>
    obtain rfl := Slot.name_of_ofName? hname
    obtain ⟨u', hdone', hsame⟩ := memberWritten_slot w id v (r.published hpub)
      (hwf.acyclic.congr r.orders.links)
    obtain rfl : u = u' := congrArg Prod.fst (hdone.symm.trans hdone')
    rcases hsame with ⟨-, -, hsame⟩ | hu
    · rw [hsame]
    · exact entry_congr (hu.published d) (hu.kept d s fun hsw => hs (congrArg Slot.name hsw.1))

theorem table?_of_not_slot (r : g.Written id name v h)
    (hdone : h.memberWritten id name v = (u, none)) (hname : Slot.ofName? name = none)
    (d : ClassId) : u.graph.table? d = g.table? d := by
  rw [memberWritten_of_not_slot hname] at hdone
  obtain rfl : ⟨h, {}⟩ = u := congrArg Prod.fst hdone
  exact r.tables d

end Written

/-! A change of bases. -/

namespace Rebased

variable {bases : List ClassId}

theorem chain_iff (r : g.Rebased id bases h) (hac : g.Acyclic) (hac' : h.Acyclic) (d : ClassId) :
    TransGen h.Link id d ↔ TransGen g.Link id d := by
  apply chain_iff_of_links hac hac'
  intro b d hd
  rw [r.links]
  simp [hd]

theorem class?_kept (r : g.Rebased id bases h) {d : ClassId} (hd : d ≠ id)
    (hdesc : d ∉ g.descendants id) : h.class? d = g.class? d := by
  have hkept := r.kept d hd hdesc
  rw [r.classes]
  cases hc : g.class? d with
  | none => rfl
  | some c =>
    rw [mro?_of_class? hc] at hkept
    have hmro : h.mro d = c.mro := by rw [mro_eq, hkept, Option.getD_some]
    simp [hd, hmro]

end Rebased

theorem confined_written {name : String} {v : Option Value} {c w : ClassObject}
    (hpub : g.Published) (hc : g.class? id = some c) (hw : c.writeMember? name v = some w) :
    g.Confined ((g.modify id fun _ => w).memberWritten id name v).1.graph id
      ((g.modify id fun _ => w).memberWritten id name v).1.report := by
  have r := written_modify hc hw
  have hpub' := r.published hpub
  apply confined_of_reported r.tables _ _ hpub' (memberWritten_reported id name v hpub')
  · exact fun d hd _ => class?_modify_of_ne _ (Ne.symm hd) _
  · exact fun d hd => r.link_eq ▸ hd

theorem confined_rebased {bases changed : List ClassId} (hs : g.Sound) (hm : g.Mutable id)
    (hok : g.rebase id bases = .ok (changed, h)) :
    g.Confined (h.basesReplaced id changed).1.graph id (h.basesReplaced id changed).1.report := by
  obtain ⟨r, hchanged⟩ := rebase_ok hs.wellFormed hok
  have hs' := hs.rebased r (hs.ne_root hm)
  have hchain := r.chain_iff hs.wellFormed.acyclic hs'.wellFormed.acyclic
  have hreach : ∀ d ∈ changed, ReflTransGen h.Link id d := by
    intro d hd
    obtain ⟨-, hdown⟩ := mem_descendants.mp ((hchanged d).mp hd).1
    exact ((hchain d).mpr hdown).to_reflTransGen
  exact confined_of_reported r.table? (fun d => r.class?_kept) (fun d => (hchain d).mp)
    hs'.published (basesReplaced_reported hs'.wellFormed hs'.published hs'.rootRight hreach)

end ClassGraph

namespace Context

variable {c : Context} {id : ClassId} {r : UpdateReport}

theorem confined_write (hs : c.graph.Sound) {name : String} {v : Option Value}
    (h : (c.write id name v).2 = .ok r) :
    c.graph.Confined (c.write id name v).1.graph id r ∧
    (∀ d (s : Slot), s.name ≠ name → ((c.write id name v).1.graph.table? d).map (·.get s) =
      (c.graph.table? d).map (·.get s)) ∧
    (Slot.ofName? name = none →
      ∀ d, (c.write id name v).1.graph.table? d = c.graph.table? d) := by
  rcases write_cases hs id name v with ⟨err, hans⟩ |
    ⟨cls, w, u, hcls, -, hw, -, hdone, hans⟩
  · rw [hans] at h
    simp [refuse] at h
  · have q := written_modify hcls hw
    have hconfined := confined_written hs.published hcls hw
    rw [hdone] at hconfined
    rw [hans] at h ⊢
    obtain rfl : u.report = r := Except.ok.inj h
    exact ⟨hconfined, fun d s hne => q.entry_of_ne hs.wellFormed hs.published hdone d hne,
      q.table?_of_not_slot hdone⟩

theorem confined_setBases (hs : c.graph.Sound) {bases : List ClassId}
    (h : (c.setBases id bases).2 = .ok r) :
    c.graph.Confined (c.setBases id bases).1.graph id r := by
  rcases setBases_cases hs id bases with ⟨err, hans⟩ | ⟨changed, k, u, hm, hok, hdone, hans⟩
  · rw [hans] at h
    simp [refuse] at h
  · have hconfined := confined_rebased hs hm hok
    rw [hdone] at hconfined
    rw [hans] at h ⊢
    obtain rfl : u.report = r := Except.ok.inj h
    exact hconfined

end Context

namespace Process

/-- A write or a change of bases that is not refused touches the class and the classes below it
only, and its report tells which tables it changed; a write changes entries of its slot only. -/
theorem confined_of_ok {p : Process} (hp : p.Reachable) {c : Context} {n : ℕ}
    (hc : (c, n) ∈ p.contexts) (hn : n < ClassId.available) {e : ClassEdit} {id : ClassId}
    {r : UpdateReport} (hid : e.updates? = some id) (h : c.answer e = .ok (some r)) :
    c.graph.Confined (c.apply e).graph id r ∧
    ∀ name v, e.write? = some (id, name, v) →
      (∀ d (s : Slot), s.name ≠ name →
        ((c.apply e).graph.table? d).map (·.get s) = (c.graph.table? d).map (·.get s)) ∧
      (Slot.ofName? name = none → ∀ d, (c.apply e).graph.table? d = c.graph.table? d) := by
  have hs := hp.sound hc hn
  have hok : ∀ {a : Except EditFailure UpdateReport}, a.map some = .ok (some r) → a = .ok r := by
    intro a ha
    cases a with
    | error f => simp [Except.map] at ha
    | ok r' =>
      rw [Option.some.inj (Except.ok.inj ha)]
  cases e with
  | define name bases members => simp [ClassEdit.updates?] at hid
  | defineForeign name bases members readOnly => simp [ClassEdit.updates?] at hid
  | unregister id => simp [ClassEdit.updates?] at hid
  | setMember id' name v =>
    obtain rfl := Option.some.inj hid
    obtain ⟨hconf, hrest⟩ := Context.confined_write hs (v := some v) (hok h)
    refine ⟨hconf, ?_⟩
    rintro _ _ ⟨⟩
    exact hrest
  | deleteMember id' name =>
    obtain rfl := Option.some.inj hid
    obtain ⟨hconf, hrest⟩ := Context.confined_write hs (v := none) (hok h)
    refine ⟨hconf, ?_⟩
    rintro _ _ ⟨⟩
    exact hrest
  | setBases id' bases =>
    obtain rfl := Option.some.inj hid
    refine ⟨Context.confined_setBases hs (hok h), ?_⟩
    intro name v hw
    simp [ClassEdit.write?] at hw

/-- A class with a member, a class below it, and a class apart. -/
def apartEdits : List ClassEdit :=
  [.define "Above" [] [("__len__", .function ⟨1, "f"⟩)], .define "Below" [64] [],
    .define "Apart" [] []]

/-- Another value for the member changes the tables of the class and of the one below it. -/
theorem apart_confined :
    ∃ c n r, (c, n) ∈ (ofRun .unchecked apartEdits).contexts ∧ n < ClassId.available ∧
      r.updated = [64, 65] ∧
      c.answer (.setMember 64 "__len__" (.function ⟨2, "g"⟩)) = .ok (some r) ∧
      c.graph.Confined (c.apply (.setMember 64 "__len__" (.function ⟨2, "g"⟩))).graph 64 r := by
  let c := (({} : Host).start .unchecked).1.run apartEdits
  have hok : c.answer (.setMember 64 "__len__" (.function ⟨2, "g"⟩)) =
      .ok (some { slot := some .len, visited := 2, updated := [64, 65] }) := by decide +kernel
  have hc : (c, 3) ∈ (ofRun .unchecked apartEdits).contexts := List.mem_singleton_self _
  obtain ⟨hconfined, -⟩ :=
    confined_of_ok (reachable_ofRun .unchecked apartEdits) hc (by decide) rfl hok
  exact ⟨c, 3, _, hc, by decide, rfl, hok, hconfined⟩

end Process

end MethodCache
