import MethodCache.Proofs.Starting

/-!
What changes answer. A change that is refused leaves the context as it was; only the id that a new
class would have had is used up. In a sound graph every change that is not refused is carried
through: there are turns enough to linearize all classes below a class, since each turn takes
another one, and no walk meets a managed class without a table.
-/
namespace MethodCache

namespace ClassEdit

/-- The class that the change is made to, where tables are brought up to date after it. -/
def updates? : ClassEdit → Option ClassId
  | .setMember id _ _ | .deleteMember id _ | .setBases id _ => some id
  | _ => none

end ClassEdit

namespace ClassGraph

/-! Turns enough to linearize everything below a class. -/

/-- Each turn takes a class below that has not had one, so there is a turn for each. -/
theorem relinearizeWithin_ne_endless {g : ClassGraph} {below : List ClassId} {turns : ℕ}
    {r : Relinearization} (hwf : g.WellFormed)
    (hbelow : ∀ y ∈ below, g.contains y = true ∧ y ≠ ClassId.root) (s : g.Scheduled below r)
    (hturns : below.length ≤ r.order.length + turns) :
    g.relinearizeWithin turns r ≠ .error .endless := by
  have hcount : ∀ q, g.Scheduled below q → q.order.length + q.ready.length ≤ below.length := by
    intro q sq
    rw [← List.length_append]
    exact (List.subperm_of_subset sq.nodup sq.mem_below).length_le
  induction turns generalizing r with
  | zero =>
    unfold relinearizeWithin
    split
    · simp
    · next x rest hready =>
      have hlen := hcount r s
      rw [hready, List.length_cons] at hlen
      omega
  | succ turns ih =>
    unfold relinearizeWithin
    split
    · simp
    · next x rest hready =>
      obtain ⟨hx, -⟩ := hbelow x (s.head_mem_below hready)
      cases hnext : g.relinearizeNext r x rest with
      | error e => simp
      | ok r₁ =>
        obtain ⟨o, -, rfl⟩ := relinearizeNext_ok hx hnext
        apply ih (s.next hwf hbelow hready _)
        rw [(foldl_release _ (g.subclasses_nodup x)).2.1]
        simp only [List.length_append, List.length_singleton]
        omega

theorem descendants_length_le (g : ClassGraph) (id : ClassId) :
    (g.descendants id).length ≤ g.pathBound := by
  have hlinked : g.descendants id ⊆ g.linked := by
    intro d hd
    obtain ⟨-, hchain⟩ := mem_descendants.mp hd
    cases hchain with
    | single hl => exact mem_linked_of_link hl
    | tail _ hl => exact mem_linked_of_link hl
  have hle := (List.subperm_of_subset (g.descendants_nodup id) hlinked).length_le
  have hpow : g.linked.length + 1 ≤ g.pathBound := Nat.le_self_pow (Nat.succ_ne_zero _) _
  omega

theorem rebase_ne_endless {g : ClassGraph} (hwf : g.WellFormed) (id : ClassId)
    (bases : List ClassId) : g.rebase id bases ≠ .error .endless := by
  unfold rebase
  split
  · simp
  · split
    · next e he =>
      rintro ⟨rfl⟩
      unfold relinearize at he
      simp only at he
      split at he
      · simp at he
      · split at he
        · simp at he
        · next first hfirst =>
          have s := g.startRelinearization_scheduled (g.descendants_nodup id) id first
          generalize g.startRelinearization (g.descendants id) id first = start at s he
          cases hready : start.ready with
          | nil =>
            unfold relinearizeWithin at he
            simp [hready] at he
          | cons x rest =>
            refine relinearizeWithin_ne_endless hwf (hwf.registered_below id) s ?_ he
            have hbound := g.descendants_length_le id
            rw [hready, List.length_cons, Nat.succ_mul]
            omega
    · simp

end ClassGraph

namespace Context

open ClassGraph

/-- What a change answers: a report where tables are brought up to date, else only that it was
done. -/
def answer (c : Context) : ClassEdit → Except EditFailure (Option UpdateReport)
  | .define name bases members => (c.define name bases members).2.map fun _ => none
  | .defineForeign name bases members readOnly =>
    (c.defineForeign name bases members readOnly).2.map fun _ => none
  | .setMember id name v => (c.setMember id name v).2.map some
  | .deleteMember id name => (c.deleteMember id name).2.map some
  | .setBases id bases => (c.setBases id bases).2.map some
  | .unregister id => (c.unregister id).2.map fun _ => none

def skipId (c : Context) : Context := { c with graph := c.graph.allocate.2 }

def write (c : Context) (id : ClassId) (name : String) (v : Option Value) :
    Answer UpdateReport :=
  match c.editable id with
  | .error e => c.refuse e
  | .ok _ => countWrite (c.writeMember id name v)

/-! The graph and the counters of updates are all that a change touches. -/

theorem defineWith_fst (c : Context) (name : String) (bases : List ClassId)
    (members : List (String × Value)) {add : Context → ClassId → ClassObject → Context}
    (hadd : ∀ (k : Context) id cls, ∃ g, add k id cls = { k with graph := g })
    (kind : ClassKind) :
    ∃ g, (c.defineWith name bases members add kind).1 = { c with graph := g } := by
  unfold defineWith
  simp only
  split
  · exact ⟨_, rfl⟩
  · exact hadd { c with graph := c.graph.allocate.2 } c.graph.allocate.1 _

theorem writeMember_fst (c : Context) (id : ClassId) (name : String) (v : Option Value) :
    ∃ g, (c.writeMember id name v).1 = { c with graph := g } := by
  unfold writeMember
  split
  · exact ⟨_, rfl⟩
  · split
    · exact ⟨_, rfl⟩
    · simp only
      split
      · exact ⟨_, rfl⟩
      · rw [adopt_fst]
        exact ⟨_, rfl⟩

theorem write_fst (c : Context) (id : ClassId) (name : String) (v : Option Value) :
    ∃ g n, (c.write id name v).1 = { c with graph := g, updates := n } := by
  obtain ⟨g, hg⟩ := c.writeMember_fst id name v
  unfold write countWrite
  split
  · exact ⟨_, _, rfl⟩
  · split
    · next k r hk =>
      rw [hk] at hg
      obtain rfl : k = { c with graph := g } := hg
      exact ⟨g, c.updates.addWrite r, rfl⟩
    · exact ⟨g, _, hg⟩

theorem setBases_fst (c : Context) (id : ClassId) (bases : List ClassId) :
    ∃ g n, (c.setBases id bases).1 = { c with graph := g, updates := n } := by
  unfold setBases
  split
  · exact ⟨_, _, rfl⟩
  · split
    · exact ⟨_, _, rfl⟩
    · exact ⟨_, _, rfl⟩
    · next changed k hk =>
      have hadopt := c.adopt_fst (k.basesReplaced id changed)
      split
      · next c' r hc' =>
        rw [hc'] at hadopt
        obtain rfl : c' = { c with graph := (k.basesReplaced id changed).1.graph } := hadopt
        exact ⟨_, c.updates.addBaseChange r, rfl⟩
      · exact ⟨_, _, hadopt⟩

theorem apply_fst (c : Context) (e : ClassEdit) :
    ∃ g n, c.apply e = { c with graph := g, updates := n } := by
  cases e with
  | define name bases members =>
    obtain ⟨g, hg⟩ := c.defineWith_fst name bases members (fun k id cls => ⟨_, rfl⟩) (.managed {})
    exact ⟨g, c.updates, hg⟩
  | defineForeign name bases members readOnly =>
    obtain ⟨g, hg⟩ :=
      c.defineWith_fst name bases members (fun k id cls => ⟨_, rfl⟩) (.foreign readOnly)
    exact ⟨g, c.updates, hg⟩
  | setMember id name v => exact c.write_fst id name (some v)
  | deleteMember id name => exact c.write_fst id name none
  | setBases id bases => exact c.setBases_fst id bases
  | unregister id =>
    unfold apply unregister
    simp only
    split <;> exact ⟨_, _, rfl⟩

/-! Each change is refused, or it is carried through. -/

section Cases

variable {c : Context}

theorem defineWith_cases (c : Context) (name : String) (bases : List ClassId)
    (members : List (String × Value)) (add : Context → ClassId → ClassObject → Context)
    (kind : ClassKind) :
    (∃ err, c.defineWith name bases members add kind = c.skipId.refuse err) ∨
    ∃ c' id, c.defineWith name bases members add kind = (c', .ok id) := by
  unfold defineWith
  simp only
  split
  · next e he => exact Or.inl ⟨_, rfl⟩
  · next mro hmro => exact Or.inr ⟨_, _, rfl⟩

theorem writeMember_done (hwf : c.graph.WellFormed) (hpub : c.graph.Published) {id : ClassId}
    {name : String} {v : Option Value} {cls w : ClassObject}
    (hcls : c.graph.class? id = some cls) (hw : cls.writeMember? name v = some w)
    (hthere : v = none → (cls.members.get? name).isSome = true) :
    ∃ u, (c.graph.modify id fun _ => w).memberWritten id name v = (u, none) ∧
      (∃ V, (c.graph.modify id fun _ => w).Refreshed u.graph V) ∧
      c.writeMember id name v = ({ c with graph := u.graph }, .ok u.report) := by
  have r := written_modify hcls hw
  obtain ⟨u, V, hdone, hu⟩ := memberWritten_ok id name v (r.published hpub)
    (hwf.acyclic.congr r.orders.links)
  have hpresent : ¬ (v = none ∧ cls.members.get? name = none) := by
    rintro ⟨hv, hmissing⟩
    simpa [hmissing] using hthere hv
  refine ⟨u, hdone, ⟨V, hu⟩, ?_⟩
  simp only [writeMember, hcls, hw, if_neg hpresent, hdone]
  rfl

/-- A member that cannot be written or removed leaves the context alone, although the members are
written before it is known that there was nothing to remove. -/
theorem writeMember_cases (hwf : c.graph.WellFormed) (hpub : c.graph.Published) (id : ClassId)
    (name : String) (v : Option Value) :
    (∃ err, c.writeMember id name v = c.refuse err) ∨
    ∃ cls w u, c.graph.class? id = some cls ∧ cls.writeMember? name v = some w ∧
      (v = none → (cls.members.get? name).isSome = true) ∧
      (c.graph.modify id fun _ => w).memberWritten id name v = (u, none) ∧
      (∃ V, (c.graph.modify id fun _ => w).Refreshed u.graph V) ∧
      c.writeMember id name v = ({ c with graph := u.graph }, .ok u.report) := by
  cases hcls : c.graph.class? id with
  | none => exact Or.inl ⟨.unknownClass id, by simp only [writeMember, hcls]⟩
  | some cls =>
    cases hw : cls.writeMember? name v with
    | none => exact Or.inl ⟨.readOnly cls.name, by simp only [writeMember, hcls, hw]⟩
    | some w =>
      by_cases hmissing : v = none ∧ cls.members.get? name = none
      · refine Or.inl ⟨.missingMember cls.name name, ?_⟩
        simp only [writeMember, hcls, hw, if_pos hmissing]
        obtain ⟨rfl, hnone⟩ := hmissing
        rw [modify_of_missing hcls hw hnone]
      · have hthere : v = none → (cls.members.get? name).isSome = true := by
          intro hv
          rw [Option.isSome_iff_ne_none]
          exact fun hnone => hmissing ⟨hv, hnone⟩
        obtain ⟨u, hdone, hu, hans⟩ := writeMember_done hwf hpub hcls hw hthere
        exact Or.inr ⟨cls, w, u, rfl, hw, hthere, hdone, hu, hans⟩

theorem write_of_isWritable (hs : c.graph.Sound) {id : ClassId} {name : String}
    {v : Option Value} {cls : ClassObject} (hcls : c.graph.class? id = some cls)
    (hwritable : cls.isWritable = true)
    (hthere : v = none → (c.graph.ownMember id name).isSome = true) :
    ∃ w u, cls.writeMember? name v = some w ∧
      (c.graph.modify id fun _ => w).memberWritten id name v = (u, none) ∧
      c.write id name v =
        ({ c with graph := u.graph, updates := c.updates.addWrite u.report }, .ok u.report) := by
  have hw := ClassObject.writeMember?_of_isWritable hwritable name v
  rw [ownMember_of_class? hcls] at hthere
  obtain ⟨u, hdone, -, hans⟩ := writeMember_done hs.wellFormed hs.published hcls hw hthere
  refine ⟨_, u, hw, hdone, ?_⟩
  simp only [write, editable_of_class? hcls (ClassObject.isImmutable_of_isWritable hwritable)]
  exact congrArg countWrite hans

/-- A member is written and then written again. When it is written to the same value, the second
time all members are left as they are. -/
theorem write_twice (hs : c.graph.Sound) {id : ClassId} {name : String} {v v' : Option Value}
    {cls : ClassObject} (hcls : c.graph.class? id = some cls) (hwritable : cls.isWritable = true)
    (hthere : v = none → (c.graph.ownMember id name).isSome = true)
    (hthere' : v' = none → v.isSome = true) :
    ∃ h u h' k, c.graph.Written id name v h ∧ h.memberWritten id name v = (u, none) ∧
      u.graph.Written id name v' h' ∧ (v' = v → h' = u.graph) ∧
      h'.memberWritten id name v' = (k, none) ∧
      (c.write id name v).2 = .ok u.report ∧ (c.write id name v).1.graph = u.graph ∧
      ((c.write id name v).1.write id name v').2 = .ok k.report ∧
      ((c.write id name v).1.write id name v').1.graph = k.graph := by
  have hid := contains_of_class? hcls
  have hne := hs.ne_root ⟨cls, hcls, ClassObject.isImmutable_of_isWritable hwritable⟩
  obtain ⟨w, u, hw, hdone, hans⟩ := write_of_isWritable hs hcls hwritable hthere
  have q := written_modify hcls hw
  obtain ⟨u', V, hdone', hu⟩ := memberWritten_ok id name v (q.published hs.published)
    (hs.wellFormed.acyclic.congr q.orders.links)
  obtain rfl : u = u' := congrArg Prod.fst (hdone.symm.trans hdone')
  have hs' : u.graph.Sound := (hs.written q hne).refreshed hu
  obtain ⟨cls', hcls', hwritable', hmembers⟩ :=
    exists_writable_of_written hcls hwritable hw hu.retabled
  have hwritten : u.graph.ownMember id name = v := by
    rw [hu.retabled.ownMember, q.ownMember, if_pos ⟨rfl, rfl, hid⟩]
  obtain ⟨w', k, hw', hagain, hans'⟩ := write_of_isWritable
    (c := { c with graph := u.graph, updates := c.updates.addWrite u.report }) hs' hcls'
    hwritable' fun hnone => (congrArg Option.isSome hwritten).trans (hthere' hnone)
  rw [hans]
  refine ⟨_, u, _, k, q, hdone, written_modify hcls' hw', ?_, hagain, rfl, rfl,
    congrArg Prod.snd hans', by rw [hans']⟩
  -- the member is there already, so the class is put in its own place
  rintro rfl
  have hsame : w' = cls' := by
    rw [ClassObject.eq_of_writeMember? hw', hmembers, Members.write_write, ← hmembers]
  rw [hsame, modify_self hcls']

theorem write_cases (hs : c.graph.Sound) (id : ClassId) (name : String) (v : Option Value) :
    (∃ err, c.write id name v = c.refuse err) ∨
    ∃ cls w u, c.graph.class? id = some cls ∧ cls.isImmutable = false ∧
      cls.writeMember? name v = some w ∧ (v = none → (cls.members.get? name).isSome = true) ∧
      (c.graph.modify id fun _ => w).memberWritten id name v = (u, none) ∧
      c.write id name v =
        ({ c with graph := u.graph, updates := c.updates.addWrite u.report }, .ok u.report) := by
  unfold write
  cases hed : c.editable id with
  | error e => exact Or.inl ⟨e, rfl⟩
  | ok cls =>
    obtain ⟨hcls, hmut⟩ := mutable_of_editable hed
    rcases writeMember_cases hs.wellFormed hs.published id name v with
      ⟨err, href⟩ | ⟨cls', w, u, hcls', hw, hremoved, hdone, -, hans⟩
    · exact Or.inl ⟨err, congrArg countWrite href⟩
    · obtain rfl : cls' = cls := Option.some.inj (hcls'.symm.trans hcls)
      exact Or.inr ⟨cls', w, u, hcls, hmut, hw, hremoved, hdone, congrArg countWrite hans⟩

theorem setBases_of_mutable (hs : c.graph.Sound) {id : ClassId} (hm : c.graph.Mutable id)
    (bases : List ClassId) :
    (∃ e, c.graph.rebase id bases = .error (.linearization e) ∧
      c.setBases id bases = c.refuse (.ofLinearization e)) ∨
    ∃ changed k u, c.graph.rebase id bases = .ok (changed, k) ∧
      k.basesReplaced id changed = (u, none) ∧
      c.setBases id bases =
        ({ c with graph := u.graph, updates := c.updates.addBaseChange u.report },
          .ok u.report) := by
  obtain ⟨cls, hcls, hmut⟩ := hm
  have hed := editable_of_class? hcls hmut
  cases hok : c.graph.rebase id bases with
  | error e =>
    cases e with
    | linearization e => exact Or.inl ⟨e, rfl, by simp only [setBases, hed, hok]⟩
    | endless => exact absurd hok (rebase_ne_endless hs.wellFormed id bases)
  | ok r =>
    obtain ⟨changed, k⟩ := r
    obtain ⟨u, -, hdone, -⟩ := hs.exists_basesReplaced ⟨cls, hcls, hmut⟩ hok
    refine Or.inr ⟨changed, k, u, rfl, hdone, ?_⟩
    simp only [setBases, hed, hok, hdone, adopt]

theorem setBases_cases (hs : c.graph.Sound) (id : ClassId) (bases : List ClassId) :
    (∃ err, c.setBases id bases = c.refuse err) ∨
    ∃ changed k u, c.graph.Mutable id ∧ c.graph.rebase id bases = .ok (changed, k) ∧
      k.basesReplaced id changed = (u, none) ∧
      c.setBases id bases =
        ({ c with graph := u.graph, updates := c.updates.addBaseChange u.report },
          .ok u.report) := by
  cases hed : c.editable id with
  | error e => exact Or.inl ⟨e, by simp only [setBases, hed]⟩
  | ok cls =>
    have hm : c.graph.Mutable id := ⟨cls, mutable_of_editable hed⟩
    rcases setBases_of_mutable hs hm bases with
      ⟨e, -, hans⟩ | ⟨changed, k, u, hok, hdone, hans⟩
    · exact Or.inl ⟨_, hans⟩
    · exact Or.inr ⟨changed, k, u, hm, hok, hdone, hans⟩

theorem unregister_cases (c : Context) (id : ClassId) :
    (∃ err, c.unregister id = c.refuse err) ∨ ∃ c' cls, c.unregister id = (c', .ok cls) := by
  unfold unregister
  cases c.editable id with
  | error e => exact Or.inl ⟨e, rfl⟩
  | ok cls => exact Or.inr ⟨_, cls, rfl⟩

end Cases

/-! A refused change leaves the context alone, whatever its graph is like. -/

theorem adopt_ne_refused (c : Context) (o : Update.Outcome) (err : ClassError) :
    (c.adopt o).2 ≠ .error (.refused err) := by
  obtain ⟨u, f⟩ := o
  cases f <;> simp [adopt]

theorem writeMember_of_refused {c : Context} {id : ClassId} {name : String} {v : Option Value}
    {err : ClassError} (h : (c.writeMember id name v).2 = .error (.refused err)) :
    (c.writeMember id name v).1 = c := by
  cases hcls : c.graph.class? id with
  | none => simp only [writeMember, hcls, refuse]
  | some cls =>
    cases hw : cls.writeMember? name v with
    | none => simp only [writeMember, hcls, hw, refuse]
    | some w =>
      simp only [writeMember, hcls, hw] at h ⊢
      split
      · next hmissing =>
        obtain ⟨rfl, hnone⟩ := hmissing
        simp only [refuse, modify_of_missing hcls hw hnone]
      · next hpresent =>
        rw [if_neg hpresent] at h
        exact absurd h (adopt_ne_refused _ _ err)

theorem write_of_refused {c : Context} {id : ClassId} {name : String} {v : Option Value}
    {err : ClassError} (h : (c.write id name v).2 = .error (.refused err)) :
    (c.write id name v).1 = c := by
  unfold write at h ⊢
  split
  · rfl
  · next cls hed =>
    simp only [hed] at h
    have hsame := @writeMember_of_refused c id name v err
    generalize c.writeMember id name v = a at h hsame
    obtain ⟨k, r⟩ := a
    cases r with
    | ok r => simp [countWrite] at h
    | error f => exact hsame h

theorem setBases_of_refused {c : Context} {id : ClassId} {bases : List ClassId}
    {err : ClassError} (h : (c.setBases id bases).2 = .error (.refused err)) :
    (c.setBases id bases).1 = c := by
  unfold setBases at h ⊢
  cases hed : c.editable id with
  | error e => rfl
  | ok cls =>
    simp only [hed] at h ⊢
    cases hok : c.graph.rebase id bases with
    | error e => cases e <;> rfl
    | ok r =>
      obtain ⟨changed, k⟩ := r
      simp only [hok] at h ⊢
      have hne := c.adopt_ne_refused (k.basesReplaced id changed) err
      generalize c.adopt (k.basesReplaced id changed) = a at h hne
      obtain ⟨k', r⟩ := a
      cases r with
      | ok r => simp at h
      | error f => exact absurd h hne

/-- A change that was refused leaves the context as it was; where a class was to come in, its id is
used up. -/
theorem apply_of_refused {c : Context} {e : ClassEdit} {err : ClassError}
    (h : c.answer e = .error (.refused err)) :
    c.apply e = if e.isDefinition then c.skipId else c := by
  have hsame : ∀ {α β : Type} {a : Answer α} {c' : Context} {map : α → β},
      (a.2 = .error (.refused err) → a.1 = c') → a.2.map map = .error (.refused err) →
        a.1 = c' := by
    rintro α β ⟨c'', r⟩ c' map himp hf
    cases r with
    | ok r => simp [Except.map] at hf
    | error f => exact himp (congrArg Except.error (Except.error.inj hf))
  have hrefused : ∀ {α : Type} {a : Answer α} {c' : Context},
      (∃ e, a = c'.refuse e) ∨ (∃ c'' r, a = (c'', .ok r)) → a.2 = .error (.refused err) →
        a.1 = c' := by
    rintro α a c' (⟨e, rfl⟩ | ⟨c'', r, rfl⟩) hf
    · rfl
    · simp at hf
  cases e with
  | define name bases members =>
    exact hsame (hrefused (c.defineWith_cases name bases members _ _)) h
  | defineForeign name bases members readOnly =>
    exact hsame (hrefused (c.defineWith_cases name bases members _ _)) h
  | setMember id name v => exact hsame write_of_refused h
  | deleteMember id name => exact hsame write_of_refused h
  | setBases id bases => exact hsame setBases_of_refused h
  | unregister id => exact hsame (hrefused (c.unregister_cases id)) h

/-- In a sound graph no change stops half way. -/
theorem refused_of_error {c : Context} (hs : c.graph.Sound) {e : ClassEdit} {f : EditFailure}
    (h : c.answer e = .error f) : ∃ err, f = .refused err := by
  have hrefused : ∀ (c' : Context) {α β : Type} {a : Answer α} {map : α → β},
      (∃ err, a = c'.refuse err) ∨ (∃ c'' r, a = (c'', .ok r)) → a.2.map map = .error f →
        ∃ err, f = .refused err := by
    rintro c' α β a map (⟨err, rfl⟩ | ⟨c'', r, rfl⟩) hf
    · exact ⟨err, (Except.error.inj hf).symm⟩
    · simp [Except.map] at hf
  have hwrite : ∀ {id : ClassId} {name : String} {v : Option Value},
      (c.write id name v).2.map some = .error f → ∃ err, f = .refused err := by
    intro id name v
    apply hrefused c
    refine (write_cases hs id name v).imp_right ?_
    rintro ⟨cls, w, u, -, -, -, -, -, hdone⟩
    exact ⟨_, _, hdone⟩
  cases e with
  | define name bases members => exact hrefused _ (c.defineWith_cases name bases members _ _) h
  | defineForeign name bases members readOnly =>
    exact hrefused _ (c.defineWith_cases name bases members _ _) h
  | setMember id name v => exact hwrite h
  | deleteMember id name => exact hwrite h
  | setBases id bases =>
    refine hrefused c ?_ h
    refine (setBases_cases hs id bases).imp_right ?_
    rintro ⟨changed, k, u, -, -, -, hdone⟩
    exact ⟨_, _, hdone⟩
  | unregister id => exact hrefused c (c.unregister_cases id) h

end Context

end MethodCache
