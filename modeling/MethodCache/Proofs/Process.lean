import MethodCache.Proofs.Answering

/-!
Processes: a host and the contexts it has started. Contexts are changed, read, called and checked
one action at a time, while the host starts further contexts and numbers further natives. Reading,
calling and checking leave the classes of a context alone, so a context has a sound graph for as
long as it has ids left. A change that is refused changes nothing but the id that a new class would
have had, and while there are ids left, changes do not fail otherwise.
-/
namespace MethodCache

open ClassGraph Relation

/-- What can be done with a context other than to change its classes, and the context it leaves.
Descriptors carry the number under which the host keeps their native. -/
inductive Context.Acts (h : Host) (c : Context) : Context → Prop
  | read (id : ClassId) (s : Slot) : Acts h c (c.read h.shared id s).2
  | resolved {d : Descriptor} (hd : h.index.get? d.index = some d.native) :
      Acts h c (c.callTarget d).2
  | invoked [Hashing] {d : Descriptor} (hd : h.index.get? d.index = some d.native)
      (args : List Value) : Acts h c (c.invoke d args).2
  | checked : Acts h c (c.check h.shared).2
  | reset : Acts h c c.resetCounters

/-- A host and the contexts it has started, in order, each with the number of ids that changes of
its classes have used up. -/
structure Process where
  host : Host := {}
  contexts : List (Context × ℕ) := []

namespace Process

inductive Step (p : Process) : Process → Prop
  | started (config : Config) :
      Step p ⟨(p.host.start config).2, p.contexts ++ [((p.host.start config).1, 0)]⟩
  | skipped : Step p { p with host := p.host.skipContext }
  | numbered (n : Native) : Step p { p with host := p.host.number n }
  | edited {i n : ℕ} {c : Context} (hc : p.contexts[i]? = some (c, n)) (e : ClassEdit) :
      Step p { p with
        contexts := p.contexts.set i (c.apply e, n + if e.isDefinition then 1 else 0) }
  | acted {i n : ℕ} {c c' : Context} (hc : p.contexts[i]? = some (c, n)) (ha : c.Acts p.host c') :
      Step p { p with contexts := p.contexts.set i (c', n) }

def Leads (p q : Process) : Prop := ReflTransGen Step p q

def Reachable (p : Process) : Prop := Leads {} p

end Process

namespace Context

variable {h : Host} {c c' : Context}

theorem read_snd (c : Context) (t : SharedTables) (id : ClassId) (s : Slot) :
    ∃ n, (c.read t id s).2 = { c with reads := n } := by
  unfold read
  split
  · exact ⟨_, rfl⟩
  · split
    · exact ⟨_, rfl⟩
    · exact ⟨_, rfl⟩
    · split <;> exact ⟨_, rfl⟩

theorem invoke_fst [Hashing] (c : Context) (d : Descriptor) (args : List Value) :
    (c.invoke d args).1 = (c.callTarget d).1.map fun t => t.function.call args := by
  unfold invoke
  split
  · next c' hc' => rw [hc', Option.map_none]
  · next target c' hc' => rw [hc', Option.map_some]

theorem invoke_snd [Hashing] (c : Context) (d : Descriptor) (args : List Value) :
    (c.invoke d args).2 = (c.callTarget d).2 ∨
    (c.invoke d args).2 = { (c.callTarget d).2 with
      targets := (c.callTarget d).2.targets.countCall d.index } := by
  unfold invoke
  split
  · next c' hc' =>
    left
    rw [hc']
  · next target c' hc' =>
    right
    rw [hc']

theorem Acts.graph (ha : c.Acts h c') : c'.graph = c.graph := by
  cases ha with
  | read id s =>
    obtain ⟨n, hn⟩ := c.read_snd h.shared id s
    rw [hn]
  | resolved hd => rfl
  | @invoked _ d hd args =>
    rcases c.invoke_snd d args with hsame | hsame
    · rw [hsame]
      rfl
    · rw [hsame]
      rfl
  | checked => exact c.graph_check h.shared
  | reset => rfl

/-- Ids have been counted up so far from the first one for users, and the graph is sound. -/
structure Counted (c : Context) (n : ℕ) : Prop where
  nextId : c.graph.nextId = ClassId.firstUser + n
  sound : c.graph.Sound

theorem Counted.apply {n : ℕ} (hc : c.Counted n) {e : ClassEdit}
    (hn : (n + if e.isDefinition then 1 else 0) < ClassId.available) :
    (c.apply e).Counted (n + if e.isDefinition then 1 else 0) := by
  have hfew : e.isDefinition = true → c.graph.nextId + 1 < UInt32.size := by
    intro he
    rw [if_pos he] at hn
    rw [hc.nextId, Nat.add_assoc]
    exact Nat.add_lt_of_lt_sub' hn
  refine ⟨?_, hc.sound.step hfew (c.apply_step e)⟩
  rw [nextId_apply hc.sound hfew, hc.nextId, Nat.add_assoc]

theorem Acts.counted {n : ℕ} (ha : c.Acts h c') (hc : c.Counted n) : c'.Counted n := by
  obtain ⟨hnext, hs⟩ := hc
  rw [← ha.graph] at hnext hs
  exact ⟨hnext, hs⟩

end Context

namespace Process

/-- What holds of every context of a process goes on to hold when it holds of each context that
is started and everything that is done keeps it. -/
theorem Step.forall_contexts {p q : Process} {P : Context → ℕ → Prop} (hstep : Step p q)
    (hstart : ∀ config, q.host = (p.host.start config).2 → P (p.host.start config).1 0)
    (hedits : ∀ c n, (c, n) ∈ p.contexts → P c n →
      ∀ e : ClassEdit, P (c.apply e) (n + if e.isDefinition then 1 else 0))
    (hacts : ∀ c n c', (c, n) ∈ p.contexts → P c n → c.Acts p.host c' → P c' n)
    (hp : ∀ c n, (c, n) ∈ p.contexts → P c n) : ∀ c n, (c, n) ∈ q.contexts → P c n := by
  cases hstep with
  | started config =>
    intro c n hc
    rcases List.mem_append.mp hc with hc | hc
    · exact hp c n hc
    · obtain ⟨rfl, rfl⟩ := Prod.mk.inj (List.mem_singleton.mp hc)
      exact hstart config rfl
  | skipped => exact hp
  | numbered _ => exact hp
  | edited hc e =>
    have hmem := List.mem_of_getElem? hc
    intro d m hd
    rcases List.mem_or_eq_of_mem_set hd with hd | heq
    · exact hp d m hd
    · obtain ⟨rfl, rfl⟩ := Prod.mk.inj heq
      exact hedits _ _ hmem (hp _ _ hmem) e
  | acted hc ha =>
    have hmem := List.mem_of_getElem? hc
    intro d m hd
    rcases List.mem_or_eq_of_mem_set hd with hd | heq
    · exact hp d m hd
    · obtain ⟨rfl, rfl⟩ := Prod.mk.inj heq
      exact hacts _ _ _ hmem (hp _ _ hmem) ha

theorem Reachable.counted {p : Process} (hp : p.Reachable) :
    ∀ c n, (c, n) ∈ p.contexts → n < ClassId.available → c.Counted n := by
  induction hp with
  | refl =>
    intro c n hc
    simp at hc
  | tail _ hstep ih =>
    apply hstep.forall_contexts _ _ _ ih
    · exact fun config _ _ => ⟨Host.nextId_start _ config, (Host.start_sound _ config).1⟩
    · exact fun c n _ hc e hn => (hc (Nat.lt_of_le_of_lt (Nat.le_add_right _ _) hn)).apply hn
    · exact fun c n c' _ hc ha hn => ha.counted (hc hn)

theorem Reachable.sound {p : Process} (hp : p.Reachable) {c : Context} {n : ℕ}
    (hc : (c, n) ∈ p.contexts) (hn : n < ClassId.available) : c.graph.Sound :=
  (hp.counted c n hc hn).sound

def ofRun (config : Config) (edits : List ClassEdit) : Process where
  host := (({} : Host).start config).2
  contexts :=
    [((({} : Host).start config).1.run edits, edits.countP ClassEdit.isDefinition)]

theorem reachable_ofRun (config : Config) (edits : List ClassEdit) :
    (ofRun config edits).Reachable := by
  have hrun : ∀ (h : Host) (c : Context) (n : ℕ), Leads ⟨h, [(c, n)]⟩
      ⟨h, [(c.run edits, n + edits.countP ClassEdit.isDefinition)]⟩ := by
    intro h c n
    induction edits generalizing c n with
    | nil => exact .refl
    | cons e rest ih =>
      have hstep : Step ⟨h, [(c, n)]⟩
          ⟨h, [(c.apply e, n + if e.isDefinition then 1 else 0)]⟩ := .edited (i := 0) rfl e
      rw [List.countP_cons, Nat.add_comm (rest.countP _), ← Nat.add_assoc]
      exact .head hstep (ih (c.apply e) _)
  have hstart := hrun (({} : Host).start config).2 (({} : Host).start config).1 0
  rw [Nat.zero_add] at hstart
  exact .head (.started config) hstart

/-- A change that is refused leaves the context as it was, whatever ids were used before; only where
a class was to come in, the id it would have had is used up. And as long as there are ids left, a
change that fails was refused. -/
theorem unchanged_of_error {p : Process} (hp : p.Reachable) {c : Context} {n : ℕ}
    (hc : (c, n) ∈ p.contexts) {e : ClassEdit} {f : EditFailure} (h : c.answer e = .error f) :
    (∀ err, f = .refused err → c.apply e =
      if e.isDefinition then
        { c with graph := { c.graph with idCounter := c.graph.idCounter + 1 } }
      else c) ∧
    (n < ClassId.available → ∃ err, f = .refused err) := by
  refine ⟨?_, fun hn => Context.refused_of_error (hp.sound hc hn) h⟩
  rintro err rfl
  exact Context.apply_of_refused h

/-- A class with two bases, the second of which is to come below the first. -/
def crossedEdits : List ClassEdit :=
  [.define "Left" [] [], .define "Right" [] [], .define "Bottom" [64, 65] []]

/-- The class at the bottom has no order then, and the change of bases above it is undone. -/
theorem crossed_unchanged :
    ∃ c n f, (c, n) ∈ (ofRun .unchecked crossedEdits).contexts ∧
      c.answer (.setBases 65 [64]) = .error f ∧ n < ClassId.available ∧
      c.apply (.setBases 65 [64]) = c := by
  let c := (({} : Host).start .unchecked).1.run crossedEdits
  have hfails : c.answer (.setBases 65 [64]) =
      .error (.refused (.linearization (.inconsistent 66 [64, 65]))) := by decide +kernel
  have hc : (c, 3) ∈ (ofRun .unchecked crossedEdits).contexts := List.mem_singleton_self _
  obtain ⟨hsame, -⟩ := unchanged_of_error (reachable_ofRun .unchecked crossedEdits) hc hfails
  exact ⟨c, 3, _, hc, hfails, by decide, hsame _ rfl⟩

end Process

end MethodCache
