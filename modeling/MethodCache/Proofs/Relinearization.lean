import MethodCache.Proofs.Registration

/-!
The turns in which the classes below a rebased class are linearized anew. A class waits until all
of its bases below have had their turn, so the orders it is linearized from are final, and in a
well formed graph every class below gets its turn exactly once.
-/
namespace MethodCache.ClassGraph

open Relation

def basesOf (g : ClassGraph) (d : ClassId) : List ClassId :=
  ((g.class? d).map ClassObject.bases).getD []

/-- The bases of a class that are below and have not had their turn. -/
def openBases (g : ClassGraph) (below done : List ClassId) (d : ClassId) : List ClassId :=
  (g.basesOf d).filter fun b => b ∈ below ∧ b ∉ done

/-- The queue of a relinearization: waiting classes are counted rightly, and those that wait for
nothing have had their turn or are ready. -/
structure Scheduled (g : ClassGraph) (below : List ClassId) (r : Relinearization) : Prop where
  nodup : (r.order ++ r.ready).Nodup
  mem_below : ∀ d ∈ r.order ++ r.ready, d ∈ below
  waiting : ∀ d, r.waiting.get? d =
    if d ∈ below then some (g.openBases below r.order d).length else none
  due : ∀ d ∈ below, d ∈ r.order ++ r.ready ↔ g.openBases below r.order d = []

/-- The orders found so far: those of the rebased class and of the classes that had their turn,
each linearized from the orders of its bases as they stand. -/
structure Ordered (g : ClassGraph) (id : ClassId) (first : List ClassId)
    (r : Relinearization) : Prop where
  first : r.pending.get? id = some first
  known : ∀ d, (r.pending.get? d).isSome = true ↔ d = id ∨ d ∈ r.order
  linearized : ∀ d ∈ r.order, ∀ o, r.pending.get? d = some o →
    linearize d (g.basesOf d) (g.orderIn? r.pending) = .ok o

theorem basesOf_of_class? {g : ClassGraph} {d : ClassId} {c : ClassObject}
    (h : g.class? d = some c) : g.basesOf d = c.bases := by
  simp [basesOf, h]

theorem Retabled.basesOf {g h : ClassGraph} (r : g.Retabled h) (d : ClassId) :
    h.basesOf d = g.basesOf d := by
  unfold ClassGraph.basesOf
  rw [r.map_class? ClassObject.bases ClassObject.untabled_bases]

theorem mem_openBases {g : ClassGraph} {below done : List ClassId} {b d : ClassId} :
    b ∈ g.openBases below done d ↔ b ∈ g.basesOf d ∧ b ∈ below ∧ b ∉ done := by
  simp [openBases]

theorem openBases_snoc (g : ClassGraph) (below done : List ClassId) (x d : ClassId) :
    g.openBases below (done ++ [x]) d = (g.openBases below done d).filter (· ≠ x) := by
  unfold openBases
  rw [List.filter_filter]
  apply List.filter_congr
  intro b _
  simp only [List.mem_append, List.mem_singleton, ne_eq]
  by_cases hx : b = x <;> by_cases hd : b ∈ done <;> simp [hx, hd]

/-! A list of distinct classes with one of them taken out. -/

theorem length_filter_ne_of_mem {l : List ClassId} {x : ClassId} (hnd : l.Nodup) (hx : x ∈ l) :
    (l.filter (· ≠ x)).length = l.length - 1 := by
  have herase := hnd.erase_eq_filter x
  rw [← List.length_erase_of_mem hx, herase]
  simp [bne, Bool.beq_eq_decide_eq]

theorem filter_ne_of_not_mem {l : List ClassId} {x : ClassId} (hx : x ∉ l) :
    l.filter (· ≠ x) = l := by
  apply List.filter_eq_self.mpr
  intro b hb
  have hne : b ≠ x := fun h => hx (h ▸ hb)
  simpa using hne

theorem eq_singleton_of_length_le {l : List ClassId} {x : ClassId} (hx : x ∈ l)
    (hle : l.length ≤ 1) : l = [x] := by
  obtain ⟨a, rfl⟩ := List.length_eq_one_iff.mp
    (Nat.le_antisymm hle (List.length_pos_of_mem hx))
  rw [List.mem_singleton.mp hx]

theorem filter_ne_eq_nil_iff {l : List ClassId} {x : ClassId} (hnd : l.Nodup) :
    l.filter (· ≠ x) = [] ↔ l = [] ∨ l = [x] := by
  by_cases hx : x ∈ l
  · rw [← List.length_eq_zero_iff, length_filter_ne_of_mem hnd hx]
    have hpos := List.length_pos_of_mem hx
    constructor
    · intro h
      exact Or.inr (eq_singleton_of_length_le hx (by omega))
    · rintro (rfl | rfl)
      · simp at hx
      · rfl
  · rw [filter_ne_of_not_mem hx]
    constructor
    · exact Or.inl
    · rintro (h | rfl)
      · exact h
      · exact absurd (List.mem_singleton_self x) hx

theorem exists_class_of_mem_basesOf {g : ClassGraph} {b d : ClassId} (h : b ∈ g.basesOf d) :
    ∃ c, g.class? d = some c ∧ b ∈ c.bases := by
  unfold basesOf at h
  cases hc : g.class? d with
  | none => simp [hc] at h
  | some c => exact ⟨c, rfl, by simpa [hc] using h⟩

namespace WellFormed

variable {g : ClassGraph}

theorem basesOf_nodup (hwf : g.WellFormed) (d : ClassId) : (g.basesOf d).Nodup := by
  unfold basesOf
  cases hc : g.class? d with
  | none => exact List.nodup_nil
  | some c => exact (hwf.placed d c hc).bases_nodup

theorem openBases_nodup (hwf : g.WellFormed) (below done : List ClassId) (d : ClassId) :
    (g.openBases below done d).Nodup := (hwf.basesOf_nodup d).filter _

theorem not_link_root (hwf : g.WellFormed) (b : ClassId) : ¬ g.Link b ClassId.root := by
  intro h
  obtain ⟨c, hc, hbases⟩ := hwf.root
  have hmem := ((hwf.links _ _).mp h).2.mem hc
  rcases mem_effectiveBases.mp hmem with hb | ⟨-, hne, -⟩
  · simp [hbases] at hb
  · exact hne rfl

theorem root_not_mem_descendants (hwf : g.WellFormed) (id : ClassId) :
    ClassId.root ∉ g.descendants id := by
  intro h
  obtain ⟨-, hchain⟩ := mem_descendants.mp h
  cases hchain with
  | single hl => exact hwf.not_link_root id hl
  | tail _ hl => exact hwf.not_link_root _ hl

theorem registered_below (hwf : g.WellFormed) (id : ClassId) :
    ∀ d ∈ g.descendants id, g.contains d = true ∧ d ≠ ClassId.root := by
  intro d hd
  refine ⟨hwf.contains_of_mem_descendants hd, ?_⟩
  rintro rfl
  exact hwf.root_not_mem_descendants id hd

theorem link_iff_mem_basesOf (hwf : g.WellFormed) {b d : ClassId} (hb : g.contains b = true)
    (hne : b ≠ ClassId.root) : g.Link b d ↔ b ∈ g.basesOf d := by
  rw [hwf.links]
  constructor
  · rintro ⟨-, c, hc, hmem⟩
    rw [basesOf_of_class? hc]
    rcases mem_effectiveBases.mp hmem with hmem | ⟨-, -, hroot⟩
    · exact hmem
    · exact absurd hroot hne
  · intro h
    obtain ⟨c, hc, hmem⟩ := exists_class_of_mem_basesOf h
    exact ⟨hb, c, hc, mem_effectiveBases_of_mem hmem⟩

end WellFormed

/-! One class is released. -/

theorem release_of_none {r : Relinearization} {s : ClassId} (h : r.waiting.get? s = none) :
    release r s = r := by
  simp [release, h]

theorem release_of_some {r : Relinearization} {s : ClassId} {n : ℕ}
    (h : r.waiting.get? s = some n) :
    release r s = { r with
      waiting := r.waiting.insert s (n - 1)
      ready := if n ≤ 1 then r.ready ++ [s] else r.ready } := by
  by_cases hn : n ≤ 1
  · simp [release, h, hn]
  · have hpos : n - 1 ≠ 0 := by omega
    simp [release, h, hn, hpos]

def released (r : Relinearization) (subs : List ClassId) : List ClassId :=
  subs.filter fun s => (r.waiting.get? s).any (· ≤ 1)

/-- Releasing distinct classes counts each of them down once and makes those ready that waited
for one base only. -/
theorem foldl_release (r : Relinearization) {subs : List ClassId} (hnd : subs.Nodup) :
    (subs.foldl release r).pending = r.pending ∧ (subs.foldl release r).order = r.order ∧
    (∀ d, (subs.foldl release r).waiting.get? d =
      if d ∈ subs then (r.waiting.get? d).map (· - 1) else r.waiting.get? d) ∧
    (subs.foldl release r).ready = r.ready ++ released r subs := by
  induction subs generalizing r with
  | nil => simp [released]
  | cons s rest ih =>
    obtain ⟨hs, hrest⟩ := List.nodup_cons.mp hnd
    obtain ⟨hpending, horder, hwaiting, hready⟩ := ih (release r s) hrest
    rw [List.foldl_cons, hpending, horder, hready]
    cases hn : r.waiting.get? s with
    | none =>
      rw [release_of_none hn] at hwaiting ⊢
      refine ⟨rfl, rfl, ?_, ?_⟩
      · intro d
        rw [hwaiting]
        by_cases hd : d = s
        · subst hd
          simp [hs, hn]
        · simp [hd]
      · simp [released, hn]
    | some n =>
      have hother : ∀ d, d ≠ s → (release r s).waiting.get? d = r.waiting.get? d := by
        intro d hd
        rw [release_of_some hn, IndexMap.get?_insert, if_neg (Ne.symm hd)]
      have hsame : released (release r s) rest = released r rest := by
        unfold released
        apply List.filter_congr
        intro d hd
        have hne : d ≠ s := fun h => hs (h ▸ hd)
        rw [hother d hne]
      rw [hsame]
      refine ⟨?_, ?_, ?_, ?_⟩
      · rw [release_of_some hn]
      · rw [release_of_some hn]
      · intro d
        rw [hwaiting]
        by_cases hd : d = s
        · subst hd
          rw [if_neg hs, if_pos List.mem_cons_self, release_of_some hn, IndexMap.get?_insert,
            if_pos rfl, hn]
          rfl
        · rw [hother d hd]
          simp [hd]
      · rw [release_of_some hn]
        by_cases hle : n ≤ 1
        · simp [released, hn, hle]
        · simp [released, hn, hle]

/-! One turn. -/

section Turn

variable {g : ClassGraph} {below : List ClassId} {r : Relinearization} {x : ClassId}
  {rest : List ClassId}

theorem Scheduled.not_mem_order (s : g.Scheduled below r) (hready : r.ready = x :: rest) :
    x ∉ r.order := by
  intro h
  have hdisj := (List.nodup_append.mp s.nodup).2.2
  exact hdisj x h x (hready ▸ List.mem_cons_self) rfl

theorem Scheduled.head_mem_below (s : g.Scheduled below r) (hready : r.ready = x :: rest) :
    x ∈ below :=
  s.mem_below x (List.mem_append_right _ (hready ▸ List.mem_cons_self))

/-- A class whose turn has come has all of its bases below behind it. -/
theorem Scheduled.bases_done (s : g.Scheduled below r) (hready : r.ready = x :: rest)
    {b : ClassId} (hb : b ∈ g.basesOf x) (hbelow : b ∈ below) : b ∈ r.order := by
  have hdue : x ∈ r.order ++ r.ready :=
    List.mem_append_right _ (hready ▸ List.mem_cons_self)
  have hopen := (s.due x (s.head_mem_below hready)).mp hdue
  by_contra hnot
  have hmem := mem_openBases.mpr ⟨hb, hbelow, hnot⟩
  rw [hopen] at hmem
  simp at hmem

theorem Scheduled.not_mem_basesOf (s : g.Scheduled below r) (hready : r.ready = x :: rest)
    {d : ClassId} (hd : d ∈ r.order) : x ∉ g.basesOf d := by
  intro hx
  have hmem := List.mem_append_left r.ready hd
  have hnil := (s.due d (s.mem_below d hmem)).mp hmem
  have hopen := mem_openBases.mpr ⟨hx, s.head_mem_below hready, s.not_mem_order hready⟩
  rw [hnil] at hopen
  simp at hopen

theorem Scheduled.mem_subclasses (hwf : g.WellFormed)
    (hbelow : ∀ y ∈ below, g.contains y = true ∧ y ≠ ClassId.root) (s : g.Scheduled below r)
    (hready : r.ready = x :: rest) (d : ClassId) :
    d ∈ g.subclasses x ↔ x ∈ g.openBases below r.order d := by
  have hxb := s.head_mem_below hready
  obtain ⟨hxc, hxne⟩ := hbelow x hxb
  have hl : d ∈ g.subclasses x ↔ x ∈ g.basesOf d := hwf.link_iff_mem_basesOf hxc hxne
  rw [hl, mem_openBases]
  exact ⟨fun h => ⟨h, hxb, s.not_mem_order hready⟩, fun h => h.1⟩

theorem Scheduled.mem_released (hwf : g.WellFormed)
    (hbelow : ∀ y ∈ below, g.contains y = true ∧ y ≠ ClassId.root) (s : g.Scheduled below r)
    (hready : r.ready = x :: rest) (d : ClassId) :
    d ∈ released r (g.subclasses x) ↔ d ∈ below ∧ g.openBases below r.order d = [x] := by
  unfold released
  rw [List.mem_filter, s.mem_subclasses hwf hbelow hready, s.waiting]
  constructor
  · rintro ⟨hx, hany⟩
    by_cases hd : d ∈ below
    · exact ⟨hd, eq_singleton_of_length_le hx (by simpa [hd] using hany)⟩
    · simp [hd] at hany
  · rintro ⟨hd, heq⟩
    rw [heq]
    simp [hd]

theorem Scheduled.next (hwf : g.WellFormed)
    (hbelow : ∀ y ∈ below, g.contains y = true ∧ y ≠ ClassId.root) (s : g.Scheduled below r)
    (hready : r.ready = x :: rest) (pending : IndexMap (List ClassId)) :
    g.Scheduled below ((g.subclasses x).foldl release
      { r with ready := rest, pending := pending, order := r.order ++ [x] }) := by
  obtain ⟨-, horder, hwaiting, hready'⟩ := foldl_release
    { r with ready := rest, pending := pending, order := r.order ++ [x] }
    (g.subclasses_nodup x)
  have hsub := s.mem_subclasses hwf hbelow hready
  have hreleased := s.mem_released hwf hbelow hready
  have hnd : ∀ d, (g.openBases below r.order d).Nodup := hwf.openBases_nodup below r.order
  have hlist : (r.order ++ [x]) ++ (rest ++ released r (g.subclasses x)) =
      (r.order ++ r.ready) ++ released r (g.subclasses x) := by
    rw [hready]
    simp
  change _ = rest ++ released r (g.subclasses x) at hready'
  refine ⟨?_, ?_, ?_, ?_⟩
  · rw [horder, hready', hlist]
    refine List.nodup_append.mpr ⟨s.nodup, (g.subclasses_nodup x).filter _, ?_⟩
    rintro d hd e he rfl
    obtain ⟨hdb, heq⟩ := (hreleased d).mp he
    rw [(s.due d hdb).mp hd] at heq
    simp at heq
  · rw [horder, hready', hlist]
    intro d hd
    rcases List.mem_append.mp hd with hd | hd
    · exact s.mem_below d hd
    · exact ((hreleased d).mp hd).1
  · intro d
    rw [hwaiting, horder, openBases_snoc, s.waiting]
    by_cases hd : d ∈ below
    · by_cases hx : x ∈ g.openBases below r.order d
      · rw [if_pos ((hsub d).mpr hx), if_pos hd, if_pos hd, Option.map_some,
          length_filter_ne_of_mem (hnd d) hx]
      · rw [if_neg fun h => hx ((hsub d).mp h), if_pos hd, if_pos hd, filter_ne_of_not_mem hx]
    · simp [hd]
  · intro d hd
    rw [horder, hready', hlist, List.mem_append, s.due d hd, hreleased, openBases_snoc,
      filter_ne_eq_nil_iff (hnd d)]
    exact or_congr_right (and_iff_right hd)

/-- The new order of a class stays in force, since its bases had their turn before it. -/
theorem Ordered.next {id : ClassId} {first o : List ClassId} (s : g.Scheduled below r)
    (ord : g.Ordered id first r) (hready : r.ready = x :: rest) (hid : id ∉ below)
    (hne : x ≠ ClassId.root) (hlin : linearize x (g.basesOf x) (g.orderIn? r.pending) = .ok o) :
    g.Ordered id first ((g.subclasses x).foldl release
      { r with ready := rest, pending := r.pending.insert x o, order := r.order ++ [x] }) := by
  have hxo := s.not_mem_order hready
  have hxid : x ≠ id := fun h => hid (h ▸ s.head_mem_below hready)
  obtain ⟨hpending, horder, -, -⟩ := foldl_release
    { r with ready := rest, pending := r.pending.insert x o, order := r.order ++ [x] }
    (g.subclasses_nodup x)
  have hget : ∀ d, (r.pending.insert x o).get? d =
      if x = d then some o else r.pending.get? d := fun d => IndexMap.get?_insert _ _ _ _
  have hcongr : ∀ d, x ∉ g.basesOf d →
      linearize d (g.basesOf d) (g.orderIn? (r.pending.insert x o)) =
        linearize d (g.basesOf d) (g.orderIn? r.pending) := by
    intro d hd
    apply linearize_congr
    intro b hb
    have hbx : x ≠ b := fun h => hd (h ▸ hb)
    simp only [orderIn?, hget, if_neg hbx]
  refine ⟨?_, ?_, ?_⟩
  · rw [hpending, hget, if_neg hxid]
    exact ord.first
  · intro d
    rw [hpending, horder, hget, List.mem_append, List.mem_singleton]
    by_cases hd : x = d
    · subst hd
      simp
    · rw [if_neg hd, ord.known]
      simp [Ne.symm hd]
  · intro d hd p hp
    rw [horder] at hd
    rw [hpending] at hp ⊢
    rw [hget] at hp
    rcases List.mem_append.mp hd with hd | hd
    · have hdx : x ≠ d := fun h => hxo (h ▸ hd)
      rw [if_neg hdx] at hp
      rw [hcongr d (s.not_mem_basesOf hready hd)]
      exact ord.linearized d hd p hp
    · obtain rfl : d = x := List.mem_singleton.mp hd
      rw [if_pos rfl] at hp
      rw [hcongr d (not_mem_bases_of_linearize hne hlin), hlin, Option.some.inj hp]

theorem relinearizeNext_ok {r' : Relinearization} (hx : g.contains x = true)
    (h : g.relinearizeNext r x rest = .ok r') :
    ∃ o, linearize x (g.basesOf x) (g.orderIn? r.pending) = .ok o ∧
      r' = (g.subclasses x).foldl release
        { r with ready := rest, pending := r.pending.insert x o, order := r.order ++ [x] } := by
  obtain ⟨c, hc⟩ := contains_iff.mp hx
  rw [basesOf_of_class? hc]
  unfold relinearizeNext at h
  simp only [hc] at h
  split at h
  · simp at h
  · next o ho => exact ⟨o, ho, (Except.ok.inj h).symm⟩

/-- Classes taken from the front of the queue one after the other, each in its turn. -/
inductive Turns (g : ClassGraph) : Relinearization → List ClassId → Relinearization → Prop
  | done (r : Relinearization) : Turns g r [] r
  | turn {r r₁ r' : Relinearization} {d : ClassId} {rest ids : List ClassId}
      (hready : r.ready = d :: rest) (hnext : g.relinearizeNext r d rest = .ok r₁)
      (hrest : Turns g r₁ ids r') : Turns g r (d :: ids) r'

theorem exists_turns {turns : ℕ} {r' : Relinearization}
    (h : g.relinearizeWithin turns r = .ok r') : ∃ ids, g.Turns r ids r' ∧ r'.ready = [] := by
  induction turns generalizing r with
  | zero =>
    unfold relinearizeWithin at h
    split at h
    · next hready =>
      obtain rfl : r = r' := Except.ok.inj h
      exact ⟨[], .done r, hready⟩
    · simp at h
  | succ turns ih =>
    unfold relinearizeWithin at h
    split at h
    · next hready =>
      obtain rfl : r = r' := Except.ok.inj h
      exact ⟨[], .done r, hready⟩
    · next x rest hready =>
      simp only at h
      split at h
      · simp at h
      · next r₁ hnext =>
        obtain ⟨ids, hrest, hend⟩ := ih h
        exact ⟨x :: ids, .turn hready hnext hrest, hend⟩

/-- Turns keep the queue right and the orders made from each other, and the classes that had their
turn are noted. -/
theorem Turns.kept {id : ClassId} {first ids : List ClassId} {r' : Relinearization}
    (t : g.Turns r ids r') (hwf : g.WellFormed)
    (hbelow : ∀ y ∈ below, g.contains y = true ∧ y ≠ ClassId.root) (hid : id ∉ below)
    (s : g.Scheduled below r) (ord : g.Ordered id first r) :
    g.Scheduled below r' ∧ g.Ordered id first r' ∧ r'.order = r.order ++ ids := by
  induction t with
  | done r => exact ⟨s, ord, (List.append_nil _).symm⟩
  | @turn r r₁ r' x rest ids hready hnext _ ih =>
    obtain ⟨hx, hne⟩ := hbelow x (s.head_mem_below hready)
    obtain ⟨o, ho, rfl⟩ := relinearizeNext_ok hx hnext
    obtain ⟨s', ord', horder⟩ :=
      ih (s.next hwf hbelow hready _) (ord.next s hready hid hne ho)
    refine ⟨s', ord', ?_⟩
    rw [horder, (foldl_release _ (g.subclasses_nodup x)).2.1, List.append_assoc]
    rfl

/-- What the turns below a class lead to when they end well. -/
theorem relinearize_turns {id : ClassId} {bases : List ClassId} {r' : Relinearization}
    (h : g.relinearize id bases = .ok r') :
    (∀ b ∈ bases, b ≠ id ∧ b ∉ g.descendants id) ∧
    ∃ first ids, linearize id bases g.mro? = .ok first ∧
      g.Turns (g.startRelinearization (g.descendants id) id first) ids r' ∧ r'.ready = [] := by
  unfold relinearize at h
  simp only at h
  split at h
  · simp at h
  · next hnone =>
    split at h
    · simp at h
    · next first hfirst =>
      obtain ⟨ids, ht, hend⟩ := exists_turns h
      refine ⟨?_, first, ids, hfirst, ht, hend⟩
      intro b hb
      have hnot := List.find?_eq_none.mp hnone b hb
      simpa using hnot

end Turn

/-- When no class is ready any more, every class below has had its turn. -/
theorem Scheduled.complete {g : ClassGraph} {id : ClassId} {r : Relinearization}
    (hwf : g.WellFormed) (s : g.Scheduled (g.descendants id) r) (hready : r.ready = []) :
    ∀ d ∈ g.descendants id, d ∈ r.order := by
  intro d hd
  induction hn : (g.mro d).length using Nat.strongRecOn generalizing d with
  | ind n ih =>
    have hopen : g.openBases (g.descendants id) r.order d = [] := by
      apply List.eq_nil_iff_forall_not_mem.mpr
      intro b hb
      obtain ⟨hbd, hbb, hbo⟩ := mem_openBases.mp hb
      have hne : b ≠ ClassId.root := fun h => hwf.root_not_mem_descendants id (h ▸ hbb)
      have hlink := (hwf.link_iff_mem_basesOf (hwf.contains_of_mem_descendants hbb) hne).mpr hbd
      exact hbo (ih _ (hn ▸ hwf.mro_length_lt hlink) b hbb rfl)
    have hmem := (s.due d hd).mpr hopen
    rwa [hready, List.append_nil] at hmem

/-! The first turn. -/

theorem get?_foldl_insert {α : Type} (f : ClassId → α) (ids : List ClassId) (m : IndexMap α)
    (d : ClassId) :
    (ids.foldl (fun w i => w.insert i (f i)) m).get? d =
      if d ∈ ids then some (f d) else m.get? d := by
  induction ids generalizing m with
  | nil => simp
  | cons i rest ih =>
    rw [List.foldl_cons, ih, IndexMap.get?_insert]
    by_cases hrest : d ∈ rest
    · simp [hrest]
    · by_cases hd : d = i
      · subst hd
        simp
      · simp [hrest, hd, Ne.symm hd]

theorem startRelinearization_scheduled (g : ClassGraph) {below : List ClassId}
    (hnd : below.Nodup) (id : ClassId) (first : List ClassId) :
    g.Scheduled below (g.startRelinearization below id first) := by
  have hcount : ∀ d, ((((g.class? d).map ClassObject.bases).getD []).filter
      (below.contains ·)).length = (g.openBases below [] d).length := by
    intro d
    unfold openBases basesOf
    simp
  have hwaiting : ∀ d, (g.startRelinearization below id first).waiting.get? d =
      if d ∈ below then some (g.openBases below [] d).length else none := by
    intro d
    simp only [startRelinearization, get?_foldl_insert, hcount]
    rfl
  have hready : ∀ d, d ∈ (g.startRelinearization below id first).ready ↔
      d ∈ below ∧ g.openBases below [] d = [] := by
    intro d
    have hfilter : (g.startRelinearization below id first).ready = below.filter fun d =>
        (g.startRelinearization below id first).waiting.get? d = some 0 := rfl
    rw [hfilter, List.mem_filter]
    constructor
    · rintro ⟨hd, hw⟩
      simp only [hwaiting, hd, if_true, decide_eq_true_eq, Option.some.injEq] at hw
      exact ⟨hd, List.length_eq_zero_iff.mp hw⟩
    · rintro ⟨hd, hnil⟩
      refine ⟨hd, ?_⟩
      simp [hwaiting, hd, hnil]
  refine ⟨?_, ?_, ?_, ?_⟩
  · exact hnd.filter _
  · intro d hd
    exact ((hready d).mp hd).1
  · exact hwaiting
  · intro d hd
    refine ⟨fun h => ((hready d).mp h).2, fun h => (hready d).mpr ⟨hd, h⟩⟩

theorem startRelinearization_ordered (g : ClassGraph) (below : List ClassId) (id : ClassId)
    (first : List ClassId) : g.Ordered id first (g.startRelinearization below id first) := by
  have hget : ∀ d, (g.startRelinearization below id first).pending.get? d =
      if id = d then some first else none := by
    intro d
    exact IndexMap.get?_insert _ _ _ _
  refine ⟨?_, ?_, ?_⟩
  · rw [hget, if_pos rfl]
  · intro d
    rw [hget]
    by_cases hd : id = d
    · simp [hd]
    · simp [hd, Ne.symm hd, startRelinearization]
  · intro d hd
    simp [startRelinearization] at hd

end MethodCache.ClassGraph
