import MethodCache.Proofs.Process

/-!
The worklist of a walk runs empty. No class is remembered as visited, foreign classes put all the
classes below them back at every visit, and a class is put back along every path that leads to it.
Still each class weighs more than all classes directly below it, so what waits gets lighter with
every class that is taken, whatever the tables and the members are, unless the links go around.
Where foreign classes do link in a circle, the worklist never runs empty.
-/
namespace MethodCache

open Relation

namespace ClassGraph

/-- The graph differs in what the tables hold only: every class has a table that had one. -/
structure Refilled (g h : ClassGraph) : Prop where
  retabled : g.Retabled h
  published : ∀ d, (h.table? d).isSome = (g.table? d).isSome

theorem Refilled.refl (g : ClassGraph) : g.Refilled g := ⟨.refl g, fun _ => rfl⟩

def ForeignLink (g : ClassGraph) (a d : ClassId) : Prop :=
  g.contains a = true ∧ ¬ g.Managed a ∧ g.Link a d

theorem Retabled.foreignLink_eq {g h : ClassGraph} (r : g.Retabled h) :
    h.ForeignLink = g.ForeignLink := by
  funext a d
  unfold ForeignLink
  rw [r.contains, r.managed_iff, r.link_eq]

/-- A class that is complete and has no table all the same. -/
structure LacksTable (g : ClassGraph) (id : ClassId) (className : String) : Prop where
  named : (g.class? id).map ClassObject.name = some className
  managed : g.Managed id
  unpublished : (g.table? id).isSome = false
  complete : g.mayBeConstructing id = false

theorem LacksTable.congr {g h : ClassGraph} {id : ClassId} {className : String}
    (r : g.Refilled h) (hl : h.LacksTable id className) : g.LacksTable id className := by
  refine ⟨?_, (r.retabled.managed_iff id).mp hl.managed, (r.published id).symm.trans hl.unpublished,
    ?_⟩
  · rw [← hl.named]
    refine (r.retabled.map_class? ClassObject.name (fun c => ?_) id).symm
    unfold ClassObject.untabled
    split <;> rfl
  · rw [← hl.complete]
    unfold mayBeConstructing isConstructing
    rw [r.retabled.tracks, r.retabled.constructing]

end ClassGraph

namespace Update

open ClassGraph

/-- Takes the class on top of a worklist. What a class without a table stops is put off: the class
is passed over. -/
def pop (s : Slot) : List ClassId × Update → List ClassId × Update
  | ([], u) => ([], u)
  | (id :: stack, u) =>
    match visitClass s id u with
    | (u, .ok below) => (below ++ stack, u)
    | (u, .error _) => (stack, u)

/-- How a walk is left: with nothing waiting, or on top of the worklist a class that should have had
a table. -/
inductive Ends (g : ClassGraph) : List ClassId × Update → Outcome → Prop
  | emptied (u : Update) : Ends g ([], u) (u, none)
  | stopped {id : ClassId} {className : String} (h : g.LacksTable id className)
      (stack : List ClassId) (u : Update) :
      Ends g (id :: stack, u) (u.visit, some (.visitWithoutTable className))

theorem Ends.congr {g h : ClassGraph} {p : List ClassId × Update} {o : Outcome}
    (r : g.Refilled h) (he : Ends h p o) : Ends g p o := by
  cases he with
  | emptied u => exact .emptied u
  | stopped hl stack u => exact .stopped (hl.congr r) stack u

theorem Ends.eq_emptied {g : ClassGraph} {p : List ClassId × Update} {o : Outcome}
    (he : Ends g p o) (hwell : o.2 = none) : p = ([], o.1) := by
  cases he with
  | emptied u => rfl
  | stopped => simp at hwell

variable {s : Slot} {id : ClassId} {u : Update}

/-- What a visit may find: nothing to go on with, all the classes below to go on with, or a missing
table. -/
theorem visitClass_outcome (s : Slot) (id : ClassId) (u : Update) :
    ∃ u', u.graph.Refilled u'.graph ∧
      (visitClass s id u = (u', .ok []) ∨
        visitClass s id u = (u', .ok (u.graph.subclasses id).reverse) ∨
        ∃ className, u.graph.LacksTable id className ∧ u' = u.visit ∧
          visitClass s id u = (u', .error (.visitWithoutTable className))) := by
  cases hc : u.graph.class? id with
  | none => exact ⟨u, .refl _, Or.inl (visitClass_of_none hc)⟩
  | some c =>
    cases hk : c.kind with
    | foreign ro => exact ⟨u.visit, .refl _, Or.inr (Or.inl (visitClass_of_foreign hc hk))⟩
    | managed cell =>
      cases ht : cell.table with
      | some t =>
        by_cases hfresh : t.get s = u.graph.resolve id s
        · exact ⟨u.visit, .refl _, Or.inl (visitClass_of_fresh hc hk ht hfresh)⟩
        · have r := refreshed_of_stale (s := s) hc hk ht
          have hvisit := visitClass_of_stale hc hk ht hfresh
          exact ⟨_, ⟨r.retabled, r.published⟩, Or.inr (Or.inl hvisit)⟩
      | none =>
        have hpub : cell.isPublished = false := by simp [TableCell.isPublished, ht]
        refine ⟨u.visit, .refl _, ?_⟩
        cases hb : u.graph.mayBeConstructing id with
        | true =>
          left
          have hb' : u.visit.graph.mayBeConstructing id = true := hb
          simp [visitClass, hc, hk, hpub, hb']
        | false =>
          have hb' : u.visit.graph.mayBeConstructing id = false := hb
          refine Or.inr (Or.inr ⟨c.name, ⟨?_, managed_of_kind hc hk, ?_, hb⟩, rfl, ?_⟩)
          · rw [hc, Option.map_some]
          · rw [table?_of_class? hc]
            simp [ClassObject.table?, ClassObject.cell?, hk, ht]
          · simp [visitClass, hc, hk, hpub, hb']

/-- Taking a class puts the classes below it in its place, or nothing. The walk goes on with what
waits then, unless the class lacks its table. -/
theorem pop_cons (s : Slot) (id : ClassId) (stack : List ClassId) (u : Update) :
    ∃ below u', pop s (id :: stack, u) = (below ++ stack, u') ∧ u.graph.Refilled u'.graph ∧
      (below = [] ∨ below = (u.graph.subclasses id).reverse) ∧
      ((∀ n, walkWithin s (n + 1) (id :: stack) u = walkWithin s n (below ++ stack) u') ∨
        ∃ className, u.graph.LacksTable id className ∧ ∀ n,
          walkWithin s (n + 1) (id :: stack) u =
            (u.visit, some (.visitWithoutTable className))) := by
  obtain ⟨u', r, hempty | hbelow | ⟨className, hlacks, rfl, hstop⟩⟩ := visitClass_outcome s id u
  · exact ⟨[], u', by rw [pop, hempty], r, Or.inl rfl, Or.inl fun n => by rw [walkWithin, hempty]⟩
  · exact ⟨_, u', by rw [pop, hbelow], r, Or.inr rfl, Or.inl fun n => by rw [walkWithin, hbelow]⟩
  · exact ⟨[], u.visit, by rw [pop, hstop, List.nil_append], r, Or.inl rfl,
      Or.inr ⟨className, hlacks, fun n => by rw [walkWithin, hstop]⟩⟩

theorem weight_below_lt {g h : ClassGraph} (hac : g.Acyclic) (r : g.Refilled h)
    {below : List ClassId} (hbelow : below = [] ∨ below = (g.subclasses id).reverse)
    (stack : List ClassId) : weight h (below ++ stack) < weight g (id :: stack) := by
  have hless : weight g below < (g.linked.length + 1) ^ g.height id := by
    rcases hbelow with rfl | rfl
    · exact Nat.pow_pos (Nat.succ_pos _)
    · rw [weight_reverse]
      exact weight_subclasses_lt hac id
  rw [weight_of_retabled r.retabled, weight_append, weight_cons]
  omega

theorem eq_nil_of_weight {g : ClassGraph} {stack : List ClassId} (h : weight g stack ≤ 0) :
    stack = [] := by
  cases stack with
  | nil => rfl
  | cons id stack =>
    have hpos : 0 < (g.linked.length + 1) ^ g.height id := Nat.pow_pos (Nat.succ_pos _)
    rw [weight_cons] at h
    omega

theorem pop_iterate_empty {n : ℕ} {stack : List ClassId} (hac : u.graph.Acyclic)
    (hn : weight u.graph stack ≤ n) : ((pop s)^[n] (stack, u)).1 = [] := by
  induction n generalizing stack u with
  | zero => exact eq_nil_of_weight hn
  | succ n ih =>
    cases stack with
    | nil => rw [Function.iterate_fixed rfl]
    | cons id stack =>
      obtain ⟨below, u', hpop, r, hbelow, -⟩ := pop_cons s id stack u
      have hrest := (weight_below_lt hac r hbelow stack).trans_le hn
      rw [Function.iterate_succ_apply, hpop]
      exact ih (hac.congr r.retabled.links) (Nat.le_of_lt_succ hrest)

/-- A walk with enough steps takes one class after the other and ends. -/
theorem walkWithin_ends {n : ℕ} {stack : List ClassId} (hac : u.graph.Acyclic)
    (hn : weight u.graph stack ≤ n) :
    ∃ m ≤ n, Ends u.graph ((pop s)^[m] (stack, u)) (walkWithin s n stack u) := by
  induction n generalizing stack u with
  | zero =>
    obtain rfl := eq_nil_of_weight hn
    exact ⟨0, le_rfl, .emptied u⟩
  | succ n ih =>
    cases stack with
    | nil => exact ⟨0, Nat.zero_le _, .emptied u⟩
    | cons id stack =>
      obtain ⟨below, u', hpop, r, hbelow, hgo | ⟨className, hlacks, hstop⟩⟩ :=
        pop_cons s id stack u
      · have hrest := (weight_below_lt hac r hbelow stack).trans_le hn
        obtain ⟨m, hm, hends⟩ := ih (hac.congr r.retabled.links) (Nat.le_of_lt_succ hrest)
        refine ⟨m + 1, by omega, ?_⟩
        rw [Function.iterate_succ_apply, hpop, hgo]
        exact hends.congr r
      · rw [hstop]
        exact ⟨0, Nat.zero_le _, .stopped hlacks stack u⟩

/-- The worklist of a walk runs empty, in every graph without circles and so in every context of a
process. The classes taken until then are no more than the bound, whatever there is in tables and
members, even where tables are missing; and this is how propagating a slot ends, unless it comes
to a class that should have had a table before. -/
theorem worklist_empties :
    (∀ p : Process, p.Reachable → ∀ c n, (c, n) ∈ p.contexts → n < ClassId.available →
      c.graph.Acyclic) ∧
    ∀ (s : Slot) (start : List ClassId) (u : Update), u.graph.Acyclic →
      ((pop s)^[walkBound u.graph start.length] (start.reverse, u)).1 = [] ∧
      ∃ n ≤ walkBound u.graph start.length,
        Ends u.graph ((pop s)^[n] (start.reverse, u)) (propagate s start u) := by
  refine ⟨fun p hp c n hc hn => (hp.sound hc hn).wellFormed.acyclic, fun s start u hac => ?_⟩
  have hn : weight u.graph start.reverse ≤ walkBound u.graph start.length := by
    rw [weight_reverse]
    exact weight_le_walkBound u.graph start
  exact ⟨pop_iterate_empty hac hn, walkWithin_ends hac hn⟩

/-- Foreign classes, two of them side by side between the other two. -/
def diamondEdits : List ClassEdit :=
  [.defineForeign "Top" [] [] false, .defineForeign "Left" [64] [] false,
   .defineForeign "Right" [64] [] false, .defineForeign "Bottom" [65, 66] [] false]

/-- The class at the bottom is taken twice, and then nothing waits. -/
theorem diamond_empties :
    ∃ c n, (c, n) ∈ (Process.ofRun .unchecked diamondEdits).contexts ∧ n < ClassId.available ∧
      (Process.ofRun .unchecked diamondEdits).Reachable ∧ c.graph.Acyclic ∧
      (∃ n v, (pop .len)^[n] ([64], ⟨c.graph, {}⟩) = ([], v) ∧
        propagate .len [64] ⟨c.graph, {}⟩ = (v, none)) ∧
      (propagate .len [64] ⟨c.graph, {}⟩).1.report.visited = 5 := by
  have hp := Process.reachable_ofRun .unchecked diamondEdits
  obtain ⟨c, n, hc, hn, hwell, hvisited⟩ : ∃ c n,
      (c, n) ∈ (Process.ofRun .unchecked diamondEdits).contexts ∧ n < ClassId.available ∧
      (propagate .len [64] ⟨c.graph, {}⟩).2 = none ∧
      (propagate .len [64] ⟨c.graph, {}⟩).1.report.visited = 5 :=
    ⟨_, _, List.mem_singleton_self _, by decide, by decide +kernel⟩
  obtain ⟨hreach, hends⟩ := worklist_empties
  have hac := hreach _ hp c n hc hn
  obtain ⟨-, k, -, hend⟩ := hends .len [64] ⟨c.graph, {}⟩ hac
  rw [List.reverse_singleton] at hend
  exact ⟨c, n, hc, hn, hp, hac, ⟨k, _, hend.eq_emptied hwell, Prod.ext rfl hwell⟩, hvisited⟩

/-! ### Circles -/

theorem pop_foreign (hreg : u.graph.contains id = true) (hforeign : ¬ u.graph.Managed id)
    (stack : List ClassId) :
    pop s (id :: stack, u) = ((u.graph.subclasses id).reverse ++ stack, u.visit) := by
  obtain ⟨c, hc⟩ := contains_iff.mp hreg
  cases hk : c.kind with
  | foreign ro => rw [pop, visitClass_of_foreign hc hk]
  | managed cell => exact absurd (managed_of_kind hc hk) hforeign

/-- Taking a class leaves one waiting that lies in a circle, if there was one. -/
theorem exists_circle_pop {stack : List ClassId} (hid : id ∈ stack)
    (hcircle : TransGen u.graph.ForeignLink id id) :
    ∃ d ∈ (pop s (stack, u)).1, TransGen (pop s (stack, u)).2.graph.ForeignLink d d := by
  cases stack with
  | nil => simp at hid
  | cons top stack =>
    rcases List.mem_cons.mp hid with rfl | hrest
    · obtain ⟨d, hlink, hback⟩ := TransGen.head'_iff.mp hcircle
      have ⟨hreg, hforeign, hbelow⟩ := hlink
      rw [pop_foreign hreg hforeign]
      exact ⟨d, List.mem_append_left _ (List.mem_reverse.mpr hbelow),
        TransGen.tail' hback hlink⟩
    · obtain ⟨below, u', hpop, r, -, -⟩ := pop_cons s top stack u
      rw [hpop]
      refine ⟨id, List.mem_append_right below hrest, ?_⟩
      rwa [r.retabled.foreignLink_eq]

/-- From a circle of foreign classes the worklist never runs empty. -/
theorem worklist_stays {stack : List ClassId} (hid : id ∈ stack)
    (hcircle : TransGen u.graph.ForeignLink id id) (n : ℕ) :
    ((pop s)^[n] (stack, u)).1 ≠ [] := by
  induction n generalizing id stack u with
  | zero => exact List.ne_nil_of_mem hid
  | succ n ih =>
    obtain ⟨d, hd, hcircle'⟩ := exists_circle_pop (s := s) hid hcircle
    rw [Function.iterate_succ_apply]
    exact ih hd hcircle'

end Update

end MethodCache
