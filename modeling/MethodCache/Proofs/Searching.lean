import Mathlib.Data.List.Flatten
import Mathlib.Order.Lattice.Nat
import Mathlib.Logic.Function.Iterate
import MethodCache.Proofs.Links

/-!
The search for the classes below a class, seen step by step. A class that the search comes to is
listed unless it was listed before, and what is directly below it goes to the end of the queue, so
the queue holds classes that chains of one length lead to, followed by classes that chains with
one link more lead to. In every graph, cycles or not, the queue runs empty, and what is listed
then stands in the order of the distances.
-/
namespace MethodCache.ClassGraph

open Relation

/-! ### Distances -/

/-- The classes that chains of so many links lead to, one for each chain. -/
def level (g : ClassGraph) (id : ClassId) : ℕ → List ClassId
  | 0 => [id]
  | n + 1 => (g.level id n).flatMap g.subclasses

/-- The number of links in a shortest chain from one class down to another. -/
noncomputable def distance (g : ClassGraph) (id d : ClassId) : ℕ :=
  sInf {n | d ∈ g.level id n}

section Distance

variable {g : ClassGraph} {id b d : ClassId} {n : ℕ}

theorem mem_level_zero : d ∈ g.level id 0 ↔ d = id := List.mem_singleton

theorem mem_level_succ : d ∈ g.level id (n + 1) ↔ ∃ b ∈ g.level id n, g.Link b d :=
  List.mem_flatMap

theorem mem_level_of_link (hb : b ∈ g.level id n) (hl : g.Link b d) : d ∈ g.level id (n + 1) :=
  mem_level_succ.mpr ⟨b, hb, hl⟩

theorem distance_le (h : d ∈ g.level id n) : g.distance id d ≤ n := Nat.sInf_le h

theorem mem_level_distance (h : d ∈ g.level id n) : d ∈ g.level id (g.distance id d) :=
  Nat.sInf_mem (s := {n | d ∈ g.level id n}) ⟨n, h⟩

end Distance

/-! ### Steps -/

/-- A search in progress: the classes listed so far and those that wait. -/
structure Search where
  listed : List ClassId
  queue : List ClassId

namespace Search

def start (g : ClassGraph) (id : ClassId) : Search := ⟨[], g.subclasses id⟩

/-- Takes the class at the head of the queue. Unless it was listed before, or is the class whose
descendants are sought, it is listed and the classes directly below it wait. -/
def next (g : ClassGraph) (id : ClassId) (s : Search) : Search :=
  match s.queue with
  | [] => s
  | d :: rest =>
    if d = id ∨ d ∈ s.listed then { s with queue := rest }
    else ⟨s.listed ++ [d], rest ++ g.subclasses d⟩

variable {g : ClassGraph} {id d : ClassId} {listed rest : List ClassId}

theorem next_of_old (h : d = id ∨ d ∈ listed) :
    next g id ⟨listed, d :: rest⟩ = ⟨listed, rest⟩ := if_pos h

theorem next_of_new (h : ¬ (d = id ∨ d ∈ listed)) :
    next g id ⟨listed, d :: rest⟩ = ⟨listed ++ [d], rest ++ g.subclasses d⟩ := if_neg h

/-- The classes not seen yet are the linked ones that a step would list. -/
theorem iterate_next_explore (g : ClassGraph) (id : ClassId) {unseen queue : List ClassId}
    (hnd : unseen.Nodup) (hqueue : ∀ d ∈ queue, d ∈ g.linked)
    (hunseen : ∀ d, d ∈ unseen ↔ d ∈ g.linked ∧ ¬ (d = id ∨ d ∈ listed)) :
    ∃ n ≤ g.linkCount unseen + queue.length,
      (next g id)^[n] ⟨listed, queue⟩ = ⟨listed ++ g.explore unseen queue, []⟩ := by
  fun_induction explore g unseen queue generalizing listed with
  | case1 unseen => exact ⟨0, Nat.zero_le _, by simp⟩
  | case2 unseen d rest hd ih =>
    have hnew := ((hunseen d).mp hd).2
    have hrest : ∀ a ∈ rest ++ g.subclasses d, a ∈ g.linked := by
      intro a ha
      rcases List.mem_append.mp ha with ha | ha
      · exact hqueue a (List.mem_cons_of_mem d ha)
      · exact mem_linked_of_link ha
    have herase : ∀ a, a ∈ unseen.erase d ↔ a ∈ g.linked ∧ ¬ (a = id ∨ a ∈ listed ++ [d]) := by
      intro a
      rw [hnd.mem_erase_iff, hunseen, List.mem_append, List.mem_singleton]
      tauto
    obtain ⟨n, hn, hrun⟩ := ih (hnd.erase d) hrest herase
    refine ⟨n + 1, ?_, ?_⟩
    · have hcount := g.linkCount_erase_add hd
      rw [List.length_append] at hn
      rw [List.length_cons]
      omega
    · rw [Function.iterate_succ_apply, next_of_new hnew, hrun, List.append_assoc]
      rfl
  | case3 unseen d rest hd ih =>
    have hold : d = id ∨ d ∈ listed := by
      by_contra hnew
      exact hd ((hunseen d).mpr ⟨hqueue d List.mem_cons_self, hnew⟩)
    obtain ⟨n, hn, hrun⟩ := ih hnd (fun a ha => hqueue a (List.mem_cons_of_mem d ha)) hunseen
    refine ⟨n + 1, ?_, ?_⟩
    · rw [List.length_cons]
      omega
    · rw [Function.iterate_succ_apply, next_of_old hold, hrun]

/-- The queue runs empty, after no more steps than there are links, and the classes below are
listed then. -/
theorem iterate_next_start (g : ClassGraph) (id : ClassId) :
    ∃ n ≤ g.linkCount g.linked + (g.subclasses id).length,
      (next g id)^[n] (start g id) = ⟨g.descendants id, []⟩ := by
  have hunseen : ∀ d, d ∈ g.linked.filter (· ≠ id) ↔ d ∈ g.linked ∧ ¬ (d = id ∨ d ∈ []) := by
    simp
  obtain ⟨n, hn, hrun⟩ := iterate_next_explore g id (g.linked_nodup.filter _)
    (fun d hd => mem_linked_of_link hd) hunseen
  have hcount : g.linkCount (g.linked.filter (· ≠ id)) ≤ g.linkCount g.linked := by
    unfold linkCount
    exact (List.filter_sublist.flatMap g.subclasses).length_le
  exact ⟨n, by omega, hrun⟩

end Search

/-! ### The order of the list -/

/-- A search among the classes at one distance. In the queue stand classes that chains of this
length lead to, `near`, and behind them classes one link further on, `far`. -/
structure Searched (g : ClassGraph) (id : ClassId) (k : ℕ) (near far : List ClassId)
    (s : Search) : Prop where
  queue : s.queue = near ++ far
  near_level : ∀ d ∈ near, d ∈ g.level id k
  far_level : ∀ d ∈ far, d ∈ g.level id (k + 1)
  listed_level : ∀ d ∈ s.listed, ∃ n ≤ k, d ∈ g.level id n
  nearer : ∀ n < k, ∀ d ∈ g.level id n, d = id ∨ d ∈ s.listed
  here : ∀ d ∈ g.level id k, d = id ∨ d ∈ s.listed ∨ d ∈ near
  below : ∀ b, b = id ∨ b ∈ s.listed → ∀ d, g.Link b d →
    d = id ∨ d ∈ s.listed ∨ d ∈ near ∨ d ∈ far
  sorted : s.listed.Pairwise fun a b => g.distance id a ≤ g.distance id b

namespace Searched

variable {g : ClassGraph} {id d : ClassId} {k : ℕ} {near far : List ClassId} {s : Search}

theorem start (g : ClassGraph) (id : ClassId) :
    g.Searched id 0 [] (g.subclasses id) (.start g id) := by
  refine ⟨rfl, by simp, ?_, by simp [Search.start], by simp, ?_, ?_, by simp [Search.start]⟩
  · intro d hd
    exact mem_level_of_link (mem_level_zero.mpr rfl) hd
  · intro d hd
    exact Or.inl (mem_level_zero.mp hd)
  · rintro b (rfl | hb) d hl
    · exact Or.inr (Or.inr (Or.inr hl))
    · simp [Search.start] at hb

theorem advance (r : g.Searched id k [] far s) : g.Searched id (k + 1) far [] s := by
  have hdone : ∀ n < k + 1, ∀ d ∈ g.level id n, d = id ∨ d ∈ s.listed := by
    intro n hn d hd
    rcases Nat.lt_succ_iff_lt_or_eq.mp hn with hn | rfl
    · exact r.nearer n hn d hd
    · simpa using r.here d hd
  refine ⟨by rw [r.queue, List.nil_append, List.append_nil], r.far_level, by simp, ?_, hdone,
    ?_, ?_, r.sorted⟩
  · intro d hd
    obtain ⟨n, hn, hlevel⟩ := r.listed_level d hd
    exact ⟨n, by omega, hlevel⟩
  · intro d hd
    obtain ⟨b, hb, hl⟩ := mem_level_succ.mp hd
    simpa using r.below b (hdone k (Nat.lt_succ_self k) b hb) d hl
  · intro b hb d hl
    simpa using r.below b hb d hl

theorem le_distance (r : g.Searched id k near far s) {n : ℕ} (hd : d ∈ g.level id n)
    (hnew : ¬ (d = id ∨ d ∈ s.listed)) : k ≤ g.distance id d := by
  by_contra hlt
  exact hnew (r.nearer _ (Nat.lt_of_not_le hlt) d (mem_level_distance hd))

theorem next_cons (r : g.Searched id k (d :: near) far s) :
    ∃ far', g.Searched id k near far' (s.next g id) := by
  obtain ⟨listed, queue⟩ := s
  obtain rfl : queue = d :: (near ++ far) := r.queue
  have hnear : ∀ a ∈ near, a ∈ g.level id k := by
    intro a ha
    exact r.near_level a (List.mem_cons_of_mem d ha)
  by_cases hold : d = id ∨ d ∈ listed
  · -- nothing is listed, and the class that leaves the queue is accounted for
    refine ⟨far, ?_⟩
    rw [Search.next_of_old hold]
    refine ⟨rfl, hnear, r.far_level, r.listed_level, r.nearer, ?_, ?_, r.sorted⟩
    · intro a ha
      have hhere := r.here a ha
      grind
    · intro b hb a hl
      have hbelow := r.below b hb a hl
      grind
  · refine ⟨far ++ g.subclasses d, ?_⟩
    rw [Search.next_of_new hold]
    have hlevel := r.near_level d List.mem_cons_self
    have hkept : ∀ a, a ∈ listed → a ∈ listed ++ [d] := fun a ha => List.mem_append_left _ ha
    refine ⟨by simp, hnear, ?_, ?_, ?_, ?_, ?_, ?_⟩
    · intro a ha
      rcases List.mem_append.mp ha with ha | ha
      · exact r.far_level a ha
      · exact mem_level_of_link hlevel ha
    · intro a ha
      rcases List.mem_append.mp ha with ha | ha
      · exact r.listed_level a ha
      · exact ⟨k, le_rfl, List.mem_singleton.mp ha ▸ hlevel⟩
    · exact fun n hn a ha => (r.nearer n hn a ha).imp_right (hkept a)
    · intro a ha
      have hhere := r.here a ha
      grind
    · intro b hb a hl
      by_cases hbd : b = d
      · subst hbd
        exact Or.inr (Or.inr (Or.inr (List.mem_append_right _ hl)))
      · have hbelow := r.below b (by grind) a hl
        grind
    · refine List.pairwise_append.mpr ⟨r.sorted, List.pairwise_singleton _ _, ?_⟩
      intro a ha b hb
      obtain rfl : b = d := List.mem_singleton.mp hb
      obtain ⟨n, hn, hlevel'⟩ := r.listed_level a ha
      exact (distance_le hlevel').trans (hn.trans (r.le_distance hlevel hold))

/-- Each step keeps the queue in this form. -/
theorem next (r : g.Searched id k near far s) :
    ∃ k' near' far', g.Searched id k' near' far' (s.next g id) := by
  cases near with
  | cons d near =>
    obtain ⟨far', r'⟩ := r.next_cons
    exact ⟨k, near, far', r'⟩
  | nil =>
    cases far with
    | nil =>
      have hsame : s.next g id = s := by
        have hempty : s.queue = [] := r.queue
        rw [Search.next, hempty]
      exact ⟨k, [], [], by rwa [hsame]⟩
    | cons d far =>
      obtain ⟨far', r'⟩ := r.advance.next_cons
      exact ⟨k + 1, far, far', r'⟩

theorem iterate (r : g.Searched id k near far s) (n : ℕ) :
    ∃ k' near' far', g.Searched id k' near' far' ((Search.next g id)^[n] s) := by
  induction n generalizing k near far s with
  | zero => exact ⟨k, near, far, r⟩
  | succ n ih =>
    obtain ⟨k', near', far', r'⟩ := r.next
    exact ih r'

end Searched

/-- In every graph the search for the classes below a class comes to an end, and it lists each class
other than itself that a chain of links leads to, once, and in the order of the lengths of the
shortest chains. -/
theorem descendants_nearest_first (g : ClassGraph) (id : ClassId) :
    (∃ n ≤ g.linkCount g.linked + (g.subclasses id).length,
      (Search.next g id)^[n] (.start g id) = ⟨g.descendants id, []⟩) ∧
    (g.descendants id).Nodup ∧
    (∀ d, d ∈ g.descendants id ↔ d ≠ id ∧ TransGen g.Link id d) ∧
    (∀ d ∈ g.descendants id, d ∈ g.level id (g.distance id d)) ∧
    (g.descendants id).Pairwise fun a b => g.distance id a ≤ g.distance id b := by
  obtain ⟨n, hn, hrun⟩ := Search.iterate_next_start g id
  obtain ⟨k, near, far, r⟩ := (Searched.start g id).iterate n
  rw [hrun] at r
  refine ⟨⟨n, hn, hrun⟩, g.descendants_nodup id, fun d => mem_descendants, ?_, r.sorted⟩
  intro d hd
  obtain ⟨m, -, hlevel⟩ := r.listed_level d hd
  exact mem_level_distance hlevel

end MethodCache.ClassGraph
