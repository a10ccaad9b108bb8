import Mathlib.Data.List.Induction
import MethodCache.Proofs.Checking

/-!
Numbers and call targets side by side. Things are numbered while call targets are resolved at any
numbers, some of them in vain, and however the two are mixed, the numbers count the things in the
order of first sight, each thing is found at its number, and a target stays at the number where it
was first resolved.
-/
namespace MethodCache

/-- What is asked for: the number of a thing, or the call target at a number, with what resolving
it would lead to. -/
inductive DispatchCall (α : Type)
  | number (a : α)
  | resolve (i : ℕ) (found : Option CallTarget)

/-- A numbering, and the call targets of one context beside it. -/
structure Dispatch (α : Type) [DecidableEq α] where
  numbering : Numbering α := {}
  targets : CallTargets := {}

namespace CallTargets

theorem getOrResolve_eq (t : CallTargets) (i : ℕ) (found : Option CallTarget) :
    (∃ target, t.get? i = some target ∧ t.getOrResolve i found = (some target, t)) ∨
    (t.get? i = none ∧ found = none ∧ t.getOrResolve i found = (none, t)) ∨
    ∃ target, t.get? i = none ∧ found = some target ∧
      t.getOrResolve i found = (some target, t.put i target) := by
  unfold getOrResolve
  cases hget : t.get? i with
  | some target => exact Or.inl ⟨target, rfl, rfl⟩
  | none =>
    cases found with
    | none => exact Or.inr (Or.inl ⟨rfl, rfl, rfl⟩)
    | some target => exact Or.inr (Or.inr ⟨target, rfl, rfl, rfl⟩)

theorem resolved_eq_length {t : CallTargets} {is : List ℕ} (hnd : is.Nodup)
    (hmem : ∀ i, i ∈ is ↔ (t.get? i).isSome = true) : t.resolved = is.length := by
  have hcount : ∀ places : List (Option CallTarget), (places.filter Option.isSome).length =
      ((List.range places.length).filter fun i => places[i]?.join.isSome).length := by
    intro places
    induction places using List.reverseRecOn with
    | nil => rfl
    | append_singleton places place ih =>
      have hsame : ((List.range places.length).filter fun i =>
          (places ++ [place])[i]?.join.isSome) =
          (List.range places.length).filter fun i => places[i]?.join.isSome := by
        apply List.filter_congr
        intro i hi
        rw [List.getElem?_append_left (List.mem_range.mp hi)]
      rw [List.length_append, List.length_singleton, List.range_succ, List.filter_append,
        List.filter_append, List.length_append, List.length_append, hsame, ih]
      cases place <;> simp
  have hperm : ((List.range t.places.length).filter fun i => (t.get? i).isSome).Perm is := by
    apply (List.perm_ext_iff_of_nodup (List.nodup_range.filter _) hnd).mpr
    intro i
    rw [hmem, List.mem_filter, List.mem_range, and_iff_right_iff_imp]
    intro hi
    by_contra hlen
    rw [get?, List.getElem?_eq_none (Nat.le_of_not_lt hlen)] at hi
    simp at hi
  exact (hcount t.places).trans hperm.length_eq

end CallTargets

namespace Dispatch

variable {α : Type} [DecidableEq α]

def step (s : Dispatch α) : DispatchCall α → Dispatch α
  | .number a => { s with numbering := (s.numbering.number a).2 }
  | .resolve i found => { s with targets := (s.targets.getOrResolve i found).2 }

def run (s : Dispatch α) (calls : List (DispatchCall α)) : Dispatch α := calls.foldl step s

def numbered (calls : List (DispatchCall α)) : List α :=
  calls.filterMap fun
    | .number a => some a
    | .resolve _ _ => none

/-- The numbers at which resolving leads to a target. -/
def resolvable (calls : List (DispatchCall α)) : List ℕ :=
  calls.filterMap fun
    | .number _ => none
    | .resolve i found => found.map fun _ => i

theorem run_snoc (s : Dispatch α) (calls : List (DispatchCall α)) (call : DispatchCall α) :
    s.run (calls ++ [call]) = (s.run calls).step call := by
  simp [run]

theorem run_append (s : Dispatch α) (calls more : List (DispatchCall α)) :
    s.run (calls ++ more) = (s.run calls).run more := List.foldl_append

/-! ### Numbers -/

theorem extends_step (s : Dispatch α) (call : DispatchCall α) :
    s.numbering.Extends (s.step call).numbering := by
  cases call with
  | number a => exact s.numbering.extends_number a
  | resolve i found => exact .refl _

theorem extends_run (s : Dispatch α) (calls : List (DispatchCall α)) :
    s.numbering.Extends (s.run calls).numbering := by
  induction calls generalizing s with
  | nil => exact .refl _
  | cons call rest ih => exact (s.extends_step call).trans (ih (s.step call))

theorem eraseDups_snoc (l : List α) (a : α) :
    (l ++ [a]).eraseDups = if a ∈ l then l.eraseDups else l.eraseDups ++ [a] := by
  rw [List.eraseDups_append]
  by_cases ha : a ∈ l
  · simp [ha, List.removeAll]
  · simp [ha, List.removeAll, List.eraseDups_cons]

theorem listed_run (calls : List (DispatchCall α)) :
    (run {} calls).numbering.listed = (numbered calls).eraseDups := by
  induction calls using List.reverseRecOn with
  | nil => rfl
  | append_singleton calls call ih =>
    rw [run_snoc]
    cases call with
    | resolve i found =>
      have hsame : numbered (calls ++ [.resolve i found]) = numbered calls := by simp [numbered]
      rw [hsame]
      exact ih
    | number a =>
      have hsnoc : numbered (calls ++ [.number a]) = numbered calls ++ [a] := by simp [numbered]
      rw [hsnoc, eraseDups_snoc]
      change ((run {} calls).numbering.number a).2.listed = _
      rcases (run {} calls).numbering.number_cases a with ⟨i, hi, hnumber⟩ | ⟨ha, -, hlisted⟩
      · have ha := List.mem_of_getElem? hi
        rw [ih, List.mem_eraseDups] at ha
        rw [hnumber, if_pos ha, ih]
      · rw [ih, List.mem_eraseDups] at ha
        rw [hlisted, if_neg ha, ih]

/-- The numbers that calls lead to. They count the things in the order of first sight, no thing
ever gets another one, and no two things get the same. -/
structure CountsUp (calls : List (DispatchCall α)) : Prop where
  listed : (run {} calls).numbering.listed = (numbered calls).eraseDups
  firstSight : ∀ before a after, calls = before ++ .number a :: after →
    ((run {} before).numbering.number a).1 = (numbered calls).eraseDups.idxOf a
  found : ∀ before a after, calls = before ++ .number a :: after →
    (run {} calls).numbering.get? ((run {} before).numbering.number a).1 = some a
  again : ∀ a ∈ numbered calls, (run {} calls).numbering.number a =
    ((numbered calls).eraseDups.idxOf a, (run {} calls).numbering)
  distinct : ∀ a ∈ numbered calls, ∀ b ∈ numbered calls,
    ((run {} calls).numbering.number a).1 = ((run {} calls).numbering.number b).1 → a = b

section Numbers

variable {calls before after : List (DispatchCall α)} {a : α}

theorem size_run (calls : List (DispatchCall α)) :
    (run {} calls).numbering.size = (numbered calls).eraseDups.length := by
  rw [Numbering.size, listed_run]

/-- A number that was asked for belongs to its thing from then on. -/
theorem get?_run (hfew : (numbered calls).eraseDups.length ≤ UInt32.size)
    (hcalls : calls = before ++ .number a :: after) :
    (run {} calls).numbering.get? ((run {} before).numbering.number a).1 = some a := by
  have hsplit : run {} calls = ((run {} before).step (.number a)).run after := by
    rw [hcalls, run_append]
    rfl
  have hext := ((run {} before).step (.number a)).extends_run after
  rw [← hsplit] at hext
  have hsize : ((run {} before).numbering.number a).2.size ≤ UInt32.size :=
    Nat.le_trans hext.size_le (by rwa [size_run])
  exact hext _ _ (Numbering.get?_number hsize)

theorem countsUp (hfew : (numbered calls).eraseDups.length ≤ UInt32.size) : CountsUp calls := by
  have hplace : ∀ {i a}, (run {} calls).numbering.get? i = some a →
      (numbered calls).eraseDups.idxOf a = i := by
    intro i a hi
    rw [← listed_run]
    exact Numbering.idxOf_of_get? hi
  have hagain : ∀ a ∈ numbered calls, (run {} calls).numbering.number a =
      ((numbered calls).eraseDups.idxOf a, (run {} calls).numbering) := by
    intro a ha
    rcases (run {} calls).numbering.number_cases a with ⟨i, hi, hnumber⟩ | ⟨hnew, -, -⟩
    · have hlt := Numbering.lt_size hi
      rw [size_run] at hlt
      rw [hnumber, Nat.mod_eq_of_lt (Nat.lt_of_lt_of_le hlt hfew), hplace hi]
    · rw [listed_run, List.mem_eraseDups] at hnew
      exact absurd ha hnew
  refine ⟨listed_run calls, ?_, fun before a after => get?_run hfew, hagain, ?_⟩
  · intro before a after hcalls
    exact (hplace (get?_run hfew hcalls)).symm
  · intro a ha b hb hab
    rw [hagain a ha, hagain b hb] at hab
    exact (List.idxOf_inj (List.mem_eraseDups.mpr ha)).mp hab

end Numbers

/-! ### Targets -/

/-- The targets that calls lead to. A number is resolved by the first target that is found for it
and has this target from then on, what finds none leaves no trace, and the numbers that were
resolved are counted. -/
structure KeepsTargets (calls : List (DispatchCall α)) : Prop where
  first : ∀ before i found after, calls = before ++ .resolve i found :: after →
    i ∉ resolvable before → ((run {} before).targets.getOrResolve i found).1 = found
  kept : ∀ before i found after target, calls = before ++ .resolve i found :: after →
    ((run {} before).targets.getOrResolve i found).1 = some target →
    ∀ later, (run {} calls).targets.getOrResolve i later = (some target, (run {} calls).targets)
  failed : ∀ before i found after, calls = before ++ .resolve i found :: after →
    ((run {} before).targets.getOrResolve i found).1 = none →
    ((run {} before).targets.getOrResolve i found).2 = (run {} before).targets
  resolved : (run {} calls).targets.resolved = (resolvable calls).eraseDups.length

theorem target_step {s : Dispatch α} {i : ℕ} {target : CallTarget}
    (h : s.targets.get? i = some target) (call : DispatchCall α) :
    (s.step call).targets.get? i = some target := by
  cases call with
  | number a => exact h
  | resolve j found =>
    change (s.targets.getOrResolve j found).2.get? i = some target
    rw [CallTargets.get?_getOrResolve, CallTargets.getOrResolve_fst]
    by_cases hij : j = i
    · rw [if_pos hij, hij, h, Option.some_or]
    · rw [if_neg hij, h]

theorem target_run {s : Dispatch α} {i : ℕ} {target : CallTarget}
    (h : s.targets.get? i = some target) (calls : List (DispatchCall α)) :
    (s.run calls).targets.get? i = some target := by
  induction calls generalizing s with
  | nil => exact h
  | cons call rest ih => exact ih (target_step h call)

theorem isSome_target (calls : List (DispatchCall α)) (i : ℕ) :
    ((run {} calls).targets.get? i).isSome = true ↔ i ∈ resolvable calls := by
  induction calls using List.reverseRecOn with
  | nil => simp [run, resolvable, CallTargets.get?]
  | append_singleton calls call ih =>
    rw [run_snoc]
    cases call with
    | number a =>
      have hsame : resolvable (calls ++ [.number a]) = resolvable calls := by simp [resolvable]
      rw [hsame]
      exact ih
    | resolve j found =>
      have hsnoc : i ∈ resolvable (calls ++ [.resolve j found]) ↔
          i ∈ resolvable calls ∨ (j = i ∧ found.isSome = true) := by
        cases found <;> simp [resolvable, eq_comm]
      rw [hsnoc, ← ih]
      change (((run {} calls).targets.getOrResolve j found).2.get? i).isSome = true ↔ _
      rw [CallTargets.get?_getOrResolve, CallTargets.getOrResolve_fst]
      by_cases hij : j = i
      · simp [hij]
      · simp [hij]

theorem keepsTargets (calls : List (DispatchCall α)) : KeepsTargets calls := by
  refine ⟨?_, ?_, ?_, ?_⟩
  · intro before i found after _ hnew
    rw [← isSome_target, Option.not_isSome_iff_eq_none] at hnew
    rw [CallTargets.getOrResolve_fst, hnew, Option.none_or]
  · intro before i found after target hcalls hanswer later
    have hstep : ((run {} before).step (.resolve i found)).targets.get? i = some target := by
      change ((run {} before).targets.getOrResolve i found).2.get? i = some target
      rw [CallTargets.get?_getOrResolve, if_pos rfl, hanswer]
    have hfinal : (run {} calls).targets.get? i = some target := by
      rw [hcalls, run_append]
      exact target_run hstep after
    rcases (run {} calls).targets.getOrResolve_eq i later with
      ⟨target', htarget, hlater⟩ | ⟨hnone, -⟩ | ⟨_, hnone, -⟩
    · rw [hlater, ← Option.some.inj (hfinal.symm.trans htarget)]
    · simp [hfinal] at hnone
    · simp [hfinal] at hnone
  · intro before i found after _ hanswer
    rcases (run {} before).targets.getOrResolve_eq i found with
      ⟨_, -, h⟩ | ⟨-, -, h⟩ | ⟨_, -, -, h⟩
    · simp [h] at hanswer
    · rw [h]
    · simp [h] at hanswer
  · apply CallTargets.resolved_eq_length (ClassGraph.nodup_eraseDups _)
    intro i
    rw [List.mem_eraseDups, isSome_target]

/-- However numbers and call targets are asked for in turn, and whatever resolving finds: with
fewer things than numbers each thing has its number, and each number its target. -/
theorem numbers_and_targets (calls : List (DispatchCall α))
    (hfew : (numbered calls).eraseDups.length < UInt32.size) :
    CountsUp calls ∧ KeepsTargets calls :=
  ⟨countsUp (Nat.le_of_lt hfew), keepsTargets calls⟩

/-- Two natives are numbered, the first of them twice, and the second number is resolved in vain
before a target is found for it. -/
def mixedCalls : List (DispatchCall Native) :=
  [.number ⟨.int, .add⟩, .number ⟨.str, .len⟩, .resolve 1 none, .number ⟨.int, .add⟩,
    .resolve 1 (some (.fresh ((Native.mk .str .len).ownedBy 1))), .resolve 1 none]

theorem mixed_numbers_and_targets :
    (numbered mixedCalls).eraseDups.length = 2 ∧ (resolvable mixedCalls).eraseDups.length = 1 ∧
      CountsUp mixedCalls ∧ KeepsTargets mixedCalls := by
  have htwo : (numbered mixedCalls).eraseDups.length = 2 := by decide
  have hone : (resolvable mixedCalls).eraseDups.length = 1 := by decide
  obtain ⟨hnumbers, htargets⟩ := numbers_and_targets mixedCalls (by rw [htwo]; decide)
  exact ⟨htwo, hone, hnumbers, htargets⟩

end Dispatch

end MethodCache
