import Mathlib.Data.List.Nodup
import MethodCache.Shared.Numbering

/-!
Numbers and the things they were given to. A thing keeps its number while further things are
numbered, and as long as there are no more things than numbers, the thing is found at its number.
-/
namespace MethodCache.Numbering

variable {α : Type} [DecidableEq α] {x y z : Numbering α} {a : α} {i : ℕ}

def Extends (x y : Numbering α) : Prop := ∀ i a, x.get? i = some a → y.get? i = some a

theorem Extends.refl (x : Numbering α) : x.Extends x := fun _ _ h => h

theorem Extends.trans (h : x.Extends y) (h' : y.Extends z) : x.Extends z :=
  fun i a hi => h' i a (h i a hi)

theorem number_cases (x : Numbering α) (a : α) :
    (∃ i, x.get? i = some a ∧ x.number a = (i % UInt32.size, x)) ∨
    a ∉ x.listed ∧ (x.number a).1 = x.size % UInt32.size ∧
      (x.number a).2.listed = x.listed ++ [a] := by
  unfold number
  split
  · next i hi =>
    obtain ⟨j, hj, rfl⟩ := (x.aligned a i).mp hi
    exact Or.inl ⟨j, hj, rfl⟩
  · next hnone => exact Or.inr ⟨not_mem_of_lookup hnone, rfl, rfl⟩

theorem extends_number (x : Numbering α) (a : α) : x.Extends (x.number a).2 := by
  rcases x.number_cases a with ⟨i, -, hnumber⟩ | ⟨-, -, hlisted⟩
  · rw [hnumber]
    exact .refl x
  · intro i b hi
    rw [get?, hlisted, getElem?_snoc]
    exact Or.inl hi

theorem lt_size (h : x.get? i = some a) : i < x.size := (List.getElem?_eq_some_iff.mp h).1

theorem idxOf_of_get? (h : x.get? i = some a) : x.listed.idxOf a = i := by
  obtain ⟨hi, ha⟩ := List.getElem?_eq_some_iff.mp h
  rw [← ha]
  exact x.nodup.idxOf_getElem i hi

theorem Extends.size_le (h : x.Extends y) : x.size ≤ y.size := by
  cases hsize : x.size with
  | zero => exact Nat.zero_le _
  | succ i =>
    have hi : i < x.listed.length := by
      rw [size] at hsize
      omega
    exact lt_size (h i _ (List.getElem?_eq_getElem hi))

/-- A thing is found at its number if there are no more things than numbers. -/
theorem get?_number (hfew : (x.number a).2.size ≤ UInt32.size) :
    (x.number a).2.get? (x.number a).1 = some a := by
  rcases x.number_cases a with ⟨i, hi, hnumber⟩ | ⟨-, hnumber, hlisted⟩
  · rw [hnumber] at hfew ⊢
    rwa [Nat.mod_eq_of_lt (Nat.lt_of_lt_of_le (lt_size hi) hfew)]
  · have hsize : x.size < UInt32.size := by
      rw [size, hlisted, List.length_append] at hfew
      exact hfew
    rw [hnumber, Nat.mod_eq_of_lt hsize, get?, hlisted]
    exact List.getElem?_concat_length

end MethodCache.Numbering
