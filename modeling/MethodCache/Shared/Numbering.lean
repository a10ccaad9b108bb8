/-!
Things numbered in the order in which they are first met. Each thing is kept at its number, and
the number of each thing is kept beside, so that neither has to be searched for.
-/
namespace MethodCache

/-- The things numbered so far. A number has 32 bits. -/
structure Numbering (α : Type) [DecidableEq α] where
  /-- The things in the order in which they were met. -/
  listed : List α
  numbers : List (α × Nat)
  nodup : listed.Nodup
  aligned : ∀ a i, numbers.lookup a = some i ↔
    ∃ j, listed[j]? = some a ∧ j % UInt32.size = i

namespace Numbering

variable {α : Type}

theorem getElem?_snoc {l : List α} {a b : α} {j : Nat} :
    (l ++ [a])[j]? = some b ↔ l[j]? = some b ∨ (j = l.length ∧ b = a) := by
  rcases Nat.lt_trichotomy j l.length with hj | rfl | hj
  · rw [List.getElem?_append_left hj]
    simp [Nat.ne_of_lt hj]
  · rw [List.getElem?_concat_length, List.getElem?_eq_none (Nat.le_refl _)]
    simp [eq_comm]
  · have hlen : (l ++ [a]).length ≤ j := by
      rw [List.length_append]
      exact hj
    rw [List.getElem?_eq_none hlen, List.getElem?_eq_none (Nat.le_of_lt hj)]
    simp [Nat.ne_of_gt hj]

variable [DecidableEq α]

theorem lookup_cons (a b : α) (i : Nat) (l : List (α × Nat)) :
    List.lookup b ((a, i) :: l) = if b = a then some i else l.lookup b := by
  rw [List.lookup_cons]
  by_cases h : b = a
  · simp [h]
  · have hne : (b == a) = false := by simpa using h
    simp [h, hne]

theorem not_mem_of_lookup {x : Numbering α} {a : α} (h : x.numbers.lookup a = none) :
    a ∉ x.listed := by
  intro ha
  obtain ⟨j, hj⟩ := List.getElem?_of_mem ha
  rw [(x.aligned a _).2 ⟨j, hj, rfl⟩] at h
  cases h

def empty : Numbering α := ⟨[], [], .nil, by simp⟩

instance : EmptyCollection (Numbering α) := ⟨empty⟩

/-- Gives the next number to a thing that has none. -/
def add (x : Numbering α) (a : α) (h : x.numbers.lookup a = none) : Numbering α where
  listed := x.listed ++ [a]
  numbers := (a, x.listed.length % UInt32.size) :: x.numbers
  nodup := by
    refine List.nodup_append.2 ⟨x.nodup, by simp, ?_⟩
    rintro b hb c hc rfl
    rw [List.mem_singleton] at hc
    exact not_mem_of_lookup h (hc ▸ hb)
  aligned := by
    intro b i
    have ha : ∀ j, x.listed[j]? ≠ some a := fun j hj =>
      not_mem_of_lookup h (List.mem_of_getElem? hj)
    simp only [lookup_cons, getElem?_snoc]
    by_cases hb : b = a
    · subst hb
      simp [ha]
    · simp [hb, x.aligned]

/-- The number of a thing, giving it the next one at first sight. -/
def number (x : Numbering α) (a : α) : Nat × Numbering α :=
  match h : x.numbers.lookup a with
  | some i => (i, x)
  | none => (x.listed.length % UInt32.size, x.add a h)

def get? (x : Numbering α) (i : Nat) : Option α := x.listed[i]?

def size (x : Numbering α) : Nat := x.listed.length

end Numbering

end MethodCache
