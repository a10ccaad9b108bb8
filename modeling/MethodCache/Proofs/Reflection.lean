import Mathlib.Data.List.Induction
import MethodCache.Proofs.Naming
import MethodCache.Slot.Pairing

/-!
The self-check of a pairing. Pairs are written one after the other, so each slot is linked to what
the last pair that names it says, and pairs that overlap leave links that are not followed back.
The self-check finds nothing wrong exactly when all links are followed back and the fourteen
operators are linked: among all slot names that begin as those of reflected operators do, only
these fourteen are slot names still when the mark is taken away.
-/
namespace MethodCache.Pairing

/-! ### Links -/

def other? (s : Slot) (e : Slot × Slot) : Option Slot :=
  if s = e.2 then some e.1 else if s = e.1 then some e.2 else none

theorem partner_link (p : Pairing) (e : Slot × Slot) (s : Slot) :
    (p.link e.1 e.2).partner s = (other? s e).or (p.partner s) := by
  unfold link other?
  by_cases hr : s = e.2
  · simp only [if_pos hr, Option.some_or]
  · by_cases hf : s = e.1
    · simp only [if_neg hr, if_pos hf, Option.some_or]
    · simp only [if_neg hr, if_neg hf, Option.none_or]

/-- The last pair that names a slot says what the slot is linked to. -/
theorem partner_ofPairs (pairs : List (Slot × Slot)) (s : Slot) :
    (ofPairs pairs).partner s = pairs.reverse.findSome? (other? s) := by
  induction pairs using List.reverseRecOn with
  | nil => rfl
  | append_singleton pairs e ih =>
    have hlast : ofPairs (pairs ++ [e]) = (ofPairs pairs).link e.1 e.2 := by
      unfold ofPairs
      rw [List.foldl_append]
      rfl
    rw [hlast, partner_link, ih, List.reverse_append, List.reverse_singleton,
      List.singleton_append, List.findSome?_cons]
    cases other? s e <;> rfl

/-! ### Names -/

theorem ofName?_bogusName : Slot.ofName? bogusName = none := by decide +kernel

/-- The name of a reflected operator without its mark is the name of the operator. -/
theorem forwardOf?_of_mem {e : Slot × Slot} (h : e ∈ operators) :
    forwardOf? e.2 = some e.1 := by
  have hall : ∀ e ∈ operators, forwardOf? e.2 = some e.1 := by decide +kernel
  exact hall e h

/-- Of no other slot is the name without its third letter a slot name, where that letter is the
mark of a reflected operator. -/
theorem mem_operators_of_forwardOf? {f s : Slot} (h : forwardOf? s = some f) :
    (f, s) ∈ operators := by
  have hall : ∀ s ∈ Slot.all, ∀ f ∈ forwardOf? s, (f, s) ∈ operators := by decide +kernel
  exact hall s s.mem_all f h

theorem forwardOf?_eq_some_iff {f s : Slot} : forwardOf? s = some f ↔ (f, s) ∈ operators :=
  ⟨mem_operators_of_forwardOf?, forwardOf?_of_mem⟩

/-! ### Defects -/

theorem slotDefect?_eq_none_iff (p : Pairing) (s : Slot) :
    p.slotDefect? s = none ↔
      (∀ r, p.partner s = some r → p.partner r = some s) ∧
      ∀ f, (f, s) ∈ operators → p.partner f = some s := by
  simp only [slotDefect?, ← forwardOf?_eq_some_iff]
  cases p.partner s <;> cases forwardOf? s <;> simp

theorem defect?_eq_none_iff (p : Pairing) :
    p.defect? = none ↔ ∀ s, p.slotDefect? s = none := by
  have hnames : (Slot.all.findSome? fun s =>
      if Slot.ofName? s.name = some s then none else some (Defect.unresolvable s)) = none := by
    rw [List.findSome?_eq_none_iff]
    intro s _
    rw [if_pos (Slot.ofName?_name s)]
  simp only [defect?, hnames, ofName?_bogusName, Option.isSome_none, Bool.false_eq_true, if_false]
  change Slot.all.findSome? p.slotDefect? = none ↔ _
  rw [List.findSome?_eq_none_iff]
  exact ⟨fun h s => h s s.mem_all, fun h s _ => h s⟩

/-- Whatever pairs a pairing is made of, the links are those that the last pair to name a slot
leaves, and the self-check finds nothing wrong exactly when every link is followed back and each
operator is linked with its reflected variant both ways. -/
theorem defect?_ofPairs (pairs : List (Slot × Slot)) :
    (∀ s, (ofPairs pairs).partner s = pairs.reverse.findSome? (other? s)) ∧
    ((ofPairs pairs).defect? = none ↔
      (∀ s r, (ofPairs pairs).partner s = some r → (ofPairs pairs).partner r = some s) ∧
      ∀ e ∈ operators,
        (ofPairs pairs).partner e.1 = some e.2 ∧ (ofPairs pairs).partner e.2 = some e.1) := by
  refine ⟨partner_ofPairs pairs, ?_⟩
  simp only [defect?_eq_none_iff, slotDefect?_eq_none_iff]
  constructor
  · intro h
    refine ⟨fun s => (h s).1, ?_⟩
    rintro ⟨f, s⟩ he
    have hforward := (h s).2 f he
    exact ⟨hforward, (h f).1 s hforward⟩
  · rintro ⟨hback, hlinked⟩ s
    exact ⟨hback s, fun f he => (hlinked (f, s) he).1⟩

end MethodCache.Pairing
