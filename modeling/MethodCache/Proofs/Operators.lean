import MethodCache.Native.Catalogue
import MethodCache.Proofs.Words

/-!
The five operators of whole numbers and their reflected variants. Each has an exact result over
all whole numbers, and its method answers with that result where it is a word and declines
elsewhere, with one exception: the remainder of the lowest word by minus one is zero, and the
method declines because the quotient that goes with it is no word.
-/
namespace MethodCache

/-- The whole number that a value counts as. -/
def Value.whole? : Value → Option Int
  | .int i => some i.toInt
  | .bool b => some b.toInt
  | _ => none

/-- An operator of whole numbers whose results can leave the words. -/
inductive Operator
  | add | sub | mul | floorDiv | mod
  deriving DecidableEq

namespace Operator

/-- The slot under which the operator, or its reflected variant, is called. -/
def slot : Operator → Bool → Slot
  | .add, reflected => if reflected then .radd else .add
  | .sub, reflected => if reflected then .rsub else .sub
  | .mul, reflected => if reflected then .rmul else .mul
  | .floorDiv, reflected => if reflected then .rfloorDiv else .floorDiv
  | .mod, reflected => if reflected then .rmod else .mod

/-- The exact result; dividing by zero has none. -/
def result? : Operator → Int → Int → Option Int
  | .add, m, n => some (m + n)
  | .sub, m, n => some (m - n)
  | .mul, m, n => some (m * n)
  | .floorDiv, m, n => if n = 0 then none else some (m.fdiv n)
  | .mod, m, n => if n = 0 then none else some (m.fmod n)

/-- The left and the right operand of a call. A reflected method is given the right one first. -/
def operands? (reflected : Bool) : List Value → Option (Int × Int)
  | x :: y :: _ => do
    let m ← x.whole?
    let n ← y.whole?
    return if reflected then (n, m) else (m, n)
  | _ => none

def answer (op : Operator) (operands : Option (Int × Int)) : Value :=
  match operands.bind fun (m, n) => op.result? m n with
  | some z => if -2 ^ 63 ≤ z ∧ z < 2 ^ 63 then .int (Int64.ofInt z) else .notImplemented
  | none => .notImplemented

/-- The operands whose exact result is a word and is declined all the same. -/
def Misses (op : Operator) (operands : Option (Int × Int)) : Prop :=
  op = .mod ∧ operands = some (-2 ^ 63, -1)

instance (op : Operator) (operands : Option (Int × Int)) : Decidable (op.Misses operands) :=
  inferInstanceAs (Decidable (_ ∧ _))

def onWords : Operator → Int64 → Int64 → Except NativeFault (Option Int64)
  | .add => Words.checked Words.add?
  | .sub => Words.checked Words.sub?
  | .mul => Words.checked Words.mul?
  | .floorDiv => Words.floorDiv?
  | .mod => Words.floorMod?

theorem call_slot [Hashing] (op : Operator) (reflected : Bool) (context : ContextId)
    (args : List Value) :
    Native.call ⟨.int, op.slot reflected⟩ context args =
      if reflected then Native.Integer.reflected op.onWords args
      else Native.Integer.binary op.onWords args := by
  cases op <;> cases reflected <;> rfl

end Operator

theorem Value.whole?_eq (v : Value) : v.whole? = v.asInt?.map Int64.toInt := by
  cases v with
  | bool b => cases b <;> rfl
  | _ => rfl

namespace Words

theorem divides_iff_toInt {a b : Int64} :
    divides a b = true ↔ b.toInt ≠ 0 ∧ ¬(a.toInt = -2 ^ 63 ∧ b.toInt = -1) := by
  have hzero : b = 0 ↔ b.toInt = 0 := Int64.toInt_inj.symm
  have hlow : a = Int64.minValue ↔ a.toInt = -2 ^ 63 := Int64.toInt_inj.symm
  have hone : b = -1 ↔ b.toInt = -1 := Int64.toInt_inj.symm
  rw [divides_iff, ne_eq, hzero, hlow, hone]

/-- The quotient of the one pair of words that division declines is no word. -/
theorem floorDiv?_eq (a b : Int64) :
    floorDiv? a b = .ok (if b.toInt = 0 then none else ofInt? (a.toInt.fdiv b.toInt)) := by
  cases h : divides a b with
  | true =>
    obtain ⟨q, hq, hexact⟩ := floorDiv?_of_divides h
    rw [hq, if_neg (toInt_ne_zero_of_divides h), ofInt?_eq_some_iff.mpr hexact]
  | false =>
    rw [floorDiv?_of_not_divides h]
    split
    · rfl
    · next hb =>
      have hpair : a.toInt = -2 ^ 63 ∧ b.toInt = -1 := by
        by_contra hne
        rw [divides_iff_toInt.mpr ⟨hb, hne⟩] at h
        exact Bool.noConfusion h
      rw [hpair.1, hpair.2]
      rfl

/-- The remainder is declined where division is, although it is a word there too. -/
theorem floorMod?_eq (a b : Int64) :
    floorMod? a b = .ok (if b.toInt = 0 ∨ (a.toInt = -2 ^ 63 ∧ b.toInt = -1) then none
      else ofInt? (a.toInt.fmod b.toInt)) := by
  cases h : divides a b with
  | true =>
    obtain ⟨r, hr, hexact⟩ := floorMod?_of_divides h
    have hdefined := divides_iff_toInt.mp h
    rw [hr, if_neg (not_or.mpr hdefined), ofInt?_eq_some_iff.mpr hexact]
  | false =>
    have hundefined : b.toInt = 0 ∨ (a.toInt = -2 ^ 63 ∧ b.toInt = -1) := by
      by_contra hne
      rw [divides_iff_toInt.mpr (not_or.mp hne)] at h
      exact Bool.noConfusion h
    rw [floorMod?_of_not_divides h, if_pos hundefined]

end Words

theorem Native.Integer.reflected_eq (op : Int64 → Int64 → Except NativeFault (Option Int64))
    (args : List Value) :
    Native.Integer.reflected op args = Native.Integer.binary (fun a b => op b a) args := by
  unfold Native.Integer.reflected Native.Integer.binary
  cases Native.intPair? args <;> rfl

namespace Operator

theorem onWords_eq (op : Operator) (a b : Int64) :
    op.onWords a b = .ok (if op.Misses (some (a.toInt, b.toInt)) then none
      else (op.result? a.toInt b.toInt).bind Words.ofInt?) := by
  cases op with
  | add => simp [onWords, result?, Misses, Words.checked, Words.add?_eq]
  | sub => simp [onWords, result?, Misses, Words.checked, Words.sub?_eq]
  | mul => simp [onWords, result?, Misses, Words.checked, Words.mul?_eq]
  | floorDiv =>
    rw [onWords, Words.floorDiv?_eq]
    by_cases hb : b.toInt = 0 <;> simp [result?, Misses, hb]
  | mod =>
    rw [onWords, Words.floorMod?_eq]
    by_cases hb : b.toInt = 0 <;> simp [result?, Misses, hb]

theorem operands?_eq (reflected : Bool) (args : List Value) :
    operands? reflected args = (Native.intPair? args).map fun (a, b) =>
      if reflected then (b.toInt, a.toInt) else (a.toInt, b.toInt) := by
  match args with
  | [] => rfl
  | [x] => rfl
  | x :: y :: rest =>
    cases hx : x.asInt? <;> cases hy : y.asInt? <;>
      simp [operands?, Native.intPair?, Value.whole?_eq, hx, hy]

theorem answer_none (op : Operator) : op.answer none = .notImplemented := rfl

theorem answer_some (op : Operator) (m n : Int) :
    op.answer (some (m, n)) =
      Native.orDecline (((op.result? m n).bind Words.ofInt?).map .int) := by
  cases h : op.result? m n with
  | none => simp only [answer, Option.bind_some, h, Option.bind_none, Option.map_none,
      Native.orDecline]
  | some z =>
    simp only [answer, Option.bind_some, h, Words.ofInt?]
    split <;> rfl

theorem onWords_answer (op : Operator) (a b : Int64) :
    (do return Native.orDecline ((← op.onWords a b).map .int) : Except NativeFault Value) =
      .ok (if op.Misses (some (a.toInt, b.toInt)) then .notImplemented
        else op.answer (some (a.toInt, b.toInt))) := by
  rw [onWords_eq, answer_some]
  split <;> rfl

theorem call_eq [Hashing] (op : Operator) (reflected : Bool) (context : ContextId)
    (args : List Value) :
    Native.call ⟨.int, op.slot reflected⟩ context args =
      .ok (if op.Misses (operands? reflected args) then .notImplemented
        else op.answer (operands? reflected args)) := by
  rw [call_slot, operands?_eq]
  cases reflected with
  | false =>
    unfold Native.Integer.binary
    cases hpair : Native.intPair? args with
    | none => simp [Misses, answer_none]
    | some pair => simpa using onWords_answer op pair.1 pair.2
  | true =>
    unfold Native.Integer.reflected
    cases hpair : Native.intPair? args with
    | none => simp [Misses, answer_none]
    | some pair => simpa using onWords_answer op pair.2 pair.1

/-- The operators decline on real overflow, on a divisor of zero and on operands that are no whole
numbers, and nowhere else but where they miss: a call gives the exact answer exactly there, and
declines otherwise. -/
theorem call_eq_answer_iff [Hashing] (op : Operator) (reflected : Bool) (context : ContextId)
    (args : List Value) :
    (Native.call ⟨.int, op.slot reflected⟩ context args =
        .ok (op.answer (operands? reflected args)) ↔
      ¬(op = .mod ∧ operands? reflected args = some (-2 ^ 63, -1))) ∧
    (Native.call ⟨.int, op.slot reflected⟩ context args =
        .ok (op.answer (operands? reflected args)) ∨
      Native.call ⟨.int, op.slot reflected⟩ context args = .ok .notImplemented) := by
  rw [call_eq]
  by_cases h : op.Misses (operands? reflected args)
  · obtain ⟨hop, hoperands⟩ := h
    have hzero : op.answer (operands? reflected args) = .int 0 := by
      rw [hop, hoperands]
      decide
    rw [if_pos ⟨hop, hoperands⟩, hzero]
    exact ⟨iff_of_false (by decide) (not_not.mpr ⟨hop, hoperands⟩), Or.inr rfl⟩
  · rw [if_neg h]
    exact ⟨iff_of_true rfl h, Or.inl rfl⟩

/-- The remainder of the lowest word by minus one is zero, and the method declines it. -/
theorem not_exact_at_lowest :
    ¬ ∃ _ : Hashing, ∀ (op : Operator) (reflected : Bool) (context : ContextId)
      (args : List Value), Native.call ⟨.int, op.slot reflected⟩ context args =
        .ok (op.answer (operands? reflected args)) := by
  rintro ⟨_, hall⟩
  have hlowest := hall .mod false 1 [.int Int64.minValue, .int (-1)]
  have hdeclined : Native.call ⟨.int, .mod⟩ 1 [.int Int64.minValue, .int (-1)] =
      .ok .notImplemented := rfl
  have hexact : answer .mod (operands? false [.int Int64.minValue, .int (-1)]) = .int 0 := by
    decide
  rw [hexact] at hlowest
  exact absurd (hdeclined.symm.trans hlowest) (by decide)

end Operator

end MethodCache
