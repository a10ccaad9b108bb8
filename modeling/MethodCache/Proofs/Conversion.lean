import Mathlib.Data.Nat.Cast.Field
import Mathlib.Data.Rat.Floor
import Mathlib.Tactic.NormNum
import Mathlib.Tactic.Ring
import MethodCache.Native.Catalogue
import MethodCache.Proofs.Words

/-!
Doubles against the rational numbers that their bits denote. Truncating and testing for whole
numbers is done on significands and exponents, and both are exact. The conversion to a whole number
is therefore right wherever the truncated value is a word. It does not decline elsewhere: it
answers with the end of the word range that is nearest. The hash of a double whose value is a word
is that word, with one exception, the lowest one, for the test that comes before it is on the
absolute value. What its double hashes to is up to the hash function of the process.
-/
namespace MethodCache

def towardZero (q : ℚ) : ℤ := if 0 ≤ q then ⌊q⌋ else ⌈q⌉

theorem towardZero_neg (q : ℚ) : towardZero (-q) = -towardZero q := by
  unfold towardZero
  rcases lt_trichotomy q 0 with hneg | rfl | hpos
  · rw [if_pos (neg_nonneg.mpr hneg.le), if_neg (not_le.mpr hneg), Int.floor_neg]
  · simp
  · rw [if_neg (by simpa using hpos), if_pos hpos.le, Int.ceil_neg]

theorem towardZero_of_nonneg {q : ℚ} (h : 0 ≤ q) : towardZero q = ⌊q⌋ := if_pos h

theorem towardZero_intCast (n : ℤ) : towardZero n = n := by
  unfold towardZero
  split <;> simp

namespace Binary64

variable {x : Binary64}

/-- The absolute value of a finite double, from the fields of its bits. An exponent field of zero
stands for the lowest exponent and a leading digit of zero. -/
def magnitude (x : Binary64) : ℚ :=
  if x.exponentField = 0 then (x.fractionField / 2 ^ 52) * 2 ^ (-1022 : ℤ)
  else (1 + x.fractionField / 2 ^ 52) * 2 ^ ((x.exponentField : ℤ) - 1023)

def value (x : Binary64) : ℚ := if x.isNegative then -x.magnitude else x.magnitude

/-! ### Significand and exponent -/

theorem magnitude_eq (x : Binary64) : x.magnitude = x.significand * 2 ^ x.exponent := by
  unfold magnitude significand exponent
  split
  · rw [show (-1022 : ℤ) = 52 + -1074 by norm_num, zpow_add₀ two_ne_zero, ← mul_assoc]
    norm_num
  · rw [show (x.exponentField : ℤ) - 1023 = 52 + (x.exponentField - 1075) by ring,
      zpow_add₀ two_ne_zero, ← mul_assoc]
    congr 1
    push_cast
    norm_num
    ring

theorem magnitude_nonneg (x : Binary64) : 0 ≤ x.magnitude := by
  rw [magnitude_eq]
  exact mul_nonneg (Nat.cast_nonneg _) (zpow_nonneg zero_le_two _)

theorem magnitude_eq_abs (x : Binary64) : x.magnitude = |x.value| := by
  unfold value
  split
  · rw [abs_neg, abs_of_nonneg x.magnitude_nonneg]
  · rw [abs_of_nonneg x.magnitude_nonneg]

theorem magnitude_of_nonneg (h : 0 ≤ x.exponent) :
    x.magnitude = ((x.significand * 2 ^ x.exponent.toNat : ℕ) : ℚ) := by
  obtain ⟨k, hk⟩ := Int.eq_ofNat_of_zero_le h
  rw [magnitude_eq, hk, zpow_natCast, Int.toNat_natCast]
  push_cast
  rfl

theorem magnitude_of_neg (h : x.exponent < 0) :
    x.magnitude = x.significand / ((2 ^ (-x.exponent).toNat : ℕ) : ℚ) := by
  obtain ⟨k, hk⟩ := Int.eq_ofNat_of_zero_le (neg_nonneg.mpr h.le)
  have hexponent : x.exponent = -(k : ℤ) := by omega
  rw [magnitude_eq, hk, hexponent, zpow_neg, zpow_natCast, Int.toNat_natCast, div_eq_mul_inv]
  push_cast
  rfl

theorem wholePart_eq (x : Binary64) : (x.wholePart : ℤ) = ⌊x.magnitude⌋ := by
  unfold wholePart
  split
  · next h =>
    rw [magnitude_of_nonneg h, Int.floor_natCast]
    rfl
  · next h =>
    rw [magnitude_of_neg (not_le.mp h), Rat.floor_natCast_div_natCast]
    rfl

theorem truncate_eq (x : Binary64) : x.truncate = towardZero x.value := by
  have hpart : towardZero x.magnitude = x.wholePart := by
    rw [towardZero_of_nonneg x.magnitude_nonneg, wholePart_eq]
  unfold truncate value
  split
  · rw [towardZero_neg, hpart]
  · rw [hpart]

section Whole

variable {n : ℤ}

theorem magnitude_of_value (h : x.value = n) : x.magnitude = (n.natAbs : ℕ) := by
  rw [magnitude_eq_abs, h, ← Int.cast_abs, Int.abs_eq_natAbs, Int.cast_natCast]

theorem wholePart_of_value (h : x.value = n) : x.wholePart = n.natAbs := by
  have hfloor := x.wholePart_eq
  rw [magnitude_of_value h, Int.floor_natCast] at hfloor
  exact_mod_cast hfloor

theorem isWhole_of_value (hx : x.isFinite = true) (h : x.value = n) : x.isWhole = true := by
  rw [isWhole, hx, Bool.true_and, Bool.or_eq_true, decide_eq_true_iff, beq_iff_eq]
  by_cases hexp : 0 ≤ x.exponent
  · exact Or.inl hexp
  · refine Or.inr (Nat.mod_eq_zero_of_dvd ⟨n.natAbs, ?_⟩)
    have hmag := magnitude_of_value h
    have hpos : ((2 ^ (-x.exponent).toNat : ℕ) : ℚ) ≠ 0 := by simp
    rw [magnitude_of_neg (not_le.mp hexp), div_eq_iff hpos, mul_comm] at hmag
    exact_mod_cast hmag

theorem value_of_isWhole (h : x.isWhole = true) : x.value = x.truncate := by
  have hmag : x.magnitude = x.wholePart := by
    rw [isWhole, Bool.and_eq_true, Bool.or_eq_true, decide_eq_true_iff, beq_iff_eq] at h
    unfold wholePart
    split
    · next hexp => exact magnitude_of_nonneg hexp
    · next hexp =>
      have hdvd := Nat.dvd_of_mod_eq_zero (h.2.resolve_left hexp)
      rw [magnitude_of_neg (not_le.mp hexp)]
      exact (Nat.cast_div hdvd (by simp)).symm
  unfold value truncate
  rw [hmag]
  split <;> simp

end Whole

/-! ### Conversions -/

/-- A number beyond the words is held at the end of the range. -/
theorem toInt_toWord (x : Binary64) :
    x.toWord.toInt = max (-2 ^ 63) (min (2 ^ 63 - 1) (towardZero x.value)) := by
  have hmax : Int64.maxValue.toInt = 2 ^ 63 - 1 := rfl
  have hmin : Int64.minValue.toInt = -2 ^ 63 := rfl
  rw [toWord, truncate_eq, hmax, hmin]
  apply Int64.toInt_ofInt_of_le <;> omega

theorem toWord_of_word (hlow : -2 ^ 63 ≤ towardZero x.value) (hhigh : towardZero x.value < 2 ^ 63) :
    x.toWord = Int64.ofInt (towardZero x.value) := by
  have hword := x.toInt_toWord
  rw [← Int64.toInt_inj, Int64.toInt_ofInt_of_le hlow hhigh]
  omega

theorem toWord_of_low (h : towardZero x.value < -2 ^ 63) : x.toWord = Int64.minValue := by
  have hword := x.toInt_toWord
  rw [← Int64.toInt_inj]
  change _ = (-2 ^ 63 : ℤ)
  omega

theorem toWord_of_high (h : 2 ^ 63 ≤ towardZero x.value) : x.toWord = Int64.maxValue := by
  have hword := x.toInt_toWord
  rw [← Int64.toInt_inj]
  change _ = (2 ^ 63 - 1 : ℤ)
  omega

/-- A double whose value is a word passes the test for words, unless the word is the lowest. -/
theorem hashesAsWord_of_value {n : Int64} (hx : x.isFinite = true) (h : x.value = n.toInt)
    (hn : n ≠ Int64.minValue) : x.hashesAsWord = true := by
  have hlow := n.le_toInt
  have hhigh := n.toInt_lt
  have hne : n.toInt ≠ -2 ^ 63 := fun heq => hn (Int64.toInt_inj.mp heq)
  rw [hashesAsWord, isWhole_of_value hx h, wholePart_of_value h, Bool.true_and,
    decide_eq_true_iff]
  change n.toInt.natAbs < 2 ^ 63
  omega

/-- The lowest word is left to the hash of the bits: its absolute value is one too great. -/
theorem hash_of_value [Hashing] {n : Int64} (hx : x.isFinite = true) (h : x.value = n.toInt) :
    x.hash = n ↔ n ≠ Int64.minValue ∨ (Hashing.hashWord x.bits).toInt64 = n := by
  by_cases hn : n = Int64.minValue
  · subst hn
    have htest : x.hashesAsWord = false := by
      rw [hashesAsWord, wholePart_of_value h, Bool.and_eq_false_iff]
      exact Or.inr (by decide)
    rw [hash, if_neg (Bool.eq_false_iff.mp htest)]
    exact ⟨Or.inr, fun hor => hor.resolve_left (not_not.mpr rfl)⟩
  · refine iff_of_true ?_ (Or.inl hn)
    have hself : towardZero x.value = n.toInt := by rw [h, towardZero_intCast]
    have hlow := n.le_toInt
    have hhigh := n.toInt_lt
    rw [hash, if_pos (hashesAsWord_of_value hx h hn), toWord_of_word (by omega) (by omega), hself,
      Int64.ofInt_toInt]

end Binary64

def wordOrDecline (z : ℤ) : Value :=
  if -2 ^ 63 ≤ z ∧ z < 2 ^ 63 then .int (Int64.ofInt z) else .notImplemented

namespace Native

section Conversions

variable [Hashing] {x : Binary64} {context : ContextId} {rest : List Value}

theorem call_float_int (hx : x.isFinite = true) :
    call ⟨.float, .int⟩ context (.float x :: rest) = .ok (.int x.toWord) := by
  change Except.ok (if x.isFinite then Value.int x.toWord else .notImplemented) = _
  rw [if_pos hx]

theorem call_float_hash (x : Binary64) (context : ContextId) (rest : List Value) :
    call ⟨.float, .hash⟩ context (.float x :: rest) = .ok (.int x.hash) := rfl

/-- The conversion declines nothing, so that it is right exactly where the value is a word. -/
theorem call_float_int_exact_iff (hx : x.isFinite = true) :
    call ⟨.float, .int⟩ context (.float x :: rest) = .ok (wordOrDecline (towardZero x.value)) ↔
      -2 ^ 63 ≤ towardZero x.value ∧ towardZero x.value < 2 ^ 63 := by
  rw [call_float_int hx]
  unfold wordOrDecline
  split
  · next hin => exact iff_of_true (by rw [Binary64.toWord_of_word hin.1 hin.2]) hin
  · next hout => exact iff_of_false (by simp) hout

/-- A finite double converts to its value rounded toward zero exactly where that is a word, and to
the nearer end of the words elsewhere. One whose value is a word hashes like that word, unless the
word is the lowest one: that double hashes by its bits, and like the word only if the hash function
happens to lead there. -/
theorem float_conversions (hx : x.isFinite = true) (context : ContextId) (rest : List Value) :
    (call ⟨.float, .int⟩ context (.float x :: rest) =
        .ok (wordOrDecline (towardZero x.value)) ↔
      -2 ^ 63 ≤ towardZero x.value ∧ towardZero x.value < 2 ^ 63) ∧
    (towardZero x.value < -2 ^ 63 →
      call ⟨.float, .int⟩ context (.float x :: rest) = .ok (.int Int64.minValue)) ∧
    (2 ^ 63 ≤ towardZero x.value →
      call ⟨.float, .int⟩ context (.float x :: rest) = .ok (.int Int64.maxValue)) ∧
    ∀ n : Int64, x.value = n.toInt →
      call ⟨.int, .hash⟩ context (.int n :: rest) = .ok (.int n) ∧
      (call ⟨.float, .hash⟩ context (.float x :: rest) = .ok (.int n) ↔
        n ≠ Int64.minValue ∨ (Hashing.hashWord x.bits).toInt64 = n) := by
  refine ⟨call_float_int_exact_iff hx, fun hlow => ?_, fun hhigh => ?_, fun n hn => ⟨rfl, ?_⟩⟩
  · rw [call_float_int hx, Binary64.toWord_of_low hlow]
  · rw [call_float_int hx, Binary64.toWord_of_high hhigh]
  · rw [call_float_hash, Except.ok.injEq, Value.int.injEq, Binary64.hash_of_value hx hn]

end Conversions

/-- A word times an odd constant, with the product rotated. -/
def rotatedProduct (word : UInt64) : UInt64 :=
  let product := word * 0xf1357aea2e62a9c5
  product <<< 26 ||| product >>> 38

/-- A process that hashes words by rotated products. Texts have one hash there and all objects one
address, on which nothing below depends. -/
@[reducible]
def rotating : Hashing where
  hashByte b := rotatedProduct b.toUInt64
  hashWord := rotatedProduct
  hashAddress := rotatedProduct
  hashText _ := 0
  textAddress _ := 0
  functionAddress _ := 0

/-- The greatest double below two to the sixty-third, and two to the sixty-third below zero, whose
bits have another hash. -/
theorem greatest_conversions :
    (⟨0x43DFFFFFFFFFFFFF⟩ : Binary64).isFinite = true ∧
    (⟨0xC3E0000000000000⟩ : Binary64).isFinite = true ∧
    @call rotating ⟨.float, .int⟩ 1 [.float ⟨0x43DFFFFFFFFFFFFF⟩] =
      .ok (.int 9223372036854774784) ∧
    @call rotating ⟨.float, .hash⟩ 1 [.float ⟨0x43DFFFFFFFFFFFFF⟩] =
      .ok (.int 9223372036854774784) ∧
    @call rotating ⟨.float, .hash⟩ 1 [.float ⟨0xC3E0000000000000⟩] ≠
      .ok (.int Int64.minValue) := by
  have hfinite : (⟨0x43DFFFFFFFFFFFFF⟩ : Binary64).isFinite = true := by decide
  have hfinite' : (⟨0xC3E0000000000000⟩ : Binary64).isFinite = true := by decide
  have hvalue : (⟨0x43DFFFFFFFFFFFFF⟩ : Binary64).value =
      (9223372036854774784 : Int64).toInt := Binary64.value_of_isWhole (by decide)
  have hvalue' : (⟨0xC3E0000000000000⟩ : Binary64).value = Int64.minValue.toInt :=
    Binary64.value_of_isWhole (by decide)
  obtain ⟨hint, -, -, hhash⟩ := @float_conversions rotating _ hfinite 1 []
  obtain ⟨-, -, -, hhash'⟩ := @float_conversions rotating _ hfinite' 1 []
  rw [hvalue, towardZero_intCast] at hint
  refine ⟨hfinite, hfinite', hint.mpr (by decide), ((hhash _ hvalue).2).mpr (by decide), ?_⟩
  rw [ne_eq, (hhash' _ hvalue').2]
  decide

/-- Two to the sixty-third is no word, and the conversion does not decline it. Its negative is a
word and is not the hash. -/
theorem not_every_conversion_exact :
    (¬ ∀ x : Binary64, x.isFinite = true → ∀ (context : ContextId) (rest : List Value),
      @call rotating ⟨.float, .int⟩ context (.float x :: rest) =
        .ok (wordOrDecline (towardZero x.value))) ∧
    ¬ ∀ x : Binary64, x.isFinite = true → ∀ n : Int64, x.value = n.toInt →
      ∀ (context : ContextId) (rest : List Value),
        @call rotating ⟨.float, .hash⟩ context (.float x :: rest) = .ok (.int n) := by
  constructor
  · intro hall
    have hvalue : (⟨0x43E0000000000000⟩ : Binary64).value = (9223372036854775808 : ℤ) :=
      Binary64.value_of_isWhole (by decide)
    have hint := hall ⟨0x43E0000000000000⟩ (by decide) 1 []
    rw [hvalue, towardZero_intCast] at hint
    exact absurd hint (by decide)
  · intro hall
    have hvalue : (⟨0xC3E0000000000000⟩ : Binary64).value = Int64.minValue.toInt :=
      Binary64.value_of_isWhole (by decide)
    exact absurd (hall _ (by decide) Int64.minValue hvalue 1 []) (by decide)

end Native

end MethodCache
