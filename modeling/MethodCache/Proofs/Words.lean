import Mathlib.Algebra.Group.Nat.Defs
import Mathlib.Algebra.Order.Group.Unbundled.Int
import Mathlib.Data.Int.Order.Basic
import MethodCache.Native.Integer

/-!
Words against whole numbers. A checked operation on words answers with the exact result where that
result is a word and declines everywhere else. Division rounds toward zero; where a remainder is
left and the signs differ, the quotient one below it and the remainder one divisor further are the
pair that belongs to rounding down. The steps of this correction that nobody checks never leave
the words.
-/
namespace MethodCache

/-- The remainder of division toward zero is smaller than the divisor and keeps the sign of the
dividend. -/
theorem tmod_bounds (a : Int) {b : Int} (hb : b ≠ 0) :
    |a.tmod b| < |b| ∧ (0 ≤ a → 0 ≤ a.tmod b) ∧ (a ≤ 0 → a.tmod b ≤ 0) := by
  refine ⟨?_, fun ha => Int.tmod_nonneg b ha, fun ha => ?_⟩
  · rw [Int.abs_eq_natAbs, Int.abs_eq_natAbs, Int.natAbs_tmod]
    exact Int.ofNat_lt.mpr (Nat.mod_lt _ (Int.natAbs_pos.mpr hb))
  · have hneg := Int.tmod_nonneg b (a := -a) (by omega)
    rw [Int.neg_tmod] at hneg
    omega

/-- Rounding toward zero and rounding down differ by one step where a remainder is left and the
signs differ, and agree elsewhere. -/
theorem floor_of_truncated (a : Int) {b : Int} (hb : b ≠ 0) :
    (a.tmod b ≠ 0 ∧ ¬(a < 0 ↔ b < 0) →
      a.fdiv b = a.tdiv b - 1 ∧ a.fmod b = a.tmod b + b) ∧
    (¬(a.tmod b ≠ 0 ∧ ¬(a < 0 ↔ b < 0)) →
      a.fdiv b = a.tdiv b ∧ a.fmod b = a.tmod b) := by
  obtain ⟨hsmall, hnonneg, hnonpos⟩ := tmod_bounds a hb
  have hsum := Int.tmod_add_mul_tdiv a b
  have hstep : b * (a.tdiv b - 1) = b * a.tdiv b - b := by
    rw [Int.mul_sub, Int.mul_one]
  rcases lt_or_gt_of_ne hb with hneg | hpos
  · rw [abs_of_neg hneg, abs_lt] at hsmall
    constructor <;> intro h <;> apply (Int.fdiv_fmod_unique' hneg).mpr
    · refine ⟨by omega, by omega, by omega⟩
    · refine ⟨by omega, by omega, by omega⟩
  · rw [abs_of_pos hpos, abs_lt] at hsmall
    constructor <;> intro h <;> apply (Int.fdiv_fmod_unique hpos).mpr
    · refine ⟨by omega, by omega, by omega⟩
    · refine ⟨by omega, by omega, by omega⟩

/-- A quotient and a remainder that belong together when rounding down. -/
structure FloorPair (a b q r : Int) : Prop where
  restores : a = q * b + r
  sign : r = 0 ∨ r.sign = b.sign
  small : |r| < |b|

theorem floorPair_fdiv_fmod (a : Int) {b : Int} (hb : b ≠ 0) :
    FloorPair a b (a.fdiv b) (a.fmod b) := by
  have hrestores : a = a.fdiv b * b + a.fmod b := (Int.fdiv_mul_add_fmod a b).symm
  rcases lt_or_gt_of_ne hb with hneg | hpos
  · obtain ⟨-, hlow, hhigh⟩ := (Int.fdiv_fmod_unique' hneg).mp (And.intro (Eq.refl (a.fdiv b)) rfl)
    refine ⟨hrestores, ?_, ?_⟩
    · rcases hhigh.eq_or_lt with hzero | hlt
      · exact Or.inl hzero
      · exact Or.inr (by rw [Int.sign_eq_neg_one_of_neg hlt, Int.sign_eq_neg_one_of_neg hneg])
    · rw [abs_of_neg hneg, abs_of_nonpos hhigh]
      omega
  · obtain ⟨-, hlow, hhigh⟩ := (Int.fdiv_fmod_unique hpos).mp (And.intro (Eq.refl (a.fdiv b)) rfl)
    refine ⟨hrestores, ?_, ?_⟩
    · rcases hlow.eq_or_lt with hzero | hlt
      · exact Or.inl hzero.symm
      · exact Or.inr (by rw [Int.sign_eq_one_of_pos hlt, Int.sign_eq_one_of_pos hpos])
    · rwa [abs_of_pos hpos, abs_of_nonneg hlow]

/-- Where a remainder is left, the divisor halves the dividend at least. -/
theorem two_mul_natAbs_tdiv_le {a b : Int} (hb : b ≠ 0) (hr : a.tmod b ≠ 0) :
    2 * (a.tdiv b).natAbs ≤ a.natAbs := by
  have htwo : 2 ≤ b.natAbs := by
    by_contra hlt
    have hunit : b = 1 ∨ b = -1 := by omega
    rcases hunit with rfl | rfl
    · simp at hr
    · simp at hr
  rw [Int.natAbs_tdiv]
  calc 2 * (a.natAbs / b.natAbs) ≤ b.natAbs * (a.natAbs / b.natAbs) :=
        Nat.mul_le_mul_right _ htwo
    _ ≤ a.natAbs := Nat.mul_div_le _ _

namespace Words

def ofInt? (z : Int) : Option Int64 :=
  if -2 ^ 63 ≤ z ∧ z < 2 ^ 63 then some (Int64.ofInt z) else none

theorem ofInt?_eq_some_iff {z : Int} {w : Int64} : ofInt? z = some w ↔ w.toInt = z := by
  have hlow := Int64.le_toInt w
  have hhigh := Int64.toInt_lt w
  unfold ofInt?
  constructor
  · intro h
    split at h
    · next hz =>
      rw [← Option.some.inj h]
      exact Int64.toInt_ofInt_of_le hz.1 hz.2
    · simp at h
  · rintro rfl
    rw [if_pos ⟨hlow, hhigh⟩, Int64.ofInt_toInt]

theorem ofInt?_eq_none_iff {z : Int} : ofInt? z = none ↔ z < -2 ^ 63 ∨ 2 ^ 63 ≤ z := by
  unfold ofInt?
  split
  · next hz => simp; omega
  · next hz => simp; omega

/-- An operation that is off by whole turns of the word range and is held back when the exact
result leaves the range is the exact operation. -/
theorem guarded_eq_ofInt? {overflow : Bool} {w : Int64} {z : Int}
    (hover : overflow = (decide (2 ^ 63 ≤ z) || decide (z < -2 ^ 63)))
    (hw : w.toInt = z.bmod (2 ^ 64)) : (if overflow then none else some w) = ofInt? z := by
  cases hr : overflow with
  | true =>
    rw [hr] at hover
    have hz : z < -2 ^ 63 ∨ 2 ^ 63 ≤ z := by simpa [or_comm] using hover.symm
    exact (ofInt?_eq_none_iff.mpr hz).symm
  | false =>
    rw [hr] at hover
    have hz : z < 2 ^ 63 ∧ -2 ^ 63 ≤ z := by simpa using hover.symm
    have hexact : w.toInt = z := by
      rw [hw]
      exact Int.bmod_eq_of_le (by omega) (by omega)
    exact (ofInt?_eq_some_iff.mpr hexact).symm

theorem add?_eq (a b : Int64) : add? a b = ofInt? (a.toInt + b.toInt) :=
  guarded_eq_ofInt? (by simp [BitVec.saddOverflow]) (Int64.toInt_add a b)

theorem sub?_eq (a b : Int64) : sub? a b = ofInt? (a.toInt - b.toInt) :=
  guarded_eq_ofInt? (by simp [BitVec.ssubOverflow]) (Int64.toInt_sub a b)

theorem mul?_eq (a b : Int64) : mul? a b = ofInt? (a.toInt * b.toInt) :=
  guarded_eq_ofInt? (by simp [BitVec.smulOverflow]) (Int64.toInt_mul a b)

/-- Division fails for the divisor zero and at one more pair, whose quotient is no word. -/
theorem divides_iff {a b : Int64} :
    divides a b = true ↔ b ≠ 0 ∧ ¬(a = Int64.minValue ∧ b = -1) := by
  rw [divides, Bool.and_eq_true, bne_iff_ne, Bool.not_eq_true', ← Bool.not_eq_true,
    Bool.and_eq_true, beq_iff_eq, beq_iff_eq]

theorem toInt_ne_zero_of_divides {a b : Int64} (h : divides a b = true) : b.toInt ≠ 0 := by
  obtain ⟨hb, -⟩ := divides_iff.mp h
  rwa [← Int64.toInt_zero, ne_eq, Int64.toInt_inj]

theorem toInt_quotient {a b : Int64} (h : divides a b = true) :
    (a / b).toInt = a.toInt.tdiv b.toInt := by
  obtain ⟨-, hpair⟩ := divides_iff.mp h
  by_cases hb : b = -1
  · exact Int64.toInt_div_of_ne_left a b fun ha => hpair ⟨ha, hb⟩
  · exact Int64.toInt_div_of_ne_right a b hb

theorem signsDiffer_iff {a b : Int64} :
    signsDiffer a b = true ↔ ¬(a.toInt < 0 ↔ b.toInt < 0) := by
  simp only [signsDiffer, Int64.lt_iff_toInt_lt, Int64.toInt_zero, bne_iff_ne, ne_eq,
    decide_eq_decide]

/-! ### The steps of the correction -/

theorem remainder_of_divides {a b : Int64} (h : divides a b = true) :
    remainder a b = .ok (a % b) := by
  simp [remainder, remainder?, h]

theorem sum_of_toInt {a b c : Int64} (h : c.toInt = a.toInt + b.toInt) : sum a b = .ok c := by
  rw [sum, add?_eq, ofInt?_eq_some_iff.mpr h]

theorem mod_eq_zero_iff {a b : Int64} : a % b = 0 ↔ a.toInt.tmod b.toInt = 0 := by
  rw [← Int64.toInt_inj, Int64.toInt_mod, Int64.toInt_zero]

/-- The correction is due where a remainder is left and the signs of the operands differ. -/
theorem quotient_corrected_iff {a b : Int64} :
    (a % b != 0 && signsDiffer a b) = true ↔
      a.toInt.tmod b.toInt ≠ 0 ∧ ¬(a.toInt < 0 ↔ b.toInt < 0) := by
  rw [Bool.and_eq_true, signsDiffer_iff, bne_iff_ne, ne_eq, mod_eq_zero_iff]

/-- A remainder that is left has the sign of the dividend, so that both functions correct at the
same pairs. -/
theorem remainder_corrected_iff {a b : Int64} (hb : b.toInt ≠ 0) :
    (a % b != 0 && signsDiffer (a % b) b) = true ↔
      a.toInt.tmod b.toInt ≠ 0 ∧ ¬(a.toInt < 0 ↔ b.toInt < 0) := by
  obtain ⟨-, hnonneg, hnonpos⟩ := tmod_bounds a.toInt hb
  rw [Bool.and_eq_true, signsDiffer_iff, bne_iff_ne, ne_eq, mod_eq_zero_iff, Int64.toInt_mod]
  apply and_congr_right
  intro hr
  have hsign : a.toInt.tmod b.toInt < 0 ↔ a.toInt < 0 := by
    constructor
    · intro hlt
      by_contra hle
      have hge := hnonneg (by omega)
      omega
    · intro hlt
      have hle := hnonpos (by omega)
      omega
  rw [hsign]

theorem exists_sub?_one {a b : Int64} (h : divides a b = true)
    (hc : (a % b != 0 && signsDiffer a b) = true) :
    ∃ q, sub? (a / b) 1 = some q ∧ q.toInt = a.toInt.fdiv b.toInt := by
  have hb := toInt_ne_zero_of_divides h
  have hdue := quotient_corrected_iff.mp hc
  obtain ⟨hfloor, -⟩ := (floor_of_truncated a.toInt hb).1 hdue
  have hhalf := two_mul_natAbs_tdiv_le hb hdue.1
  have hlow := Int64.le_toInt a
  have hhigh := Int64.toInt_lt a
  rw [sub?_eq, toInt_quotient h, Int64.toInt_one, ← hfloor]
  cases hq : ofInt? (a.toInt.fdiv b.toInt) with
  | some q => exact ⟨q, rfl, ofInt?_eq_some_iff.mp hq⟩
  | none =>
    have hout := ofInt?_eq_none_iff.mp hq
    omega

theorem exists_sum {a b : Int64} (hb : b.toInt ≠ 0)
    (hc : (a % b != 0 && signsDiffer (a % b) b) = true) :
    ∃ r, sum (a % b) b = .ok r ∧ r.toInt = a.toInt.fmod b.toInt := by
  have hdue := (remainder_corrected_iff hb).mp hc
  obtain ⟨-, hfloor⟩ := (floor_of_truncated a.toInt hb).1 hdue
  obtain ⟨hsmall, hnonneg, hnonpos⟩ := tmod_bounds a.toInt hb
  have hlow := Int64.le_toInt b
  have hhigh := Int64.toInt_lt b
  have hsum : a.toInt.fmod b.toInt = (a % b).toInt + b.toInt := by
    rw [hfloor, Int64.toInt_mod]
  cases hr : ofInt? (a.toInt.fmod b.toInt) with
  | some r =>
    have hexact := ofInt?_eq_some_iff.mp hr
    exact ⟨r, sum_of_toInt (hexact.trans hsum), hexact⟩
  | none =>
    have hout := ofInt?_eq_none_iff.mp hr
    rw [hfloor] at hout
    rcases lt_or_gt_of_ne hb with hneg | hpos
    · rw [abs_of_neg hneg, abs_lt] at hsmall
      omega
    · rw [abs_of_pos hpos, abs_lt] at hsmall
      omega

/-! ### Division rounding down -/

theorem floorDiv?_of_not_divides {a b : Int64} (h : divides a b = false) :
    floorDiv? a b = .ok none := by
  simp [floorDiv?, quotient?, h]

theorem floorMod?_of_not_divides {a b : Int64} (h : divides a b = false) :
    floorMod? a b = .ok none := by
  simp [floorMod?, remainder?, h]

theorem floorDiv?_of_divides {a b : Int64} (h : divides a b = true) :
    ∃ q, floorDiv? a b = .ok (some q) ∧ q.toInt = a.toInt.fdiv b.toInt := by
  have hb := toInt_ne_zero_of_divides h
  have hopen : floorDiv? a b =
      .ok (if a % b != 0 && signsDiffer a b then sub? (a / b) 1 else some (a / b)) := by
    simp only [floorDiv?, quotient?, h, if_true, remainder_of_divides h]
    rfl
  by_cases hc : (a % b != 0 && signsDiffer a b) = true
  · obtain ⟨q, hq, hexact⟩ := exists_sub?_one h hc
    exact ⟨q, by rw [hopen, if_pos hc, hq], hexact⟩
  · have hkept := (floor_of_truncated a.toInt hb).2 (mt quotient_corrected_iff.mpr hc)
    exact ⟨a / b, by rw [hopen, if_neg hc], (toInt_quotient h).trans hkept.1.symm⟩

theorem floorMod?_of_divides {a b : Int64} (h : divides a b = true) :
    ∃ r, floorMod? a b = .ok (some r) ∧ r.toInt = a.toInt.fmod b.toInt := by
  have hb := toInt_ne_zero_of_divides h
  have hopen : floorMod? a b =
      if a % b != 0 && signsDiffer (a % b) b then some <$> sum (a % b) b
      else .ok (some (a % b)) := by
    simp only [floorMod?, remainder?, h, if_true]
  by_cases hc : (a % b != 0 && signsDiffer (a % b) b) = true
  · obtain ⟨r, hr, hexact⟩ := exists_sum hb hc
    exact ⟨r, by rw [hopen, if_pos hc, hr]; rfl, hexact⟩
  · have hkept := (floor_of_truncated a.toInt hb).2 (mt (remainder_corrected_iff hb).mpr hc)
    exact ⟨a % b, by rw [hopen, if_neg hc], (Int64.toInt_mod a b).trans hkept.2.symm⟩

/-- The two functions belong together. Neither ever stops, so that none of their unchecked steps
leaves the words, and neither does the step from a quotient to the one below it. Both decline at
the same pairs, a divisor of zero and the one quotient that is no word, and what they answer
everywhere else restores the dividend. -/
theorem floorDiv?_floorMod?_belong (a b : Int64) :
    ∃ q? r?, floorDiv? a b = .ok q? ∧ floorMod? a b = .ok r? ∧
      (q?.isSome = true ↔ b ≠ 0 ∧ ¬(a = Int64.minValue ∧ b = -1)) ∧
      (r?.isSome = true ↔ q?.isSome = true) ∧
      (∀ q r, q? = some q → r? = some r → FloorPair a.toInt b.toInt q.toInt r.toInt) ∧
      ∀ q, quotient? a b = some q → (a % b != 0 && signsDiffer a b) = true →
        ∃ d, sub? q 1 = some d ∧ d.toInt = q.toInt - 1 := by
  cases h : divides a b with
  | false =>
    refine ⟨none, none, floorDiv?_of_not_divides h, floorMod?_of_not_divides h, ?_, by simp,
      by simp, ?_⟩
    · rw [← divides_iff, h]
      simp
    · intro q hq
      simp [quotient?, h] at hq
  | true =>
    obtain ⟨q, hq, hfdiv⟩ := floorDiv?_of_divides h
    obtain ⟨r, hr, hfmod⟩ := floorMod?_of_divides h
    refine ⟨some q, some r, hq, hr, ?_, by simp, ?_, ?_⟩
    · rw [← divides_iff, h]
      simp
    · rintro q' r' ⟨⟩ ⟨⟩
      rw [hfdiv, hfmod]
      exact floorPair_fdiv_fmod a.toInt (toInt_ne_zero_of_divides h)
    · intro q' hq' hc
      obtain rfl : a / b = q' := by simpa [quotient?, h] using hq'
      obtain ⟨d, hd, -⟩ := exists_sub?_one h hc
      rw [sub?_eq] at hd ⊢
      exact ⟨d, hd, by simpa using ofInt?_eq_some_iff.mp hd⟩

/-- The lowest word divided by three, with a remainder of the divisor's sign. -/
theorem lowest_floorPair :
    floorDiv? Int64.minValue 3 = .ok (some (-3074457345618258603)) ∧
    floorMod? Int64.minValue 3 = .ok (some 1) ∧
    FloorPair (-9223372036854775808) 3 (-3074457345618258603) 1 := by
  obtain ⟨q?, r?, hq, hr, -, -, hpair, -⟩ := floorDiv?_floorMod?_belong Int64.minValue 3
  have hdiv : floorDiv? Int64.minValue 3 = .ok (some (-3074457345618258603)) := by decide
  have hmod : floorMod? Int64.minValue 3 = .ok (some 1) := by decide
  refine ⟨hdiv, hmod, ?_⟩
  obtain rfl : q? = some (-3074457345618258603) := Except.ok.inj (hq.symm.trans hdiv)
  obtain rfl : r? = some 1 := Except.ok.inj (hr.symm.trans hmod)
  exact hpair _ _ rfl rfl

end Words

end MethodCache
