import MethodCache.Number.Shortest

/-!
The written form of a double. A layout says between which decimal exponents the digits are
written in place; outside them one digit stands before the point and an exponent follows.
-/
namespace MethodCache

/-- The decisions of a number format. -/
structure Decimal.Layout where
  /-- The least exponent of the leading digit that is written in place. -/
  positionalFrom : Int
  /-- The least exponent of the leading digit that is no longer written in place. -/
  positionalBelow : Int
  /-- What stands between the digits and the exponent. -/
  exponentMark : String
  /-- What follows a whole number written in place. -/
  wholeEnding : String

namespace Decimal

def digits (d : Decimal) : List Char :=
  Nat.toDigits 10 d.coefficient

def leadingExponent (d : Decimal) : Int :=
  d.exponent + d.digits.length - 1

def write (l : Layout) (d : Decimal) : String :=
  let ds := d.digits
  let e := d.leadingExponent
  if e < l.positionalFrom ∨ l.positionalBelow ≤ e then
    let fraction := if ds.length ≤ 1 then [] else '.' :: ds.tail
    String.ofList (ds.take 1 ++ fraction) ++ l.exponentMark ++ toString e
  else if 0 ≤ d.exponent then
    String.ofList (ds ++ List.replicate d.exponent.toNat '0') ++ l.wholeEnding
  else if 0 ≤ e then
    let n := e.toNat + 1
    String.ofList (ds.take n ++ '.' :: ds.drop n)
  else
    String.ofList ('0' :: '.' :: (List.replicate (-e - 1).toNat '0' ++ ds))

end Decimal

/-- Doubles are written in place from a ten-thousandth up to below ten to the sixteenth, and a
whole number keeps one zero after the point. -/
def Binary64.layout : Decimal.Layout := ⟨-4, 16, "e", ".0"⟩

def Binary64.text (x : Binary64) : String :=
  if x.isNaN then "NaN"
  else
    let sign := if x.isNegative then "-" else ""
    if !x.isFinite then sign ++ "inf"
    else if x.isZero then sign ++ "0.0"
    else sign ++ (Decimal.shortest x.significand x.exponent).write layout

end MethodCache
