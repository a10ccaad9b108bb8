import MethodCache.Number.Binary64

/-!
The shortest decimal that reads back as a given double. The reals that round to m · 2 ^ q form an
interval; going from coarse to fine powers of ten, the first grid with a point in the interval
gives the digits. Of two such points the nearer is taken, and the larger when both are as near.
All comparisons are between natural numbers.
-/
namespace MethodCache

/-- The number coefficient · 10 ^ exponent. -/
structure Decimal where
  coefficient : Nat
  exponent : Int
  deriving DecidableEq

namespace Decimal

/-- The reals that round to m · 2 ^ q, in quarters of 2 ^ q; the ends belong to it when m is
even, and below a power of two the spacing is halved. -/
structure Interval where
  low : Nat
  mid : Nat
  high : Nat
  closed : Bool
  exponent : Int

def Interval.of (significand : Nat) (exponent : Int) : Interval where
  low := 4 * significand - if significand = Nat.pow 2 52 then 1 else 2
  mid := 4 * significand
  high := 4 * significand + 2
  closed := significand % 2 == 0
  exponent := exponent - 2

/-- A bound of the interval scaled to be compared with multiples of 10 ^ p. -/
def Interval.scaled (i : Interval) (p : Int) (bound : Nat) : Nat :=
  bound * Nat.pow 2 i.exponent.toNat * Nat.pow 10 (-p).toNat

def Interval.step (i : Interval) (p : Int) : Nat :=
  Nat.pow 10 p.toNat * Nat.pow 2 (-i.exponent).toNat

def Interval.holds (i : Interval) (p : Int) (c : Nat) : Bool :=
  let x := c * i.step p
  let low := i.scaled p i.low
  let high := i.scaled p i.high
  if i.closed then low ≤ x && x ≤ high else low < x && x < high

/-- The multiple of 10 ^ p in the interval that is nearest to its middle, if there is one. -/
def Interval.nearest? (i : Interval) (p : Int) : Option Nat :=
  let step := i.step p
  let mid := i.scaled p i.mid
  let below := mid / step
  let above := below + 1
  match i.holds p below, i.holds p above with
  | true, true => some (if 2 * (mid - below * step) < step then below else above)
  | true, false => some below
  | false, true => some above
  | false, false => none

/-- A power of ten above the number; the digits wanted start below it. -/
def leading (significand : Nat) (exponent : Int) : Int :=
  (exponent + significand.log2 + 1) * 30103 / 100000 + 1

/-- The shortest decimal of a positive double. Seventeen digits always suffice, so twenty-four
powers of ten from above the number are more than enough. -/
def shortest (significand : Nat) (exponent : Int) : Decimal :=
  let i := Interval.of significand exponent
  let top := leading significand exponent
  let found := (List.range 24).findSome? fun (k : Nat) =>
    (i.nearest? (top - k)).map fun c => Decimal.mk c (top - k)
  found.getD ⟨0, 0⟩

end Decimal

end MethodCache
