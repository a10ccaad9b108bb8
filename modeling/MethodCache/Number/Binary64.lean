/-!
Double-precision numbers, kept as their sixty-four bits so that two of them are the same exactly
when their bits are. A finite one is a significand times a power of two; truncation and the test
for whole numbers are computed on those, and only rounding arithmetic uses the machine's floats.
-/
namespace MethodCache

/-- A double-precision number as its bits. -/
structure Binary64 where
  bits : UInt64
  deriving DecidableEq

namespace Binary64

def ofFloat (f : Float) : Binary64 := ⟨f.toBits⟩

def toFloat (x : Binary64) : Float := Float.ofBits x.bits

/-- The nearest double to a word, ties to even. -/
def ofInt64 (i : Int64) : Binary64 := ofFloat i.toFloat

def add (x y : Binary64) : Binary64 := ofFloat (x.toFloat + y.toFloat)

def sub (x y : Binary64) : Binary64 := ofFloat (x.toFloat - y.toFloat)

def mul (x y : Binary64) : Binary64 := ofFloat (x.toFloat * y.toFloat)

def div (x y : Binary64) : Binary64 := ofFloat (x.toFloat / y.toFloat)

/-- Numerical equality: zeros of both signs agree and a NaN agrees with nothing. -/
def beq (x y : Binary64) : Bool := x.toFloat == y.toFloat

def blt (x y : Binary64) : Bool := decide (x.toFloat < y.toFloat)

def ble (x y : Binary64) : Bool := decide (x.toFloat ≤ y.toFloat)

def isNegative (x : Binary64) : Bool := Nat.pow 2 63 ≤ x.bits.toNat

def exponentField (x : Binary64) : Nat := x.bits.toNat / Nat.pow 2 52 % Nat.pow 2 11

def fractionField (x : Binary64) : Nat := x.bits.toNat % Nat.pow 2 52

def isFinite (x : Binary64) : Bool := x.exponentField != 2047

def isNaN (x : Binary64) : Bool := x.exponentField == 2047 && x.fractionField != 0

def isZero (x : Binary64) : Bool := x.exponentField == 0 && x.fractionField == 0

/-- The integer m of a finite number m · 2 ^ q, without the sign. -/
def significand (x : Binary64) : Nat :=
  if x.exponentField = 0 then x.fractionField else Nat.pow 2 52 + x.fractionField

/-- The exponent q of a finite number m · 2 ^ q. -/
def exponent (x : Binary64) : Int :=
  if x.exponentField = 0 then -1074 else x.exponentField - 1075

/-- The whole part of the absolute value of a finite number. -/
def wholePart (x : Binary64) : Nat :=
  if 0 ≤ x.exponent then x.significand * Nat.pow 2 x.exponent.toNat
  else x.significand / Nat.pow 2 (-x.exponent).toNat

def isWhole (x : Binary64) : Bool :=
  x.isFinite && (decide (0 ≤ x.exponent) || x.significand % Nat.pow 2 (-x.exponent).toNat == 0)

/-- A finite number rounded toward zero. -/
def truncate (x : Binary64) : Int :=
  if x.isNegative then -(x.wholePart : Int) else x.wholePart

end Binary64

end MethodCache
