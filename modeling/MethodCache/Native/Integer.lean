import MethodCache.Native.Arguments

/-!
Whole-number methods on 64-bit words. Each operator works on the words and declines where the
machine operation would overflow or divide by zero; quotients and remainders are corrected from
truncation toward zero to the floor. The corrections use steps that nobody checks, and such a step
stops the method where the machine cannot carry it out.
-/
namespace MethodCache

namespace Words

def add? (a b : Int64) : Option Int64 :=
  if a.toBitVec.saddOverflow b.toBitVec then none else some (a + b)

def sub? (a b : Int64) : Option Int64 :=
  if a.toBitVec.ssubOverflow b.toBitVec then none else some (a - b)

def mul? (a b : Int64) : Option Int64 :=
  if a.toBitVec.smulOverflow b.toBitVec then none else some (a * b)

/-- The machine can divide: the divisor is not zero and the quotient is a word. -/
def divides (a b : Int64) : Bool :=
  b != 0 && !(a == Int64.minValue && b == -1)

/-- The quotient rounded toward zero. -/
def quotient? (a b : Int64) : Option Int64 :=
  if divides a b then some (a / b) else none

/-- The remainder that goes with `quotient?`. -/
def remainder? (a b : Int64) : Option Int64 :=
  if divides a b then some (a % b) else none

/-- The sum, which nobody checks beforehand. -/
def sum (a b : Int64) : Except NativeFault Int64 :=
  match add? a b with
  | some c => .ok c
  | none => .error .sumOverflow

/-- The remainder, which nobody checks beforehand. -/
def remainder (a b : Int64) : Except NativeFault Int64 :=
  match remainder? a b with
  | some r => .ok r
  | none => .error (if b = 0 then .zeroDivisor else .remainderOverflow)

def signsDiffer (a b : Int64) : Bool := decide (a < 0) != decide (b < 0)

def floorDiv? (a b : Int64) : Except NativeFault (Option Int64) :=
  match quotient? a b with
  | none => .ok none
  | some q => do
    let r ← remainder a b
    return if r != 0 && signsDiffer a b then sub? q 1 else some q

/-- The remainder that goes with `floorDiv?`; it has the sign of the divisor. -/
def floorMod? (a b : Int64) : Except NativeFault (Option Int64) :=
  match remainder? a b with
  | none => .ok none
  | some r => if r != 0 && signsDiffer r b then some <$> sum r b else .ok (some r)

/-- An operation that may decline but never stops. -/
def checked (op : Int64 → Int64 → Option Int64) (a b : Int64) :
    Except NativeFault (Option Int64) :=
  .ok (op a b)

end Words

namespace Native.Integer

def binary (op : Int64 → Int64 → Except NativeFault (Option Int64)) (args : List Value) :
    Except NativeFault Value :=
  match intPair? args with
  | some (a, b) => do return orDecline ((← op a b).map .int)
  | none => .ok .notImplemented

def reflected (op : Int64 → Int64 → Except NativeFault (Option Int64)) (args : List Value) :
    Except NativeFault Value :=
  match intPair? args with
  | some (b, a) => do return orDecline ((← op a b).map .int)
  | none => .ok .notImplemented

def compare (test : Int64 → Int64 → Bool) (args : List Value) : Value :=
  orDecline do
    let (a, b) ← intPair? args
    return .bool (test a b)

def unary (f : Int64 → Value) (args : List Value) : Value :=
  orDecline ((int? args).map f)

def call (s : Slot) (args : List Value) : Except NativeFault Value :=
  match s with
  | .add => binary (Words.checked Words.add?) args
  | .radd => reflected (Words.checked Words.add?) args
  | .sub => binary (Words.checked Words.sub?) args
  | .rsub => reflected (Words.checked Words.sub?) args
  | .mul => binary (Words.checked Words.mul?) args
  | .rmul => reflected (Words.checked Words.mul?) args
  | .floorDiv => binary Words.floorDiv? args
  | .rfloorDiv => reflected Words.floorDiv? args
  | .mod => binary Words.floorMod? args
  | .rmod => reflected Words.floorMod? args
  | .and | .rand => binary (Words.checked fun a b => some (a &&& b)) args
  | .or | .ror => binary (Words.checked fun a b => some (a ||| b)) args
  | .xor | .rxor => binary (Words.checked fun a b => some (a ^^^ b)) args
  | .eq => .ok (compare (fun a b => a == b) args)
  | .ne => .ok (compare (fun a b => a != b) args)
  | .lt => .ok (compare (fun a b => a < b) args)
  | .le => .ok (compare (fun a b => a ≤ b) args)
  | .gt => .ok (compare (fun a b => a > b) args)
  | .ge => .ok (compare (fun a b => a ≥ b) args)
  | .hash | .index | .int => .ok (unary .int args)
  | .bool => .ok (unary (fun i => .bool (i != 0)) args)
  | .float => .ok (unary (fun i => .float (Binary64.ofInt64 i)) args)
  | .repr => .ok (unary (fun i => .str (toString i.toInt)) args)
  | _ => .ok .notImplemented

end Native.Integer

namespace Native.Truth

/-- A connective that stays among truth values when both operands are, and works on words
otherwise. -/
def connective (op : Bool → Bool → Bool) (s : Slot) (args : List Value) :
    Except NativeFault Value :=
  match boolPair? args with
  | some (a, b) => .ok (.bool (op a b))
  | none => Integer.call s args

def call (s : Slot) (args : List Value) : Except NativeFault Value :=
  match s with
  | .and | .rand => connective Bool.and s args
  | .or | .ror => connective Bool.or s args
  | .xor | .rxor => connective Bool.xor s args
  | .repr =>
    match args with
    | .bool true :: _ => .ok (.str "True")
    | .bool false :: _ => .ok (.str "False")
    | _ => .ok .notImplemented
  | _ => .ok .notImplemented

end Native.Truth

end MethodCache
