import MethodCache.Native.Arguments
import MethodCache.Value.Hashing

/-!
Methods of doubles. The receiver must be a double; the other operand may be a whole number. A
double that equals a word hashes like the word, the lowest word apart.
-/
namespace MethodCache

namespace Binary64

/-- The whole number nearest to a finite double toward zero, held at the ends of the word range
when it lies outside. -/
def toWord (x : Binary64) : Int64 :=
  Int64.ofInt (max Int64.minValue.toInt (min Int64.maxValue.toInt x.truncate))

/-- The double is a whole number of absolute value below two to the sixty-third. -/
def hashesAsWord (x : Binary64) : Bool :=
  x.isWhole && decide (x.wholePart < Nat.pow 2 63)

/-- The hash of a double: its value where the test for words passes it, else the hash of its
bits. -/
def hash [Hashing] (x : Binary64) : Int64 :=
  if x.hashesAsWord then x.toWord else (Hashing.hashWord x.bits).toInt64

end Binary64

namespace Native.Floating

def binary (op : Binary64 → Binary64 → Binary64) (args : List Value) : Value :=
  orDecline ((floatPair? args).map fun (x, y) => .float (op x y))

/-- An operator whose right operand is the receiver. -/
def reflected (op : Binary64 → Binary64 → Binary64) (args : List Value) : Value :=
  orDecline ((floatPair? args).map fun (y, x) => .float (op x y))

def compare (test : Binary64 → Binary64 → Bool) (args : List Value) : Value :=
  orDecline ((floatPair? args).map fun (x, y) => .bool (test x y))

def unary (f : Binary64 → Value) (args : List Value) : Value :=
  orDecline ((float? args).map f)

def call [Hashing] (s : Slot) (args : List Value) : Value :=
  match s with
  | .add => binary Binary64.add args
  | .radd => reflected Binary64.add args
  | .sub => binary Binary64.sub args
  | .rsub => reflected Binary64.sub args
  | .mul => binary Binary64.mul args
  | .rmul => reflected Binary64.mul args
  | .trueDiv => binary Binary64.div args
  | .rtrueDiv => reflected Binary64.div args
  | .eq => compare Binary64.beq args
  | .ne => compare (fun x y => !x.beq y) args
  | .lt => compare Binary64.blt args
  | .le => compare Binary64.ble args
  | .gt => compare (fun x y => y.blt x) args
  | .ge => compare (fun x y => y.ble x) args
  | .hash => unary (fun x => .int x.hash) args
  | .bool => unary (fun x => .bool (!x.isZero)) args
  | .int => unary (fun x => if x.isFinite then .int x.toWord else .notImplemented) args
  | .float => unary .float args
  | .repr => unary (fun x => .str x.text) args
  | _ => .notImplemented

end Native.Floating

end MethodCache
