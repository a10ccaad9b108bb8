import MethodCache.Value.Basic

/-!
What goes into a native method and how it ends. A method looks at its first one or two arguments
and ignores the rest; when they do not have the types it needs, it declines. Declining is an
answer. A step that the machine cannot carry out is not: it stops the method with a fault.
-/
namespace MethodCache

/-- Why a native method stops without an answer. -/
inductive NativeFault
  | capacityOverflow
  /-- A sum that nobody checks is no word. -/
  | sumOverflow
  /-- A remainder that nobody checks has the divisor zero. -/
  | zeroDivisor
  /-- A remainder that nobody checks goes with a quotient that is no word. -/
  | remainderOverflow
  deriving DecidableEq

def NativeFault.message : NativeFault → String
  | .capacityOverflow => "capacity overflow"
  | .sumOverflow => "attempt to add with overflow"
  | .zeroDivisor => "attempt to calculate the remainder with a divisor of zero"
  | .remainderOverflow => "attempt to calculate the remainder with overflow"

/-- The greatest number of bytes of a text. Memory is idealized: there is room for every text up to
this length, and the header in front of a text that is shared takes no room of its own. -/
def Text.maxBytes : Nat := Nat.pow 2 63 - 1

namespace Native

def intPair? : List Value → Option (Int64 × Int64)
  | a :: b :: _ => do return (← a.asInt?, ← b.asInt?)
  | _ => none

/-- The first two arguments as doubles, the first of them being one already. -/
def floatPair? : List Value → Option (Binary64 × Binary64)
  | .float x :: b :: _ => b.asFloat?.map (x, ·)
  | _ => none

def boolPair? : List Value → Option (Bool × Bool)
  | .bool a :: .bool b :: _ => some (a, b)
  | _ => none

def textPair? : List Value → Option (String × String)
  | .str a :: .str b :: _ => some (a, b)
  | _ => none

def int? (args : List Value) : Option Int64 :=
  args.head?.bind Value.asInt?

def float? : List Value → Option Binary64
  | .float x :: _ => some x
  | _ => none

def text? : List Value → Option String
  | .str s :: _ => some s
  | _ => none

def orDecline : Option Value → Value
  | some v => v
  | none => .notImplemented

/-- A text put together from arguments, unless it has more bytes than a text may have. Only the
finished text counts: a buffer that grows ahead of the text in it may meet the limit earlier, and
that is not modelled. -/
def answerText (s : String) : Except NativeFault Value :=
  if s.utf8ByteSize > Text.maxBytes then .error .capacityOverflow else .ok (.str s)

end Native

end MethodCache
