import MethodCache.Native.Arguments
import MethodCache.Text.Quoted
import MethodCache.Value.Hashing

/-!
Methods of texts. Texts compare by code point, and their length counts code points. A method that
puts a new text together stops when it would have more bytes than a text may have; repeating a
text notices this before it starts.
-/
namespace MethodCache

namespace Text

def repeated (s : String) (n : Nat) : Except NativeFault String :=
  if s.utf8ByteSize * n > maxBytes then .error .capacityOverflow
  else if s.isEmpty then .ok ""
  else .ok (String.join (List.replicate n s))

def occursIn (needle : List Char) : List Char → Bool
  | [] => needle.isEmpty
  | c :: hay => needle.isPrefixOf (c :: hay) || occursIn needle hay

end Text

namespace Native.Textual

def compare (test : String → String → Bool) (args : List Value) : Value :=
  orDecline ((textPair? args).map fun (a, b) => .bool (test a b))

def unary (f : String → Value) (args : List Value) : Value :=
  orDecline ((text? args).map f)

/-- Repetition; a negative count counts as zero. -/
def times : List Value → Except NativeFault Value
  | .str s :: count :: _ =>
    match count.asInt? with
    | some n => do return .str (← Text.repeated s n.toInt.toNat)
    | none => .ok .notImplemented
  | _ => .ok .notImplemented

def joined (args : List Value) : Except NativeFault Value :=
  match textPair? args with
  | some (a, b) => answerText (a ++ b)
  | none => .ok .notImplemented

/-- The receiver in printable ASCII between quotes. -/
def escaped (args : List Value) : Except NativeFault Value :=
  match text? args with
  | some t => answerText s!"'{Text.asciiEscaped t}'"
  | none => .ok .notImplemented

def call [Hashing] (s : Slot) (args : List Value) : Except NativeFault Value :=
  match s with
  | .mul | .rmul => times args
  | .add => joined args
  | .eq => .ok (compare (fun a b => a == b) args)
  | .ne => .ok (compare (fun a b => a != b) args)
  | .lt => .ok (compare (fun a b => a < b) args)
  | .le => .ok (compare (fun a b => !decide (b < a)) args)
  | .gt => .ok (compare (fun a b => b < a) args)
  | .ge => .ok (compare (fun a b => !decide (a < b)) args)
  | .hash => .ok (unary (fun t => .int (Hashing.hashText t).toInt64) args)
  | .len => .ok (unary (fun t => .int (Int64.ofNat t.length)) args)
  | .contains =>
    .ok (compare (fun hay needle => Text.occursIn needle.toList hay.toList) args)
  | .repr => escaped args
  | .str => .ok (unary .str args)
  | _ => .ok .notImplemented

end Native.Textual

end MethodCache
