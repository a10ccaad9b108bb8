import MethodCache.Native.Arguments
import MethodCache.Value.Hashing

/-!
Methods that every object has, and the few of the types that add almost nothing: the type of the
missing value, and modules, whose text names the context it is made in.
-/
namespace MethodCache

namespace Native.Plain

/-- The given answer when the first two arguments are the same value; other pairs are declined. -/
def ifSame (answer : Bool) : List Value → Value
  | a :: b :: _ => if a.same b then .bool answer else .notImplemented
  | _ => .notImplemented

def describe (args : List Value) : Value :=
  let typeName := (args.head?.map Value.typeName).getD "object"
  .str s!"<{typeName} object>"

/-- The methods of the root type. -/
def call [Hashing] (s : Slot) (args : List Value) : Value :=
  match s with
  | .new => args.head?.getD .null
  | .init => .null
  | .eq => ifSame true args
  | .ne => ifSame false args
  | .hash => .int ((args.head?.map Value.identityHash).getD 0)
  | .repr | .str | .format => describe args
  | _ => .notImplemented

def callNull (s : Slot) : Value :=
  match s with
  | .bool => .bool false
  | .repr => .str "None"
  | _ => .notImplemented

def callModule (s : Slot) (context : ContextId) (args : List Value) :
    Except NativeFault Value :=
  match s with
  | .repr =>
    let name := (text? args).getD "?"
    answerText s!"<module '{name}' in {context.text}>"
  | _ => .ok .notImplemented

end Native.Plain

end MethodCache
