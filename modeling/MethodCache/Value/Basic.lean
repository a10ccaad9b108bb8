import MethodCache.Number.Printed
import MethodCache.Slot.Basic
import MethodCache.Value.BuiltinType

/-!
The values that members of classes hold. Plain values are the same when their contents are;
functions and built-in functions are objects, told apart by a serial number, so that a method and
an equal-looking replacement are different values. With the serial number part of the object,
sameness of values is equality.
-/
namespace MethodCache

abbrev ContextId := Nat

def ContextId.text (c : ContextId) : String := s!"ctx#{c}"

/-- A method implemented natively, known by the type that declares it and its slot. -/
structure Native where
  owner : BuiltinType
  slot : Slot
  deriving DecidableEq

structure FunctionObject where
  serial : Nat
  name : String
  deriving DecidableEq

/-- A function object around a native method, owned by one context. Serial number zero belongs to
the object that the context makes for its own class; others are numbered from one. -/
structure BuiltinFunction where
  native : Native
  context : ContextId
  serial : Nat := 0
  deriving DecidableEq

inductive Value
  | null
  /-- The answer of an operator that declines its operands. -/
  | notImplemented
  | bool (b : Bool)
  | int (i : Int64)
  | float (x : Binary64)
  | str (s : String)
  | function (f : FunctionObject)
  | builtin (f : BuiltinFunction)
  deriving DecidableEq

namespace Value

/-- Sameness of values: contents for plain values, identity for objects. -/
def same (a b : Value) : Bool := decide (a = b)

/-- A value that any context may use as it stands. -/
def isContextFree : Value → Bool
  | .function _ | .builtin _ => false
  | _ => true

/-- The value as a whole number; truth values count as zero and one. -/
def asInt? : Value → Option Int64
  | .int i => some i
  | .bool b => some (if b then 1 else 0)
  | _ => none

/-- The value as a double; whole numbers are rounded to one. -/
def asFloat? : Value → Option Binary64
  | .float x => some x
  | v => v.asInt?.map Binary64.ofInt64

def asText? : Value → Option String
  | .str s => some s
  | _ => none

def asBuiltin? : Value → Option BuiltinFunction
  | .builtin f => some f
  | _ => none

def typeName : Value → String
  | .null => "NoneType"
  | .notImplemented => "NotImplementedType"
  | .bool _ => "bool"
  | .int _ => "int"
  | .float _ => "float"
  | .str _ => "str"
  | .function _ => "function"
  | .builtin _ => "builtin_function_or_method"

end Value

def Native.path (n : Native) : String := s!"{n.owner.name}.{n.slot.name}"

def Native.text (n : Native) : String := s!"<native {n.path}>"

def FunctionObject.text (f : FunctionObject) : String := s!"<function {f.name} #{f.serial}>"

def BuiltinFunction.text (f : BuiltinFunction) : String :=
  s!"<built-in method {f.native.path} of {f.context.text}>"

def Value.text : Value → String
  | .null => "None"
  | .notImplemented => "NotImplemented"
  | .bool true => "True"
  | .bool false => "False"
  | .int i => toString i.toInt
  | .float x => x.text
  | .str s => s!"'{s}'"
  | .function f => f.text
  | .builtin f => f.text

end MethodCache
