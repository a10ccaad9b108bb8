/-!
The types every context starts with. They occupy the first class ids, in an order that puts a
base before the types derived from it, and ids for classes made later begin well above them.
-/
namespace MethodCache

/-- The number of a class within one context. All numbers that a context hands out have thirty-two
bits; others name no class. -/
abbrev ClassId := Nat

namespace ClassId

def root : ClassId := 0

/-- The first id given to a class that is not built in. -/
def firstUser : ClassId := 64

def text (id : ClassId) : String := s!"class#{id}"

end ClassId

/-- A type that exists in every context. -/
inductive BuiltinType
  | object | noneType | int | bool | float | str | module
  deriving DecidableEq

namespace BuiltinType

/-- All built-in types, bases before derived types. -/
def all : List BuiltinType :=
  [.object, .noneType, .int, .bool, .float, .str, .module]

def classId (t : BuiltinType) : ClassId := t.ctorIdx

def ofClassId? (id : ClassId) : Option BuiltinType := all[id]?

def name : BuiltinType → String
  | .object => "object"
  | .noneType => "NoneType"
  | .int => "int"
  | .bool => "bool"
  | .float => "float"
  | .str => "str"
  | .module => "module"

/-- The type's label in descriptions of shared tables. -/
def label : BuiltinType → String
  | .object => "Object"
  | .noneType => "NoneType"
  | .int => "Int"
  | .bool => "Bool"
  | .float => "Float"
  | .str => "Str"
  | .module => "Module"

def base? : BuiltinType → Option BuiltinType
  | .object => none
  | .bool => some .int
  | _ => some .object

/-- The type followed by its chain of bases. -/
def ancestry : BuiltinType → List BuiltinType
  | .object => [.object]
  | .bool => [.bool, .int, .object]
  | t => [t, .object]

theorem ofClassId_classId (t : BuiltinType) : ofClassId? t.classId = some t := by
  cases t <;> rfl

theorem mem_all (t : BuiltinType) : t ∈ all :=
  List.mem_of_getElem? (ofClassId_classId t)

/-- Each entry of a chain is followed by the chain of its base. -/
theorem ancestry_eq (t : BuiltinType) :
    t.ancestry = t :: (t.base?.map ancestry).getD [] := by
  cases t <;> rfl

end BuiltinType

end MethodCache
