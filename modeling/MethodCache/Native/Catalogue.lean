import MethodCache.Native.Integer
import MethodCache.Native.Floating
import MethodCache.Native.Textual
import MethodCache.Native.Plain

/-!
The catalogue of native methods: which slots each built-in type defines, in the order they are
installed, and what happens when one is called. Methods that depend on their context are
installed late, after the tables that contexts share have been made.
-/
namespace MethodCache

namespace BuiltinType

/-- The slots a type defines from the start. -/
def installedSlots : BuiltinType → List Slot
  | .object => [.new, .init, .eq, .ne, .lt, .le, .gt, .ge, .hash, .repr, .str, .format]
  | .noneType => [.bool, .repr]
  | .int =>
    [.add, .radd, .sub, .rsub, .mul, .rmul, .floorDiv, .rfloorDiv, .mod, .rmod, .and, .rand,
     .or, .ror, .xor, .rxor, .eq, .ne, .lt, .le, .gt, .ge, .hash, .bool, .index, .int, .float,
     .repr]
  | .bool => [.and, .rand, .or, .ror, .xor, .rxor, .repr]
  | .float =>
    [.add, .radd, .sub, .rsub, .mul, .rmul, .trueDiv, .rtrueDiv, .eq, .ne, .lt, .le, .gt, .ge,
     .hash, .bool, .int, .float, .repr]
  | .str =>
    [.add, .mul, .rmul, .eq, .ne, .lt, .le, .gt, .ge, .hash, .len, .contains, .repr, .str]
  | .module => []

/-- The slots a type defines after the shared tables were made. -/
def lateSlots : BuiltinType → List Slot
  | .module => [.repr]
  | _ => []

/-- The shared tables must leave this slot of the type open. -/
def redefines (t : BuiltinType) (s : Slot) : Bool := s ∈ t.lateSlots

end BuiltinType

namespace Native

def catalogue : List Native :=
  BuiltinType.all.flatMap fun t => (t.installedSlots ++ t.lateSlots).map (Native.mk t)

/-- A module's text names its context; every other native depends on its arguments alone. -/
def contextFree (n : Native) : Bool := n != ⟨.module, .repr⟩

def call [Hashing] (n : Native) (context : ContextId) (args : List Value) :
    Except NativeFault Value :=
  match n.owner with
  | .object => .ok (Plain.call n.slot args)
  | .noneType => .ok (Plain.callNull n.slot)
  | .int => Integer.call n.slot args
  | .bool => Truth.call n.slot args
  | .float => .ok (Floating.call n.slot args)
  | .str => Textual.call n.slot args
  | .module => Plain.callModule n.slot context args

end Native

def BuiltinFunction.call [Hashing] (f : BuiltinFunction) (args : List Value) :
    Except NativeFault Value :=
  f.native.call f.context args

end MethodCache
