import MethodCache.Native.Catalogue
import MethodCache.Shared.Numbering

/-!
Descriptors stand for native methods without naming any context. Natives are numbered in the
order in which they are first met, and a number never changes.
-/
namespace MethodCache

abbrev DescriptorIndex := Numbering Native

/-- What contexts share about a native slot method. -/
structure Descriptor where
  slot : Slot
  native : Native
  index : Nat
  owner : BuiltinType
  deriving DecidableEq

namespace Descriptor

def same (d e : Descriptor) : Bool := d.slot = e.slot && d.native = e.native

/-- The function object is some context's own for the described native. -/
def describes (d : Descriptor) (f : BuiltinFunction) : Bool := d.native = f.native

/-- Calls the native without any function object. -/
def call [Hashing] (d : Descriptor) (context : ContextId) (args : List Value) :
    Except NativeFault Value :=
  d.native.call context args

def text (d : Descriptor) : String :=
  s!"BuiltinDescriptor({d.owner.name}.{d.slot.name} #{d.index})"

end Descriptor

end MethodCache
