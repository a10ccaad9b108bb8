import MethodCache.Value.Basic

/-!
Hashes of values. How bytes, words and texts are hashed, and where objects lie in memory, is not
fixed here: it belongs to the process, and the native methods that hash are given it.
-/
namespace MethodCache

/-- The hash function of a process, and the addresses of its objects. -/
class Hashing where
  hashByte : UInt8 → UInt64
  hashWord : UInt64 → UInt64
  hashAddress : UInt64 → UInt64
  hashText : String → UInt64
  /-- The address of the one copy of a text that the process keeps. -/
  textAddress : String → UInt64
  functionAddress : BuiltinFunction → UInt64

/-- The hash that goes with sameness. Whole numbers and truth values hash as what they are, doubles
by their bits and functions of users by their serial number; texts and function objects of natives
hash by their address, so that nothing is said here about which of them get different hashes. -/
def Value.identityHash [Hashing] : Value → Int64
  | .null => (Hashing.hashByte 0).toInt64
  | .notImplemented => (Hashing.hashByte 1).toInt64
  | .bool b => if b then 1 else 0
  | .int i => i
  | .float x => (Hashing.hashWord x.bits).toInt64
  | .str s => (Hashing.hashAddress (Hashing.textAddress s)).toInt64
  | .function f => (Hashing.hashWord f.serial.toUInt64).toInt64
  | .builtin f => (Hashing.hashAddress (Hashing.functionAddress f)).toInt64

end MethodCache
