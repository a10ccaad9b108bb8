import MethodCache.Slot.Basic

/-!
Finding the slot that a member name denotes. Ordinary names are turned away by their shape, and
the two bytes after the leading underscores choose a short list of slots to compare with. The
answer is the one a search of all names gives: a name denotes a slot exactly when it is its name.
-/
namespace MethodCache.Slot

/-- The shape every slot name has: at least six bytes, two underscores at each end. -/
def hasSlotShape (name : String) : Bool :=
  let b := name.toUTF8
  if h : 5 < b.size then
    b[0] == 0x5f && b[1] == 0x5f && b[b.size - 2] == 0x5f && b[b.size - 1] == 0x5f
  else
    false

theorem size_of_hasSlotShape {name : String} (h : hasSlotShape name = true) :
    5 < name.toUTF8.size := by
  simp only [hasSlotShape] at h
  split at h
  · assumption
  · simp at h

/-- The slots whose names go on with these two characters after the leading underscores. -/
def candidates : Char → Char → List Slot
  | 'g', 'e' => [.getAttribute, .getAttr, .get, .getItem, .ge]
  | 's', 'e' => [.setAttr, .set, .setName, .setItem]
  | 'd', 'e' => [.delAttr, .delete, .delItem]
  | 'd', 'i' => [.dict, .divMod]
  | 'i', 't' => [.iter]
  | 'n', 'e' => [.next, .new, .ne]
  | 'i', 'n' => [.init, .instanceCheck, .index, .int]
  | 's', 'u' => [.subclassCheck, .sub]
  | 'c', 'a' => [.call]
  | 'e', 'x' => [.exit]
  | 'e', 'n' => [.enter]
  | 'l', 'e' => [.len, .lengthHint, .le]
  | 'c', 'o' => [.contains]
  | 'b', 'o' => [.bool]
  | 'h', 'a' => [.hash]
  | 'f', 'l' => [.float, .floorDiv]
  | 's', 't' => [.str]
  | 'r', 'e' => [.repr, .reversed]
  | 'f', 'o' => [.format]
  | 'm', 'i' => [.missing]
  | 'e', 'q' => [.eq]
  | 'l', 't' => [.lt]
  | 'g', 't' => [.gt]
  | 'a', 'n' => [.and]
  | 'r', 'a' => [.rand, .radd]
  | 'o', 'r' => [.or]
  | 'r', 'o' => [.ror, .round]
  | 'x', 'o' => [.xor]
  | 'r', 'x' => [.rxor]
  | 'a', 'd' => [.add]
  | 'r', 's' => [.rsub, .rshift]
  | 'm', 'u' => [.mul]
  | 'r', 'm' => [.rmul, .rmatMul, .rmod]
  | 'm', 'a' => [.matMul]
  | 'm', 'o' => [.mod]
  | 'r', 'd' => [.rdivMod]
  | 'p', 'o' => [.pow]
  | 'r', 'p' => [.rpow]
  | 't', 'r' => [.trueDiv]
  | 'r', 't' => [.rtrueDiv]
  | 'r', 'f' => [.rfloorDiv]
  | 'l', 's' => [.lshift]
  | 'r', 'l' => [.rlshift]
  | 'r', 'r' => [.rrshift]
  | 'i', 'a' => [.iadd]
  | 'i', 'm' => [.imul]
  | 'b', 'y' => [.bytes]
  | _, _ => []

def ofName? (name : String) : Option Slot :=
  if h : hasSlotShape name = true then
    have := size_of_hasSlotShape h
    let b := name.toUTF8
    (candidates (Char.ofUInt8 b[2]) (Char.ofUInt8 b[3])).find? (·.name == name)
  else
    none

end MethodCache.Slot
