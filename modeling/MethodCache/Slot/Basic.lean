/-!
The special methods a class can define. Each is one constructor of `Slot`, has a fixed place in
`Slot.all`, its ordinal, and a name wrapped in double underscores. Tables are indexed by ordinal,
so the facts kept here are that ordinals are dense and that names and ordinals tell slots apart.
-/
namespace MethodCache

/-- A special method, in table order. -/
inductive Slot
  | getAttribute | getAttr | setAttr | delAttr | dict | get | set | delete | iter | next | new
  | init | setName | instanceCheck | subclassCheck | call | getItem | setItem | delItem | exit
  | enter | len | lengthHint | contains | bool | hash | index | float | int | str | repr
  | format | missing | eq | ne | lt | le | gt | ge | and | rand | or | ror | xor | rxor | add
  | radd | sub | rsub | mul | rmul | matMul | rmatMul | mod | rmod | divMod | rdivMod | pow
  | rpow | trueDiv | rtrueDiv | floorDiv | rfloorDiv | lshift | rlshift | rshift | rrshift
  | round | iadd | imul | reversed | bytes
  deriving DecidableEq

namespace Slot

def count : Nat := 72

def all : List Slot :=
  [.getAttribute, .getAttr, .setAttr, .delAttr, .dict, .get, .set, .delete, .iter, .next,
   .new, .init, .setName, .instanceCheck, .subclassCheck, .call, .getItem, .setItem, .delItem,
   .exit, .enter, .len, .lengthHint, .contains, .bool, .hash, .index, .float, .int, .str,
   .repr, .format, .missing, .eq, .ne, .lt, .le, .gt, .ge, .and, .rand, .or, .ror, .xor,
   .rxor, .add, .radd, .sub, .rsub, .mul, .rmul, .matMul, .rmatMul, .mod, .rmod, .divMod,
   .rdivMod, .pow, .rpow, .trueDiv, .rtrueDiv, .floorDiv, .rfloorDiv, .lshift, .rlshift,
   .rshift, .rrshift, .round, .iadd, .imul, .reversed, .bytes]

def ordinal (s : Slot) : Fin count :=
  ⟨s.ctorIdx, by cases s <;> decide⟩

def ofOrdinal? (n : Nat) : Option Slot :=
  all[n]?

/-- The member name under which a class defines the slot. -/
def name : Slot → String
  | .getAttribute => "__getattribute__"
  | .getAttr => "__getattr__"
  | .setAttr => "__setattr__"
  | .delAttr => "__delattr__"
  | .dict => "__dict__"
  | .get => "__get__"
  | .set => "__set__"
  | .delete => "__delete__"
  | .iter => "__iter__"
  | .next => "__next__"
  | .new => "__new__"
  | .init => "__init__"
  | .setName => "__set_name__"
  | .instanceCheck => "__instancecheck__"
  | .subclassCheck => "__subclasscheck__"
  | .call => "__call__"
  | .getItem => "__getitem__"
  | .setItem => "__setitem__"
  | .delItem => "__delitem__"
  | .exit => "__exit__"
  | .enter => "__enter__"
  | .len => "__len__"
  | .lengthHint => "__length_hint__"
  | .contains => "__contains__"
  | .bool => "__bool__"
  | .hash => "__hash__"
  | .index => "__index__"
  | .float => "__float__"
  | .int => "__int__"
  | .str => "__str__"
  | .repr => "__repr__"
  | .format => "__format__"
  | .missing => "__missing__"
  | .eq => "__eq__"
  | .ne => "__ne__"
  | .lt => "__lt__"
  | .le => "__le__"
  | .gt => "__gt__"
  | .ge => "__ge__"
  | .and => "__and__"
  | .rand => "__rand__"
  | .or => "__or__"
  | .ror => "__ror__"
  | .xor => "__xor__"
  | .rxor => "__rxor__"
  | .add => "__add__"
  | .radd => "__radd__"
  | .sub => "__sub__"
  | .rsub => "__rsub__"
  | .mul => "__mul__"
  | .rmul => "__rmul__"
  | .matMul => "__matmul__"
  | .rmatMul => "__rmatmul__"
  | .mod => "__mod__"
  | .rmod => "__rmod__"
  | .divMod => "__divmod__"
  | .rdivMod => "__rdivmod__"
  | .pow => "__pow__"
  | .rpow => "__rpow__"
  | .trueDiv => "__truediv__"
  | .rtrueDiv => "__rtruediv__"
  | .floorDiv => "__floordiv__"
  | .rfloorDiv => "__rfloordiv__"
  | .lshift => "__lshift__"
  | .rlshift => "__rlshift__"
  | .rshift => "__rshift__"
  | .rrshift => "__rrshift__"
  | .round => "__round__"
  | .iadd => "__iadd__"
  | .imul => "__imul__"
  | .reversed => "__reversed__"
  | .bytes => "__bytes__"

/-- Construction, naming and call hooks need the function object of their own context, so these
four slots are never described by a descriptor shared between contexts. -/
def allowsDescriptor : Slot → Bool
  | .new | .init | .setName | .call => false
  | _ => true

theorem getElem_ordinal (s : Slot) : all[s.ordinal]? = some s := by
  cases s <;> rfl

theorem mem_all (s : Slot) : s ∈ all :=
  List.mem_of_getElem? (getElem_ordinal s)

theorem ordinal_injective {s t : Slot} (h : s.ordinal = t.ordinal) : s = t := by
  have hs := getElem_ordinal s
  rw [h, getElem_ordinal t] at hs
  exact (Option.some.inj hs).symm

end Slot

end MethodCache
