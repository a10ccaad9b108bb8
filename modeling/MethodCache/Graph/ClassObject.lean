import MethodCache.Graph.Members
import MethodCache.Table.Basic

/-!
Class objects. A managed class publishes a slot table; a foreign class is defined elsewhere, has
no table, and may refuse to have its members written.
-/
namespace MethodCache

structure ClassFlags where
  /-- The class is complete and its table is published. -/
  initialized : Bool := false
  builtin : Bool := false
  /-- Members and bases can no longer be changed. -/
  immutable : Bool := false
  deriving DecidableEq

namespace ClassFlags

def bits (f : ClassFlags) : Nat :=
  f.initialized.toNat + 2 * f.builtin.toNat + 4 * f.immutable.toNat

/-- The flags in a number; other bits mean nothing. -/
def ofBits (n : Nat) : ClassFlags :=
  ⟨n.testBit 0, n.testBit 1, n.testBit 2⟩

def union (f g : ClassFlags) : ClassFlags :=
  ⟨f.initialized || g.initialized, f.builtin || g.builtin, f.immutable || g.immutable⟩

end ClassFlags

/-- How a class keeps its members and its table. Of the classes that are defined elsewhere only the
kind is modelled that is given its members when it is made and keeps them itself, so that the names
it lists are exactly those it answers; classes that compute their members are not. -/
inductive ClassKind
  | managed (cell : TableCell)
  | foreign (readOnly : Bool)

/-- A class. An empty list of bases stands for the root alone. -/
structure ClassObject where
  name : String
  builtin? : Option BuiltinType := none
  bases : List ClassId
  /-- The class and its ancestors in the order in which members are looked up. -/
  mro : List ClassId
  flags : ClassFlags := {}
  kind : ClassKind := .managed {}
  members : Members := .empty

namespace ClassObject

def isForeign (c : ClassObject) : Bool :=
  match c.kind with
  | .foreign _ => true
  | .managed _ => false

def isImmutable (c : ClassObject) : Bool := c.flags.immutable

def cell? (c : ClassObject) : Option TableCell :=
  match c.kind with
  | .managed cell => some cell
  | .foreign _ => none

def table? (c : ClassObject) : Option SlotTable :=
  c.cell?.bind TableCell.table

/-- Publishes a table; a foreign class has no place for one. -/
def publish (c : ClassObject) (t : SlotTable) : ClassObject :=
  match c.kind with
  | .managed cell => { c with kind := .managed (cell.publish t) }
  | .foreign _ => c

def addFlags (c : ClassObject) (f : ClassFlags) : ClassObject :=
  { c with flags := c.flags.union f }

/-- Writes or removes a member, unless the class refuses. -/
def writeMember? (c : ClassObject) (name : String) (v : Option Value) : Option ClassObject :=
  match c.kind with
  | .foreign true => none
  | _ => some { c with members := c.members.write name v }

/-- The class of a built-in type, without members. -/
def ofBuiltin (t : BuiltinType) (mro : List ClassId) : ClassObject where
  name := t.name
  builtin? := some t
  bases := t.base?.toList.map BuiltinType.classId
  mro := mro
  flags := { builtin := true }

end ClassObject

end MethodCache
