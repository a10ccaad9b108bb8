import MethodCache.Context.Basic
import MethodCache.Shared.Table

/-!
Reading slots. A built-in class asks the shared tables first; then the class's own table answers,
also when it says that there is nothing; only a class without a table is looked up. A descriptor
that a read returns is called through the context's own function object.
-/
namespace MethodCache

inductive SlotRead
  | descriptor (d : Descriptor)
  | value (v : Value)
  | absent

namespace SlotRead

def ofValue? : Option Value → SlotRead
  | some v => .value v
  | none => .absent

def isAbsent : SlotRead → Bool
  | .absent => true
  | _ => false

def same : SlotRead → SlotRead → Bool
  | .descriptor d, .descriptor e => d.same e
  | .value v, .value w => v.same w
  | .absent, .absent => true
  | _, _ => false

end SlotRead

/-- The value of a slot without the shared tables: from the class's own table, or looked up. -/
def ClassGraph.slotValue (g : ClassGraph) (id : ClassId) (s : Slot) : Option Value :=
  match (g.class? id).bind ClassObject.cell? with
  | none => g.resolve id s
  | some cell =>
    match cell.entry s with
    | some v => v
    | none => g.resolve id s

namespace Context

def sharedEntry (c : Context) (h : SharedTables) (cls : ClassObject) (s : Slot) : SharedEntry :=
  if c.config.sharedTier then
    match cls.builtin? with
    | some t => h.entry t s
    | none => .unknown
  else .unknown

/-- Reads a slot of a class; an unknown class has none, and the read does not count. -/
def read (c : Context) (h : SharedTables) (id : ClassId) (s : Slot) : SlotRead × Context :=
  match c.graph.class? id with
  | none => (.absent, c)
  | some cls =>
    match c.sharedEntry h cls s with
    | .descriptor d => (.descriptor d, { c with reads.shared := c.reads.shared + 1 })
    | .constant v => (.value v, { c with reads.shared := c.reads.shared + 1 })
    | .unknown =>
      match cls.cell?.bind (·.entry s) with
      | some v => (.ofValue? v, { c with reads.own := c.reads.own + 1 })
      | none => (.ofValue? (c.graph.resolve id s), { c with reads.walked := c.reads.walked + 1 })

/-- The function object that the owner of a descriptor holds for it in this context. -/
def ownFunction (c : Context) (d : Descriptor) : Option BuiltinFunction :=
  match c.graph.ownMember d.owner.classId d.slot.name with
  | some (.builtin f) => if d.describes f then some f else none
  | _ => none

def callTarget (c : Context) (d : Descriptor) : Option CallTarget × Context :=
  let (target, targets) := c.targets.getOrResolve d.index ((c.ownFunction d).map .fresh)
  (target, { c with targets })

/-- The value that a read stands for in this context. -/
def materialize (c : Context) : SlotRead → Option Value × Context
  | .descriptor d =>
    let (target, c) := c.callTarget d
    (target.map fun t => .builtin t.function, c)
  | .value v => (some v, c)
  | .absent => (none, c)

/-- Calls a descriptor through its call target. There is no answer when the target cannot be
resolved; a call counts also when the native method fails. -/
def invoke [Hashing] (c : Context) (d : Descriptor) (args : List Value) :
    Option (Except NativeFault Value) × Context :=
  match c.callTarget d with
  | (none, c) => (none, c)
  | (some target, c) =>
    (some (target.function.call args), { c with targets := c.targets.countCall d.index })

end Context

end MethodCache
