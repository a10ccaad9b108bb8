import MethodCache.Graph.Basic
import MethodCache.Shared.Descriptor

/-!
The tables that all contexts share, one for each built-in type. They are made once, from the
class graph of the first context, and hold only what is the same in every context: descriptors of
context-free natives, and plain values. All else is left open and answered by the context itself.
-/
namespace MethodCache

inductive SharedEntry
  /-- The context's own table answers. -/
  | unknown
  /-- The same plain value in every context. -/
  | constant (v : Value)
  | descriptor (d : Descriptor)
  deriving DecidableEq

structure SharedTable where
  type : BuiltinType
  entries : SlotArray SharedEntry

namespace SharedTable

def descriptorCount (t : SharedTable) : Nat :=
  (Slot.all.filter fun s => match t.entries.get s with
    | .descriptor _ => true
    | _ => false).length

def text (t : SharedTable) : String :=
  "SharedTable \x7b builtin: " ++ t.type.label ++ ", descriptors: " ++
    toString t.descriptorCount ++ " \x7d"

end SharedTable

namespace ClassGraph

/-- The built-in type that defines a slot of another one; the type itself where no built-in class
does. -/
def slotOwner (g : ClassGraph) (t : BuiltinType) (s : Slot) : BuiltinType :=
  ((g.lookup t.classId s.name).bind fun f => BuiltinType.ofClassId? f.definer).getD t

/-- What contexts may share about the value of a slot of a built-in type. -/
def classify (g : ClassGraph) (x : DescriptorIndex) (t : BuiltinType) (s : Slot)
    (v : Option Value) : SharedEntry × DescriptorIndex :=
  if t.redefines s then (.unknown, x)
  else
    match v with
    | none => (.unknown, x)
    | some (.builtin f) =>
      if s.allowsDescriptor && f.native.contextFree then
        let (i, x) := x.number f.native
        (.descriptor ⟨s, f.native, i, g.slotOwner t s⟩, x)
      else (.unknown, x)
    | some v => (if v.isContextFree then .constant v else .unknown, x)

def classifySlots (g : ClassGraph) (t : BuiltinType) (own : SlotTable) :
    List Slot → SlotArray SharedEntry × DescriptorIndex → SlotArray SharedEntry × DescriptorIndex
  | [], r => r
  | s :: rest, (entries, x) =>
    let (e, x) := g.classify x t s (own.get s)
    g.classifySlots t own rest (entries.set s e, x)

def shareTable (g : ClassGraph) (x : DescriptorIndex) (t : BuiltinType) :
    SharedTable × DescriptorIndex :=
  let own := (g.table? t.classId).getD .absent
  let (entries, x) := g.classifySlots t own Slot.all (.fill .unknown, x)
  (⟨t, entries⟩, x)

def shareTables (g : ClassGraph) : List BuiltinType → DescriptorIndex →
    List SharedTable × DescriptorIndex
  | [], x => ([], x)
  | t :: rest, x =>
    let (table, x) := g.shareTable x t
    let (tables, x) := g.shareTables rest x
    (table :: tables, x)

end ClassGraph

/-- A holder of shared tables, filled at most once. -/
structure SharedTables where
  tables : Option (List SharedTable) := none

namespace SharedTables

def isFilled (h : SharedTables) : Bool := h.tables.isSome

def get? (h : SharedTables) (t : BuiltinType) : Option SharedTable :=
  h.tables.bind (·.find? (·.type = t))

/-- The entry of a slot of a built-in type; open as long as the holder is empty. -/
def entry (h : SharedTables) (t : BuiltinType) (s : Slot) : SharedEntry :=
  ((h.get? t).map (·.entries.get s)).getD .unknown

def fill (h : SharedTables) (g : ClassGraph) (x : DescriptorIndex) :
    SharedTables × DescriptorIndex :=
  if h.isFilled then (h, x)
  else
    let (tables, x) := g.shareTables BuiltinType.all x
    (⟨some tables⟩, x)

end SharedTables

end MethodCache
