import MethodCache.Context.Check
import MethodCache.Context.Edit

/-!
Starting contexts. A host numbers its contexts and natives and holds the shared tables. Each
context makes its own classes for the built-in types, bases first; the first one also fills the
shared tables. Then the slots that depend on the context are installed and the classes frozen.
-/
namespace MethodCache

/-- What the contexts of one host have in common. -/
structure Host where
  /-- Contexts are counted from one and, like classes, in thirty-two bits. -/
  contextCounter : UInt32 := 1
  index : DescriptorIndex := {}
  shared : SharedTables := {}

namespace Context

def functionFor (c : Context) (n : Native) : Value :=
  .builtin { native := n, context := c.id }

def builtinClass (c : Context) (t : BuiltinType) : ClassObject :=
  { ClassObject.ofBuiltin t (t.ancestry.map BuiltinType.classId) with
    members := .ofList (t.installedSlots.map fun s => (s.name, c.functionFor ⟨t, s⟩)) }

def addBuiltin (c : Context) (t : BuiltinType) : Context :=
  c.register t.classId (c.builtinClass t)

/-- Installs the late slots of a built-in type and freezes its class. -/
def freezeBuiltin (c : Context) (t : BuiltinType) : Context :=
  let c := t.lateSlots.foldl
    (fun c s => (c.writeMember t.classId s.name (some (c.functionFor ⟨t, s⟩))).1) c
  { c with graph := c.graph.modify t.classId (·.addFlags { immutable := true }) }

/-- A context with its built-in classes, before the shared tables are filled. -/
def withBuiltins (id : ContextId) (config : Config) : Context :=
  BuiltinType.all.foldl addBuiltin (empty id config)

end Context

namespace Host

def nextContext (p : Host) : ContextId := p.contextCounter.toNat

/-- Uses up the number of a context that is never started. -/
def skipContext (p : Host) : Host := { p with contextCounter := p.contextCounter + 1 }

def start (p : Host) (config : Config) : Context × Host :=
  let c := Context.withBuiltins p.nextContext config
  let (shared, index) := p.shared.fill c.graph p.index
  let c := BuiltinType.all.foldl Context.freezeBuiltin c
  let c := if config.checksAtStart then (c.check shared).2 else c
  (c, { contextCounter := p.contextCounter + 1, index, shared })

def number (p : Host) (n : Native) : Host :=
  { p with index := (p.index.number n).2 }

end Host

end MethodCache
