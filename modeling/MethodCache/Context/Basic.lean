import MethodCache.Context.CallTargets
import MethodCache.Context.Config
import MethodCache.Context.Counters

/-!
A context: an isolated class graph with its settings, call targets and counters.
-/
namespace MethodCache

structure Context where
  id : ContextId
  config : Config
  graph : ClassGraph
  targets : CallTargets := {}
  reads : ReadCounts := {}
  updates : UpdateCounts := {}

namespace Context

def empty (id : ContextId) (config : Config) : Context where
  id
  config
  graph := { tracksConstruction := config.tracksConstruction }

def text (c : Context) : String :=
  "Context \x7b id: ContextId(" ++ toString c.id ++ "), config: " ++ c.config.text ++
    ", classes: " ++ toString c.graph.ids.length ++ " \x7d"

/-- Registers a class, publishes its table and marks it complete; in between it is recorded as
under construction. -/
def register (c : Context) (id : ClassId) (cls : ClassObject) : Context :=
  let g := (c.graph.beginConstruction id).insert id cls
  let g := g.install id c.config.extendsBase
  let g := g.modify id (·.addFlags { initialized := true })
  { c with graph := g.finishConstruction id }

/-- Sets all counters of reads and updates back to zero, except for calls. -/
def resetCounters (c : Context) : Context :=
  { c with reads := {}, updates := {} }

end Context

end MethodCache
