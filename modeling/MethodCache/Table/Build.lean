import MethodCache.Graph.Basic

/-!
Making the table of a class. A class whose one base comes next on its linearization may extend
the base's table with its own members. Any class may instead start from the root's table and lay
the members of all its ancestors over it, root first, so that nearer definitions win. Neither way
reads the table the class had before.
-/
namespace MethodCache

/-- Lays the slot members of a class over a table. -/
def SlotTable.overlay (t : SlotTable) (c : ClassObject) : SlotTable :=
  c.members.slots.foldl (fun t e => t.set e.1 (some e.2)) t

inductive BuildRoute
  /-- The class has no linearization, so nothing is found. -/
  | degenerate
  /-- From the table of the one base. -/
  | extension
  /-- From the root through all ancestors. -/
  | ancestors
  deriving DecidableEq

def BuildRoute.text : BuildRoute → String
  | .degenerate => "degenerate"
  | .extension => "fast"
  | .ancestors => "general"

namespace ClassGraph

/-- The base's table with the members of the class laid over it, where the class has one base and
its linearization is the base's with the class in front. -/
def extendBase? (g : ClassGraph) (id : ClassId) (order : List ClassId) : Option SlotTable :=
  match g.class? id with
  | none => none
  | some c =>
    match c.bases with
    | [b] =>
      if order[1]? = some b then
        match g.table? b with
        | none => none
        | some t => if g.mro b = order.tail then some (t.overlay c) else none
      else none
    | _ => none

def rootTable (g : ClassGraph) (id root : ClassId) : SlotTable :=
  if root = id then .absent else (g.table? root).getD .absent

/-- Lays the members of registered classes over a table, last class of the list first. -/
def overlayAll (g : ClassGraph) (order : List ClassId) (t : SlotTable) : SlotTable :=
  order.foldr (fun a t => match g.class? a with
    | some c => t.overlay c
    | none => t) t

def build (g : ClassGraph) (id : ClassId) (mayExtend : Bool) : SlotTable × BuildRoute :=
  let order := g.mro id
  match order.getLast? with
  | none => (.absent, .degenerate)
  | some root =>
    match if mayExtend then g.extendBase? id order else none with
    | some t => (t, .extension)
    | none => (g.overlayAll order (g.rootTable id root), .ancestors)

structure Installed where
  route : BuildRoute
  previous : Option SlotTable
  current : SlotTable

def install? (g : ClassGraph) (id : ClassId) (mayExtend : Bool) :
    Option (Installed × ClassGraph) := do
  let c ← g.class? id
  let cell ← c.cell?
  let (t, route) := g.build id mayExtend
  return (⟨route, cell.table, t⟩, g.modify id (·.publish t))

def install (g : ClassGraph) (id : ClassId) (mayExtend : Bool) : ClassGraph :=
  ((g.install? id mayExtend).map (·.2)).getD g

end ClassGraph

end MethodCache
