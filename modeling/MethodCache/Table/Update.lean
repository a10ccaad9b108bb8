import MethodCache.Graph.Rebase
import MethodCache.Table.Build

/-!
Keeping tables right after a change. A written slot is looked up again for the class and, where
that changed its entry, for the classes directly below it, and so on; foreign classes have no
table and are passed through. After a change of bases the class's table is rebuilt and the slots
that differ are walked down in the same way, and classes below that cannot be reached by
extending one managed base are rebuilt as well.
-/
namespace MethodCache

structure UpdateReport where
  /-- The slot that was written; none for other names and for changes of bases. -/
  slot : Option Slot := none
  /-- The table held the written value already. -/
  earlyExit : Bool := false
  visited : Nat := 0
  /-- The classes with a changed entry, in the order they were visited. -/
  updated : List ClassId := []
  rebuilt : List ClassId := []
  deriving DecidableEq

def UpdateReport.changedAnything (r : UpdateReport) : Bool :=
  !r.updated.isEmpty || !r.rebuilt.isEmpty

/-- Why an update stops half way. -/
inductive UpdateFault
  /-- A slot was written on a complete class that has no table. -/
  | writeWithoutTable (className : String)
  /-- The walk came to a complete class that has no table. -/
  | visitWithoutTable (className : String)
  /-- Foreign classes lie below themselves, and the walk goes around. -/
  | endless
  deriving DecidableEq

def UpdateFault.message : UpdateFault → String
  | .writeWithoutTable n => s!"slot write on class {n} without a table"
  | .visitWithoutTable n => s!"propagation reached class {n} without a table"
  | .endless => "the walk does not end"

/-- An update in progress: the graph as changed so far and the report so far. -/
structure Update where
  graph : ClassGraph
  report : UpdateReport := {}

namespace Update

/-- The update after some work, and what stopped the work, if anything did. -/
abbrev Outcome := Update × Option UpdateFault

def forEach {α : Type} (work : α → Update → Outcome) : List α → Update → Outcome
  | [], u => (u, none)
  | a :: rest, u =>
    match work a u with
    | (u, none) => forEach work rest u
    | stopped => stopped

def visit (u : Update) : Update :=
  { u with report := { u.report with visited := u.report.visited + 1 } }

/-- Looks a slot of one class up again. The classes to go on with are given in the order in which
they wait, last one first. -/
def visitClass (s : Slot) (id : ClassId) (u : Update) :
    Update × Except UpdateFault (List ClassId) :=
  match u.graph.class? id with
  | none => (u, .ok [])
  | some c =>
    let u := u.visit
    let below := (u.graph.subclasses id).reverse
    match c.kind with
    | .foreign _ => (u, .ok below)
    | .managed cell =>
      if cell.isPublished then
        match cell.update? s (u.graph.resolve id s) with
        | none => (u, .ok [])
        | some cell =>
          ({ graph := u.graph.modify id fun c => { c with kind := .managed cell }
             report := { u.report with updated := u.report.updated ++ [id] } }, .ok below)
      else if u.graph.mayBeConstructing id then (u, .ok [])
      else (u, .error (.visitWithoutTable c.name))

def walkWithin (s : Slot) : Nat → List ClassId → Update → Outcome
  | _, [], u => (u, none)
  | 0, _ :: _, u => (u, some .endless)
  | steps + 1, id :: stack, u =>
    match visitClass s id u with
    | (u, .ok below) => walkWithin s steps (below ++ stack) u
    | (u, .error f) => (u, some f)

/-- The number of steps that a walk takes at most. Each class has its entry changed once and adds
fewer starting points than classes are linked, and from a starting point the foreign classes are
passed through along paths. -/
def walkBound (g : ClassGraph) (starts : Nat) : Nat :=
  (starts + g.linked.length * g.linked.length + 1) * g.pathBound

/-- Looks a slot up again for some classes, later ones first, and for the classes below each one
whose entry changed. -/
def propagate (s : Slot) (start : List ClassId) (u : Update) : Outcome :=
  walkWithin s (walkBound u.graph start.length) start.reverse u

/-- Rebuilds the table of a class and walks down each slot that changed. -/
def rebuild (id : ClassId) (u : Update) : Outcome :=
  let u := u.visit
  match u.graph.install? id false with
  | none => (u, none)
  | some (installed, g) =>
    let u : Update := ⟨g, { u.report with rebuilt := u.report.rebuilt ++ [id] }⟩
    match installed.previous with
    | none => (u, none)
    | some previous =>
      forEach (fun s u => propagate s (u.graph.subclasses id) u)
        (previous.diff installed.current) u

end Update

namespace ClassGraph

/-- Walking down changed slots alone does not keep this class right: it does not have exactly one
registered managed base. -/
def needsRebuild (g : ClassGraph) (id : ClassId) : Bool :=
  match g.class? id with
  | none => false
  | some c =>
    if c.isForeign then false
    else
      match c.bases with
      | [b] =>
        match g.class? b with
        | none => true
        | some c => c.isForeign
      | _ => true

def memberWritten (g : ClassGraph) (id : ClassId) (name : String) (v : Option Value) :
    Update.Outcome :=
  match Slot.ofName? name with
  | none => (⟨g, {}⟩, none)
  | some s =>
    let u : Update := ⟨g, { slot := some s }⟩
    match g.class? id with
    | none => (u, none)
    | some c =>
      match c.kind with
      | .foreign _ => u.visit.propagate s (g.subclasses id)
      | .managed cell =>
        match cell.entry s with
        | none =>
          if g.mayBeConstructing id then (u, none)
          else (u, some (.writeWithoutTable c.name))
        | some cached =>
          if cached = v then
            ({ u.visit with report := { u.visit.report with earlyExit := true } }, none)
          else u.propagate s [id]

/-- `memberWritten` for callers that do not record construction: no class is taken to be
complete, so a missing table is never a fault. -/
def memberWrittenUntracked (g : ClassGraph) (id : ClassId) (name : String) (v : Option Value) :
    Update.Outcome :=
  let (u, fault) := { g with tracksConstruction := false }.memberWritten id name v
  ({ u with graph := { u.graph with tracksConstruction := g.tracksConstruction } }, fault)

/-- What follows when the bases of a class were replaced; `changed` are the classes below whose
linearization changed, bases first. -/
def basesReplaced (g : ClassGraph) (id : ClassId) (changed : List ClassId) : Update.Outcome :=
  match Update.rebuild id ⟨g, {}⟩ with
  | (u, none) =>
    Update.forEach
      (fun d u => if u.graph.needsRebuild d then Update.rebuild d u else (u, none)) changed u
  | stopped => stopped

end ClassGraph

end MethodCache
