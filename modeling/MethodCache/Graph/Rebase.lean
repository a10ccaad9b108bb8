import MethodCache.Graph.Descendants
import MethodCache.Graph.Linearization

/-!
Replacing the bases of a class. The class and everything below it are linearized anew, each class
after those of its bases that are also below, and the graph changes only when all of them have a
linearization.
-/
namespace MethodCache

/-- Linearization of the classes below a class, in progress. -/
structure Relinearization where
  pending : IndexMap (List ClassId)
  order : List ClassId
  /-- For each class below, how many of its bases below are still to come. -/
  waiting : IndexMap Nat
  ready : List ClassId

inductive RebaseError
  | linearization (e : LinearizationError)
  /-- The links are so inconsistent that classes keep becoming ready. -/
  | endless
  deriving DecidableEq

namespace ClassGraph

/-- The new order of a class if it has one already, else the order it had. -/
def orderIn? (g : ClassGraph) (pending : IndexMap (List ClassId)) (id : ClassId) :
    Option (List ClassId) :=
  (pending.get? id).or (g.mro? id)

/-- Counts one base as done for a class that waits for it. -/
def release (r : Relinearization) (sub : ClassId) : Relinearization :=
  match r.waiting.get? sub with
  | none => r
  | some n =>
    let r := { r with waiting := r.waiting.insert sub (n - 1) }
    if n - 1 = 0 then { r with ready := r.ready ++ [sub] } else r

def relinearizeNext (g : ClassGraph) (r : Relinearization) (id : ClassId) (rest : List ClassId) :
    Except LinearizationError Relinearization :=
  let r := { r with ready := rest }
  match g.class? id with
  | none => .ok r
  | some c =>
    match linearize id c.bases (g.orderIn? r.pending) with
    | .error e => .error e
    | .ok order =>
      let r := { r with pending := r.pending.insert id order, order := r.order ++ [id] }
      .ok ((g.subclasses id).foldl release r)

def relinearizeWithin (g : ClassGraph) : Nat → Relinearization → Except RebaseError Relinearization
  | turns, r =>
    match r.ready with
    | [] => .ok r
    | id :: rest =>
      match turns with
      | 0 => .error .endless
      | turns + 1 =>
        match g.relinearizeNext r id rest with
        | .error e => .error (.linearization e)
        | .ok r => g.relinearizeWithin turns r

/-- In a graph without cycles no path visits more classes than are linked, and no class has more
classes below it, so a walk that starts from one class and goes down every link takes at most
this many steps. -/
def pathBound (g : ClassGraph) : Nat :=
  Nat.pow (g.linked.length + 1) (g.linked.length + 1)

def startRelinearization (g : ClassGraph) (below : List ClassId) (id : ClassId)
    (order : List ClassId) : Relinearization :=
  let waiting := below.foldl
    (fun w d =>
      let bases := ((g.class? d).map ClassObject.bases).getD []
      w.insert d (bases.filter (below.contains ·)).length)
    IndexMap.empty
  { pending := IndexMap.empty.insert id order
    order := []
    waiting
    ready := below.filter fun d => waiting.get? d = some 0 }

/-- The new orders of a class and of everything below it. -/
def relinearize (g : ClassGraph) (id : ClassId) (bases : List ClassId) :
    Except RebaseError Relinearization :=
  let below := g.descendants id
  match bases.find? fun b => b = id || below.contains b with
  | some b => .error (.linearization (.cycle id b))
  | none =>
    match linearize id bases g.mro? with
    | .error e => .error (.linearization e)
    | .ok order =>
      let start := g.startRelinearization below id order
      g.relinearizeWithin (start.ready.length * g.pathBound) start

def storeOrders (g : ClassGraph) (orders : List (ClassId × List ClassId)) : ClassGraph :=
  orders.foldl (fun g e => g.modify e.1 fun c => { c with mro := e.2 }) g

/-- Replaces the bases of a class. The answer lists the classes below whose order changed, bases
before subclasses. -/
def rebase (g : ClassGraph) (id : ClassId) (bases : List ClassId) :
    Except RebaseError (List ClassId × ClassGraph) :=
  match g.class? id with
  | none => .error (.linearization (.unknownClass id))
  | some c =>
    match g.relinearize id bases with
    | .error e => .error e
    | .ok r =>
      let changed := r.order.eraseDups.filter fun d => r.pending.get? d ≠ g.mro? d
      let g := g.unlink id (effectiveBases id c.bases)
      let g := g.link id (effectiveBases id bases)
      let g := g.modify id fun c => { c with bases }
      .ok (changed, g.storeOrders r.pending.entries)

end ClassGraph

end MethodCache
