import MethodCache.Graph.ClassObject
import MethodCache.Graph.IndexMap

/-!
The class graph: the registered classes, the links from each base to the classes directly below
it, and the classes under construction. Members are looked up along the linearization of a class;
ids on it that are no longer registered are passed over.
-/
namespace MethodCache

/-- The classes of one context. -/
structure ClassGraph where
  classes : IndexMap ClassObject := .empty
  /-- The direct subclasses of each base. -/
  links : IndexMap IndexSet := .empty
  /-- Ids are counted in thirty-two bits, so that after the last of them they begin at zero again,
  whether or not the first ones are still in use. -/
  idCounter : UInt32 := .ofNat ClassId.firstUser
  /-- Classes under construction, innermost first. -/
  constructing : List ClassId := []
  tracksConstruction : Bool

/-- Bases as the links see them: no bases means the root. -/
def effectiveBases (id : ClassId) (bases : List ClassId) : List ClassId :=
  if bases.isEmpty && id != ClassId.root then [ClassId.root] else bases

/-- A member found on the way along a linearization. -/
structure Found where
  value : Value
  definer : ClassId
  /-- The place of that class in the linearization. -/
  position : Nat

namespace ClassGraph

def class? (g : ClassGraph) (id : ClassId) : Option ClassObject := g.classes.get? id

def contains (g : ClassGraph) (id : ClassId) : Bool := g.classes.contains id

/-- The registered classes in ascending order. -/
def ids (g : ClassGraph) : List ClassId := g.classes.keys

/-- The linearization of a class; empty for an unknown one. -/
def mro (g : ClassGraph) (id : ClassId) : List ClassId :=
  ((g.class? id).map ClassObject.mro).getD []

def mro? (g : ClassGraph) (id : ClassId) : Option (List ClassId) :=
  (g.class? id).map ClassObject.mro

/-- The classes linked directly below a class, in ascending order. -/
def subclasses (g : ClassGraph) (id : ClassId) : List ClassId :=
  ((g.links.get? id).map IndexSet.toList).getD []

def table? (g : ClassGraph) (id : ClassId) : Option SlotTable :=
  (g.class? id).bind ClassObject.table?

def modify (g : ClassGraph) (id : ClassId) (f : ClassObject → ClassObject) : ClassGraph :=
  { g with classes := g.classes.modify id f }

def link (g : ClassGraph) (id : ClassId) (bases : List ClassId) : ClassGraph :=
  { g with links := bases.foldl (fun l b => l.insert b (((l.get? b).getD .empty).add id)) g.links }

def unlink (g : ClassGraph) (id : ClassId) (bases : List ClassId) : ClassGraph :=
  { g with links := bases.foldl (fun l b => l.modify b (·.erase id)) g.links }

def nextId (g : ClassGraph) : ClassId := g.idCounter.toNat

def allocate (g : ClassGraph) : ClassId × ClassGraph :=
  (g.nextId, { g with idCounter := g.idCounter + 1 })

def insert (g : ClassGraph) (id : ClassId) (c : ClassObject) : ClassGraph :=
  let g := g.link id (effectiveBases id c.bases)
  { g with classes := g.classes.insert id c }

/-- Removes a class with the links to and from it. Classes below it keep its id among their bases
and in their linearizations. -/
def remove (g : ClassGraph) (id : ClassId) : ClassGraph :=
  match g.class? id with
  | none => g
  | some c =>
    let g := g.unlink id (effectiveBases id c.bases)
    { g with classes := g.classes.erase id, links := g.links.erase id }

def beginConstruction (g : ClassGraph) (id : ClassId) : ClassGraph :=
  if g.tracksConstruction then { g with constructing := id :: g.constructing } else g

/-- Takes back the innermost record of a class. -/
def finishConstruction (g : ClassGraph) (id : ClassId) : ClassGraph :=
  if g.tracksConstruction then { g with constructing := g.constructing.erase id } else g

def isConstructing (g : ClassGraph) (id : ClassId) : Bool :=
  g.tracksConstruction && g.constructing.contains id

/-- The class may be under construction for all the graph knows. -/
def mayBeConstructing (g : ClassGraph) (id : ClassId) : Bool :=
  !g.tracksConstruction || g.isConstructing id

def ownMember (g : ClassGraph) (id : ClassId) (name : String) : Option Value :=
  (g.class? id).bind (·.members.get? name)

/-- The first member of a name along a list of classes, counted from a position. -/
def findFrom (g : ClassGraph) (name : String) : Nat → List ClassId → Option Found
  | _, [] => none
  | i, a :: rest =>
    match g.ownMember a name with
    | some v => some ⟨v, a, i⟩
    | none => g.findFrom name (i + 1) rest

/-- Looks a member up along the linearization of a class, without any table. -/
def lookup (g : ClassGraph) (id : ClassId) (name : String) : Option Found :=
  g.findFrom name 0 (g.mro id)

def resolve (g : ClassGraph) (id : ClassId) (s : Slot) : Option Value :=
  (g.lookup id s.name).map Found.value

/-- Every class that is linked below some class. -/
def linked (g : ClassGraph) : List ClassId :=
  (g.links.entries.flatMap fun e => e.2.toList).eraseDups

end ClassGraph

end MethodCache
