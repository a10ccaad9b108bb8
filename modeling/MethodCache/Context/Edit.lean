import MethodCache.Context.Basic

/-!
Changing the classes of a context. Every operation answers with the context as it leaves it; one
that is refused leaves all classes, tables and counters alone. Built-in classes refuse every
change once the context has started.
-/
namespace MethodCache

/-- Why a change of a class is refused. -/
inductive ClassError
  | unknownClass (id : ClassId)
  | linearization (e : LinearizationError)
  | immutable (className : String)
  | missingMember (className name : String)
  | readOnly (className : String)
  deriving DecidableEq

def ClassError.message : ClassError → String
  | .unknownClass id => s!"unknown class {id.text}"
  | .linearization e => s!"MRO error: {e.message}"
  | .immutable n => s!"cannot set attributes of built-in/extension type '{n}'"
  | .missingMember c n => s!"type object '{c}' has no attribute '{n}'"
  | .readOnly n => s!"namespace of foreign class '{n}' is read-only"

def ClassError.ofLinearization : LinearizationError → ClassError
  | .unknownClass id => .unknownClass id
  | e => .linearization e

/-- Why an operation has no answer. -/
inductive EditFailure
  | refused (e : ClassError)
  /-- The operation stopped half way. -/
  | stopped (f : UpdateFault)
  deriving DecidableEq

namespace Context

/-- The context an operation leaves, and its answer. -/
abbrev Answer (α : Type) := Context × Except EditFailure α

def refuse {α : Type} (c : Context) (e : ClassError) : Answer α := (c, .error (.refused e))

def adopt (c : Context) : Update.Outcome → Answer UpdateReport
  | (u, none) => ({ c with graph := u.graph }, .ok u.report)
  | (u, some f) => ({ c with graph := u.graph }, .error (.stopped f))

/-- Defines a class of the given kind under a fresh id. -/
def defineWith (c : Context) (name : String) (bases : List ClassId)
    (members : List (String × Value)) (add : Context → ClassId → ClassObject → Context)
    (kind : ClassKind) : Answer ClassId :=
  let (id, g) := c.graph.allocate
  let c := { c with graph := g }
  match linearize id bases c.graph.mro? with
  | .error e => c.refuse (.ofLinearization e)
  | .ok mro => (add c id { name, bases, mro, kind, members := .ofList members }, .ok id)

def define (c : Context) (name : String) (bases : List ClassId)
    (members : List (String × Value)) : Answer ClassId :=
  c.defineWith name bases members register (.managed {})

def defineForeign (c : Context) (name : String) (bases : List ClassId)
    (members : List (String × Value)) (readOnly : Bool) : Answer ClassId :=
  c.defineWith name bases members
    (fun c id cls =>
      { c with graph := c.graph.insert id (cls.addFlags { initialized := true }) })
    (.foreign readOnly)

/-- The class to be changed, or why it cannot be. -/
def editable (c : Context) (id : ClassId) : Except ClassError ClassObject :=
  match c.graph.class? id with
  | none => .error (.unknownClass id)
  | some cls => if cls.isImmutable then .error (.immutable cls.name) else .ok cls

def unregister (c : Context) (id : ClassId) : Answer ClassObject :=
  match c.editable id with
  | .error e => c.refuse e
  | .ok cls => ({ c with graph := c.graph.remove id }, .ok cls)

/-- Writes a member, or removes it when there is no value, and brings tables up to date. -/
def writeMember (c : Context) (id : ClassId) (name : String) (v : Option Value) :
    Answer UpdateReport :=
  match c.graph.class? id with
  | none => c.refuse (.unknownClass id)
  | some cls =>
    match cls.writeMember? name v with
    | none => c.refuse (.readOnly cls.name)
    | some written =>
      -- only the member that was there before the write tells that there was nothing to remove
      let c := { c with graph := c.graph.modify id fun _ => written }
      if v = none ∧ cls.members.get? name = none then c.refuse (.missingMember cls.name name)
      else c.adopt (c.graph.memberWritten id name v)

def countWrite : Answer UpdateReport → Answer UpdateReport
  | (c, .ok r) => ({ c with updates := c.updates.addWrite r }, .ok r)
  | failed => failed

def setMember (c : Context) (id : ClassId) (name : String) (v : Value) : Answer UpdateReport :=
  match c.editable id with
  | .error e => c.refuse e
  | .ok _ => countWrite (c.writeMember id name (some v))

def deleteMember (c : Context) (id : ClassId) (name : String) : Answer UpdateReport :=
  match c.editable id with
  | .error e => c.refuse e
  | .ok _ => countWrite (c.writeMember id name none)

def setBases (c : Context) (id : ClassId) (bases : List ClassId) : Answer UpdateReport :=
  match c.editable id with
  | .error e => c.refuse e
  | .ok _ =>
    match c.graph.rebase id bases with
    | .error (.linearization e) => c.refuse (.ofLinearization e)
    | .error .endless => (c, .error (.stopped .endless))
    | .ok (changed, g) =>
      match c.adopt (g.basesReplaced id changed) with
      | (c, .ok r) => ({ c with updates := c.updates.addBaseChange r }, .ok r)
      | failed => failed

end Context

end MethodCache
