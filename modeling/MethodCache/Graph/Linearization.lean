import MethodCache.Value.BuiltinType

/-!
The order in which a class and its ancestors are searched. The orders of the bases and the list
of bases itself are merged: the next class is the first head that stands in no tail. The result
keeps the order of each of these lists, and there is no result exactly when no order does.
-/
namespace MethodCache

inductive LinearizationError
  | inconsistent (id : ClassId) (bases : List ClassId)
  | duplicateBase (id base : ClassId)
  | unknownBase (id base : ClassId)
  | unknownClass (id : ClassId)
  | cycle (id base : ClassId)
  deriving DecidableEq

def LinearizationError.message : LinearizationError → String
  | .inconsistent id bases =>
    let listed := ", ".intercalate (bases.map fun b => s!"ClassId({b})")
    s!"cannot create a consistent method resolution order for {id.text} with bases [{listed}]"
  | .duplicateBase id base => s!"duplicate base class {base.text} for {id.text}"
  | .unknownBase id base => s!"base class {base.text} of {id.text} is not registered"
  | .unknownClass id => s!"class {id.text} is not registered"
  | .cycle id base =>
    s!"a class cannot inherit from its own subclass ({id.text} -> {base.text})"

namespace Linearization

/-- The first head that stands in no tail. -/
def nextHead? (lists : List (List ClassId)) : Option ClassId :=
  (lists.filterMap List.head?).find? fun c => lists.all fun l => !l.tail.contains c

/-- Takes a class away from the lists that begin with it. -/
def dropHead (c : ClassId) (lists : List (List ClassId)) : List (List ClassId) :=
  lists.map fun l => if l.head? = some c then l.tail else l

def remaining (lists : List (List ClassId)) : Nat := lists.flatten.length

theorem remaining_dropHead_le (c : ClassId) (lists : List (List ClassId)) :
    remaining (dropHead c lists) ≤ remaining lists := by
  induction lists with
  | nil => simp [remaining, dropHead]
  | cons l ls ih =>
    have hl : (if l.head? = some c then l.tail else l).length ≤ l.length := by
      split <;> simp
    simp only [remaining, dropHead, List.map_cons, List.flatten_cons, List.length_append] at ih ⊢
    omega

theorem remaining_dropHead_lt {c : ClassId} {lists : List (List ClassId)}
    (h : nextHead? lists = some c) : remaining (dropHead c lists) < remaining lists := by
  obtain ⟨l, hl, hc⟩ := List.mem_filterMap.1 (List.mem_of_find?_eq_some h)
  obtain ⟨before, after, rfl⟩ := List.append_of_mem hl
  have hlen : (if l.head? = some c then l.tail else l).length < l.length := by
    cases l with
    | nil => simp at hc
    | cons a as => simp_all
  have hb := remaining_dropHead_le c before
  have ha := remaining_dropHead_le c after
  simp only [remaining, dropHead, List.map_append, List.map_cons, List.flatten_append,
    List.flatten_cons, List.length_append] at hb ha ⊢
  omega

def merge (lists : List (List ClassId)) : Option (List ClassId) :=
  if lists.all List.isEmpty then some []
  else
    match _ : nextHead? lists with
    | none => none
    | some c => (merge (dropHead c lists)).map (c :: ·)
termination_by remaining lists
decreasing_by exact remaining_dropHead_lt (by assumption)

/-- The first base that is the class itself or stands in the list a second time. -/
def misplacedBase? (id : ClassId) : List ClassId → List ClassId → Option LinearizationError
  | _, [] => none
  | before, b :: rest =>
    if b = id then some (.cycle id b)
    else if b ∈ before then some (.duplicateBase id b)
    else misplacedBase? id (b :: before) rest

/-- The order of one base; it must be known and free of the class itself. -/
def baseOrder (id : ClassId) (order? : ClassId → Option (List ClassId)) (base : ClassId) :
    Except LinearizationError (List ClassId) :=
  match order? base with
  | none => .error (.unknownBase id base)
  | some o => if id ∈ o then .error (.cycle id base) else .ok o

def baseOrders (id : ClassId) (order? : ClassId → Option (List ClassId)) :
    List ClassId → Except LinearizationError (List (List ClassId))
  | [] => .ok []
  | b :: rest =>
    match baseOrder id order? b with
    | .error e => .error e
    | .ok o => (baseOrders id order? rest).map (o :: ·)

end Linearization

open Linearization in
/-- The linearization of a class with given bases. The root stands alone, and a class without
bases is followed by the root. -/
def linearize (id : ClassId) (bases : List ClassId) (order? : ClassId → Option (List ClassId)) :
    Except LinearizationError (List ClassId) :=
  if id = ClassId.root then .ok [id]
  else if bases.isEmpty then .ok [id, ClassId.root]
  else
    match misplacedBase? id [] bases with
    | some e => .error e
    | none =>
      match baseOrders id order? bases with
      | .error e => .error e
      | .ok orders =>
        match merge (orders ++ [bases]) with
        | some tail => .ok (id :: tail)
        | none => .error (.inconsistent id bases)

end MethodCache
