import MethodCache.Shared.Descriptor

/-!
The call targets of a context: for each descriptor number, the context's own function object,
found at the first call and kept from then on.
-/
namespace MethodCache

/-- A context's function object for a descriptor, with the number of calls made through it. -/
structure CallTarget where
  function : BuiltinFunction
  invocations : Nat := 0
  deriving DecidableEq

def CallTarget.fresh (f : BuiltinFunction) : CallTarget := { function := f }

/-- Call targets by descriptor number; the list grows when a number beyond its end is resolved. -/
structure CallTargets where
  places : List (Option CallTarget) := []
  deriving DecidableEq

namespace CallTargets

def get? (t : CallTargets) (i : Nat) : Option CallTarget := t.places[i]?.join

def put (t : CallTargets) (i : Nat) (target : CallTarget) : CallTargets :=
  ⟨(t.places ++ List.replicate (i + 1 - t.places.length) none).set i (some target)⟩

/-- The target at a number, resolved now if it has not been before. A failure leaves no trace. -/
def getOrResolve (t : CallTargets) (i : Nat) (resolve : Option CallTarget) :
    Option CallTarget × CallTargets :=
  match t.get? i with
  | some target => (some target, t)
  | none =>
    match resolve with
    | none => (none, t)
    | some target => (some target, t.put i target)

def countCall (t : CallTargets) (i : Nat) : CallTargets :=
  match t.get? i with
  | some target => t.put i { target with invocations := target.invocations + 1 }
  | none => t

def resolved (t : CallTargets) : Nat := (t.places.filter Option.isSome).length

end CallTargets

end MethodCache
