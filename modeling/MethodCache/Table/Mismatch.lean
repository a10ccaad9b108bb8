import MethodCache.Table.Build

/-!
Checking published tables against looking members up without them.
-/
namespace MethodCache

inductive Tier
  | shared
  | own
  deriving DecidableEq

def Tier.text : Tier → String
  | .shared => "Shared"
  | .own => "Class"

/-- A cached slot that is not what looking it up finds. -/
structure Mismatch where
  id : ClassId
  className : String
  slot : Slot
  expected : Option Value
  actual : Option Value
  tier : Tier

def Value.optionText : Option Value → String
  | none => "None"
  | some v => s!"Some({v.text})"

def Mismatch.message (m : Mismatch) : String :=
  let expected := Value.optionText m.expected
  let actual := Value.optionText m.actual
  s!"{m.tier.text} slot {m.slot.name} of {m.className} ({m.id.text}): " ++
    s!"expected {expected}, cached {actual}"

namespace ClassGraph

def classMismatches (g : ClassGraph) (id : ClassId) : List Mismatch :=
  match g.class? id with
  | none => []
  | some c =>
    match c.table? with
    | none => []
    | some t =>
      Slot.all.filterMap fun s =>
        let expected := g.resolve id s
        if expected = t.get s then none
        else some ⟨id, c.name, s, expected, t.get s, .own⟩

def mismatches (g : ClassGraph) (ids : List ClassId) : List Mismatch :=
  ids.flatMap g.classMismatches

end ClassGraph

end MethodCache
