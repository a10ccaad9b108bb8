import MethodCache.Table.Update

/-!
What a context counts: how its reads were answered, and what its updates did.
-/
namespace MethodCache

structure ReadCounts where
  shared : Nat := 0
  own : Nat := 0
  /-- By looking the member up. -/
  walked : Nat := 0
  deriving DecidableEq

/-- The share of reads that a table answered; zero when there were none. -/
def ReadCounts.hitRate (r : ReadCounts) : Binary64 :=
  let answered := r.shared + r.own
  let total := answered + r.walked
  if total = 0 then ⟨0⟩
  else Binary64.div (.ofInt64 (.ofNat answered)) (.ofInt64 (.ofNat total))

structure UpdateCounts where
  memberWrites : Nat := 0
  earlyExits : Nat := 0
  classesVisited : Nat := 0
  entriesUpdated : Nat := 0
  baseChanges : Nat := 0
  tablesRebuilt : Nat := 0
  deriving DecidableEq

namespace UpdateCounts

def addWork (n : UpdateCounts) (r : UpdateReport) : UpdateCounts :=
  { n with
    classesVisited := n.classesVisited + r.visited
    entriesUpdated := n.entriesUpdated + r.updated.length
    tablesRebuilt := n.tablesRebuilt + r.rebuilt.length }

/-- Counts the write of a member; names that denote no slot do not count. -/
def addWrite (n : UpdateCounts) (r : UpdateReport) : UpdateCounts :=
  if r.slot.isSome then
    { n with
      memberWrites := n.memberWrites + 1
      earlyExits := n.earlyExits + r.earlyExit.toNat }.addWork r
  else n

def addBaseChange (n : UpdateCounts) (r : UpdateReport) : UpdateCounts :=
  { n with baseChanges := n.baseChanges + 1 }.addWork r

end UpdateCounts

end MethodCache
