import MethodCache.Graph.Basic

/-!
The classes below a class, found breadth first along the links and listed once each. The links
may form any graph, cycles included.
-/
namespace MethodCache.ClassGraph

def linkCount (g : ClassGraph) (ids : List ClassId) : Nat :=
  (ids.flatMap g.subclasses).length

theorem linkCount_erase_add (g : ClassGraph) {i : ClassId} {ids : List ClassId} (h : i ∈ ids) :
    g.linkCount (ids.erase i) + (g.subclasses i).length = g.linkCount ids := by
  induction ids with
  | nil => cases h
  | cons j js ih =>
    by_cases hj : j = i
    · subst hj; simp [linkCount]; omega
    · rw [List.erase_cons_tail (by simpa using hj)]
      have := ih ((List.mem_cons.1 h).resolve_left (Ne.symm hj))
      simp only [linkCount, List.flatMap_cons, List.length_append] at this ⊢
      omega

/-- Takes classes from a queue, lists those not listed before, and queues what is below them. -/
def explore (g : ClassGraph) (unseen : List ClassId) : List ClassId → List ClassId
  | [] => []
  | next :: queue =>
    if _ : next ∈ unseen then
      next :: g.explore (unseen.erase next) (queue ++ g.subclasses next)
    else g.explore unseen queue
termination_by queue => g.linkCount unseen + queue.length
decreasing_by
  · have := g.linkCount_erase_add ‹next ∈ unseen›
    simp only [List.length_append, List.length_cons]
    omega
  · simp

/-- All classes below a class, nearest first, without the class itself. -/
def descendants (g : ClassGraph) (id : ClassId) : List ClassId :=
  g.explore (g.linked.filter (· ≠ id)) (g.subclasses id)

end MethodCache.ClassGraph
