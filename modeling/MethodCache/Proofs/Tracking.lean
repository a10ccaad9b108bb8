import MethodCache.Proofs.Reporting

/-!
What the list of updated classes says about one slot. A walk lists a class when it replaces the
entry of the class, and an entry that was replaced is right and is not replaced again. So the list
holds the classes whose entry is another one than before, and each of them once.
-/
namespace MethodCache.Update

open ClassGraph

/-- One update goes on to another, and the classes that it lists in between are those whose entry
of the slot changed, each listed once. -/
structure Tracked (s : Slot) (u v : Update) : Prop where
  refreshed : ∃ V, u.graph.Refreshed v.graph V
  listed : ∃ moved, v.report.updated = u.report.updated ++ moved ∧ moved.Nodup ∧
    ∀ d, d ∈ moved ↔ v.graph.cached d s ≠ u.graph.cached d s

namespace Tracked

variable {s : Slot} {u v w : Update}

theorem of_same (hgraph : v.graph = u.graph) (hupdated : v.report.updated = u.report.updated) :
    Tracked s u v := by
  refine ⟨?_, [], ?_, List.nodup_nil, ?_⟩
  · rw [hgraph]
    exact ⟨_, Refreshed.refl u.graph⟩
  · rw [hupdated, List.append_nil]
  · intro d
    simp [hgraph]

theorem refl (u : Update) : Tracked s u u := of_same rfl rfl

/-- What one part of the work changed, a later part leaves alone. -/
theorem settled (r : Tracked s u v) (r' : Tracked s v w) {d : ClassId}
    (hne : v.graph.cached d s ≠ u.graph.cached d s) :
    w.graph.cached d s = v.graph.cached d s := by
  obtain ⟨V, hV⟩ := r.refreshed
  obtain ⟨W, hW⟩ := r'.refreshed
  obtain ⟨hm, hright⟩ := hV.looked_of_ne hne
  rw [← hV.retabled.resolve] at hright
  rw [hW.stays ((hV.retabled.managed_iff d).mpr hm) hright, hright]

theorem trans (r : Tracked s u v) (r' : Tracked s v w) : Tracked s u w := by
  have hsettled : ∀ d, v.graph.cached d s ≠ u.graph.cached d s →
      w.graph.cached d s = v.graph.cached d s := fun _ => r.settled r'
  obtain ⟨V, hV⟩ := r.refreshed
  obtain ⟨W, hW⟩ := r'.refreshed
  obtain ⟨first, hfirst, hnd, hmem⟩ := r.listed
  obtain ⟨later, hlater, hnd', hmem'⟩ := r'.listed
  refine ⟨⟨_, hV.trans hW⟩, first ++ later, ?_, ?_, ?_⟩
  · rw [hlater, hfirst, List.append_assoc]
  · refine List.nodup_append'.mpr ⟨hnd, hnd', ?_⟩
    intro d hd hd'
    exact (hmem' d).mp hd' (hsettled d ((hmem d).mp hd))
  · intro d
    rw [List.mem_append, hmem, hmem']
    -- an entry changes in one of the two parts only, so it cannot change back
    by_cases hmoved : v.graph.cached d s = u.graph.cached d s
    · simp [hmoved]
    · simp [hmoved, hsettled d hmoved]

end Tracked

section Walk

variable {s : Slot} {u : Update}

theorem visitClass_tracked (s : Slot) (id : ClassId) (hpub : u.graph.Published) :
    ∃ v below, visitClass s id u = (v, .ok below) ∧ Tracked s u v := by
  obtain ⟨v, below, hvisit, -, -, hcases⟩ := visitClass_cases s id hpub
  rcases hcases with ⟨hgraph, hupdated⟩ | ⟨⟨hm, hstale⟩, hupdated, r, -⟩
  · exact ⟨v, below, hvisit, .of_same hgraph hupdated⟩
  · refine ⟨v, below, hvisit, ⟨_, r⟩, [id], hupdated, List.nodup_singleton id, ?_⟩
    intro d
    rw [List.mem_singleton]
    constructor
    · rintro rfl
      rw [r.looked d s ⟨rfl, rfl⟩ hm]
      exact Ne.symm hstale
    · intro hne
      by_contra hd
      exact hne (r.kept d s fun h => hd h.2)

theorem walkWithin_tracked {steps : ℕ} {stack : List ClassId} (hpub : u.graph.Published) :
    Tracked s u (walkWithin s steps stack u).1 := by
  induction steps generalizing stack u with
  | zero => cases stack <;> exact .refl u
  | succ steps ih =>
    cases stack with
    | nil => exact .refl u
    | cons id stack =>
      obtain ⟨v, below, hvisit, r⟩ := visitClass_tracked s id hpub
      obtain ⟨V, hV⟩ := r.refreshed
      rw [walkWithin, hvisit]
      exact r.trans (ih (hV.publishedAll hpub))

theorem propagate_tracked (start : List ClassId) (hpub : u.graph.Published) :
    Tracked s u (propagate s start u).1 := walkWithin_tracked hpub

end Walk

end MethodCache.Update

namespace MethodCache.ClassGraph

open Update

/-- What follows a write lists the classes whose entry of the slot it changes. -/
theorem memberWritten_tracked {g : ClassGraph} (id : ClassId) (s : Slot) (v : Option Value)
    (hpub : g.Published) : Tracked s ⟨g, {}⟩ (g.memberWritten id s.name v).1 := by
  obtain ⟨u, rfl, hupdated, -, hsame | ⟨start, -, hwalk⟩⟩ := g.memberWritten_walk id s v
  · rw [hsame]
    exact .of_same rfl hupdated
  · have hbegin : Tracked s ⟨u.graph, {}⟩ u := .of_same rfl hupdated
    rw [hwalk]
    exact hbegin.trans (propagate_tracked start hpub)

end MethodCache.ClassGraph
