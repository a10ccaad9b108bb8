import MethodCache.Proofs.Building
import MethodCache.Proofs.Links

/-!
When tables are right. A registered managed class is to publish a table, and the table is to hold
at each slot what looking the slot up finds. Publishing a table changes the entries of one class
and nothing that lookups see.
-/
namespace MethodCache.ClassGraph

/-- The class is registered and has a table of its own to publish. -/
def Managed (g : ClassGraph) (d : ClassId) : Prop :=
  ∃ c, g.class? d = some c ∧ c.isForeign = false

/-- Every managed class has published a table. -/
def Published (g : ClassGraph) : Prop := ∀ d, g.Managed d → (g.table? d).isSome = true

/-- The entry of the published table; no value without a table. -/
def cached (g : ClassGraph) (d : ClassId) (s : Slot) : Option Value :=
  (g.table? d).bind (·.get s)

/-- Every managed class has published a table that holds what lookups find. -/
def Exact (g : ClassGraph) : Prop :=
  ∀ d, g.Managed d → ∃ t, g.table? d = some t ∧ g.Agrees d t

theorem exact_iff {g : ClassGraph} :
    g.Exact ↔ g.Published ∧ ∀ d, g.Managed d → ∀ s, g.cached d s = g.resolve d s := by
  constructor
  · intro h
    refine ⟨?_, ?_⟩
    · intro d hd
      obtain ⟨t, ht, -⟩ := h d hd
      rw [ht]
      rfl
    · intro d hd s
      obtain ⟨t, ht, hagrees⟩ := h d hd
      rw [cached, ht]
      exact hagrees s
  · rintro ⟨hpub, hcached⟩ d hd
    obtain ⟨t, ht⟩ := Option.isSome_iff_exists.mp (hpub d hd)
    refine ⟨t, ht, ?_⟩
    intro s
    rw [← hcached d hd s, cached, ht]
    rfl

/-- Every published table holds what lookups find. -/
def TablesRight (g : ClassGraph) : Prop := ∀ d t, g.table? d = some t → g.Agrees d t

theorem table?_of_class? {g : ClassGraph} {d : ClassId} {c : ClassObject}
    (h : g.class? d = some c) : g.table? d = c.table? := by
  simp [table?, h]

theorem managed_congr {g h : ClassGraph} {d : ClassId}
    (hkind : (h.class? d).map ClassObject.isForeign = (g.class? d).map ClassObject.isForeign) :
    h.Managed d ↔ g.Managed d := by
  have hiff : ∀ k : ClassGraph, k.Managed d ↔
      (k.class? d).map ClassObject.isForeign = some false := by
    intro k
    exact Option.map_eq_some_iff.symm
  rw [hiff, hiff, hkind]

theorem Managed.contains {g : ClassGraph} {d : ClassId} (h : g.Managed d) :
    g.contains d = true := by
  obtain ⟨c, hc, -⟩ := h
  exact contains_of_class? hc

theorem managed_of_table? {g : ClassGraph} {d : ClassId} {t : SlotTable}
    (h : g.table? d = some t) : g.Managed d := by
  obtain ⟨c, hc, ht⟩ := Option.bind_eq_some_iff.mp h
  exact ⟨c, hc, ClassObject.isForeign_eq_false_of_table? ht⟩

theorem Exact.tablesRight {g : ClassGraph} (h : g.Exact) : g.TablesRight := by
  intro d t ht
  obtain ⟨u, hu, hagrees⟩ := h d (managed_of_table? ht)
  obtain rfl : u = t := Option.some.inj (hu.symm.trans ht)
  exact hagrees

/-- Where every managed class has published a table, right tables are all there is to it. -/
theorem TablesRight.exact {g : ClassGraph} (hright : g.TablesRight) (hpub : g.Published) :
    g.Exact := by
  intro d hd
  obtain ⟨t, ht⟩ := Option.isSome_iff_exists.mp (hpub d hd)
  exact ⟨t, ht, hright d t ht⟩

theorem not_tablesRight_of_stale {g : ClassGraph} {d : ClassId} {s : Slot}
    (h : (g.cached d s).any (fun v => g.resolve d s ≠ some v) = true) : ¬ g.TablesRight := by
  intro hright
  cases hc : g.cached d s with
  | none => simp [hc] at h
  | some v =>
    obtain ⟨t, ht, hget⟩ := Option.bind_eq_some_iff.mp hc
    rw [hright d t ht s] at hget
    simp [hc, hget] at h

theorem cached_of_not_managed {g : ClassGraph} {d : ClassId} (h : ¬ g.Managed d) (s : Slot) :
    g.cached d s = none := by
  cases ht : g.table? d with
  | none => rw [cached, ht, Option.bind_none]
  | some t => exact absurd (managed_of_table? ht) h

theorem managed_of_kind {g : ClassGraph} {d : ClassId} {c : ClassObject} {cell : TableCell}
    (hc : g.class? d = some c) (hk : c.kind = .managed cell) : g.Managed d :=
  ⟨c, hc, ClassObject.isForeign_eq_false_iff.mpr ⟨cell, hk⟩⟩

theorem Published.table_of_kind {g : ClassGraph} (hpub : g.Published) {d : ClassId}
    {c : ClassObject} {cell : TableCell} (hc : g.class? d = some c) (hk : c.kind = .managed cell) :
    ∃ t, g.table? d = some t ∧ cell.table = some t := by
  obtain ⟨t, ht⟩ := Option.isSome_iff_exists.mp (hpub d (managed_of_kind hc hk))
  refine ⟨t, ht, ?_⟩
  rw [table?_of_class? hc] at ht
  simpa [ClassObject.table?, ClassObject.cell?, hk] using ht

theorem not_managed_of_kind {g : ClassGraph} {d : ClassId} {c : ClassObject} {ro : Bool}
    (hc : g.class? d = some c) (hk : c.kind = .foreign ro) : ¬ g.Managed d := by
  rintro ⟨c', hc', hf⟩
  obtain rfl : c = c' := Option.some.inj (hc.symm.trans hc')
  simp [ClassObject.isForeign, hk] at hf

namespace Retabled

variable {g h : ClassGraph}

theorem managed_iff (r : g.Retabled h) (d : ClassId) : h.Managed d ↔ g.Managed d :=
  managed_congr (r.map_class? _ ClassObject.untabled_isForeign d)

theorem link_eq (r : g.Retabled h) : h.Link = g.Link := link_congr r.links

theorem agrees_iff (r : g.Retabled h) (d : ClassId) (t : SlotTable) :
    h.Agrees d t ↔ g.Agrees d t := by
  unfold Agrees
  exact forall_congr' fun s => by rw [r.resolve]

end Retabled

theorem table?_modify (g : ClassGraph) (id d : ClassId) (f : ClassObject → ClassObject) :
    (g.modify id f).table? d =
      if id = d then (g.class? d).bind fun c => (f c).table? else g.table? d := by
  unfold table?
  rw [class?_modify]
  split
  · cases g.class? d <;> rfl
  · rfl

theorem table?_publish {g : ClassGraph} {id : ClassId} (h : g.Managed id) (t : SlotTable)
    (d : ClassId) :
    (g.modify id (·.publish t)).table? d = if id = d then some t else g.table? d := by
  rw [table?_modify]
  split
  · next hd =>
    subst hd
    obtain ⟨c, hc, hf⟩ := h
    obtain ⟨cell, hk⟩ := ClassObject.isForeign_eq_false_iff.mp hf
    simp [hc, ClassObject.publish, hk, ClassObject.table?, ClassObject.cell?, TableCell.publish]
  · rfl

theorem retabled_publish (g : ClassGraph) (id : ClassId) (t : SlotTable) :
    g.Retabled (g.modify id (·.publish t)) :=
  Retabled.modify g id _ fun c _ => c.untabled_publish t

end MethodCache.ClassGraph
