import Mathlib.Algebra.GroupWithZero.Nat
import Mathlib.Data.List.Perm.Subperm
import MethodCache.Proofs.Exactness

/-!
The walk of one slot down the links. A walk looks the slot up again for the classes it starts
with, and goes on below each foreign class and each class whose entry changed; the classes it
visits are told by the graph before the walk. Since every step trades a class for classes of
smaller height, a walk in a graph without cycles comes to its end within its number of steps.
-/
namespace MethodCache.ClassGraph

open Relation

/-- A class that hands a walk on to the classes below it: a foreign one, or a managed one whose
entry is not what looking the slot up finds. -/
def PassesOn (g : ClassGraph) (s : Slot) (a : ClassId) : Prop :=
  g.contains a = true ∧ (g.Managed a → g.cached a s ≠ g.resolve a s)

inductive Visited (g : ClassGraph) (s : Slot) (start : List ClassId) : ClassId → Prop
  | start {d : ClassId} (h : d ∈ start) : Visited g s start d
  | down {a d : ClassId} (ha : Visited g s start a) (hp : g.PassesOn s a) (hl : g.Link a d) :
      Visited g s start d

theorem Visited.mono {g : ClassGraph} {s : Slot} {start start' : List ClassId} {d : ClassId}
    (hd : g.Visited s start d) (hsub : start ⊆ start') : g.Visited s start' d := by
  induction hd with
  | start h => exact .start (hsub h)
  | down _ hp hl ih => exact ih.down hp hl

/-- Some entries were looked up again and nothing else changed. -/
structure Refreshed (g h : ClassGraph) (V : ClassId → Slot → Prop) : Prop where
  retabled : g.Retabled h
  published : ∀ d, (h.table? d).isSome = (g.table? d).isSome
  looked : ∀ d s, V d s → g.Managed d → h.cached d s = g.resolve d s
  kept : ∀ d s, ¬ V d s → h.cached d s = g.cached d s

namespace Refreshed

variable {g h k : ClassGraph} {V W : ClassId → Slot → Prop}

theorem refl (g : ClassGraph) : g.Refreshed g fun _ _ => False :=
  ⟨.refl g, fun _ => rfl, fun _ _ hV => absurd hV id, fun _ _ _ => rfl⟩

theorem congr (r : g.Refreshed h V) (hVW : ∀ d s, g.Managed d → (V d s ↔ W d s)) :
    g.Refreshed h W := by
  refine ⟨r.retabled, r.published, fun d s hW hm => r.looked d s ((hVW d s hm).mpr hW) hm, ?_⟩
  intro d s hW
  by_cases hm : g.Managed d
  · exact r.kept d s fun hV => hW ((hVW d s hm).mp hV)
  · have hm' : ¬ h.Managed d := fun hk => hm ((r.retabled.managed_iff d).mp hk)
    rw [cached_of_not_managed hm, cached_of_not_managed hm']

theorem trans (r : g.Refreshed h V) (r' : h.Refreshed k W) :
    g.Refreshed k fun d s => V d s ∨ W d s := by
  refine ⟨r.retabled.trans r'.retabled, fun d => (r'.published d).trans (r.published d), ?_, ?_⟩
  · intro d s hd hm
    by_cases hW : W d s
    · rw [r'.looked d s hW ((r.retabled.managed_iff d).mpr hm), r.retabled.resolve]
    · rw [r'.kept d s hW, r.looked d s (hd.resolve_right hW) hm]
  · intro d s hn
    rw [r'.kept d s fun hW => hn (Or.inr hW), r.kept d s fun hV => hn (Or.inl hV)]

theorem publishedAll (r : g.Refreshed h V) (hpub : g.Published) : h.Published := by
  intro d hd
  rw [r.published]
  exact hpub d ((r.retabled.managed_iff d).mp hd)

theorem kept_or_looked (r : g.Refreshed h V) {d : ClassId} (hm : g.Managed d) (s : Slot) :
    h.cached d s = g.cached d s ∨ h.cached d s = g.resolve d s := by
  by_cases hV : V d s
  · exact Or.inr (r.looked d s hV hm)
  · exact Or.inl (r.kept d s hV)

theorem stays (r : g.Refreshed h V) {d : ClassId} {s : Slot} (hm : g.Managed d)
    (hd : g.cached d s = g.resolve d s) : h.cached d s = g.resolve d s := by
  rcases r.kept_or_looked hm s with hkept | hlooked
  · rw [hkept, hd]
  · exact hlooked

theorem looked_of_ne (r : g.Refreshed h V) {d : ClassId} {s : Slot}
    (hne : h.cached d s ≠ g.cached d s) : g.Managed d ∧ h.cached d s = g.resolve d s := by
  have hm : g.Managed d := by
    by_contra hm
    have hm' : ¬ h.Managed d := fun hk => hm ((r.retabled.managed_iff d).mp hk)
    exact hne (by rw [cached_of_not_managed hm, cached_of_not_managed hm'])
  exact ⟨hm, (r.kept_or_looked hm s).resolve_left hne⟩

theorem passesOn (r : g.Refreshed h V) {a : ClassId} {s : Slot} (hreg : g.contains a = true)
    (hne : h.cached a s ≠ g.cached a s) : V a s ∧ g.PassesOn s a := by
  have hV : V a s := by
    by_contra hV
    exact hne (r.kept a s hV)
  refine ⟨hV, hreg, ?_⟩
  intro hm hfresh
  rw [r.looked a s hV hm, hfresh] at hne
  exact hne rfl

end Refreshed

theorem visited_congr {g h : ClassGraph} {s : Slot} {start : List ClassId} {d : ClassId}
    (r : g.Retabled h) (hcached : ∀ a, h.cached a s = g.cached a s)
    (hd : g.Visited s start d) : h.Visited s start d := by
  induction hd with
  | start hmem => exact .start hmem
  | @down a d _ hp hl ih =>
    apply ih.down
    · unfold PassesOn
      rw [r.contains, r.managed_iff, r.resolve, hcached]
      exact hp
    · rw [r.link_eq]
      exact hl

end MethodCache.ClassGraph

namespace MethodCache.Update

open ClassGraph

section Visit

variable {s : Slot} {id : ClassId} {u : Update}

theorem visitClass_of_none (hc : u.graph.class? id = none) :
    visitClass s id u = (u, .ok []) := by
  simp only [visitClass, hc]

theorem visitClass_of_foreign {c : ClassObject} {ro : Bool} (hc : u.graph.class? id = some c)
    (hk : c.kind = .foreign ro) :
    visitClass s id u = (u.visit, .ok (u.graph.subclasses id).reverse) := by
  simp only [visitClass, hc, hk]
  rfl

variable {c : ClassObject} {cell : TableCell} {t : SlotTable}

theorem visitClass_of_fresh (hc : u.graph.class? id = some c) (hk : c.kind = .managed cell)
    (ht : cell.table = some t) (h : t.get s = u.graph.resolve id s) :
    visitClass s id u = (u.visit, .ok []) := by
  have hpub : cell.isPublished = true := by simp [TableCell.isPublished, ht]
  have hupdate : cell.update? s (u.visit.graph.resolve id s) = none := by
    show cell.update? s (u.graph.resolve id s) = none
    simp [TableCell.update?, ht, h]
  simp only [visitClass, hc, hk, hpub, if_true, hupdate]

theorem visitClass_of_stale (hc : u.graph.class? id = some c) (hk : c.kind = .managed cell)
    (ht : cell.table = some t) (h : t.get s ≠ u.graph.resolve id s) :
    visitClass s id u =
      (⟨u.graph.modify id fun c =>
          { c with kind := .managed ⟨some (t.set s (u.graph.resolve id s))⟩ },
        { u.visit.report with updated := u.report.updated ++ [id] }⟩,
        .ok (u.graph.subclasses id).reverse) := by
  have hpub : cell.isPublished = true := by simp [TableCell.isPublished, ht]
  have hupdate : cell.update? s (u.visit.graph.resolve id s) =
      some ⟨some (t.set s (u.graph.resolve id s))⟩ := by
    show cell.update? s (u.graph.resolve id s) = _
    simp [TableCell.update?, ht, h]
  simp only [visitClass, hc, hk, hpub, if_true, hupdate]
  rfl

theorem refreshed_of_stale {g : ClassGraph} (hc : g.class? id = some c)
    (hk : c.kind = .managed cell) (ht : cell.table = some t) :
    g.Refreshed (g.modify id fun c =>
      { c with kind := .managed ⟨some (t.set s (g.resolve id s))⟩ })
      fun d v => v = s ∧ d = id := by
  have hold : g.table? id = some t := by
    rw [table?_of_class? hc]
    simp [ClassObject.table?, ClassObject.cell?, hk, ht]
  have htable : ∀ d, (g.modify id fun c =>
      { c with kind := .managed ⟨some (t.set s (g.resolve id s))⟩ }).table? d =
        if id = d then some (t.set s (g.resolve id s)) else g.table? d := by
    intro d
    rw [table?_modify]
    split
    · next hd =>
      rw [← hd, hc]
      rfl
    · rfl
  refine ⟨?_, ?_, ?_, ?_⟩
  · apply Retabled.modify
    intro e he
    obtain rfl : c = e := Option.some.inj (hc.symm.trans he)
    exact c.untabled_setCell cell _ hk
  · intro d
    rw [htable]
    split
    · next hd =>
      rw [← hd, hold]
      rfl
    · rfl
  · rintro d v ⟨rfl, rfl⟩ -
    rw [cached, htable, if_pos rfl, Option.bind_some, SlotArray.get_set, if_pos rfl]
  · intro d v hn
    rw [cached, cached, htable]
    split
    · next hd =>
      have hvs : s ≠ v := fun hv => hn ⟨hv.symm, hd.symm⟩
      rw [← hd, hold, Option.bind_some, Option.bind_some, SlotArray.get_set, if_neg hvs]
    · rfl

/-- What one step leaves: the graph with one entry looked up again, and the classes to go on
with. -/
theorem visitClass_ok (s : Slot) (id : ClassId) (hpub : u.graph.Published) :
    ∃ u' below, visitClass s id u = (u', .ok below) ∧
      u.graph.Refreshed u'.graph (fun d v => v = s ∧ d = id) ∧
      (below = [] ∨ below = (u.graph.subclasses id).reverse) ∧
      ∀ d, d ∈ below ↔ u.graph.PassesOn s id ∧ u.graph.Link id d := by
  cases hc : u.graph.class? id with
  | none =>
    have hnot : u.graph.contains id ≠ true := by
      rw [Ne, contains_iff]
      simp [hc]
    refine ⟨u, [], visitClass_of_none hc, (Refreshed.refl _).congr ?_, Or.inl rfl, ?_⟩
    · intro d v hm
      refine iff_of_false not_false ?_
      rintro ⟨-, rfl⟩
      exact hnot hm.contains
    · intro d
      simp [PassesOn, hnot]
  | some c =>
    have hreg := contains_of_class? hc
    cases hk : c.kind with
    | foreign ro =>
      have hnot := not_managed_of_kind hc hk
      refine ⟨u.visit, _, visitClass_of_foreign hc hk, (Refreshed.refl _).congr ?_, Or.inr rfl,
        ?_⟩
      · intro d v hm
        refine iff_of_false not_false ?_
        rintro ⟨-, rfl⟩
        exact hnot hm
      · intro d
        simp [PassesOn, hreg, hnot, Link]
    | managed cell =>
      have hm := managed_of_kind hc hk
      obtain ⟨t, ht, hcell⟩ := hpub.table_of_kind hc hk
      have hcached : u.graph.cached id s = t.get s := by
        rw [cached, ht]
        rfl
      by_cases hfresh : t.get s = u.graph.resolve id s
      · refine ⟨u.visit, [], visitClass_of_fresh hc hk hcell hfresh,
          ⟨.refl _, fun _ => rfl, ?_, fun _ _ _ => rfl⟩, Or.inl rfl, ?_⟩
        · rintro d v ⟨rfl, rfl⟩ -
          exact hcached.trans hfresh
        · intro d
          simp [PassesOn, hm, hcached, hfresh]
      · refine ⟨_, _, visitClass_of_stale hc hk hcell hfresh, refreshed_of_stale hc hk hcell,
          Or.inr rfl, ?_⟩
        intro d
        simp [PassesOn, hreg, hcached, hfresh, Link]

end Visit

/-- Taking the first class of a stack changes only whom later steps find stale. -/
theorem visited_cons {g h : ClassGraph} {s : Slot} {id d : ClassId} {stack below : List ClassId}
    (r : g.Refreshed h fun d v => v = s ∧ d = id)
    (hbelow : ∀ d, d ∈ below ↔ g.PassesOn s id ∧ g.Link id d) :
    g.Visited s (id :: stack) d ↔ d = id ∨ h.Visited s (below ++ stack) d := by
  have hpasses : ∀ a, a ≠ id → (h.PassesOn s a ↔ g.PassesOn s a) := by
    intro a ha
    unfold PassesOn
    rw [r.retabled.contains, r.retabled.managed_iff, r.retabled.resolve,
      r.kept a s fun h => ha h.2]
  have hself : h.PassesOn s id → g.PassesOn s id := by
    rintro ⟨hreg, hstale⟩
    refine ⟨(r.retabled.contains id).symm.trans hreg, ?_⟩
    intro hm
    have hlooked := r.looked id s ⟨rfl, rfl⟩ hm
    rw [← r.retabled.resolve] at hlooked
    exact absurd hlooked (hstale ((r.retabled.managed_iff id).mpr hm))
  constructor
  · intro hv
    induction hv with
    | start hd =>
      rcases List.mem_cons.mp hd with hd | hd
      · exact Or.inl hd
      · exact Or.inr (.start (List.mem_append_right below hd))
    | @down a d _ hp hl ih =>
      right
      by_cases ha : a = id
      · subst ha
        exact .start (List.mem_append_left stack ((hbelow d).mpr ⟨hp, hl⟩))
      · have hl' : h.Link a d := r.retabled.link_eq ▸ hl
        exact (ih.resolve_left ha).down ((hpasses a ha).mpr hp) hl'
  · rintro (rfl | hv)
    · exact .start List.mem_cons_self
    · induction hv with
      | start hd =>
        rcases List.mem_append.mp hd with hd | hd
        · obtain ⟨hp, hl⟩ := (hbelow _).mp hd
          exact .down (.start List.mem_cons_self) hp hl
        · exact .start (List.mem_cons_of_mem id hd)
      | @down a d _ hp hl ih =>
        have hl' : g.Link a d := r.retabled.link_eq ▸ hl
        by_cases ha : a = id
        · subst ha
          exact ih.down (hself hp) hl'
        · exact ih.down ((hpasses a ha).mp hp) hl'

/-! The number of steps. -/

/-- What is left to do for a stack: each class counts for more than all classes below it. -/
noncomputable def weight (g : ClassGraph) (stack : List ClassId) : ℕ :=
  (stack.map fun a => (g.linked.length + 1) ^ g.height a).sum

theorem weight_append (g : ClassGraph) (l₁ l₂ : List ClassId) :
    weight g (l₁ ++ l₂) = weight g l₁ + weight g l₂ := by
  simp [weight]

theorem weight_cons (g : ClassGraph) (id : ClassId) (stack : List ClassId) :
    weight g (id :: stack) = (g.linked.length + 1) ^ g.height id + weight g stack := by
  simp [weight]

theorem weight_reverse (g : ClassGraph) (l : List ClassId) : weight g l.reverse = weight g l := by
  simp [weight]

theorem weight_le {g : ClassGraph} {n : ℕ} {l : List ClassId} (h : ∀ a ∈ l, g.height a ≤ n) :
    weight g l ≤ l.length * (g.linked.length + 1) ^ n := by
  induction l with
  | nil => simp [weight]
  | cons a rest ih =>
    have ha : (g.linked.length + 1) ^ g.height a ≤ (g.linked.length + 1) ^ n :=
      Nat.pow_le_pow_right (Nat.succ_pos _) (h a List.mem_cons_self)
    have hrest := ih fun b hb => h b (List.mem_cons_of_mem a hb)
    rw [weight_cons, List.length_cons, Nat.succ_mul]
    omega

theorem weight_subclasses_lt {g : ClassGraph} (hac : g.Acyclic) (id : ClassId) :
    weight g (g.subclasses id) < (g.linked.length + 1) ^ g.height id := by
  have hcount : (g.subclasses id).length ≤ g.linked.length := by
    have hsub : g.subclasses id ⊆ g.linked := fun d hd => mem_linked_of_link hd
    exact (List.subperm_of_subset (g.subclasses_nodup id) hsub).length_le
  cases hh : g.height id with
  | zero =>
    have hnone : g.subclasses id = [] := by
      apply List.eq_nil_iff_forall_not_mem.mpr
      intro d hd
      have hlt := height_lt_of_link hac hd
      omega
    simp [weight, hnone]
  | succ n =>
    have hle : weight g (g.subclasses id) ≤
        (g.subclasses id).length * (g.linked.length + 1) ^ n := by
      apply weight_le
      intro d hd
      have hlt := height_lt_of_link hac (show g.Link id d from hd)
      omega
    calc weight g (g.subclasses id)
        ≤ (g.subclasses id).length * (g.linked.length + 1) ^ n := hle
      _ ≤ g.linked.length * (g.linked.length + 1) ^ n := Nat.mul_le_mul_right _ hcount
      _ < (g.linked.length + 1) * (g.linked.length + 1) ^ n :=
          Nat.mul_lt_mul_of_pos_right (Nat.lt_succ_self _) (Nat.pow_pos (Nat.succ_pos _))
      _ = (g.linked.length + 1) ^ (n + 1) := (Nat.pow_succ').symm

theorem weight_le_walkBound (g : ClassGraph) (start : List ClassId) :
    weight g start ≤ walkBound g start.length := by
  calc weight g start
      ≤ start.length * (g.linked.length + 1) ^ g.linked.length :=
        weight_le fun a _ => g.height_le a
    _ ≤ start.length * g.pathBound :=
        Nat.mul_le_mul_left _ (Nat.pow_le_pow_right (Nat.succ_pos _) (Nat.le_succ _))
    _ ≤ walkBound g start.length := Nat.mul_le_mul_right _ (by omega)

theorem weight_of_retabled {g h : ClassGraph} (r : g.Retabled h) (stack : List ClassId) :
    weight h stack = weight g stack := by
  unfold weight height
  rw [r.linked, r.link_eq]

/-- A walk with enough steps ends well and looks the slot up again for the classes it visits. -/
theorem walkWithin_ok {s : Slot} {steps : ℕ} {stack : List ClassId} {u : Update}
    (hpub : u.graph.Published) (hac : u.graph.Acyclic) (hsteps : weight u.graph stack ≤ steps) :
    ∃ u', walkWithin s steps stack u = (u', none) ∧
      u.graph.Refreshed u'.graph fun d v => v = s ∧ u.graph.Visited s stack d := by
  have hend : ∀ (steps : ℕ) (v : Update), walkWithin s steps [] v = (v, none) ∧
      v.graph.Refreshed v.graph fun d w => w = s ∧ v.graph.Visited s [] d := by
    intro steps v
    have hnone : ∀ d, ¬ v.graph.Visited s [] d := by
      intro d hd
      induction hd with
      | start h => simp at h
      | down _ _ _ ih => exact ih
    refine ⟨by cases steps <;> rfl, (Refreshed.refl _).congr fun d w _ => ?_⟩
    exact iff_of_false not_false fun h => hnone d h.2
  induction steps generalizing stack u with
  | zero =>
    cases stack with
    | nil => exact ⟨u, hend 0 u⟩
    | cons id stack =>
      have hpos : 0 < (u.graph.linked.length + 1) ^ u.graph.height id :=
        Nat.pow_pos (Nat.succ_pos _)
      rw [weight_cons] at hsteps
      omega
  | succ steps ih =>
    cases stack with
    | nil => exact ⟨u, hend (steps + 1) u⟩
    | cons id stack =>
      obtain ⟨u₁, below, hvisit, r, hlist, hbelow⟩ := visitClass_ok s id hpub
      have hless : weight u.graph below < (u.graph.linked.length + 1) ^ u.graph.height id := by
        rcases hlist with rfl | rfl
        · exact Nat.pow_pos (Nat.succ_pos _)
        · rw [weight_reverse]
          exact weight_subclasses_lt hac id
      have hrest : weight u₁.graph (below ++ stack) ≤ steps := by
        rw [weight_of_retabled r.retabled, weight_append]
        rw [weight_cons] at hsteps
        omega
      obtain ⟨u₂, hwalk, r₂⟩ := ih (r.publishedAll hpub) (hac.congr r.retabled.links) hrest
      refine ⟨u₂, ?_, ?_⟩
      · rw [walkWithin, hvisit]
        exact hwalk
      · apply (r.trans r₂).congr
        intro d v _
        rw [visited_cons r hbelow]
        tauto

theorem propagate_ok (s : Slot) (start : List ClassId) {u : Update}
    (hpub : u.graph.Published) (hac : u.graph.Acyclic) :
    ∃ u', propagate s start u = (u', none) ∧
      u.graph.Refreshed u'.graph fun d v => v = s ∧ u.graph.Visited s start d := by
  have hsteps : weight u.graph start.reverse ≤ walkBound u.graph start.length := by
    rw [weight_reverse]
    exact weight_le_walkBound u.graph start
  obtain ⟨u', hwalk, r⟩ := walkWithin_ok hpub hac hsteps
  refine ⟨u', hwalk, r.congr fun d v _ => and_congr_right fun _ => ⟨?_, ?_⟩⟩
  · exact fun hd => hd.mono (List.reverse_subset.mpr (List.Subset.refl start))
  · exact fun hd => hd.mono (List.subset_reverse.mpr (List.Subset.refl start))

end MethodCache.Update
