import MethodCache.Proofs.Linearize

/-!
When a class has a linearization. What stands behind the class must hold the bases and the classes
of their orders, each once, and keep the list of bases and all of these orders. The merge finds
such a list whenever there is one: as long as one list keeps all that is left to merge, the first
of its classes that is still to come is a free head; and whichever free head is taken, the list
without it keeps what is left then.
-/
namespace MethodCache

namespace Linearization

/-- If one list keeps the others and something is left of them, some head stands in no tail. -/
theorem exists_free_head {lists : List (List ClassId)} {t : List ClassId} (hnd : t.Nodup)
    (hkept : ∀ l ∈ lists, l.Sublist t) (hleft : ∃ l ∈ lists, l ≠ []) :
    ∃ c, (∃ l ∈ lists, l.head? = some c) ∧ ∀ l ∈ lists, c ∉ l.tail := by
  induction t with
  | nil =>
    obtain ⟨l, hl, hne⟩ := hleft
    exact absurd (List.sublist_nil.mp (hkept l hl)) hne
  | cons a rest ih =>
    obtain ⟨ha, hrest⟩ := List.nodup_cons.mp hnd
    by_cases hhead : ∃ l ∈ lists, l.head? = some a
    · refine ⟨a, hhead, ?_⟩
      intro l hl hmem
      exact ha ((hkept l hl).tail.subset hmem)
    · -- a list that does not begin with the first class does not hold it at all
      apply ih hrest
      intro l hl
      rcases List.sublist_cons_iff.mp (hkept l hl) with hsub | ⟨k, rfl, -⟩
      · exact hsub
      · exact absurd ⟨_, hl, List.head?_cons⟩ hhead

/-- Once a free head is taken, the list without it keeps the others. -/
theorem sublist_erase_of_mem_dropHead {lists : List (List ClassId)} {t : List ClassId}
    {c : ClassId} (hc : nextHead? lists = some c) (hkept : ∀ l ∈ lists, l.Sublist t) :
    ∀ k ∈ dropHead c lists, k.Sublist (t.erase c) := by
  intro k hk
  have hgone := not_mem_dropHead hc k hk
  obtain ⟨l, hl, hkl⟩ := List.mem_map.mp hk
  have hsub : k.Sublist l := by
    rw [← hkl]
    split
    · exact List.tail_sublist l
    · exact List.Sublist.refl l
  have herase := (hsub.trans (hkept l hl)).erase c
  rwa [List.erase_of_not_mem hgone] at herase

theorem exists_merge {lists : List (List ClassId)} {t : List ClassId} (hnd : t.Nodup)
    (hkept : ∀ l ∈ lists, l.Sublist t) : ∃ u, merge lists = some u := by
  fun_induction merge lists generalizing t with
  | case1 lists hempty => exact ⟨[], rfl⟩
  | case2 lists hempty hnone =>
    have hleft : ∃ l ∈ lists, l ≠ [] := by simpa using hempty
    obtain ⟨c, hhead, hfree⟩ := exists_free_head hnd hkept hleft
    have hnot := List.find?_eq_none.mp hnone c (List.mem_filterMap.mpr hhead)
    exact absurd (List.all_eq_true.mpr fun l hl => by simpa using hfree l hl) hnot
  | case3 lists hempty c hc ih =>
    obtain ⟨u, hu⟩ := ih (hnd.erase c) (sublist_erase_of_mem_dropHead hc hkept)
    exact ⟨c :: u, by rw [hu, Option.map_some]⟩

/-- What may stand behind a class with these bases: the bases and the classes of their orders,
each once, in an order that keeps all of these lists. -/
structure Fits (bases : List ClassId) (order? : ClassId → Option (List ClassId))
    (t : List ClassId) : Prop where
  nodup : t.Nodup
  mem_iff : ∀ a, a ∈ t ↔ a ∈ bases ∨ ∃ b ∈ bases, ∃ o, order? b = some o ∧ a ∈ o
  bases_kept : bases.Sublist t
  orders_kept : ∀ b ∈ bases, ∃ o, order? b = some o ∧ o.Sublist t

section

variable {id : ClassId} {bases : List ClassId} {order? : ClassId → Option (List ClassId)}
  {orders : List (List ClassId)} {t : List ClassId}

theorem fits_of_merge
    (horders : List.Forall₂ (fun b o => order? b = some o ∧ id ∉ o) bases orders)
    (ht : merge (orders ++ [bases]) = some t) : Fits bases order? t := by
  have hkept := sublist_of_merge ht
  refine ⟨nodup_of_merge ht, ?_, hkept bases (by simp), ?_⟩
  · intro a
    rw [mem_merge ht]
    constructor
    · rintro ⟨l, hl, ha⟩
      rcases List.mem_append.mp hl with hl | hl
      · obtain ⟨b, hb, ho, -⟩ := exists_base_of_mem horders hl
        exact Or.inr ⟨b, hb, l, ho, ha⟩
      · exact Or.inl (List.mem_singleton.mp hl ▸ ha)
    · rintro (ha | ⟨b, hb, o, ho, ha⟩)
      · exact ⟨bases, by simp, ha⟩
      · obtain ⟨o', hmem, ho', -⟩ := exists_order_of_mem horders hb
        obtain rfl : o = o' := Option.some.inj (ho.symm.trans ho')
        exact ⟨o, List.mem_append_left [bases] hmem, ha⟩
  · intro b hb
    obtain ⟨o, hmem, ho, -⟩ := exists_order_of_mem horders hb
    exact ⟨o, ho, hkept o (List.mem_append_left [bases] hmem)⟩

theorem exists_merge_of_fits
    (horders : List.Forall₂ (fun b o => order? b = some o ∧ id ∉ o) bases orders)
    (h : Fits bases order? t) : ∃ u, merge (orders ++ [bases]) = some u := by
  apply exists_merge h.nodup
  intro l hl
  rcases List.mem_append.mp hl with hl | hl
  · obtain ⟨b, hb, ho, -⟩ := exists_base_of_mem horders hl
    obtain ⟨o, ho', hsub⟩ := h.orders_kept b hb
    rwa [Option.some.inj (ho.symm.trans ho')]
  · exact List.mem_singleton.mp hl ▸ h.bases_kept

end

end Linearization

open Linearization

section

variable {id : ClassId} {bases : List ClassId} {order? : ClassId → Option (List ClassId)}

theorem fits_of_linearize (hid : id ≠ ClassId.root) (hbases : bases ≠ []) {m : List ClassId}
    (h : linearize id bases order? = .ok m) : ∃ t, m = id :: t ∧ Fits bases order? t := by
  rcases linearize_cases h with ⟨hroot, -⟩ | ⟨-, hnil, -⟩ |
    ⟨-, -, -, -, orders, tail, horders, htail, rfl⟩
  · exact absurd hroot hid
  · exact absurd hnil hbases
  · exact ⟨tail, rfl, fits_of_merge horders htail⟩

theorem linearize_of_known (hid : id ≠ ClassId.root) (hbases : bases ≠ []) (hnd : bases.Nodup)
    (hself : id ∉ bases) (hknown : ∀ b ∈ bases, ∃ o, order? b = some o ∧ id ∉ o) :
    ∃ orders, List.Forall₂ (fun b o => order? b = some o ∧ id ∉ o) bases orders ∧
      (∀ t, merge (orders ++ [bases]) = some t → linearize id bases order? = .ok (id :: t)) ∧
      (merge (orders ++ [bases]) = none →
        linearize id bases order? = .error (.inconsistent id bases)) := by
  obtain ⟨orders, horders⟩ := exists_baseOrders hknown
  have hplaced : misplacedBase? id [] bases = none :=
    misplacedBase?_eq_none.mpr ⟨hself, hnd, by simp⟩
  have hnil : ¬ bases.isEmpty = true := by simpa using hbases
  refine ⟨orders, baseOrders_eq_ok horders, ?_, ?_⟩
  · intro t ht
    simp only [linearize, if_neg hid, if_neg hnil, hplaced, horders, ht]
  · intro hnone
    simp only [linearize, if_neg hid, if_neg hnil, hplaced, horders, hnone]

end

/-- A linearization puts the class in front of a list that fits its bases. Distinct bases that are
known and do not derive from the class fail only for want of such a list: then they are
inconsistent, and otherwise they have a linearization. -/
theorem linearize_fits_or_inconsistent (id : ClassId) (bases : List ClassId)
    (order? : ClassId → Option (List ClassId)) (hid : id ≠ ClassId.root) (hbases : bases ≠ []) :
    (∀ m, linearize id bases order? = .ok m → ∃ t, m = id :: t ∧ Fits bases order? t) ∧
    (bases.Nodup → id ∉ bases → (∀ b ∈ bases, ∃ o, order? b = some o ∧ id ∉ o) →
      (linearize id bases order? = .error (.inconsistent id bases) ↔
        ¬ ∃ t, Fits bases order? t) ∧
      ((∃ t, Fits bases order? t) → ∃ m, linearize id bases order? = .ok m)) := by
  refine ⟨fun m h => fits_of_linearize hid hbases h, ?_⟩
  intro hnd hself hknown
  obtain ⟨orders, horders, hmerged, hstuck⟩ := linearize_of_known hid hbases hnd hself hknown
  cases ht : merge (orders ++ [bases]) with
  | some tail =>
    have hok := hmerged tail ht
    refine ⟨iff_of_false ?_ ?_, fun _ => ⟨_, hok⟩⟩
    · simp [hok]
    · exact not_not.mpr ⟨tail, fits_of_merge horders ht⟩
  | none =>
    have hnone : ¬ ∃ t, Fits bases order? t := by
      rintro ⟨t, hfits⟩
      obtain ⟨u, hu⟩ := exists_merge_of_fits horders hfits
      simp [ht] at hu
    exact ⟨iff_of_true (hstuck ht) hnone, fun h => absurd h hnone⟩

/-- Two classes above two others in opposite orders. -/
def crossedOrder? : ClassId → Option (List ClassId)
  | 67 => some [67, 64, 65, 0]
  | 68 => some [68, 65, 64, 0]
  | _ => none

/-- A class cannot come below both, since nothing keeps both orders; below one of them it can. -/
theorem crossed_inconsistent :
    linearize 69 [67, 68] crossedOrder? = .error (.inconsistent 69 [67, 68]) ∧
    (¬ ∃ t, Fits [67, 68] crossedOrder? t) ∧ ∃ t, Fits [68] crossedOrder? t := by
  have hknown : ∀ b ∈ [67, 68], ∃ o, crossedOrder? b = some o ∧ 69 ∉ o := by
    intro b hb
    rcases List.mem_pair.mp hb with rfl | rfl
    · exact ⟨_, rfl, by decide⟩
    · exact ⟨_, rfl, by decide⟩
  have hruns : linearize 69 [67, 68] crossedOrder? = .error (.inconsistent 69 [67, 68]) ∧
      linearize 69 [68] crossedOrder? = .ok [69, 68, 65, 64, 0] := by decide +kernel
  obtain ⟨hfails, hok⟩ := hruns
  obtain ⟨-, hcomplete⟩ :=
    linearize_fits_or_inconsistent 69 [67, 68] crossedOrder? (by decide) (by decide)
  obtain ⟨hiff, -⟩ := hcomplete (by decide) (by decide) hknown
  obtain ⟨hsound, -⟩ :=
    linearize_fits_or_inconsistent 69 [68] crossedOrder? (by decide) (by decide)
  obtain ⟨t, -, hfits⟩ := hsound _ hok
  exact ⟨hfails, hiff.mp hfails, t, hfits⟩

end MethodCache
