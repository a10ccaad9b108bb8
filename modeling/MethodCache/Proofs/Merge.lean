import Mathlib.Data.List.Nodup
import Mathlib.Data.List.Sublists
import MethodCache.Graph.Linearization

/-!
What the merge behind a linearization promises. The merged list has no repetition, holds exactly
the members of the lists, and keeps the order of each of them. From this follow the facts about
linearizations that the class graph is built on: the class comes first, the orders of its bases
stand behind it unchanged, and the root comes last.
-/
namespace MethodCache.Linearization

/-- The chosen head begins a list and stands in no tail. -/
theorem nextHead?_spec {lists : List (List ClassId)} {c : ClassId}
    (h : nextHead? lists = some c) :
    (∃ l ∈ lists, l.head? = some c) ∧ ∀ l ∈ lists, c ∉ l.tail := by
  have hhead := List.mem_filterMap.mp (List.mem_of_find?_eq_some h)
  have htail := List.find?_some h
  refine ⟨hhead, ?_⟩
  intro l hl
  have hl' := List.all_eq_true.mp htail l hl
  simpa using hl'

theorem not_mem_dropHead {lists : List (List ClassId)} {c : ClassId}
    (h : nextHead? lists = some c) : ∀ l ∈ dropHead c lists, c ∉ l := by
  intro l hl
  obtain ⟨k, hk, rfl⟩ := List.mem_map.mp hl
  have htail := (nextHead?_spec h).2 k hk
  split
  · exact htail
  · next hne =>
    cases k with
    | nil => simp
    | cons a as =>
      intro hmem
      rcases List.mem_cons.mp hmem with rfl | hmem
      · exact hne rfl
      · exact htail hmem

theorem mem_or_mem_dropHead {lists : List (List ClassId)} {c a : ClassId}
    {l : List ClassId} (hl : l ∈ lists) (ha : a ∈ l) :
    a = c ∨ ∃ k ∈ dropHead c lists, a ∈ k := by
  by_cases hhead : l.head? = some c
  · cases l with
    | nil => simp at ha
    | cons b bs =>
      have hb : b = c := by simpa using hhead
      rcases List.mem_cons.mp ha with rfl | ha
      · exact Or.inl hb
      · refine Or.inr ⟨bs, List.mem_map.mpr ⟨b :: bs, hl, ?_⟩, ha⟩
        simp [hb]
  · exact Or.inr ⟨l, List.mem_map.mpr ⟨l, hl, by simp [hhead]⟩, ha⟩

theorem mem_of_mem_dropHead {lists : List (List ClassId)} {c a : ClassId}
    {k : List ClassId} (hk : k ∈ dropHead c lists) (ha : a ∈ k) : ∃ l ∈ lists, a ∈ l := by
  obtain ⟨l, hl, rfl⟩ := List.mem_map.mp hk
  refine ⟨l, hl, ?_⟩
  split at ha
  · exact List.mem_of_mem_tail ha
  · exact ha

theorem mem_merge {lists : List (List ClassId)} {t : List ClassId} {a : ClassId}
    (h : merge lists = some t) : a ∈ t ↔ ∃ l ∈ lists, a ∈ l := by
  fun_induction merge lists generalizing t with
  | case1 lists hempty =>
    obtain rfl : [] = t := Option.some.inj h
    constructor
    · intro ha
      simp at ha
    · rintro ⟨l, hl, ha⟩
      have hnil := List.all_eq_true.mp hempty l hl
      rw [List.isEmpty_iff] at hnil
      simp [hnil] at ha
  | case2 lists hempty hnone => simp at h
  | case3 lists hempty c hc ih =>
    obtain ⟨u, hu, rfl⟩ := Option.map_eq_some_iff.mp h
    rw [List.mem_cons, ih hu]
    constructor
    · rintro (rfl | ⟨k, hk, ha⟩)
      · obtain ⟨l, hl, hhead⟩ := (nextHead?_spec hc).1
        exact ⟨l, hl, List.mem_of_mem_head? hhead⟩
      · exact mem_of_mem_dropHead hk ha
    · rintro ⟨l, hl, ha⟩
      exact mem_or_mem_dropHead hl ha

theorem nodup_of_merge {lists : List (List ClassId)} {t : List ClassId}
    (h : merge lists = some t) : t.Nodup := by
  fun_induction merge lists generalizing t with
  | case1 lists hempty =>
    obtain rfl : [] = t := Option.some.inj h
    exact List.nodup_nil
  | case2 lists hempty hnone => simp at h
  | case3 lists hempty c hc ih =>
    obtain ⟨u, hu, rfl⟩ := Option.map_eq_some_iff.mp h
    refine List.nodup_cons.mpr ⟨?_, ih hu⟩
    intro hmem
    obtain ⟨k, hk, hck⟩ := (mem_merge hu).mp hmem
    exact not_mem_dropHead hc k hk hck

theorem sublist_of_merge {lists : List (List ClassId)} {t : List ClassId}
    (h : merge lists = some t) : ∀ l ∈ lists, l.Sublist t := by
  fun_induction merge lists generalizing t with
  | case1 lists hempty =>
    intro l hl
    have hnil := List.all_eq_true.mp hempty l hl
    rw [List.isEmpty_iff] at hnil
    rw [hnil]
    exact List.nil_sublist t
  | case2 lists hempty hnone => simp at h
  | case3 lists hempty c hc ih =>
    intro l hl
    obtain ⟨u, hu, rfl⟩ := Option.map_eq_some_iff.mp h
    have hdrop := ih hu _ (List.mem_map.mpr ⟨l, hl, rfl⟩)
    split at hdrop
    · next hhead =>
      cases l with
      | nil => simp at hhead
      | cons b bs =>
        have hb : b = c := by simpa using hhead
        rw [hb]
        exact List.Sublist.cons_cons c hdrop
    · exact hdrop.cons c

theorem misplacedBase?_eq_none {id : ClassId} {before bases : List ClassId} :
    misplacedBase? id before bases = none ↔
      id ∉ bases ∧ bases.Nodup ∧ ∀ b ∈ bases, b ∉ before := by
  induction bases generalizing before with
  | nil => simp [misplacedBase?]
  | cons b rest ih =>
    simp only [misplacedBase?]
    split
    · next hb => simp [hb]
    · next hb =>
      split
      · next hmem =>
        constructor
        · intro h
          simp at h
        · rintro ⟨-, -, h⟩
          exact absurd hmem (h b List.mem_cons_self)
      · next hmem =>
        rw [ih]
        constructor
        · rintro ⟨hid, hnd, hbefore⟩
          refine ⟨?_, List.nodup_cons.mpr ⟨?_, hnd⟩, ?_⟩
          · intro h
            rcases List.mem_cons.mp h with rfl | h
            · exact hb rfl
            · exact hid h
          · intro h
            exact hbefore b h List.mem_cons_self
          · intro a ha
            rcases List.mem_cons.mp ha with rfl | ha
            · exact hmem
            · exact fun h => hbefore a ha (List.mem_cons_of_mem b h)
        · rintro ⟨hid, hnd, hbefore⟩
          have hcons := List.nodup_cons.mp hnd
          refine ⟨fun h => hid (List.mem_cons_of_mem b h), hcons.2, ?_⟩
          intro a ha h
          rcases List.mem_cons.mp h with rfl | h
          · exact hcons.1 ha
          · exact hbefore a (List.mem_cons_of_mem b ha) h

theorem baseOrders_eq_ok {id : ClassId} {order? : ClassId → Option (List ClassId)}
    {bases : List ClassId} {orders : List (List ClassId)}
    (h : baseOrders id order? bases = .ok orders) :
    List.Forall₂ (fun b o => order? b = some o ∧ id ∉ o) bases orders := by
  induction bases generalizing orders with
  | nil =>
    obtain rfl : [] = orders := Except.ok.inj h
    exact List.Forall₂.nil
  | cons b rest ih =>
    simp only [baseOrders] at h
    split at h
    · simp at h
    · next o ho =>
      cases hrest : baseOrders id order? rest with
      | error e => simp [hrest, Except.map] at h
      | ok os =>
        rw [hrest] at h
        obtain rfl : o :: os = orders := Except.ok.inj h
        refine List.Forall₂.cons ?_ (ih hrest)
        unfold baseOrder at ho
        split at ho
        · simp at ho
        · next p hp =>
          split at ho
          · simp at ho
          · next hid =>
            obtain rfl : p = o := Except.ok.inj ho
            exact ⟨hp, hid⟩

/-- A base has no order to give when it has none, or when the class stands in it. -/
theorem baseOrder_error_cases {id b : ClassId} {order? : ClassId → Option (List ClassId)}
    {e : LinearizationError} (h : baseOrder id order? b = .error e) :
    (order? b = none ∧ e = .unknownBase id b) ∨
    ∃ o, order? b = some o ∧ id ∈ o ∧ e = .cycle id b := by
  unfold baseOrder at h
  split at h
  · next hnone => exact Or.inl ⟨hnone, (Except.error.inj h).symm⟩
  · next o ho =>
    split at h
    · next hmem => exact Or.inr ⟨o, ho, hmem, (Except.error.inj h).symm⟩
    · simp at h

/-- If the orders of some bases are not found, then for the sake of one of them. -/
theorem exists_baseOrder_error {id : ClassId}
    {order? : ClassId → Option (List ClassId)} {bases : List ClassId} {e : LinearizationError}
    (h : baseOrders id order? bases = .error e) :
    ∃ b ∈ bases, baseOrder id order? b = .error e := by
  induction bases with
  | nil => simp [baseOrders] at h
  | cons b rest ih =>
    cases hb : baseOrder id order? b with
    | error f =>
      simp only [baseOrders, hb] at h
      obtain rfl := Except.error.inj h
      exact ⟨b, List.mem_cons_self, hb⟩
    | ok o =>
      cases hrest : baseOrders id order? rest with
      | error f =>
        simp only [baseOrders, hb, hrest, Except.map] at h
        obtain rfl := Except.error.inj h
        obtain ⟨a, ha, he⟩ := ih hrest
        exact ⟨a, List.mem_cons_of_mem b ha, he⟩
      | ok os => simp [baseOrders, hb, hrest, Except.map] at h

section Orders

variable {id : ClassId} {order? : ClassId → Option (List ClassId)} {bases : List ClassId}
  {orders : List (List ClassId)}

theorem exists_order_of_mem
    (h : List.Forall₂ (fun b o => order? b = some o ∧ id ∉ o) bases orders) {b : ClassId}
    (hb : b ∈ bases) : ∃ o ∈ orders, order? b = some o ∧ id ∉ o := by
  obtain ⟨i, hi, rfl⟩ := List.getElem_of_mem hb
  have hio : i < orders.length := h.length_eq ▸ hi
  exact ⟨orders[i], List.getElem_mem hio, h.get hi hio⟩

theorem exists_base_of_mem
    (h : List.Forall₂ (fun b o => order? b = some o ∧ id ∉ o) bases orders) {o : List ClassId}
    (ho : o ∈ orders) : ∃ b ∈ bases, order? b = some o ∧ id ∉ o := by
  obtain ⟨i, hi, rfl⟩ := List.getElem_of_mem ho
  have hib : i < bases.length := h.length_eq ▸ hi
  exact ⟨bases[i], List.getElem_mem hib, h.get hib hi⟩

theorem exists_baseOrders (h : ∀ b ∈ bases, ∃ o, order? b = some o ∧ id ∉ o) :
    ∃ orders, baseOrders id order? bases = .ok orders := by
  induction bases with
  | nil => exact ⟨[], rfl⟩
  | cons b rest ih =>
    obtain ⟨o, ho, hid⟩ := h b List.mem_cons_self
    obtain ⟨os, hos⟩ := ih fun a ha => h a (List.mem_cons_of_mem b ha)
    refine ⟨o :: os, ?_⟩
    simp only [baseOrders, baseOrder, ho, if_neg hid, hos]
    rfl

end Orders

theorem baseOrders_congr {id : ClassId} {f g : ClassId → Option (List ClassId)}
    {bases : List ClassId} (h : ∀ b ∈ bases, f b = g b) :
    baseOrders id f bases = baseOrders id g bases := by
  induction bases with
  | nil => rfl
  | cons b rest ih =>
    have hb := h b List.mem_cons_self
    have hrest := ih fun a ha => h a (List.mem_cons_of_mem b ha)
    simp only [baseOrders, baseOrder, hb, hrest]

end MethodCache.Linearization
