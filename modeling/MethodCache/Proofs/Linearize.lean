import MethodCache.Proofs.Merge

/-!
What a linearization promises, read off the merge. The order of a class begins with the class,
repeats nothing, holds the orders of all its bases as they are, and ends with the root when they
do. A class with one base is simply put in front of the order of that base.
-/
namespace MethodCache

open Linearization

/-- The three ways to a linearization: the root, a class without bases, and a merge. -/
theorem linearize_cases {id : ClassId} {bases order : List ClassId}
    {order? : ClassId → Option (List ClassId)} (h : linearize id bases order? = .ok order) :
    (id = ClassId.root ∧ order = [id]) ∨
    (id ≠ ClassId.root ∧ bases = [] ∧ order = [id, ClassId.root]) ∨
    (id ≠ ClassId.root ∧ bases ≠ [] ∧ id ∉ bases ∧ bases.Nodup ∧
      ∃ orders tail, List.Forall₂ (fun b o => order? b = some o ∧ id ∉ o) bases orders ∧
        merge (orders ++ [bases]) = some tail ∧ order = id :: tail) := by
  unfold linearize at h
  split at h
  · next hroot => exact Or.inl ⟨hroot, (Except.ok.inj h).symm⟩
  · next hroot =>
    split at h
    · next hnil =>
      exact Or.inr (Or.inl ⟨hroot, List.isEmpty_iff.mp hnil, (Except.ok.inj h).symm⟩)
    · next hnil =>
      split at h
      · simp at h
      · next hplaced =>
        split at h
        · simp at h
        · next orders horders =>
          split at h
          · next tail htail =>
            obtain ⟨hid, hnd, -⟩ := misplacedBase?_eq_none.mp hplaced
            refine Or.inr (Or.inr ⟨hroot, ?_, hid, hnd, orders, tail, ?_, htail, ?_⟩)
            · simpa using hnil
            · exact baseOrders_eq_ok horders
            · exact (Except.ok.inj h).symm
          · simp at h

/-- The three ways to fail: a base is out of place, a base has no order to give, and the merge
gets stuck. -/
theorem linearize_error_cases {id : ClassId} {bases : List ClassId}
    {order? : ClassId → Option (List ClassId)} {e : LinearizationError}
    (h : linearize id bases order? = .error e) :
    ¬ (id ∉ bases ∧ bases.Nodup) ∨ (∃ b ∈ bases, baseOrder id order? b = .error e) ∨
    ((∀ b ∈ bases, ∃ o, order? b = some o) ∧ e = .inconsistent id bases) := by
  unfold linearize at h
  split at h
  · simp at h
  · split at h
    · simp at h
    · split at h
      · next hplaced =>
        refine Or.inl ?_
        rintro ⟨hself, hnd⟩
        rw [misplacedBase?_eq_none.mpr ⟨hself, hnd, by simp⟩] at hplaced
        simp at hplaced
      · split at h
        · next f hfails =>
          obtain rfl : f = e := Except.error.inj h
          exact Or.inr (Or.inl (exists_baseOrder_error hfails))
        · next orders horders =>
          split at h
          · simp at h
          · refine Or.inr (Or.inr ⟨?_, (Except.error.inj h).symm⟩)
            intro b hb
            obtain ⟨o, -, ho, -⟩ := exists_order_of_mem (baseOrders_eq_ok horders) hb
            exact ⟨o, ho⟩

theorem linearize_congr {id : ClassId} {bases : List ClassId}
    {f g : ClassId → Option (List ClassId)} (h : ∀ b ∈ bases, f b = g b) :
    linearize id bases f = linearize id bases g := by
  simp only [linearize, baseOrders_congr h]

section

variable {id : ClassId} {bases order : List ClassId} {order? : ClassId → Option (List ClassId)}

theorem linearize_eq_cons (h : linearize id bases order? = .ok order) :
    order = id :: order.tail := by
  rcases linearize_cases h with ⟨-, rfl⟩ | ⟨-, -, rfl⟩ | ⟨-, -, -, -, orders, tail, -, -, rfl⟩
  · rfl
  · rfl
  · rfl

theorem linearize_root (h : linearize ClassId.root bases order? = .ok order) :
    order = [ClassId.root] := by
  rcases linearize_cases h with ⟨-, rfl⟩ | ⟨hne, -⟩ | ⟨hne, -⟩
  · rfl
  · exact absurd rfl hne
  · exact absurd rfl hne

theorem linearize_nil (hne : id ≠ ClassId.root) (h : linearize id [] order? = .ok order) :
    order = [id, ClassId.root] := by
  rcases linearize_cases h with ⟨hroot, -⟩ | ⟨-, -, rfl⟩ | ⟨-, hnil, -⟩
  · exact absurd hroot hne
  · rfl
  · exact absurd rfl hnil

theorem bases_nodup_of_linearize (hne : id ≠ ClassId.root)
    (h : linearize id bases order? = .ok order) : bases.Nodup := by
  rcases linearize_cases h with ⟨hroot, -⟩ | ⟨-, rfl, -⟩ | ⟨-, -, -, hnd, -⟩
  · exact absurd hroot hne
  · exact List.nodup_nil
  · exact hnd

theorem not_mem_bases_of_linearize (hne : id ≠ ClassId.root)
    (h : linearize id bases order? = .ok order) : id ∉ bases := by
  rcases linearize_cases h with ⟨hroot, -⟩ | ⟨-, rfl, -⟩ | ⟨-, -, hid, -⟩
  · exact absurd hroot hne
  · simp
  · exact hid

theorem base_order_of_linearize (hne : id ≠ ClassId.root)
    (h : linearize id bases order? = .ok order) {b : ClassId} (hb : b ∈ bases) :
    ∃ o, order? b = some o ∧ id ∉ o ∧ o.Sublist order.tail := by
  rcases linearize_cases h with ⟨hroot, -⟩ | ⟨-, rfl, -⟩ |
    ⟨-, -, -, -, orders, tail, horders, htail, rfl⟩
  · exact absurd hroot hne
  · simp at hb
  · obtain ⟨o, hmem, ho, hid⟩ := exists_order_of_mem horders hb
    exact ⟨o, ho, hid, sublist_of_merge htail o (List.mem_append_left [bases] hmem)⟩

theorem mem_tail_of_linearize (hne : id ≠ ClassId.root) (hbases : bases ≠ [])
    (h : linearize id bases order? = .ok order) {a : ClassId} (ha : a ∈ order.tail) :
    a ∈ bases ∨ ∃ b ∈ bases, ∃ o, order? b = some o ∧ a ∈ o := by
  rcases linearize_cases h with ⟨hroot, -⟩ | ⟨-, hnil, -⟩ |
    ⟨-, -, -, -, orders, tail, horders, htail, rfl⟩
  · exact absurd hroot hne
  · exact absurd hnil hbases
  · obtain ⟨l, hl, hal⟩ := (mem_merge htail).mp ha
    rcases List.mem_append.mp hl with hl | hl
    · obtain ⟨b, hb, ho, -⟩ := exists_base_of_mem horders hl
      exact Or.inr ⟨b, hb, l, ho, hal⟩
    · obtain rfl : l = bases := List.mem_singleton.mp hl
      exact Or.inl hal

/-- What holds of the class, of the root and along the orders of the bases holds all along. -/
theorem forall_mem_of_linearize {P : ClassId → Prop} (hid : P id) (hroot : P ClassId.root)
    (hself : ∀ b ∈ bases, ∀ o, order? b = some o → b ∈ o)
    (hbases : ∀ b ∈ bases, ∀ o, order? b = some o → ∀ a ∈ o, P a)
    (h : linearize id bases order? = .ok order) : ∀ a ∈ order, P a := by
  intro a ha
  rcases linearize_cases h with ⟨-, rfl⟩ | ⟨-, -, rfl⟩ | ⟨hne, hnil, -⟩
  · rwa [List.mem_singleton.mp ha]
  · rcases List.mem_cons.mp ha with rfl | ha
    · exact hid
    · rwa [List.mem_singleton.mp ha]
  · rw [linearize_eq_cons h] at ha
    rcases List.mem_cons.mp ha with rfl | ha
    · exact hid
    · rcases mem_tail_of_linearize hne hnil h ha with hab | ⟨b, hb, o, ho, hao⟩
      · obtain ⟨o, ho, -⟩ := base_order_of_linearize hne h hab
        exact hbases a hab o ho a (hself a hab o ho)
      · exact hbases b hb o ho a hao

theorem nodup_of_linearize (h : linearize id bases order? = .ok order) : order.Nodup := by
  rcases linearize_cases h with ⟨-, rfl⟩ | ⟨hne, -, rfl⟩ |
    ⟨-, -, hid, -, orders, tail, horders, htail, rfl⟩
  · exact List.nodup_singleton id
  · simpa using hne
  · refine List.nodup_cons.mpr ⟨?_, nodup_of_merge htail⟩
    intro hmem
    obtain ⟨l, hl, hidl⟩ := (mem_merge htail).mp hmem
    rcases List.mem_append.mp hl with hl | hl
    · obtain ⟨b, -, -, hfree⟩ := exists_base_of_mem horders hl
      exact hfree hidl
    · obtain rfl : l = bases := List.mem_singleton.mp hl
      exact hid hidl

theorem getLast?_of_linearize
    (hself : ∀ b ∈ bases, ∀ o, order? b = some o → b ∈ o)
    (hlast : ∀ b ∈ bases, ∀ o, order? b = some o → o.getLast? = some ClassId.root)
    (h : linearize id bases order? = .ok order) : order.getLast? = some ClassId.root := by
  rcases linearize_cases h with ⟨hroot, rfl⟩ | ⟨-, -, rfl⟩ | ⟨hne, hbases, -⟩
  · simp [hroot]
  · rfl
  · obtain ⟨b, rest, rfl⟩ := List.exists_cons_of_ne_nil hbases
    obtain ⟨o, ho, -, hsub⟩ := base_order_of_linearize hne h (List.mem_cons_self (a := b))
    have hbo := hsub.subset (hself b List.mem_cons_self o ho)
    obtain ⟨front, x, hx⟩ := List.eq_nil_or_concat order.tail |>.resolve_left
      (List.ne_nil_of_mem hbo)
    rw [List.concat_eq_append] at hx
    have hnd := (linearize_eq_cons h ▸ nodup_of_linearize h : (id :: order.tail).Nodup)
    have hfront : x ∉ front := by
      rw [hx] at hnd
      intro hmem
      have happ := List.nodup_append.mp (List.nodup_cons.mp hnd).2
      exact happ.2.2 x hmem x (List.mem_singleton_self x) rfl
    -- the last entry comes from the order of some base, and only that order's root can be last
    have hsource : ∃ c ∈ b :: rest, ∃ p, order? c = some p ∧ x ∈ p := by
      have hxmem : x ∈ order.tail := by
        rw [hx]
        simp
      rcases mem_tail_of_linearize hne hbases h hxmem with hxb | hxo
      · obtain ⟨p, hp, -⟩ := base_order_of_linearize hne h hxb
        exact ⟨x, hxb, p, hp, hself x hxb p hp⟩
      · exact hxo
    obtain ⟨c, hc, p, hp, hxp⟩ := hsource
    obtain ⟨q, hq, -, hqsub⟩ := base_order_of_linearize hne h hc
    obtain rfl : p = q := Option.some.inj (hp.symm.trans hq)
    rw [hx] at hqsub
    obtain ⟨l₁, l₂, hl, hl₁, hl₂⟩ := List.sublist_append_iff.mp hqsub
    have hxroot : x = ClassId.root := by
      rcases List.sublist_singleton.mp hl₂ with hnil | hone
      · rw [hnil, List.append_nil] at hl
        exact absurd (hl₁.subset (hl ▸ hxp)) hfront
      · have hlastp := hlast c hc p hp
        rw [hl, hone] at hlastp
        simpa using hlastp
    rw [linearize_eq_cons h, hx, hxroot, ← List.cons_append]
    exact List.getLast?_concat

/-- A class with one base is put in front of the order of that base. -/
theorem linearize_singleton {b : ClassId} {o : List ClassId} (hne : id ≠ ClassId.root)
    (h : linearize id [b] order? = .ok order) (ho : order? b = some o) (hb : b ∈ o) :
    order = id :: o := by
  obtain ⟨p, hp, -, hsub⟩ := base_order_of_linearize hne h (List.mem_singleton_self b)
  obtain rfl : o = p := Option.some.inj (ho.symm.trans hp)
  have hnd : order.tail.Nodup := (nodup_of_linearize h).tail
  have hback : order.tail ⊆ o := by
    intro a ha
    rcases mem_tail_of_linearize hne (by simp) h ha with hab | ⟨c, hc, q, hq, haq⟩
    · rw [List.mem_singleton.mp hab]
      exact hb
    · rw [List.mem_singleton.mp hc] at hq
      rwa [Option.some.inj (ho.symm.trans hq)]
  have hlen : order.tail.length ≤ o.length := (hnd.subperm hback).length_le
  rw [linearize_eq_cons h, hsub.eq_of_length_le hlen]

end

end MethodCache
