/-!
Finite maps from numbers, kept in ascending order of their keys. The order is part of the type,
so listing the keys needs no sorting and two maps with the same look-ups are equal.
-/
namespace MethodCache

/-- A finite map whose entries ascend by key. -/
structure IndexMap (α : Type) where
  entries : List (Nat × α)
  ascending : entries.Pairwise fun a b => a.1 < b.1

namespace IndexMap

variable {α : Type}

def find (k : Nat) : List (Nat × α) → Option α
  | [] => none
  | e :: es => if e.1 = k then some e.2 else find k es

/-- Puts an entry in its place, over one with the same key. -/
def place (k : Nat) (a : α) : List (Nat × α) → List (Nat × α)
  | [] => [(k, a)]
  | e :: es =>
    if k < e.1 then (k, a) :: e :: es
    else if k = e.1 then (k, a) :: es
    else e :: place k a es

theorem mem_place {k : Nat} {a : α} {es : List (Nat × α)} {e : Nat × α} (h : e ∈ place k a es) :
    e = (k, a) ∨ e ∈ es := by
  induction es with
  | nil => simpa [place] using h
  | cons d ds ih =>
    simp only [place] at h
    split at h
    · simpa using h
    · split at h
      · rcases List.mem_cons.1 h with h | h
        · exact .inl h
        · exact .inr (List.mem_cons_of_mem d h)
      · rcases List.mem_cons.1 h with h | h
        · exact .inr (h ▸ List.mem_cons_self)
        · exact (ih h).imp_right (List.mem_cons_of_mem d)

theorem pairwise_place {k : Nat} {a : α} {es : List (Nat × α)}
    (h : es.Pairwise fun a b => a.1 < b.1) :
    (place k a es).Pairwise fun a b => a.1 < b.1 := by
  induction es with
  | nil => simp [place]
  | cons d ds ih =>
    have hd := List.pairwise_cons.1 h
    simp only [place]
    split
    · next hlt =>
      refine List.pairwise_cons.2 ⟨fun e he => ?_, h⟩
      rcases List.mem_cons.1 he with rfl | he
      · exact hlt
      · exact Nat.lt_trans hlt (hd.1 e he)
    · split
      · next heq => exact List.pairwise_cons.2 ⟨fun e he => heq ▸ hd.1 e he, hd.2⟩
      · refine List.pairwise_cons.2 ⟨fun e he => ?_, ih hd.2⟩
        rcases mem_place he with rfl | he
        · simp only; omega
        · exact hd.1 e he

theorem find_place (k j : Nat) (a : α) (es : List (Nat × α)) :
    find j (place k a es) = if k = j then some a else find j es := by
  induction es with
  | nil => simp [place, find]
  | cons d ds ih => grind [place, find]

theorem mem_of_find {k : Nat} {a : α} {es : List (Nat × α)} (h : find k es = some a) :
    (k, a) ∈ es := by
  induction es with
  | nil => simp [find] at h
  | cons d ds ih =>
    rw [find] at h
    split at h
    · next hk =>
      rw [← hk, ← Option.some.inj h]
      exact List.mem_cons_self
    · exact List.mem_cons_of_mem d (ih h)

theorem find_of_mem {k : Nat} {a : α} {es : List (Nat × α)}
    (hasc : es.Pairwise fun a b => a.1 < b.1) (h : (k, a) ∈ es) : find k es = some a := by
  induction es with
  | nil => simp at h
  | cons d ds ih =>
    obtain ⟨hd, hds⟩ := List.pairwise_cons.1 hasc
    rw [find]
    rcases List.mem_cons.1 h with rfl | h
    · rw [if_pos rfl]
    · rw [if_neg (Nat.ne_of_lt (hd (k, a) h)), ih hds h]

theorem find_eq_none {k : Nat} {es : List (Nat × α)} (h : ∀ e ∈ es, e.1 ≠ k) :
    find k es = none := by
  cases hf : find k es with
  | none => rfl
  | some a => exact absurd rfl (h (k, a) (mem_of_find hf))

theorem eq_of_find {es fs : List (Nat × α)} (hes : es.Pairwise fun a b => a.1 < b.1)
    (hfs : fs.Pairwise fun a b => a.1 < b.1) (h : ∀ k, find k es = find k fs) : es = fs := by
  induction es generalizing fs with
  | nil =>
    cases fs with
    | nil => rfl
    | cons f fs => simpa [find] using h f.1
  | cons e es ih =>
    cases fs with
    | nil => simpa [find] using h e.1
    | cons f fs =>
      obtain ⟨he, hes'⟩ := List.pairwise_cons.1 hes
      obtain ⟨hf, hfs'⟩ := List.pairwise_cons.1 hfs
      have hef : e ∈ f :: fs :=
        mem_of_find ((h e.1).symm.trans (find_of_mem hes List.mem_cons_self))
      have hfe : f ∈ e :: es :=
        mem_of_find ((h f.1).trans (find_of_mem hfs List.mem_cons_self))
      have hhead : e = f := by
        rcases List.mem_cons.1 hef with heq | hef
        · exact heq
        · rcases List.mem_cons.1 hfe with heq | hfe
          · exact heq.symm
          · exact absurd (hf e hef) (Nat.not_lt.2 (Nat.le_of_lt (he f hfe)))
      subst hhead
      rw [ih hes' hfs']
      intro k
      by_cases hk : e.1 = k
      · rw [find_eq_none fun d hd => hk ▸ Nat.ne_of_gt (he d hd),
          find_eq_none fun d hd => hk ▸ Nat.ne_of_gt (hf d hd)]
      · simpa only [find, if_neg hk] using h k

theorem find_filter_ne (k j : Nat) (es : List (Nat × α)) :
    find j (es.filter fun e => e.1 ≠ k) = if k = j then none else find j es := by
  induction es with
  | nil => simp [find]
  | cons d ds ih => grind [find]

def empty : IndexMap α := ⟨[], .nil⟩

def get? (m : IndexMap α) (k : Nat) : Option α := find k m.entries

def insert (m : IndexMap α) (k : Nat) (a : α) : IndexMap α :=
  ⟨place k a m.entries, pairwise_place m.ascending⟩

def erase (m : IndexMap α) (k : Nat) : IndexMap α :=
  ⟨m.entries.filter fun e => e.1 ≠ k, m.ascending.filter _⟩

def modify (m : IndexMap α) (k : Nat) (f : α → α) : IndexMap α :=
  match m.get? k with
  | some a => m.insert k (f a)
  | none => m

def keys (m : IndexMap α) : List Nat := m.entries.map (·.1)

def contains (m : IndexMap α) (k : Nat) : Bool := (m.get? k).isSome

def size (m : IndexMap α) : Nat := m.entries.length

@[simp] theorem get?_empty (k : Nat) : (empty : IndexMap α).get? k = none := rfl

theorem get?_insert (m : IndexMap α) (k j : Nat) (a : α) :
    (m.insert k a).get? j = if k = j then some a else m.get? j :=
  find_place k j a m.entries

theorem get?_erase (m : IndexMap α) (k j : Nat) :
    (m.erase k).get? j = if k = j then none else m.get? j :=
  find_filter_ne k j m.entries

theorem get?_modify (m : IndexMap α) (k j : Nat) (f : α → α) :
    (m.modify k f).get? j = if k = j then (m.get? j).map f else m.get? j := by
  unfold modify
  split
  · next a h =>
    rw [get?_insert]
    split
    · next hk => subst hk; simp [h]
    · rfl
  · next h =>
    split
    · next hk => subst hk; simp [h]
    · rfl

theorem ext_get? {m n : IndexMap α} (h : ∀ k, m.get? k = n.get? k) : m = n := by
  cases m with
  | mk es hes =>
    cases n with
    | mk fs hfs =>
      obtain rfl := eq_of_find hes hfs h
      rfl

theorem modify_of_fixed {m : IndexMap α} {k : Nat} {f : α → α}
    (h : ∀ a, m.get? k = some a → f a = a) : m.modify k f = m := by
  apply ext_get?
  intro j
  rw [get?_modify]
  split
  · next hk =>
    subst hk
    cases ha : m.get? k with
    | none => rfl
    | some a => rw [Option.map_some, h a ha]
  · rfl

theorem modify_comm (m : IndexMap α) {j k : Nat} (hne : j ≠ k) (f g : α → α) :
    (m.modify j f).modify k g = (m.modify k g).modify j f := by
  apply ext_get?
  intro i
  simp only [get?_modify]
  by_cases hj : j = i
  · have hk : k ≠ i := fun hk => hne (hj.trans hk.symm)
    rw [if_neg hk, if_neg hk]
  · rw [if_neg hj, if_neg hj]

theorem keys_ascending (m : IndexMap α) : m.keys.Pairwise (· < ·) :=
  List.pairwise_map.2 m.ascending

theorem mem_keys {m : IndexMap α} {k : Nat} : k ∈ m.keys ↔ (m.get? k).isSome := by
  unfold keys get?
  induction m.entries with
  | nil => simp [find]
  | cons e es ih => grind [find]

end IndexMap

/-- A finite set of numbers, in ascending order. -/
abbrev IndexSet := IndexMap Unit

namespace IndexSet

def add (s : IndexSet) (k : Nat) : IndexSet := s.insert k ()

def toList (s : IndexSet) : List Nat := s.keys

theorem mem_toList_add {s : IndexSet} {k j : Nat} :
    j ∈ (s.add k).toList ↔ j = k ∨ j ∈ s.toList := by
  simp only [add, toList, IndexMap.mem_keys, IndexMap.get?_insert]
  grind

theorem mem_toList_erase {s : IndexSet} {k j : Nat} :
    j ∈ IndexSet.toList (s.erase k) ↔ j ≠ k ∧ j ∈ s.toList := by
  simp only [toList, IndexMap.mem_keys, IndexMap.get?_erase]
  grind

end IndexSet

end MethodCache
