import MethodCache.Proofs.ExactRuns

/-!
Tables when a class is taken away. No table is brought up to date then, and the classes below keep
the removed class in their linearizations, where lookups pass over it. Right tables stay right
exactly when every value that lookups have found in the removed class is found again without it.
-/
namespace MethodCache

namespace ClassGraph

/-- What looking a member up finds when one class of the linearization is passed over. -/
def lookupPast (g : ClassGraph) (id d : ClassId) (name : String) : Option Found :=
  g.findFrom name 0 ((g.mro d).filter (· ≠ id))

theorem ownMember_of_findFrom {g : ClassGraph} {name : String} {i : ℕ} {order : List ClassId}
    {f : Found} (h : g.findFrom name i order = some f) :
    g.ownMember f.definer name = some f.value := by
  induction order generalizing i with
  | nil => simp [findFrom] at h
  | cons a rest ih =>
    rw [findFrom] at h
    cases hown : g.ownMember a name with
    | some v =>
      rw [hown] at h
      obtain rfl := Option.some.inj h
      exact hown
    | none =>
      rw [hown] at h
      exact ih h

theorem findFrom_filter {g : ClassGraph} {name : String} {id : ClassId} {order : List ClassId}
    {i j : ℕ} (hpast : ∀ f, g.findFrom name i order = some f → f.definer ≠ id) :
    (g.findFrom name j (order.filter (· ≠ id))).map Found.value =
      (g.findFrom name i order).map Found.value := by
  induction order generalizing i j with
  | nil => rfl
  | cons a rest ih =>
    rw [findFrom] at hpast ⊢
    cases hown : g.ownMember a name with
    | some v =>
      simp only [hown, Option.some.injEq, forall_eq'] at hpast
      rw [List.filter_cons_of_pos (by simpa using hpast), findFrom, hown]
      rfl
    | none =>
      simp only [hown] at hpast ⊢
      by_cases ha : a = id
      · rw [List.filter_cons_of_neg (by simpa using ha)]
        exact ih hpast
      · rw [List.filter_cons_of_pos (by simpa using ha), findFrom, hown]
        exact ih hpast

theorem ownMember_remove_self (g : ClassGraph) (id : ClassId) (name : String) :
    (g.remove id).ownMember id name = none := by
  rw [ownMember_eq, class?_remove, if_pos rfl]
  rfl

theorem ownMember_remove_of_ne (g : ClassGraph) {id a : ClassId} (h : a ≠ id) (name : String) :
    (g.remove id).ownMember a name = g.ownMember a name := by
  rw [ownMember_eq, ownMember_eq, class?_remove_of_ne g h]

theorem findFrom_remove (g : ClassGraph) (id : ClassId) (name : String) (i j : ℕ)
    (order : List ClassId) :
    ((g.remove id).findFrom name i order).map Found.value =
      (g.findFrom name j (order.filter (· ≠ id))).map Found.value := by
  induction order generalizing i j with
  | nil => rfl
  | cons a rest ih =>
    rw [findFrom]
    by_cases ha : a = id
    · subst ha
      rw [ownMember_remove_self, List.filter_cons_of_neg (by simp)]
      exact ih (i + 1) j
    · rw [ownMember_remove_of_ne g ha, List.filter_cons_of_pos (by simpa using ha), findFrom]
      cases g.ownMember a name with
      | some v => rfl
      | none => exact ih (i + 1) (j + 1)

/-- Lookups in a class that is still there pass over the class that is gone. -/
theorem resolve_remove (g : ClassGraph) {id d : ClassId} (h : d ≠ id) (s : Slot) :
    (g.remove id).resolve d s = (g.lookupPast id d s.name).map Found.value := by
  have hmro : (g.remove id).mro d = g.mro d := by
    rw [mro_eq, mro_eq, mro?_remove, if_neg (Ne.symm h)]
  unfold resolve lookup lookupPast
  rw [hmro]
  exact findFrom_remove g id s.name 0 0 (g.mro d)

/-- The values that lookups in a class with a table find in another class, they find without it
as well. -/
def Replaceable (g : ClassGraph) (id : ClassId) : Prop :=
  ∀ d t, d ≠ id → g.table? d = some t → ∀ (s : Slot) f, g.lookup d s.name = some f →
    f.definer = id → (g.lookupPast id d s.name).map Found.value = some f.value

theorem TablesRight.remove_iff {g : ClassGraph} (hright : g.TablesRight) (id : ClassId) :
    (g.remove id).TablesRight ↔ g.Replaceable id := by
  constructor
  · intro hafter d t hd ht s f hf _
    have hkept : (g.remove id).table? d = some t := by
      rw [table?_remove, if_neg (Ne.symm hd), ht]
    rw [← resolve_remove g hd, ← hafter d t hkept s, hright d t ht s, resolve, hf]
    rfl
  · intro hrep d t ht s
    rw [table?_remove] at ht
    split at ht
    · simp at ht
    · next hne =>
      have hd : d ≠ id := Ne.symm hne
      rw [hright d t ht s, resolve_remove g hd]
      by_cases hhere : ∃ f, g.lookup d s.name = some f ∧ f.definer = id
      · obtain ⟨f, hf, hdef⟩ := hhere
        rw [hrep d t hd ht s f hf hdef, resolve, hf]
        rfl
      · refine (findFrom_filter ?_).symm
        intro f hf hdef
        exact hhere ⟨f, hf, hdef⟩

theorem replaceable_of_slots {g : ClassGraph} {id : ClassId} {slots : List Slot}
    (hown : ∀ s : Slot, (g.ownMember id s.name).isSome = true → s ∈ slots)
    (hfound : ∀ s ∈ slots, ∀ d ∈ g.ids, d ≠ id →
      (g.lookupPast id d s.name).map Found.value = g.resolve d s) : g.Replaceable id := by
  intro d t hne ht s f hf hdef
  have hmember := ownMember_of_findFrom hf
  rw [hdef] at hmember
  have hs : s ∈ slots := hown s (by rw [hmember, Option.isSome_some])
  obtain ⟨c, hc, -⟩ := Option.bind_eq_some_iff.mp ht
  have hd : d ∈ g.ids := IndexMap.mem_keys.mpr (contains_of_class? hc)
  rw [hfound s hs d hd hne, resolve, hf]
  rfl

end ClassGraph

namespace Context

open ClassGraph

theorem unregister_graph {c : Context} {id : ClassId} (h : (c.unregister id).2.isOk = true) :
    (c.unregister id).1.graph = c.graph.remove id := by
  unfold unregister at h ⊢
  cases hed : c.editable id with
  | error e => simp [hed, refuse, Except.isOk, Except.toBool] at h
  | ok cls => rfl

/-- Taking a class away leaves right tables right exactly when all that lookups have found in the
class is found without it as well. -/
theorem tablesRight_unregister_iff (c : Context) (id : ClassId) (hright : c.graph.TablesRight)
    (hok : (c.unregister id).2.isOk = true) :
    (c.unregister id).1.graph.TablesRight ↔ c.graph.Replaceable id := by
  rw [unregister_graph hok]
  exact hright.remove_iff id

end Context

namespace Host

open ClassGraph

/-- The class in the middle holds the same value under one slot as the one at the top, and the one
at the bottom has a value of its own for the other slot. -/
def coveredEdits : List ClassEdit :=
  [.define "Top" [] [("__len__", .function ⟨1, "f"⟩)],
   .define "Middle" [64] [("__len__", .function ⟨1, "f"⟩), ("__iter__", .function ⟨2, "g"⟩)],
   .define "Bottom" [65] [("__iter__", .function ⟨3, "h"⟩)]]

def covered : Context := (({} : Host).start .unchecked).1.run coveredEdits

/-- Lookups that have ended in the class in the middle find the same value further up. -/
theorem right_without_middle :
    (covered.graph.lookup 66 Slot.len.name).map Found.definer = some 65 ∧
    (covered.unregister 65).1.graph.TablesRight := by
  have hright : covered.graph.TablesRight :=
    tablesRight_of_no_write {} .unchecked (by decide) (by decide) (by decide)
  have hrun : (covered.graph.lookup 66 Slot.len.name).map Found.definer = some 65 ∧
      (covered.unregister 65).2.isOk = true ∧
      (∀ s ∈ Slot.all, (covered.graph.ownMember 65 s.name).isSome = true → s ∈ [.len, .iter]) ∧
      ∀ s ∈ [Slot.len, .iter], ∀ d ∈ covered.graph.ids, d ≠ 65 →
        (covered.graph.lookupPast 65 d s.name).map Found.value = covered.graph.resolve d s := by
    decide +kernel
  obtain ⟨hfound, hok, hown, hpast⟩ := hrun
  refine ⟨hfound, (Context.tablesRight_unregister_iff covered 65 hright hok).mpr ?_⟩
  exact replaceable_of_slots (fun s => hown s s.mem_all) hpast

def stackedEdits : List ClassEdit :=
  [.define "Above" [] [("__len__", .function ⟨1, "f"⟩)], .define "Below" [64] []]

def stacked : Context := (({} : Host).start .unchecked).1.run stackedEdits

/-- Taking a class away need not leave right tables right: the class below keeps its entry. -/
theorem not_right_after_unregister :
    ¬ ∀ (p : Host) (config : Config) (edits : List ClassEdit) (id : ClassId),
      ((p.start config).1.run edits).graph.TablesRight →
      (((p.start config).1.run edits).unregister id).2.isOk = true →
        (((p.start config).1.run edits).unregister id).1.graph.TablesRight := by
  intro hall
  have hright : stacked.graph.TablesRight :=
    tablesRight_of_no_write {} .unchecked (by decide) (by decide) (by decide)
  have hrun : (stacked.unregister 64).2.isOk = true ∧
      ((stacked.unregister 64).1.graph.cached 65 .len).any (fun v =>
        (stacked.unregister 64).1.graph.resolve 65 .len ≠ some v) = true := by decide +kernel
  obtain ⟨hok, hstale⟩ := hrun
  have hafter := hall {} .unchecked stackedEdits 64
  rw [← stacked] at hafter
  exact not_tablesRight_of_stale hstale (hafter hright hok)

end Host

end MethodCache
