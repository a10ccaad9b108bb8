import Mathlib.Data.List.Nodup
import Mathlib.Data.List.Sort
import Mathlib.Logic.Relation
import MethodCache.Graph.Rebase

/-!
The links of a class graph. Linking and unlinking change exactly the links they name, and the
classes found below a class are those that a chain of links leads to. In a graph whose links form
no cycle every class has a height, the number of classes below it, and the height falls along
each link; the walks down the links are bounded by it.
-/
namespace MethodCache.ClassGraph

open Relation

def listed (links : IndexMap IndexSet) (b : ClassId) : List ClassId :=
  ((links.get? b).map IndexSet.toList).getD []

theorem subclasses_eq_listed (g : ClassGraph) (b : ClassId) :
    g.subclasses b = listed g.links b := rfl

theorem mem_listed_add {links : IndexMap IndexSet} {id a b d : ClassId} :
    d ∈ listed (links.insert a (((links.get? a).getD .empty).add id)) b ↔
      d ∈ listed links b ∨ (d = id ∧ b = a) := by
  unfold listed
  rw [IndexMap.get?_insert]
  by_cases hb : a = b
  · subst hb
    simp only [if_true, Option.map_some, Option.getD_some, IndexSet.mem_toList_add]
    cases links.get? a with
    | none => simp [IndexMap.empty, IndexSet.toList, IndexMap.keys]
    | some s => simp [or_comm]
  · rw [if_neg hb]
    simp [Ne.symm hb]

theorem mem_listed_erase {links : IndexMap IndexSet} {id a b d : ClassId} :
    d ∈ listed (links.modify a (·.erase id)) b ↔
      d ∈ listed links b ∧ ¬ (d = id ∧ b = a) := by
  unfold listed
  rw [IndexMap.get?_modify]
  by_cases hb : a = b
  · subst hb
    rw [if_pos rfl]
    cases links.get? a with
    | none => simp
    | some s => simp [IndexSet.mem_toList_erase, and_comm]
  · rw [if_neg hb]
    simp [Ne.symm hb]

theorem mem_subclasses_link {g : ClassGraph} {id b d : ClassId} {bases : List ClassId} :
    d ∈ (g.link id bases).subclasses b ↔ d ∈ g.subclasses b ∨ (d = id ∧ b ∈ bases) := by
  simp only [subclasses_eq_listed, link]
  induction bases generalizing g with
  | nil => simp
  | cons a rest ih =>
    rw [List.foldl_cons]
    have hrest := ih (g := g.link id [a])
    simp only [link, List.foldl_cons, List.foldl_nil] at hrest
    rw [hrest, mem_listed_add]
    simp only [List.mem_cons]
    tauto

theorem mem_subclasses_unlink {g : ClassGraph} {id b d : ClassId} {bases : List ClassId} :
    d ∈ (g.unlink id bases).subclasses b ↔ d ∈ g.subclasses b ∧ ¬ (d = id ∧ b ∈ bases) := by
  simp only [subclasses_eq_listed, unlink]
  induction bases generalizing g with
  | nil => simp
  | cons a rest ih =>
    rw [List.foldl_cons]
    have hrest := ih (g := g.unlink id [a])
    simp only [unlink, List.foldl_cons, List.foldl_nil] at hrest
    rw [hrest, mem_listed_erase]
    simp only [List.mem_cons]
    tauto

theorem subclasses_ascending (g : ClassGraph) (b : ClassId) :
    (g.subclasses b).Pairwise (· < ·) := by
  unfold subclasses
  cases g.links.get? b with
  | none => exact .nil
  | some s => exact s.keys_ascending

theorem subclasses_nodup (g : ClassGraph) (b : ClassId) : (g.subclasses b).Nodup :=
  (g.subclasses_ascending b).imp fun h => Nat.ne_of_lt h

def Link (g : ClassGraph) (b d : ClassId) : Prop := d ∈ g.subclasses b

theorem subclasses_of_link {g h : ClassGraph} {b : ClassId}
    (hlink : ∀ d, h.Link b d ↔ g.Link b d) : h.subclasses b = g.subclasses b :=
  (h.subclasses_ascending b).eq_of_mem_iff (g.subclasses_ascending b) hlink

theorem link_congr {g h : ClassGraph} (hlinks : h.links = g.links) : h.Link = g.Link := by
  funext b d
  unfold Link subclasses
  rw [hlinks]

theorem mem_linked_of_link {g : ClassGraph} {b d : ClassId} (h : g.Link b d) : d ∈ g.linked := by
  unfold Link subclasses at h
  cases hs : g.links.get? b with
  | none => simp [hs] at h
  | some s =>
    simp only [hs, Option.map_some, Option.getD_some] at h
    unfold linked
    rw [List.mem_eraseDups, List.mem_flatMap]
    exact ⟨(b, s), IndexMap.mem_of_find hs, h⟩

theorem nodup_eraseDups {α : Type} [BEq α] [LawfulBEq α] (l : List α) : l.eraseDups.Nodup := by
  induction hn : l.length using Nat.strongRecOn generalizing l with
  | ind n ih =>
    cases l with
    | nil => simp
    | cons a as =>
      rw [List.eraseDups_cons]
      have hlen : (as.filter fun b => !b == a).length < n := by
        have hle := List.length_filter_le (fun b => !b == a) as
        rw [List.length_cons] at hn
        omega
      refine List.nodup_cons.mpr ⟨?_, ih _ hlen _ rfl⟩
      rw [List.mem_eraseDups]
      simp

theorem eraseDups_of_nodup {α : Type} [BEq α] [LawfulBEq α] {l : List α} (hnd : l.Nodup) :
    l.eraseDups = l := by
  induction l with
  | nil => rfl
  | cons a l ih =>
    obtain ⟨ha, hl⟩ := List.nodup_cons.mp hnd
    have hsame : (l.filter fun b => !b == a) = l := by
      apply List.filter_eq_self.mpr
      intro b hb
      have hne : b ≠ a := fun heq => ha (heq ▸ hb)
      simpa using hne
    rw [List.eraseDups_cons, hsame, ih hl]

theorem linked_nodup (g : ClassGraph) : g.linked.Nodup := nodup_eraseDups _

/-! The search for descendants. -/

/-- What a search meets that may list the classes `unseen` and starts with a queue. -/
inductive Met (g : ClassGraph) (unseen queue : List ClassId) : ClassId → Prop
  | start {d : ClassId} (hq : d ∈ queue) (hu : d ∈ unseen) : Met g unseen queue d
  | down {b d : ClassId} (hb : Met g unseen queue b) (hl : g.Link b d) (hu : d ∈ unseen) :
      Met g unseen queue d

theorem Met.mem_unseen {g : ClassGraph} {unseen queue : List ClassId} {d : ClassId}
    (h : g.Met unseen queue d) : d ∈ unseen := by
  cases h with
  | start hq hu => exact hu
  | down hb hl hu => exact hu

theorem Met.mono {g : ClassGraph} {unseen unseen' queue queue' : List ClassId} {d : ClassId}
    (h : g.Met unseen queue d) (hu : unseen ⊆ unseen')
    (hq : ∀ a ∈ queue, a ∈ unseen → g.Met unseen' queue' a) : g.Met unseen' queue' d := by
  induction h with
  | start hmem hseen => exact hq _ hmem hseen
  | down hb hl hseen ih => exact ih.down hl (hu hseen)

/-- Taking a class that was not listed before adds the class and what lies below it. -/
theorem met_cons_of_mem {g : ClassGraph} {unseen queue : List ClassId} {next d : ClassId}
    (hnext : next ∈ unseen) :
    g.Met unseen (next :: queue) d ↔
      d = next ∨ g.Met (unseen.erase next) (queue ++ g.subclasses next) d := by
  constructor
  · intro h
    induction h with
    | @start a hq hu =>
      by_cases ha : a = next
      · exact Or.inl ha
      · have haq := (List.mem_cons.mp hq).resolve_left ha
        exact Or.inr (.start (List.mem_append_left _ haq) ((List.mem_erase_of_ne ha).mpr hu))
    | @down b a hb hl hu ih =>
      by_cases ha : a = next
      · exact Or.inl ha
      · have hseen := (List.mem_erase_of_ne ha).mpr hu
        rcases ih with rfl | hmet
        · exact Or.inr (.start (List.mem_append_right _ hl) hseen)
        · exact Or.inr (hmet.down hl hseen)
  · have hself : g.Met unseen (next :: queue) next := .start List.mem_cons_self hnext
    rintro (rfl | h)
    · exact hself
    · apply h.mono List.erase_subset
      intro a ha hseen
      have hu := List.mem_of_mem_erase hseen
      rcases List.mem_append.mp ha with ha | ha
      · exact .start (List.mem_cons_of_mem next ha) hu
      · exact hself.down ha hu

theorem met_cons_of_not_mem {g : ClassGraph} {unseen queue : List ClassId} {next d : ClassId}
    (hnext : next ∉ unseen) : g.Met unseen (next :: queue) d ↔ g.Met unseen queue d := by
  constructor
  · intro h
    apply h.mono (List.Subset.refl unseen)
    intro a ha hseen
    rcases List.mem_cons.mp ha with rfl | ha
    · exact absurd hseen hnext
    · exact .start ha hseen
  · intro h
    apply h.mono (List.Subset.refl unseen)
    intro a ha hseen
    exact .start (List.mem_cons_of_mem next ha) hseen

/-- The search lists exactly what it meets. -/
theorem mem_explore {g : ClassGraph} {unseen queue : List ClassId} {d : ClassId} :
    d ∈ g.explore unseen queue ↔ g.Met unseen queue d := by
  fun_induction explore g unseen queue with
  | case1 unseen =>
    constructor
    · intro h
      simp at h
    · intro h
      have hnone : ∀ a, ¬ g.Met unseen [] a := by
        intro a ha
        induction ha with
        | start hq hu => simp at hq
        | down hb hl hu ih => exact ih
      exact absurd h (hnone d)
  | case2 unseen next queue hnext ih =>
    rw [List.mem_cons, ih, met_cons_of_mem hnext]
  | case3 unseen next queue hnext ih =>
    rw [ih, met_cons_of_not_mem hnext]

theorem explore_nodup {g : ClassGraph} {unseen queue : List ClassId} (h : unseen.Nodup) :
    (g.explore unseen queue).Nodup := by
  fun_induction explore g unseen queue with
  | case1 unseen => exact List.nodup_nil
  | case2 unseen next queue hnext ih =>
    refine List.nodup_cons.mpr ⟨?_, ih (h.erase next)⟩
    intro hmem
    exact h.not_mem_erase (mem_explore.mp hmem).mem_unseen
  | case3 unseen next queue hnext ih => exact ih h

/-- The classes below a class are those other than itself that a chain of links leads to. -/
theorem mem_descendants {g : ClassGraph} {id d : ClassId} :
    d ∈ g.descendants id ↔ d ≠ id ∧ TransGen g.Link id d := by
  have hunseen : ∀ a, a ∈ g.linked.filter (· ≠ id) ↔ a ∈ g.linked ∧ a ≠ id := by simp
  rw [descendants, mem_explore]
  constructor
  · intro h
    refine ⟨((hunseen d).mp h.mem_unseen).2, ?_⟩
    induction h with
    | start hq hu => exact TransGen.single hq
    | down hb hl hu ih => exact ih.tail hl
  · rintro ⟨hne, h⟩
    have hmet : ∀ a, TransGen g.Link id a → a = id ∨
        g.Met (g.linked.filter (· ≠ id)) (g.subclasses id) a := by
      intro a ha
      induction ha with
      | @single a hl =>
        by_cases heq : a = id
        · exact Or.inl heq
        · exact Or.inr (.start hl ((hunseen a).mpr ⟨mem_linked_of_link hl, heq⟩))
      | @tail b a hb hl ih =>
        by_cases heq : a = id
        · exact Or.inl heq
        · have hu := (hunseen a).mpr ⟨mem_linked_of_link hl, heq⟩
          rcases ih with rfl | hmetb
          · exact Or.inr (.start hl hu)
          · exact Or.inr (hmetb.down hl hu)
    exact (hmet d h).resolve_left hne

theorem descendants_nodup (g : ClassGraph) (id : ClassId) : (g.descendants id).Nodup :=
  explore_nodup (g.linked_nodup.filter _)

/-! Graphs without cycles. -/

/-- No chain of links leads from a class back to it. -/
def Acyclic (g : ClassGraph) : Prop := ∀ a, ¬ TransGen g.Link a a

theorem Acyclic.congr {g h : ClassGraph} (hac : g.Acyclic) (hlinks : h.links = g.links) :
    h.Acyclic := by
  unfold Acyclic
  rw [link_congr hlinks]
  exact hac

/-- Graphs that are linked alike, but for the links to a class, have the same classes below it,
since no chain of links leads from the class back to it. -/
theorem chain_iff_of_links {g h : ClassGraph} {id : ClassId} (hac : g.Acyclic) (hac' : h.Acyclic)
    (hlinks : ∀ b d, d ≠ id → (h.Link b d ↔ g.Link b d)) (d : ClassId) :
    TransGen h.Link id d ↔ TransGen g.Link id d := by
  have hmono : ∀ k l : ClassGraph, k.Acyclic → (∀ b d, d ≠ id → k.Link b d → l.Link b d) →
      ∀ d, TransGen k.Link id d → TransGen l.Link id d := by
    intro k l hk hkl d hd
    have hne : ∀ a, TransGen k.Link id a → a ≠ id := by
      rintro a ha rfl
      exact hk a ha
    induction hd with
    | single hl => exact .single (hkl id _ (hne _ (.single hl)) hl)
    | tail hb hl ih => exact ih.tail (hkl _ _ (hne _ (hb.tail hl)) hl)
  exact ⟨hmono h g hac' (fun b d hd => (hlinks b d hd).mp) d,
    hmono g h hac (fun b d hd => (hlinks b d hd).mpr) d⟩

open Classical in
/-- The number of classes below a class. -/
noncomputable def height (g : ClassGraph) (a : ClassId) : ℕ :=
  (g.linked.filter fun d => TransGen g.Link a d).length

theorem height_le (g : ClassGraph) (a : ClassId) : g.height a ≤ g.linked.length :=
  List.length_filter_le _ _

theorem height_lt_of_link {g : ClassGraph} (hac : g.Acyclic) {a d : ClassId}
    (h : g.Link a d) : g.height d < g.height a := by
  classical
  unfold height
  have hsub : ∀ x, TransGen g.Link d x → TransGen g.Link a x :=
    fun x hx => TransGen.head h hx
  have hd : d ∈ g.linked.filter fun x => TransGen g.Link a x := by
    simpa using ⟨mem_linked_of_link h, TransGen.single h⟩
  have hle : (g.linked.filter fun x => TransGen g.Link d x).Sublist
      ((g.linked.filter fun x => TransGen g.Link a x).erase d) := by
    rw [(g.linked_nodup.filter _).erase_eq_filter, List.filter_filter]
    apply List.monotone_filter_right
    intro x hx
    have hdx : TransGen g.Link d x := by simpa using hx
    have hne : x ≠ d := by
      rintro rfl
      exact hac x hdx
    simpa using ⟨hne, hsub x hdx⟩
  have hlen := hle.length_le
  rw [List.length_erase_of_mem hd] at hlen
  have hpos := List.length_pos_of_mem hd
  omega

end MethodCache.ClassGraph
