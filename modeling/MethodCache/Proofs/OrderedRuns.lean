import MethodCache.Proofs.Starting

/-!
Linearizations and links over a run of changes. As long as no class is taken away, every class
stands as its bases demand, and its linearization holds the class and all that it derives from.
Taking a class away cuts the links through it but leaves it in the linearizations below, so the
classes found below a class are those that derive from it through classes that are still there.
-/
namespace MethodCache

open Relation

namespace ClassGraph

theorem Derives.contains_base {g : ClassGraph} (hwf : g.WellFormed) (hcl : g.Closed)
    {d b : ClassId} (h : g.Derives d b) : g.contains b = true := by
  obtain ⟨c, hc, hb⟩ := h
  rcases mem_effectiveBases.mp hb with hb | ⟨-, -, rfl⟩
  · exact hcl d c hc b hb
  · exact hwf.contains_root

theorem sublist_of_derives {g : ClassGraph} (hwf : g.WellFormed) (hcl : g.Closed)
    {d a : ClassId} (h : ReflTransGen g.Derives d a) : (g.mro a).Sublist (g.mro d) := by
  induction h with
  | refl => exact List.Sublist.refl _
  | @tail b a _ hd ih =>
    obtain ⟨e, he⟩ := contains_iff.mp (hd.contains_base hwf hcl)
    obtain ⟨c, hc, hmem⟩ := hd
    have hnested := (hwf.placed b c hc).nested a hmem e.mro (mro?_of_class? he)
    rw [mro_of_class? he]
    apply List.Sublist.trans _ ih
    rw [mro_of_class? hc]
    exact hnested.trans (List.tail_sublist _)

theorem mem_mro_iff {g : ClassGraph} (hwf : g.WellFormed) (hcl : g.Closed) {d a : ClassId}
    (hd : g.contains d = true) : a ∈ g.mro d ↔ ReflTransGen g.Derives d a := by
  constructor
  · intro ha
    have hall : ∀ x ∈ g.mro d, g.contains x = true := fun x hx => contains_of_mem_mro hwf hcl hx
    rcases hwf.derives_of_mem_mro hall ha with rfl | hchain
    · exact .refl
    · exact hchain.to_reflTransGen
  · intro h
    have hsub := sublist_of_derives hwf hcl h
    have ha : g.contains a = true := by
      cases h with
      | refl => exact hd
      | tail _ hlast => exact hlast.contains_base hwf hcl
    obtain ⟨e, he⟩ := contains_iff.mp ha
    apply hsub.subset
    rw [mro_of_class? he]
    exact hwf.mem_of_mro? (mro?_of_class? he)

end ClassGraph

namespace Host

open ClassGraph

/-- Over a run that takes no class away, each class is linearized from its bases as they stand:
it comes first and the root last, nothing stands twice, what stands there is what the class
derives from, and each of these classes has its own linearization within. -/
theorem linearized_along_run (p : Host) (config : Config) (edits : List ClassEdit)
    (hids : edits.countP ClassEdit.isDefinition < ClassId.available)
    (hkeeps : ∀ e ∈ edits, e.isRemoval = false) (id : ClassId) (c : ClassObject)
    (hc : ((p.start config).1.run edits).graph.class? id = some c) :
    linearize id c.bases ((p.start config).1.run edits).graph.mro? = .ok c.mro ∧
    c.mro.head? = some id ∧ c.mro.getLast? = some ClassId.root ∧ c.mro.Nodup ∧
    (∀ a, a ∈ c.mro ↔ ReflTransGen ((p.start config).1.run edits).graph.Derives id a) ∧
    ∀ a ∈ c.mro, ∃ e, ((p.start config).1.run edits).graph.class? a = some e ∧
      e.mro.Sublist c.mro := by
  have hwf := (p.sound_run config hids).wellFormed
  have hcl := p.closed_run config hids hkeeps
  have q := hwf.placed id c hc
  have hmro := mro_of_class? hc
  refine ⟨?_, ?_, q.last, q.nodup, ?_, ?_⟩
  · apply q.linearized
    intro b hb
    rw [mro?_isSome]
    exact hcl id c hc b hb
  · rw [q.cons, List.head?_cons]
  · intro a
    rw [← hmro]
    exact mem_mro_iff hwf hcl (contains_of_class? hc)
  · intro a ha
    rw [← hmro] at ha
    obtain ⟨e, he⟩ := contains_iff.mp (contains_of_mem_mro hwf hcl ha)
    refine ⟨e, he, ?_⟩
    have hsub := sublist_of_derives hwf hcl ((mem_mro_iff hwf hcl (contains_of_class? hc)).mp ha)
    rwa [mro_of_class? he, hmro] at hsub

/-- A class outside of the object system stands above two others. The one in the middle gets a
second base, and to put the one at the top below the one at the bottom is refused. -/
def hungEdits : List ClassEdit :=
  [.defineForeign "Outside" [] [] false, .define "Middle" [64] [], .define "Bottom" [65] [],
    .define "Beside" [] [], .setBases 65 [64, 67], .setBases 64 [66]]

def hung : Context := (({} : Host).start .unchecked).1.run hungEdits

/-- The class at the bottom has taken the second base of the one in the middle into its order. -/
theorem hung_linearized :
    (((({} : Host).start .unchecked).1.run (hungEdits.take 5)).setBases 64 [66]).2 =
        .error (.refused (.linearization (.cycle 64 66))) ∧
      ∃ c, hung.graph.class? 66 = some c ∧ c.mro = [66, 65, 64, 67, ClassId.root] ∧
        linearize 66 c.bases hung.graph.mro? = .ok c.mro ∧
        ReflTransGen hung.graph.Derives 66 67 := by
  have hrefused : (((({} : Host).start .unchecked).1.run (hungEdits.take 5)).setBases 64 [66]).2 =
      .error (.refused (.linearization (.cycle 64 66))) := by decide +kernel
  have horder : (hung.graph.class? 66).map ClassObject.mro =
      some [66, 65, 64, 67, ClassId.root] := by decide +kernel
  obtain ⟨c, hc, hmro⟩ := Option.map_eq_some_iff.mp horder
  obtain ⟨hlin, -, -, -, hderives, -⟩ :=
    linearized_along_run {} .unchecked hungEdits (by decide) (by decide) 66 c hc
  rw [← hung] at hlin hderives
  refine ⟨hrefused, c, hc, hmro, hlin, (hderives 67).mp ?_⟩
  rw [hmro]
  decide

/-- Over any run that leaves ids to the context, the classes found below a class are those that
derive from it through classes that are still there. Each of them has the class in its
linearization, and as long as all classes of a linearization are there, it is found below each of
them. -/
theorem mem_descendants_along_run (p : Host) (config : Config) (edits : List ClassEdit)
    (hids : edits.countP ClassEdit.isDefinition < ClassId.available)
    (b d : ClassId) (hne : b ≠ d) (hb : ((p.start config).1.run edits).graph.contains b = true) :
    (d ∈ ((p.start config).1.run edits).graph.descendants b ↔
      TransGen ((p.start config).1.run edits).graph.Derives d b) ∧
    (d ∈ ((p.start config).1.run edits).graph.descendants b →
      b ∈ ((p.start config).1.run edits).graph.mro d) ∧
    ((∀ a ∈ ((p.start config).1.run edits).graph.mro d,
        ((p.start config).1.run edits).graph.contains a = true) →
      b ∈ ((p.start config).1.run edits).graph.mro d →
        d ∈ ((p.start config).1.run edits).graph.descendants b) := by
  have hwf := (p.sound_run config hids).wellFormed
  have hiff : d ∈ ((p.start config).1.run edits).graph.descendants b ↔
      TransGen ((p.start config).1.run edits).graph.Derives d b := by
    rw [mem_descendants, hwf.chain_iff hb]
    exact and_iff_right (Ne.symm hne)
  refine ⟨hiff, ?_, ?_⟩
  · intro hd
    exact hwf.mem_mro_of_derives hb (hiff.mp hd)
  · intro hall hmem
    exact hiff.mpr ((hwf.derives_of_mem_mro hall hmem).resolve_left hne)

/-- Three classes in a row, of which the one in the middle is to be taken away. -/
def rowEdits : List ClassEdit :=
  [.define "Top" [] [], .define "Middle" [64] [], .define "Bottom" [65] []]

def row : Context := (({} : Host).start .unchecked).1.run rowEdits

/-- While the class in the middle is there, the one at the bottom is found below the top. -/
theorem uncut_found : 66 ∈ row.graph.descendants 64 := by
  have hrun : row.graph.mro 66 = [66, 65, 64, 0] ∧
      ∀ a ∈ [66, 65, 64, 0], row.graph.contains a = true := by decide +kernel
  obtain ⟨hmro, hall⟩ := hrun
  obtain ⟨-, -, hfound⟩ := mem_descendants_along_run {} .unchecked rowEdits (by decide) 64 66
    (by decide) (hall 64 (by decide))
  rw [← row, hmro] at hfound
  exact hfound hall (by decide)

def cut : Context := (({} : Host).start .unchecked).1.run (rowEdits ++ [.unregister 65])

/-- A class that stands in the linearization of another need not find it below itself. -/
theorem cut_not_found :
    ¬ ∀ (p : Host) (config : Config) (edits : List ClassEdit) (b d : ClassId), b ≠ d →
      ((p.start config).1.run edits).graph.contains b = true →
      ((p.start config).1.run edits).graph.contains d = true →
      b ∈ ((p.start config).1.run edits).graph.mro d →
        d ∈ ((p.start config).1.run edits).graph.descendants b := by
  intro hall
  have hrun : cut.graph.mro 66 = [66, 65, 64, 0] ∧
      (∀ a ∈ [64, 66], cut.graph.contains a = true) ∧ cut.graph.subclasses 64 = [] := by
    decide +kernel
  obtain ⟨hmro, hthere, hnone⟩ := hrun
  have hfound := hall {} .unchecked (rowEdits ++ [.unregister 65]) 64 66 (by decide)
  rw [← cut, hmro] at hfound
  obtain ⟨-, hchain⟩ :=
    mem_descendants.mp (hfound (hthere 64 (by decide)) (hthere 66 (by decide)) (by decide))
  obtain ⟨x, hlink, -⟩ := TransGen.head'_iff.mp hchain
  unfold Link at hlink
  rw [hnone] at hlink
  simp at hlink

end Host

end MethodCache
