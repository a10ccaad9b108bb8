import MethodCache.Proofs.Answering

/-!
Links and the record of construction over a run of changes, removals among them. Below each
registered class stand, in ascending order, exactly the registered classes that have it among
their bases, and the links form no cycle. Every class that a change begins to construct is
complete when the change ends, and every managed class has published its table by then, so no
update meets a class that it takes for complete and that has no table.
-/
namespace MethodCache

open ClassGraph Relation

namespace ClassGraph

/-- The links down from a registered class, read off the bases of all classes. -/
theorem WellFormed.subclasses_eq {g : ClassGraph} (hwf : g.WellFormed) {b : ClassId}
    (hb : g.contains b = true) :
    g.subclasses b = g.ids.filter fun d => b ∈ effectiveBases d (g.basesOf d) := by
  apply (g.subclasses_ascending b).eq_of_mem_iff (g.classes.keys_ascending.filter _)
  intro d
  have hlink : d ∈ g.subclasses b ↔ g.contains b = true ∧ g.Derives d b := hwf.links b d
  have hids : d ∈ g.classes.keys ↔ ∃ c, g.class? d = some c := by
    rw [← contains_iff]
    exact IndexMap.mem_keys
  rw [hlink, and_iff_right hb, List.mem_filter, hids, decide_eq_true_iff]
  constructor
  · rintro ⟨c, hc, hmem⟩
    exact ⟨⟨c, hc⟩, basesOf_of_class? hc ▸ hmem⟩
  · rintro ⟨⟨c, hc⟩, hmem⟩
    exact ⟨c, hc, basesOf_of_class? hc ▸ hmem⟩

theorem install_record (g : ClassGraph) (id : ClassId) (mayExtend : Bool) :
    (g.install id mayExtend).constructing = g.constructing ∧
    (g.install id mayExtend).tracksConstruction = g.tracksConstruction := by
  unfold install
  cases h : g.install? id mayExtend with
  | none => exact ⟨rfl, rfl⟩
  | some r =>
    obtain ⟨i, k⟩ := r
    obtain ⟨c, cell, -, -, -, rfl⟩ := install?_eq_some.mp h
    exact ⟨rfl, rfl⟩

theorem constructing_finish {g h : ClassGraph} {id : ClassId}
    (hrecord : h.constructing = (g.beginConstruction id).constructing)
    (htracks : h.tracksConstruction = g.tracksConstruction) :
    (h.finishConstruction id).constructing = g.constructing := by
  unfold finishConstruction
  unfold beginConstruction at hrecord
  rw [htracks]
  by_cases ht : g.tracksConstruction = true
  · rw [if_pos ht] at hrecord ⊢
    simp only [hrecord, List.erase_cons_head]
  · rw [if_neg ht] at hrecord ⊢
    exact hrecord

end ClassGraph

namespace Context

variable {c : Context}

theorem constructing_register (c : Context) (id : ClassId) (cls : ClassObject) :
    (c.register id cls).graph.constructing = c.graph.constructing := by
  obtain ⟨hrecord, htracks⟩ :=
    ((c.graph.beginConstruction id).insert id cls).install_record id c.config.extendsBase
  refine constructing_finish (h := (((c.graph.beginConstruction id).insert id cls).install id
    c.config.extendsBase).modify id (·.addFlags { initialized := true })) hrecord
    (htracks.trans ?_)
  unfold beginConstruction
  split <;> rfl

theorem constructing_writeMember (hwf : c.graph.WellFormed) (hpub : c.graph.Published)
    (id : ClassId) (name : String) (v : Option Value) :
    (c.writeMember id name v).1.graph.constructing = c.graph.constructing := by
  rcases writeMember_cases hwf hpub id name v with
    ⟨err, hans⟩ | ⟨cls, w, u, -, -, -, -, ⟨V, hu⟩, hans⟩
  · rw [hans]
    rfl
  · rw [hans]
    exact hu.retabled.constructing

theorem constructing_write (hs : c.graph.Sound) (id : ClassId) (name : String)
    (v : Option Value) : (c.write id name v).1.graph.constructing = c.graph.constructing := by
  unfold write
  split
  · rfl
  · rw [countWrite_graph]
    exact constructing_writeMember hs.wellFormed hs.published id name v

theorem constructing_setBases (hs : c.graph.Sound) (id : ClassId) (bases : List ClassId) :
    (c.setBases id bases).1.graph.constructing = c.graph.constructing := by
  rcases setBases_cases hs id bases with ⟨err, hans⟩ | ⟨changed, k, u, hm, hok, hdone, hans⟩
  · rw [hans]
    rfl
  · obtain ⟨u', V, hdone', r, -, hu⟩ := hs.exists_basesReplaced hm hok
    obtain rfl : u = u' := congrArg Prod.fst (hdone.symm.trans hdone')
    rw [hans]
    exact hu.retabled.constructing.trans r.constructing

theorem constructing_apply (hs : c.graph.Sound) (e : ClassEdit) :
    (c.apply e).graph.constructing = c.graph.constructing := by
  cases e with
  | define name bases members =>
    simp only [apply, define, defineWith]
    split
    · rfl
    · exact constructing_register _ _ _
  | defineForeign name bases members readOnly =>
    simp only [apply, defineForeign, defineWith]
    split <;> rfl
  | setMember id name v => exact constructing_write hs id name (some v)
  | deleteMember id name => exact constructing_write hs id name none
  | setBases id bases => exact constructing_setBases hs id bases
  | unregister id =>
    simp only [apply, unregister]
    split
    · rfl
    · unfold remove
      split <;> rfl

theorem constructing_run (hs : c.graph.Sound) {edits : List ClassEdit}
    (hids : c.HasIdsFor edits) : (c.run edits).graph.constructing = c.graph.constructing := by
  induction edits generalizing c with
  | nil => rfl
  | cons e rest ih =>
    exact (ih (hs.step hids.head (c.apply_step e)) (hids.tail hs)).trans (constructing_apply hs e)

/-! The record of construction when a context starts. -/

theorem constructing_withBuiltins (id : ContextId) (config : Config) :
    (withBuiltins id config).graph.constructing = [] := by
  have hall : ∀ (ts : List BuiltinType) (c : Context),
      (ts.foldl addBuiltin c).graph.constructing = c.graph.constructing := by
    intro ts
    induction ts with
    | nil => exact fun c => rfl
    | cons t rest ih =>
      exact fun c => (ih _).trans (constructing_register c t.classId (c.builtinClass t))
  exact hall BuiltinType.all (empty id config)

theorem constructing_freezeBuiltin (p : c.graph.Holds BuiltinType.all.reverse)
    (t : BuiltinType) : (c.freezeBuiltin t).graph.constructing = c.graph.constructing := by
  have hall : ∀ (slots : List Slot) (c : Context), c.graph.Holds BuiltinType.all.reverse →
      (slots ≠ [] → t.lateSlots ≠ []) →
      (slots.foldl (fun c s => (c.writeMember t.classId s.name
        (some (c.functionFor ⟨t, s⟩))).1) c).graph.constructing = c.graph.constructing := by
    intro slots
    induction slots with
    | nil => exact fun c _ _ => rfl
    | cons s rest ih =>
      intro c p hlate
      have hl := hlate (List.cons_ne_nil s rest)
      refine (ih _ (holds_writeLate p hl s _).1 fun _ => hl).trans ?_
      exact constructing_writeMember p.wellFormed (exact_iff.mp p.exact).1 _ _ _
  exact hall t.lateSlots c p fun h => h

theorem constructing_freezeAll (ts : List BuiltinType)
    (p : c.graph.Holds BuiltinType.all.reverse) :
    (ts.foldl freezeBuiltin c).graph.constructing = c.graph.constructing := by
  induction ts generalizing c with
  | nil => rfl
  | cons t rest ih =>
    exact (ih (holds_freeze t p).1).trans (constructing_freezeBuiltin p t)

end Context

namespace Host

theorem constructing_start (p : Host) (config : Config) :
    (p.start config).1.graph.constructing = [] := by
  rw [graph_start, Context.constructing_freezeAll _ (Context.holds_withBuiltins _ _)]
  exact Context.constructing_withBuiltins _ _

/-- Over any run that leaves ids to the context, the links down from a registered class are those
that the bases of all classes demand, in ascending order; the links form no cycle; no class is left
under construction; every managed class has published a table; and no change stops half way. -/
theorem linked_along_run (p : Host) (config : Config) (edits : List ClassEdit)
    (hids : edits.countP ClassEdit.isDefinition < ClassId.available) :
    (∀ b, ((p.start config).1.run edits).graph.contains b = true →
      ((p.start config).1.run edits).graph.subclasses b =
        ((p.start config).1.run edits).graph.ids.filter fun d =>
          b ∈ effectiveBases d (((p.start config).1.run edits).graph.basesOf d)) ∧
    (∀ a, ¬ TransGen ((p.start config).1.run edits).graph.Link a a) ∧
    ((p.start config).1.run edits).graph.constructing = [] ∧
    (∀ d, ((p.start config).1.run edits).graph.Managed d →
      (((p.start config).1.run edits).graph.table? d).isSome = true) ∧
    ∀ e f, ((p.start config).1.run edits).answer e ≠ .error (.stopped f) := by
  have hrun := p.sound_run config hids
  refine ⟨fun b hb => hrun.wellFormed.subclasses_eq hb, hrun.wellFormed.acyclic, ?_,
    hrun.published, ?_⟩
  · rw [Context.constructing_run (p.start_sound config).1 (p.hasIdsFor_start config hids),
      p.constructing_start]
  · intro e f h
    obtain ⟨err, hf⟩ := Context.refused_of_error hrun h
    simp at hf

/-- Two classes with a class below both, one of which is moved below the other. -/
def movedEdits : List ClassEdit :=
  [.define "Left" [] [], .define "Right" [] [], .define "Bottom" [65, 64] [], .setBases 65 [64]]

def moved : Context := (({} : Host).start .unchecked).1.run movedEdits

/-- The class that was moved is linked below the other one and no longer below the root, and the
class below both is linked as before; without the other one, nothing else changes. -/
theorem moved_linked :
    moved.graph.subclasses 64 = [65, 66] ∧ moved.graph.subclasses 65 = [66] ∧
    65 ∉ moved.graph.subclasses ClassId.root ∧
    (moved.apply (.unregister 64)).graph.subclasses 65 = [66] := by
  have hrun : (∀ b ∈ [64, 65, ClassId.root], moved.graph.contains b = true) ∧
      (moved.graph.ids.filter fun d => 64 ∈ effectiveBases d (moved.graph.basesOf d)) = [65, 66] ∧
      (moved.graph.ids.filter fun d => 65 ∈ effectiveBases d (moved.graph.basesOf d)) = [66] ∧
      65 ∉ moved.graph.ids.filter
        (fun d => ClassId.root ∈ effectiveBases d (moved.graph.basesOf d)) ∧
      (moved.apply (.unregister 64)).graph.contains 65 = true ∧
      ((moved.apply (.unregister 64)).graph.ids.filter fun d =>
        65 ∈ effectiveBases d ((moved.apply (.unregister 64)).graph.basesOf d)) = [66] := by
    decide +kernel
  obtain ⟨hthere, htop, hmiddle, hroot, hreg, hleft⟩ := hrun
  obtain ⟨hlinks, -⟩ := linked_along_run {} .unchecked movedEdits (by decide)
  obtain ⟨hlinks', -⟩ :=
    linked_along_run {} .unchecked (movedEdits ++ [.unregister 64]) (by decide)
  rw [Context.run_snoc] at hlinks'
  rw [← moved] at hlinks hlinks'
  rw [hlinks 64 (hthere 64 (by simp)), hlinks 65 (hthere 65 (by simp)),
    hlinks ClassId.root (hthere _ (by simp)), hlinks' 65 hreg]
  exact ⟨htop, hmiddle, hroot, hleft⟩

end Host

end MethodCache
