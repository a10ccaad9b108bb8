import MethodCache.Proofs.BuiltinClasses

/-!
How a context comes by its built-in classes. Each class is registered with the slots that its type
defines from the start, and late slots are written to their classes one by one before these are
frozen. Nothing that happens to one of the classes touches another, so in the end every type has
all of its slots, and its table answers as looking up does.
-/
namespace MethodCache

namespace Context

open ClassGraph

/-! Registering the classes. -/

section Adding

variable {c : Context} {t u : BuiltinType}

theorem stocked_addBuiltin_self (c : Context) (t : BuiltinType) :
    (c.addBuiltin t).graph.Stocked c.id t t.installedSlots := by
  have hinsert : (c.graph.insert t.classId (c.builtinClass t)).Stocked c.id t t.installedSlots :=
    ⟨_, class?_insert_self _ _ _, rfl, rfl,
      Members.get?_ofList_slots (fun s => c.functionFor ⟨t, s⟩) t.installedSlots⟩
  have hinstall := install_of_managed hinsert.isManaged c.config.extendsBase
  apply Stocked.reflagged _ (graph_addBuiltin c t).reflagged
  rw [hinstall]
  exact hinsert.retabled (retabled_publish _ _ _)

theorem stocked_addBuiltin {id : ContextId} {slots : List Slot} (q : c.graph.Stocked id t slots)
    (hne : t ≠ u) : (c.addBuiltin u).graph.Stocked id t slots := by
  apply q.congr
  apply (graph_addBuiltin c u).others
  rwa [Ne, BuiltinType.classId_inj]

theorem stocked_addAll (ts : List BuiltinType)
    (h : t ∈ ts ∨ c.graph.Stocked c.id t t.installedSlots) :
    (ts.foldl addBuiltin c).graph.Stocked c.id t t.installedSlots := by
  induction ts generalizing c with
  | nil => exact h.resolve_left (by simp)
  | cons u rest ih =>
    apply ih (c := c.addBuiltin u)
    by_cases htu : t = u
    · subst htu
      exact Or.inr (stocked_addBuiltin_self c t)
    · refine h.imp (fun hmem => (List.mem_cons.mp hmem).resolve_left htu) fun q => ?_
      exact stocked_addBuiltin q htu

end Adding

theorem equipped_withBuiltins (id : ContextId) (config : Config) :
    (withBuiltins id config).graph.Equipped id BuiltinType.installedSlots :=
  (holds_withBuiltins id config).equipped fun t =>
    stocked_addAll (c := empty id config) BuiltinType.all (Or.inl t.mem_all)

/-! Late slots. -/

/-- What step by step is a matter of the graph alone is so as a whole. -/
theorem foldl_fst {α : Type} {f : Context → α → Context}
    (hf : ∀ c a, ∃ g, f c a = { c with graph := g }) (l : List α) (c : Context) :
    ∃ g, l.foldl f c = { c with graph := g } := by
  induction l generalizing c with
  | nil => exact ⟨_, rfl⟩
  | cons a rest ih =>
    obtain ⟨g, hg⟩ := hf c a
    obtain ⟨g', hg'⟩ := ih (f c a)
    exact ⟨g', by rw [List.foldl_cons, hg', hg]⟩

theorem freezeBuiltin_fst (c : Context) (t : BuiltinType) :
    ∃ g, c.freezeBuiltin t = { c with graph := g } := by
  obtain ⟨g, hg⟩ := foldl_fst (f := fun (c : Context) s =>
      (c.writeMember t.classId s.name (some (c.functionFor ⟨t, s⟩))).1)
    (fun c s => c.writeMember_fst _ _ _) t.lateSlots c
  unfold freezeBuiltin
  simp only [hg]
  exact ⟨_, rfl⟩

/-- Every built-in class has the slots given for it, as function objects of the context. -/
def Stocks (c : Context) (defines : BuiltinType → List Slot) : Prop :=
  ∀ t, c.graph.Stocked c.id t (defines t)

section Late

variable {c : Context} {defines : BuiltinType → List Slot}

theorem Stocks.congr (q : c.Stocks defines) {defines' : BuiltinType → List Slot}
    (hsame : ∀ t s, s ∈ defines' t ↔ s ∈ defines t) : c.Stocks defines' :=
  fun t => (q t).congr_slots (hsame t)

/-- A late slot comes to the slots of its type, and other types stay as they are. -/
theorem stocks_writeLate (hwf : c.graph.WellFormed) (hpub : c.graph.Published)
    (q : c.Stocks defines) (u : BuiltinType) (s : Slot) :
    (c.writeMember u.classId s.name (some (c.functionFor ⟨u, s⟩))).1.Stocks
      fun t => if t = u then s :: defines t else defines t := by
  obtain ⟨cls, hcls, hb, hf, hmem⟩ := q u
  obtain ⟨w, hw⟩ : ∃ w, cls.writeMember? s.name (some (c.functionFor ⟨u, s⟩)) = some w := by
    obtain ⟨cell, hk⟩ := ClassObject.isForeign_eq_false_iff.mp hf
    exact ⟨_, by rw [ClassObject.writeMember?, hk]⟩
  have r := written_modify hcls hw
  obtain ⟨k, V, hdone, hk⟩ := memberWritten_ok u.classId s.name (some (c.functionFor ⟨u, s⟩))
    (r.published hpub) (hwf.acyclic.congr r.orders.links)
  intro t
  have hid : (c.writeMember u.classId s.name (some (c.functionFor ⟨u, s⟩))).1.id = c.id := by
    obtain ⟨g, hg⟩ := c.writeMember_fst u.classId s.name (some (c.functionFor ⟨u, s⟩))
    rw [hg]
  rw [hid, writeMember_graph hcls hw, hdone]
  apply Stocked.retabled _ hk.retabled
  change (c.graph.modify u.classId fun _ => w).Stocked c.id t
    (if t = u then s :: defines t else defines t)
  by_cases htu : t = u
  · subst htu
    rw [if_pos rfl]
    refine ⟨w, ?_, ?_⟩
    · rw [class?_modify, if_pos rfl, hcls, Option.map_some]
    · rw [ClassObject.eq_of_writeMember? hw]
      refine ⟨hb, hf, fun x => ?_⟩
      rw [Members.get?_write, hmem]
      by_cases hx : s = x
      · subst hx
        rw [if_pos rfl, if_pos List.mem_cons_self]
        rfl
      · simp [Slot.name_inj, hx, Ne.symm hx]
  · rw [if_neg htu]
    exact (q t).congr (class?_modify_of_ne _ (fun h => htu (BuiltinType.classId_inj.mp h).symm) _)

theorem stocks_writeAllLate (u : BuiltinType) (late : List Slot)
    (p : c.graph.Holds BuiltinType.all.reverse) (hlate : late ≠ [] → u.lateSlots ≠ [])
    (q : c.Stocks defines) :
    (late.foldl (fun c s => (c.writeMember u.classId s.name (some (c.functionFor ⟨u, s⟩))).1)
      c).Stocks fun t => if t = u then late ++ defines t else defines t := by
  induction late generalizing c defines with
  | nil => exact q.congr fun t s => by simp
  | cons s rest ih =>
    have hl := hlate (List.cons_ne_nil s rest)
    obtain ⟨p', -⟩ := holds_writeLate p hl s (c.functionFor ⟨u, s⟩)
    have q' := stocks_writeLate p.wellFormed (exact_iff.mp p.exact).1 q u s
    apply (ih p' (fun _ => hl) q').congr
    intro t x
    by_cases htu : t = u
    · simp [htu, or_left_comm]
    · simp [htu]

theorem stocks_freeze (u : BuiltinType) (p : c.graph.Holds BuiltinType.all.reverse)
    (q : c.Stocks defines) :
    (c.freezeBuiltin u).Stocks fun t => if t = u then u.lateSlots ++ defines t else defines t :=
  fun t => (stocks_writeAllLate u u.lateSlots p (fun h => h) q t).reflagged (.addFlags _ _ _)

theorem stocks_freezeAll (ts : List BuiltinType) (p : c.graph.Holds BuiltinType.all.reverse)
    (q : c.Stocks defines) :
    (ts.foldl freezeBuiltin c).Stocks fun t =>
      if t ∈ ts then t.lateSlots ++ defines t else defines t := by
  induction ts generalizing c defines with
  | nil => exact q.congr fun t s => by simp
  | cons u rest ih =>
    obtain ⟨p', -, -⟩ := holds_freeze u p
    apply (ih p' (stocks_freeze u p q)).congr
    intro t s
    by_cases htu : t = u
    · subst htu
      by_cases hrest : t ∈ rest
      · simp [hrest]
      · simp [hrest]
    · simp [htu]

end Late

theorem equipped_freezeAll (id : ContextId) (config : Config) :
    let c := BuiltinType.all.foldl freezeBuiltin (withBuiltins id config)
    c.graph.Equipped c.id BuiltinType.slots := by
  have q : (withBuiltins id config).Stocks BuiltinType.installedSlots :=
    (equipped_withBuiltins id config).stocked
  have p := holds_withBuiltins id config
  apply (holds_freezeAll BuiltinType.all p).1.equipped
  apply (stocks_freezeAll BuiltinType.all p q).congr
  intro t s
  rw [if_pos t.mem_all]
  simp only [BuiltinType.slots, List.mem_append, or_comm]

end Context

end MethodCache
