import MethodCache.Context.Start
import MethodCache.Proofs.Running

/-!
The graph a context starts with. The built-in classes come in one by one, bases first, each with
the linearization that its chain of bases has; the slots installed late stand on classes that no
other built-in class derives from; and freezing the classes changes flags only. So a started
context has a sound graph without missing bases, and all of its tables are right.
-/
namespace MethodCache

/-- How many ids a context hands out before it begins at zero again. -/
def ClassId.available : ℕ := UInt32.size - ClassId.firstUser

namespace BuiltinType

theorem linearize_ancestry {t b : BuiltinType} (h : t.base? = some b) :
    linearize t.classId [b.classId] (fun _ => some (b.ancestry.map classId)) =
      .ok (t.ancestry.map classId) := by
  cases t <;> simp [base?] at h <;> subst h <;> decide +kernel

theorem classId_inj {t u : BuiltinType} : t.classId = u.classId ↔ t = u := by
  constructor
  · intro h
    have ht := ofClassId_classId t
    rw [h, ofClassId_classId] at ht
    exact (Option.some.inj ht).symm
  · rintro rfl
    rfl

theorem classId_lt (t : BuiltinType) : t.classId < ClassId.firstUser := by
  cases t <;> decide

/-- Late slots stand on types that no other type derives from. -/
theorem eq_of_mem_ancestry {t u : BuiltinType} (hlate : t.lateSlots ≠ [])
    (h : t ∈ u.ancestry) : u = t := by
  cases t <;> simp [lateSlots] at hlate
  cases u <;> simp [ancestry] at h
  rfl

end BuiltinType

namespace ClassGraph

/-- The graph holds the classes of some built-in types, and all of its tables are right. -/
structure Holds (g : ClassGraph) (ts : List BuiltinType) : Prop where
  wellFormed : g.WellFormed
  closed : g.Closed
  exact : g.Exact
  nextId : g.nextId = ClassId.firstUser
  only : ∀ d, g.contains d = true → ∃ t ∈ ts, d = t.classId
  orders : ∀ t ∈ ts, g.mro? t.classId = some (t.ancestry.map BuiltinType.classId)

namespace Holds

variable {g h : ClassGraph} {ts : List BuiltinType}

theorem reflagged (p : g.Holds ts) (r : g.Reflagged h) (hnext : h.nextId = g.nextId) :
    h.Holds ts := by
  refine ⟨r.wellFormed (Nat.le_of_eq hnext.symm) p.wellFormed, r.closed p.closed,
    r.exact p.exact, hnext.trans p.nextId, ?_, ?_⟩
  · intro d hd
    rw [r.contains] at hd
    exact p.only d hd
  · intro t ht
    rw [r.mro?]
    exact p.orders t ht

theorem of_sameOrders (p : g.Holds ts) (r : g.SameOrders h) (hexact : h.Exact) : h.Holds ts := by
  refine ⟨r.wellFormed p.wellFormed, r.closed p.closed, hexact, r.nextId.trans p.nextId, ?_, ?_⟩
  · intro d hd
    rw [r.contains] at hd
    exact p.only d hd
  · intro t ht
    rw [r.mro?]
    exact p.orders t ht

end Holds

end ClassGraph

namespace Context

open ClassGraph

section Builtin

variable {c : Context} {t : BuiltinType} {ts : List BuiltinType}

theorem graph_addBuiltin (c : Context) (t : BuiltinType) :
    Registered c.config.extendsBase c.graph t.classId (c.builtinClass t)
      (c.addBuiltin t).graph := registered c t.classId _ rfl

/-- What registering the class of a built-in type leads to, once it is known that the class comes
in well. -/
theorem holds_addBuiltin (hunseen : ∀ d, t.classId ∉ c.graph.mro d)
    (hexact : c.graph.Exact) (hnext : c.graph.nextId = ClassId.firstUser)
    (hwf : (c.graph.insert t.classId (c.builtinClass t)).WellFormed)
    (hcl : (c.graph.insert t.classId (c.builtinClass t)).Closed)
    (honly : ∀ d, c.graph.contains d = true → ∃ u ∈ ts, d = u.classId)
    (horders : ∀ u ∈ ts, u ≠ t → c.graph.mro? u.classId =
      some (u.ancestry.map BuiltinType.classId)) :
    (c.addBuiltin t).graph.Holds (t :: ts) := by
  have p := graph_addBuiltin c t
  have hexact' := exact_install_insert hwf hexact hunseen rfl rfl c.config.extendsBase
  have hm : (c.graph.insert t.classId (c.builtinClass t)).Managed t.classId :=
    ⟨_, class?_insert_self _ _ _, rfl⟩
  have hinserted : (c.graph.insert t.classId (c.builtinClass t)).SameOrders
      ((c.graph.insert t.classId (c.builtinClass t)).install t.classId
        c.config.extendsBase) := by
    rw [install_of_managed hm]
    exact .of_retabled (retabled_publish _ _ _)
  have hinstalled : ((c.graph.insert t.classId (c.builtinClass t)).install t.classId
      c.config.extendsBase).Holds (t :: ts) := by
    refine ⟨hinserted.wellFormed hwf, hinserted.closed hcl, hexact',
      hinserted.nextId.trans hnext, ?_, ?_⟩
    · intro d hd
      rw [hinserted.contains, contains_insert] at hd
      rcases hd with rfl | hd
      · exact ⟨t, List.mem_cons_self, rfl⟩
      · obtain ⟨u, hu, rfl⟩ := honly d hd
        exact ⟨u, List.mem_cons_of_mem t hu, rfl⟩
    · intro u hu
      rw [hinserted.mro?, mro?_insert]
      by_cases hut : u = t
      · rw [hut, if_pos rfl]
        rfl
      · rw [if_neg fun h => hut (BuiltinType.classId_inj.mp h.symm)]
        exact horders u ((List.mem_cons.mp hu).resolve_left hut) hut
  exact hinstalled.reflagged p.reflagged (p.nextId.trans (hinserted.nextId.symm.trans rfl))

theorem holds_root (id : ContextId) (config : Config) :
    ((empty id config).addBuiltin .object).graph.Holds [.object] := by
  have hempty : ∀ d, (empty id config).graph.class? d = none := fun _ => rfl
  have hlinks : ∀ b d, ¬ (empty id config).graph.Link b d := by
    intro b d h
    simp [Link, subclasses, empty] at h
  apply holds_addBuiltin
  · intro d h
    simp [mro, hempty] at h
  · rintro d ⟨c, hc, -⟩
    rw [hempty] at hc
    simp at hc
  · rfl
  · exact WellFormed.insert_root hempty hlinks rfl rfl (BuiltinType.classId_lt .object)
  · intro d e he b hb
    rw [class?_insert] at he
    split at he
    · obtain rfl := Option.some.inj he
      simp [builtinClass, ClassObject.ofBuiltin, BuiltinType.base?] at hb
    · rw [hempty] at he
      simp at he
  · intro d hd
    obtain ⟨c, hc⟩ := contains_iff.mp hd
    rw [hempty] at hc
    simp at hc
  · simp

theorem holds_add (p : c.graph.Holds ts) {b : BuiltinType} (hbase : t.base? = some b)
    (hb : b ∈ ts) (ht : t ∉ ts) : (c.addBuiltin t).graph.Holds (t :: ts) := by
  have hnew : ∀ d, c.graph.contains d = true → t.classId ≠ d := by
    intro d hd heq
    obtain ⟨u, hu, rfl⟩ := p.only d hd
    exact ht (BuiltinType.classId_inj.mp heq ▸ hu)
  have hnone : c.graph.class? t.classId = none := by
    cases hc : c.graph.class? t.classId with
    | none => rfl
    | some e => exact absurd rfl (hnew _ (contains_of_class? hc))
  have hne : t.classId ≠ ClassId.root := by
    show t.classId ≠ BuiltinType.classId .object
    rw [Ne, BuiltinType.classId_inj]
    rintro rfl
    simp [BuiltinType.base?] at hbase
  have hbases : (c.builtinClass t).bases = [b.classId] := by
    simp [builtinClass, ClassObject.ofBuiltin, hbase]
  have hlin : linearize t.classId (c.builtinClass t).bases c.graph.mro? =
      .ok (c.builtinClass t).mro := by
    rw [hbases]
    refine (linearize_congr ?_).trans (BuiltinType.linearize_ancestry hbase)
    intro d hd
    rw [List.mem_singleton.mp hd, p.orders b hb]
  apply holds_addBuiltin _ p.exact p.nextId _ _ p.only fun u hu _ => p.orders u hu
  · intro d hd
    exact hnew _ (contains_of_mem_mro p.wellFormed p.closed hd) rfl
  · apply p.wellFormed.insert hnone hne _ _ hlin
    · rw [p.nextId]
      exact t.classId_lt
    · intro d e he hmem
      exact hnew _ (p.closed d e he _ hmem) rfl
  · exact WellFormed.closed_insert p.closed hne hlin

theorem holds_withBuiltins (id : ContextId) (config : Config) :
    (withBuiltins id config).graph.Holds BuiltinType.all.reverse := by
  have h₁ := holds_root id config
  have h₂ := holds_add (t := .noneType) h₁ rfl (by decide) (by decide)
  have h₃ := holds_add (t := .int) h₂ rfl (by decide) (by decide)
  have h₄ := holds_add (t := .bool) h₃ rfl (by decide) (by decide)
  have h₅ := holds_add (t := .float) h₄ rfl (by decide) (by decide)
  have h₆ := holds_add (t := .str) h₅ rfl (by decide) (by decide)
  exact holds_add (t := .module) h₆ rfl (by decide) (by decide)

end Builtin

/-! Late slots and freezing. -/

theorem writeMember_graph {c : Context} {id : ClassId} {name : String} {v : Value}
    {cls w : ClassObject} (hcls : c.graph.class? id = some cls)
    (hw : cls.writeMember? name (some v) = some w) :
    (c.writeMember id name (some v)).1.graph =
      ((c.graph.modify id fun _ => w).memberWritten id name (some v)).1.graph := by
  simp only [writeMember, hcls, hw, reduceCtorEq, false_and, if_false]
  exact adopt_graph c _

/-- A late slot on a type that no other derives from leaves all tables right. -/
theorem holds_writeLate {c : Context} {t : BuiltinType} (p : c.graph.Holds BuiltinType.all.reverse)
    (hlate : t.lateSlots ≠ []) (s : Slot) (v : Value) :
    (c.writeMember t.classId s.name (some v)).1.graph.Holds BuiltinType.all.reverse ∧
    ∀ d, ((c.writeMember t.classId s.name (some v)).1.graph.class? d).map ClassObject.flags =
      (c.graph.class? d).map ClassObject.flags := by
  have hmem : ∀ u : BuiltinType, u ∈ BuiltinType.all.reverse :=
    fun u => List.mem_reverse.mpr u.mem_all
  cases hcls : c.graph.class? t.classId with
  | none =>
    have horder := p.orders t (hmem t)
    simp [mro?, hcls] at horder
  | some cls =>
    cases hw : cls.writeMember? s.name (some v) with
    | none =>
      have hsame : (c.writeMember t.classId s.name (some v)).1 = c := by
        simp only [writeMember, hcls, hw]
        rfl
      rw [hsame]
      exact ⟨p, fun _ => rfl⟩
    | some w =>
      have r := written_modify hcls hw
      obtain ⟨u, hdone, hu, hiff⟩ := r.exact_iff_carried p.wellFormed p.exact
        (contains_of_class? hcls) (fun h => by simp at h)
      rw [writeMember_graph hcls hw, hdone]
      refine ⟨p.of_sameOrders (r.orders.trans (.of_retabled hu)) (hiff.mpr ?_), ?_⟩
      · intro x d hd hne
        obtain ⟨y, -, rfl⟩ := p.only d hd.contains
        have hin := r.mem_mro_of_moved hne
        rw [mro_eq, p.orders y (hmem y), Option.getD_some] at hin
        obtain ⟨z, hz, heq⟩ := List.mem_map.mp hin
        rw [BuiltinType.classId_inj.mp heq] at hz
        rw [BuiltinType.eq_of_mem_ancestry hlate hz]
        exact .self
      · intro d
        rw [hu.map_class? ClassObject.flags ClassObject.untabled_flags d, r.flags]

theorem holds_writeAllLate {c : Context} (t : BuiltinType) (slots : List Slot)
    (p : c.graph.Holds BuiltinType.all.reverse) (hlate : slots ≠ [] → t.lateSlots ≠ []) :
    let c' := slots.foldl
      (fun c s => (c.writeMember t.classId s.name (some (c.functionFor ⟨t, s⟩))).1) c
    c'.graph.Holds BuiltinType.all.reverse ∧
    ∀ d, (c'.graph.class? d).map ClassObject.flags =
      (c.graph.class? d).map ClassObject.flags := by
  induction slots generalizing c with
  | nil => exact ⟨p, fun _ => rfl⟩
  | cons s rest ih =>
    have hl := hlate (List.cons_ne_nil s rest)
    obtain ⟨p₁, hf₁⟩ := holds_writeLate p hl s (c.functionFor ⟨t, s⟩)
    obtain ⟨p₂, hf₂⟩ := ih p₁ fun _ => hl
    exact ⟨p₂, fun d => (hf₂ d).trans (hf₁ d)⟩

def IsFrozen (c : Context) (t : BuiltinType) : Prop :=
  ∃ cls, c.graph.class? t.classId = some cls ∧ cls.isImmutable = true

theorem isFrozen_iff {c : Context} {t : BuiltinType} :
    c.IsFrozen t ↔ ((c.graph.class? t.classId).map ClassObject.flags).any (·.immutable) = true := by
  unfold IsFrozen ClassObject.isImmutable
  cases c.graph.class? t.classId with
  | none => simp
  | some cls => simp

theorem holds_freeze {c : Context} (t : BuiltinType)
    (p : c.graph.Holds BuiltinType.all.reverse) :
    (c.freezeBuiltin t).graph.Holds BuiltinType.all.reverse ∧ (c.freezeBuiltin t).IsFrozen t ∧
    ∀ u, c.IsFrozen u → (c.freezeBuiltin t).IsFrozen u := by
  obtain ⟨p', hflags⟩ := holds_writeAllLate t t.lateSlots p fun h => h
  unfold freezeBuiltin
  set c' := t.lateSlots.foldl
    (fun c s => (c.writeMember t.classId s.name (some (c.functionFor ⟨t, s⟩))).1) c
  have hclass : ∀ d, (c'.graph.modify t.classId (·.addFlags { immutable := true })).class? d =
      if t.classId = d then (c'.graph.class? d).map (·.addFlags { immutable := true })
      else c'.graph.class? d := fun d => class?_modify _ _ d _
  refine ⟨p'.reflagged (.addFlags _ _ _) rfl, ?_, ?_⟩
  · obtain ⟨o, ho⟩ : ∃ o, c'.graph.mro? t.classId = some o :=
      ⟨_, p'.orders t (List.mem_reverse.mpr t.mem_all)⟩
    obtain ⟨cls, hcls, -⟩ := mro?_eq_some.mp ho
    refine ⟨cls.addFlags { immutable := true }, ?_, ?_⟩
    · rw [hclass, if_pos rfl, hcls, Option.map_some]
    · simp [ClassObject.isImmutable, ClassObject.addFlags, ClassFlags.union]
  · intro u hu
    rw [isFrozen_iff, ← hflags, ← isFrozen_iff (c := c')] at hu
    obtain ⟨cls, hcls, himm⟩ := hu
    rw [IsFrozen, hclass]
    split
    · refine ⟨_, by rw [hcls, Option.map_some], ?_⟩
      simp [ClassObject.isImmutable, ClassObject.addFlags, ClassFlags.union]
    · exact ⟨cls, hcls, himm⟩

theorem holds_freezeAll {c : Context} (ts : List BuiltinType)
    (p : c.graph.Holds BuiltinType.all.reverse) :
    (ts.foldl freezeBuiltin c).graph.Holds BuiltinType.all.reverse ∧
    ∀ t, t ∈ ts ∨ c.IsFrozen t → (ts.foldl freezeBuiltin c).IsFrozen t := by
  induction ts generalizing c with
  | nil => exact ⟨p, fun t ht => ht.resolve_left (by simp)⟩
  | cons t rest ih =>
    obtain ⟨p', hself, hkept⟩ := holds_freeze t p
    obtain ⟨p'', hall⟩ := ih p'
    refine ⟨p'', ?_⟩
    intro u hu
    apply hall
    rcases hu with hu | hu
    · rcases List.mem_cons.mp hu with rfl | hu
      · exact Or.inr hself
      · exact Or.inl hu
    · exact Or.inr (hkept u hu)

/-! All that checking a context does to it is to resolve call targets. -/

section Check

variable {h : SharedTables} {P : Context → Prop}

theorem sharedMismatchesOf_induction {t : BuiltinType} {table : SharedTable}
    (hresolve : ∀ (c : Context) s d, table.entries.get s = .descriptor d → P c →
      P (c.callTarget d).2) (cls : ClassObject) (slots : List Slot) {c : Context} (hc : P c) :
    P (sharedMismatchesOf t cls table slots c).2 := by
  induction slots generalizing c with
  | nil => exact hc
  | cons s rest ih =>
    apply ih
    cases he : table.entries.get s with
    | unknown => exact hc
    | constant v => exact hc
    | descriptor d => exact hresolve c s d he hc

theorem sharedMismatches_induction
    (hresolve : ∀ (c : Context) t s d, h.entry t s = .descriptor d → P c → P (c.callTarget d).2)
    (ts : List BuiltinType) {c : Context} (hc : P c) : P (sharedMismatches h ts c).2 := by
  induction ts generalizing c with
  | nil => exact hc
  | cons t rest ih =>
    unfold sharedMismatches
    apply ih
    split
    · next table cls htable _ =>
      apply sharedMismatchesOf_induction _ cls _ hc
      intro k s d hd
      apply hresolve k t s d
      rw [SharedTables.entry, htable, Option.map_some, Option.getD_some, hd]
    · exact hc

/-- What resolving the call target of a shared descriptor keeps, a check keeps. -/
theorem check_induction
    (hresolve : ∀ (c : Context) t s d, h.entry t s = .descriptor d → P c → P (c.callTarget d).2)
    {c : Context} (hc : P c) : P (c.check h).2 :=
  sharedMismatches_induction hresolve BuiltinType.all hc

end Check

theorem graph_check (c : Context) (h : SharedTables) : (c.check h).2.graph = c.graph :=
  check_induction (P := fun k => k.graph = c.graph) (fun _ _ _ _ _ hk => hk) rfl

end Context

namespace Host

open ClassGraph

/-- A started context is one with frozen classes, where the call targets of shared descriptors may
have been resolved. -/
theorem start_induction (p : Host) (config : Config) {P : Context → Prop}
    (hfrozen : P (BuiltinType.all.foldl Context.freezeBuiltin
      (Context.withBuiltins p.nextContext config)))
    (hresolve : ∀ (c : Context) t s d, (p.start config).2.shared.entry t s = .descriptor d →
      P c → P (c.callTarget d).2) : P (p.start config).1 := by
  unfold start
  simp only
  split
  · exact Context.check_induction hresolve hfrozen
  · exact hfrozen

theorem graph_start (p : Host) (config : Config) :
    (p.start config).1.graph =
      (BuiltinType.all.foldl Context.freezeBuiltin
        (Context.withBuiltins p.nextContext config)).graph :=
  p.start_induction config (P := fun c => c.graph = (BuiltinType.all.foldl Context.freezeBuiltin
    (Context.withBuiltins p.nextContext config)).graph) rfl fun _ _ _ _ _ hk => hk

/-- A started context has a sound graph, no missing base, and right tables only. -/
theorem start_sound (p : Host) (config : Config) :
    (p.start config).1.graph.Sound ∧ (p.start config).1.graph.Closed ∧
    (p.start config).1.graph.Exact := by
  rw [graph_start]
  obtain ⟨q, hfrozen⟩ := Context.holds_freezeAll BuiltinType.all
    (Context.holds_withBuiltins p.nextContext config)
  exact ⟨⟨q.wellFormed, (exact_iff.mp q.exact).1, q.exact.rootRight,
    fun t => hfrozen t (Or.inl t.mem_all)⟩, q.closed, q.exact⟩

theorem nextId_start (p : Host) (config : Config) :
    (p.start config).1.graph.nextId = ClassId.firstUser := by
  rw [graph_start]
  exact (Context.holds_freezeAll BuiltinType.all
    (Context.holds_withBuiltins p.nextContext config)).1.nextId

section Runs

variable {edits : List ClassEdit}

theorem hasIdsFor_start (p : Host) (config : Config)
    (hids : edits.countP ClassEdit.isDefinition < ClassId.available) :
    (p.start config).1.HasIdsFor edits := by
  unfold Context.HasIdsFor
  rw [p.nextId_start]
  exact Nat.add_lt_of_lt_sub' hids

theorem sound_run (p : Host) (config : Config)
    (hids : edits.countP ClassEdit.isDefinition < ClassId.available) :
    ((p.start config).1.run edits).graph.Sound :=
  Context.sound_run (p.start_sound config).1 (p.hasIdsFor_start config hids)

theorem closed_run (p : Host) (config : Config)
    (hids : edits.countP ClassEdit.isDefinition < ClassId.available)
    (hkeeps : ∀ e ∈ edits, e.isRemoval = false) : ((p.start config).1.run edits).graph.Closed :=
  Context.closed_run (p.start_sound config).1 (p.start_sound config).2.1
    (p.hasIdsFor_start config hids) hkeeps

end Runs

end Host

end MethodCache
