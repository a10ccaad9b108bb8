import MethodCache.Proofs.Starting

/-!
Whether tables stay right over a run of changes. Definitions and changes of bases keep right
tables right. A write does so exactly when it is carried, that is when every managed class that
finds another value than before is reached from the written class along classes that are foreign
or find another value themselves.
-/
namespace MethodCache

namespace ClassGraph

theorem carried_congr {g h k : ClassGraph} (hsame : ∀ d s, k.resolve d s = h.resolve d s)
    (id : ClassId) : g.Carried k id ↔ g.Carried h id := by
  have hhanded : ∀ s d, Handed g k s id d ↔ Handed g h s id d := by
    intro s d
    constructor
    · intro hd
      induction hd with
      | self => exact .self
      | down _ hmoved hl ih => exact ih.down (fun ha => hsame _ s ▸ hmoved ha) hl
    · intro hd
      induction hd with
      | self => exact .self
      | down _ hmoved hl ih => exact ih.down (fun ha => (hsame _ s).symm ▸ hmoved ha) hl
  unfold Carried
  simp only [hsame, hhanded]

/-- A change that takes no class away leaves right tables right exactly when all that it writes is
carried. -/
theorem Sound.exact_step_iff {g h : ClassGraph} {mayExtend : Bool} {e : ClassEdit} (hs : g.Sound)
    (hfew : e.isDefinition = true → g.nextId + 1 < UInt32.size) (hexact : g.Exact)
    (hkeeps : e.isRemoval = false) (hstep : GraphStep mayExtend g e h) :
    h.Exact ↔ ∀ id name v, e.write? = some (id, name, v) → g.Carried h id := by
  cases hstep with
  | refused hclasses hlinks hnext =>
    have r : g.Reflagged h := .of_classes hclasses hlinks
    refine iff_of_true (r.exact hexact) ?_
    intro id name v _ s d _ hne
    exact absurd (r.resolve d s).symm hne
  | @defined name bases members c h hlin hbases hkind hothers hh hnext =>
    have hahead : g.allocate.2.Exact :=
      (Reflagged.of_classes rfl rfl : g.Reflagged g.allocate.2).exact hexact
    refine iff_of_true (hh.exact ?_) ?_
    · apply exact_install_insert (hs.wellFormed_insert (hfew rfl) (hbases ▸ hlin)) hahead
        hs.nextId_not_mem_mro
      · simp [ClassObject.isForeign, hkind]
      · simp [ClassObject.table?, ClassObject.cell?, hkind]
    · intro id name v hwrite
      simp [ClassEdit.write?] at hwrite
  | @definedForeign name bases members readOnly c h hlin hbases hkind hothers hh hnext =>
    have hahead : g.allocate.2.Exact :=
      (Reflagged.of_classes rfl rfl : g.Reflagged g.allocate.2).exact hexact
    refine iff_of_true (hh.exact ?_) ?_
    · apply exact_insert_foreign hahead hs.nextId_not_mem_mro
      simp [ClassObject.isForeign, hkind]
    · intro id name v hwrite
      simp [ClassEdit.write?] at hwrite
  | @written _ id name v c w he hc hmut hw hremoved =>
    have r := written_modify hc hw
    obtain ⟨u, hdone, hu, hiff⟩ := r.exact_iff_carried hs.wellFormed hexact
      (contains_of_class? hc) fun hv => by
        rw [ownMember_of_class? hc]
        exact hremoved hv
    rw [hdone, hiff, ← carried_congr hu.resolve id]
    constructor
    · intro hcarried id' name' v' he'
      obtain ⟨rfl, -⟩ := Prod.mk.inj (Option.some.inj (he.symm.trans he'))
      exact hcarried
    · exact fun hall => hall id name v he
  | @rebased id bases changed k hmut hok =>
    obtain ⟨r, hchanged⟩ := rebase_ok hs.wellFormed hok
    obtain ⟨u, hdone, -, hu⟩ :=
      r.exact_basesReplaced hs.wellFormed (hs.ne_root hmut) hexact hchanged
    rw [hdone]
    refine iff_of_true hu ?_
    intro id' name v hwrite
    simp [ClassEdit.write?] at hwrite
  | removed hmut => simp [ClassEdit.isRemoval] at hkeeps

end ClassGraph

namespace Context

open ClassGraph

/-- What the change writes, if it is a write, is carried to all managed classes that find another
value after it. -/
def Carries (c : Context) (e : ClassEdit) : Prop :=
  ∀ id name v, e.write? = some (id, name, v) → c.graph.Carried (c.apply e).graph id

theorem carries_of_no_write {e : ClassEdit} (h : e.write? = none) (c : Context) :
    c.Carries e := by
  intro id name v hwrite
  rw [h] at hwrite
  simp at hwrite

theorem exact_run_iff_of_sound {c : Context} (hs : c.graph.Sound) (hexact : c.graph.Exact)
    {edits : List ClassEdit} (hids : c.HasIdsFor edits)
    (hkeeps : ∀ e ∈ edits, e.isRemoval = false) :
    (∀ k, (c.run (edits.take k)).graph.Exact) ↔
      ∀ k e, edits[k]? = some e → (c.run (edits.take k)).Carries e := by
  induction edits generalizing c with
  | nil =>
    refine iff_of_true ?_ ?_
    · intro k
      rw [List.take_nil]
      exact hexact
    · intro k e he
      simp at he
  | cons e rest ih =>
    have hstep := c.apply_step e
    have hiff := hs.exact_step_iff hids.head hexact (hkeeps e List.mem_cons_self) hstep
    have hs' := hs.step hids.head hstep
    have hrest := fun e' he' => hkeeps e' (List.mem_cons_of_mem e he')
    constructor
    · intro hall k
      have hnext : (c.apply e).graph.Exact := hall 1
      cases k with
      | zero =>
        intro e' he'
        obtain rfl : e = e' := by simpa using he'
        exact hiff.mp hnext
      | succ k => exact (ih hs' hnext (hids.tail hs) hrest).mp (fun k => hall (k + 1)) k
    · intro hall k
      have hnext : (c.apply e).graph.Exact := hiff.mpr (hall 0 e rfl)
      cases k with
      | zero => exact hexact
      | succ k => exact (ih hs' hnext (hids.tail hs) hrest).mpr (fun k => hall (k + 1)) k

theorem exact_run_of_no_write {c : Context} (hs : c.graph.Sound) (hexact : c.graph.Exact)
    {edits : List ClassEdit} (hids : c.HasIdsFor edits)
    (hkeeps : ∀ e ∈ edits, e.isRemoval = false) (hnone : ∀ e ∈ edits, e.write? = none) :
    (c.run edits).graph.Exact := by
  have hall := (exact_run_iff_of_sound hs hexact hids hkeeps).mpr fun _ e he =>
    carries_of_no_write (hnone e (List.mem_of_getElem? he)) _
  have hlast := hall edits.length
  rwa [List.take_length] at hlast

end Context

namespace Host

open ClassGraph

theorem tablesRight_of_no_write (p : Host) (config : Config) {edits : List ClassEdit}
    (hids : edits.countP ClassEdit.isDefinition < ClassId.available)
    (hkeeps : ∀ e ∈ edits, e.isRemoval = false) (hnone : ∀ e ∈ edits, e.write? = none) :
    ((p.start config).1.run edits).graph.TablesRight := by
  obtain ⟨hs, -, hexact⟩ := p.start_sound config
  exact (Context.exact_run_of_no_write hs hexact (p.hasIdsFor_start config hids) hkeeps
    hnone).tablesRight

/-- Whatever happened before, a change of bases leaves right tables right. -/
theorem exact_after_setBases (p : Host) (config : Config) (edits : List ClassEdit)
    (hids : edits.countP ClassEdit.isDefinition < ClassId.available)
    (hright : ((p.start config).1.run edits).graph.TablesRight) (id : ClassId)
    (bases : List ClassId) :
    (((p.start config).1.run edits).setBases id bases).1.graph.Exact := by
  have hrun := p.sound_run config hids
  have hstep := Context.apply_step ((p.start config).1.run edits) (.setBases id bases)
  have hiff := hrun.exact_step_iff (by simp [ClassEdit.isDefinition])
    (hright.exact hrun.published) rfl hstep
  exact hiff.mpr (Context.carries_of_no_write rfl _)

/-- A class with two bases, of which one stands below a class outside of the object system. -/
def rehungEdits : List ClassEdit :=
  let f : Value := .function ⟨1, "f"⟩
  let g : Value := .function ⟨2, "g"⟩
  [.defineForeign "Outside" [] [("__len__", f)] false,
   .define "Left" [64] [],
   .define "Right" [] [("__len__", g)],
   .define "Bottom" [65, 66] []]

def rehung : Context := (({} : Host).start .unchecked).1.run rehungEdits

/-- The class in the middle is taken from below the outside class, and the one at the bottom comes
to find another value. -/
theorem rehung_exact :
    (rehung.setBases 65 []).2.isOk = true ∧
    (rehung.setBases 65 []).1.graph.cached 67 .len ≠ rehung.graph.cached 67 .len ∧
    (rehung.setBases 65 []).1.graph.Exact := by
  have hright : rehung.graph.TablesRight :=
    tablesRight_of_no_write {} .unchecked (by decide) (by decide) (by decide)
  have hrun : (rehung.setBases 65 []).2.isOk = true ∧
      (rehung.setBases 65 []).1.graph.cached 67 .len ≠ rehung.graph.cached 67 .len := by
    decide +kernel
  obtain ⟨hok, hmoved⟩ := hrun
  refine ⟨hok, hmoved, ?_⟩
  unfold rehung at hright ⊢
  exact exact_after_setBases {} .unchecked rehungEdits (by decide) hright 65 []

end Host

end MethodCache
