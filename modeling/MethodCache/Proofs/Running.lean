import MethodCache.Proofs.Defining
import MethodCache.Proofs.Registration
import MethodCache.Proofs.Writing

/-!
Runs of changes. A change of the classes of a context does one of few things to its graph, which
`GraphStep` lists with what is known where it happens. From the list follows, change by change,
what holds of every context that a run of changes leads to.
-/
namespace MethodCache

inductive ClassEdit
  | define (name : String) (bases : List ClassId) (members : List (String × Value))
  | defineForeign (name : String) (bases : List ClassId) (members : List (String × Value))
      (readOnly : Bool)
  | setMember (id : ClassId) (name : String) (v : Value)
  | deleteMember (id : ClassId) (name : String)
  | setBases (id : ClassId) (bases : List ClassId)
  | unregister (id : ClassId)

namespace ClassEdit

/-- The change is to bring a new class in. It uses an id up, whether it is refused or not. -/
def isDefinition : ClassEdit → Bool
  | .define .. | .defineForeign .. => true
  | _ => false

def isRemoval : ClassEdit → Bool
  | .unregister _ => true
  | _ => false

/-- The class and the member that are written, with the new value if there is one. -/
def write? : ClassEdit → Option (ClassId × String × Option Value)
  | .setMember id name v => some (id, name, some v)
  | .deleteMember id name => some (id, name, none)
  | _ => none

theorem isDefinition_of_write? {e : ClassEdit} {w : ClassId × String × Option Value}
    (he : e.write? = some w) : e.isDefinition = false := by
  cases e <;> simp_all [write?, isDefinition]

end ClassEdit

namespace Context

/-- The context that a change leaves, whether it was refused or not. -/
def apply (c : Context) : ClassEdit → Context
  | .define name bases members => (c.define name bases members).1
  | .defineForeign name bases members readOnly =>
    (c.defineForeign name bases members readOnly).1
  | .setMember id name v => (c.setMember id name v).1
  | .deleteMember id name => (c.deleteMember id name).1
  | .setBases id bases => (c.setBases id bases).1
  | .unregister id => (c.unregister id).1

def run (c : Context) (edits : List ClassEdit) : Context := edits.foldl apply c

theorem run_snoc (c : Context) (edits : List ClassEdit) (e : ClassEdit) :
    c.run (edits ++ [e]) = (c.run edits).apply e :=
  List.foldl_append

end Context

namespace ClassGraph

def Mutable (g : ClassGraph) (id : ClassId) : Prop :=
  ∃ c, g.class? id = some c ∧ c.isImmutable = false

/-- What a change does to the graph. -/
inductive GraphStep (mayExtend : Bool) (g : ClassGraph) : ClassEdit → ClassGraph → Prop
  /-- Nothing happens, except that an id may have been used up. -/
  | refused {e : ClassEdit} {h : ClassGraph} (hclasses : h.classes = g.classes)
      (hlinks : h.links = g.links)
      (hnext : h.nextId = if e.isDefinition then g.allocate.2.nextId else g.nextId) :
      GraphStep mayExtend g e h
  | defined {name : String} {bases : List ClassId} {members : List (String × Value)}
      {c : ClassObject} {h : ClassGraph} (hlin : linearize g.nextId bases g.mro? = .ok c.mro)
      (hbases : c.bases = bases) (hkind : c.kind = .managed {})
      (hothers : ∀ d, d ≠ g.nextId → h.class? d = g.class? d)
      (hh : ((g.allocate.2.insert g.nextId c).install g.nextId mayExtend).Reflagged h)
      (hnext : h.nextId = g.allocate.2.nextId) :
      GraphStep mayExtend g (.define name bases members) h
  | definedForeign {name : String} {bases : List ClassId} {members : List (String × Value)}
      {readOnly : Bool} {c : ClassObject} {h : ClassGraph}
      (hlin : linearize g.nextId bases g.mro? = .ok c.mro) (hbases : c.bases = bases)
      (hkind : c.kind = .foreign readOnly) (hothers : ∀ d, d ≠ g.nextId → h.class? d = g.class? d)
      (hh : (g.allocate.2.insert g.nextId c).Reflagged h) (hnext : h.nextId = g.allocate.2.nextId) :
      GraphStep mayExtend g (.defineForeign name bases members readOnly) h
  | written {e : ClassEdit} {id : ClassId} {name : String} {v : Option Value}
      {c w : ClassObject} (he : e.write? = some (id, name, v)) (hc : g.class? id = some c)
      (hmut : c.isImmutable = false) (hw : c.writeMember? name v = some w)
      (hremoved : v = none → (c.members.get? name).isSome = true) :
      GraphStep mayExtend g e ((g.modify id fun _ => w).memberWritten id name v).1.graph
  | rebased {id : ClassId} {bases changed : List ClassId} {k : ClassGraph} (hmut : g.Mutable id)
      (hok : g.rebase id bases = .ok (changed, k)) :
      GraphStep mayExtend g (.setBases id bases) (k.basesReplaced id changed).1.graph
  | removed {id : ClassId} (hmut : g.Mutable id) :
      GraphStep mayExtend g (.unregister id) (g.remove id)

end ClassGraph

namespace Context

open ClassGraph

theorem mutable_of_editable {c : Context} {id : ClassId} {cls : ClassObject}
    (h : c.editable id = .ok cls) : c.graph.class? id = some cls ∧ cls.isImmutable = false := by
  unfold editable at h
  split at h
  · simp at h
  · next e he =>
    split at h
    · simp at h
    · next hmut =>
      obtain rfl := Except.ok.inj h
      exact ⟨he, by simpa using hmut⟩

theorem editable_of_class? {c : Context} {id : ClassId} {cls : ClassObject}
    (hcls : c.graph.class? id = some cls) (hmut : cls.isImmutable = false) :
    c.editable id = .ok cls := by
  simp [editable, hcls, hmut]

theorem adopt_fst (c : Context) (o : Update.Outcome) :
    (c.adopt o).1 = { c with graph := o.1.graph } := by
  obtain ⟨u, f⟩ := o
  cases f <;> rfl

theorem adopt_graph (c : Context) (o : Update.Outcome) : (c.adopt o).1.graph = o.1.graph := by
  rw [adopt_fst]

theorem countWrite_graph (a : Answer UpdateReport) : (countWrite a).1.graph = a.1.graph := by
  unfold countWrite
  split <;> rfl

theorem step_refl (c : Context) {e : ClassEdit} (he : e.isDefinition = false) :
    GraphStep c.config.extendsBase c.graph e c.graph :=
  .refused rfl rfl (by simp [he])

theorem step_write {c : Context} {e : ClassEdit} {id : ClassId} {name : String}
    {v : Option Value} {cls : ClassObject} (he : e.write? = some (id, name, v))
    (hed : c.editable id = .ok cls) :
    GraphStep c.config.extendsBase c.graph e (countWrite (c.writeMember id name v)).1.graph := by
  obtain ⟨hcls, hmut⟩ := mutable_of_editable hed
  have hwrite := ClassEdit.isDefinition_of_write? he
  rw [countWrite_graph]
  unfold writeMember
  simp only [hcls]
  cases hw : cls.writeMember? name v with
  | none => exact c.step_refl hwrite
  | some w =>
    simp only
    split
    · next hmissing =>
      obtain ⟨rfl, hmissing⟩ := hmissing
      simp only [refuse, modify_of_missing hcls hw hmissing]
      exact c.step_refl hwrite
    · next hpresent =>
      rw [adopt_graph]
      refine .written he hcls hmut hw ?_
      intro hv
      rw [Option.isSome_iff_ne_none]
      exact fun hnone => hpresent ⟨hv, hnone⟩

theorem step_define (c : Context) (name : String) (bases : List ClassId)
    (members : List (String × Value)) :
    GraphStep c.config.extendsBase c.graph (.define name bases members)
      (c.define name bases members).1.graph := by
  have hmro : (c.graph.allocate.2).mro? = c.graph.mro? := rfl
  have hid : c.graph.allocate.1 = c.graph.nextId := rfl
  simp only [define, defineWith, hmro, hid]
  cases hlin : linearize c.graph.nextId bases c.graph.mro? with
  | error e => exact .refused rfl rfl rfl
  | ok mro =>
    set cls : ClassObject :=
      { name, bases, mro, kind := .managed {}, members := .ofList members }
    have p := registered { c with graph := c.graph.allocate.2 } c.graph.nextId cls rfl
    exact .defined (c := cls) hlin rfl rfl p.others p.reflagged p.nextId

theorem step_defineForeign (c : Context) (name : String) (bases : List ClassId)
    (members : List (String × Value)) (readOnly : Bool) :
    GraphStep c.config.extendsBase c.graph (.defineForeign name bases members readOnly)
      (c.defineForeign name bases members readOnly).1.graph := by
  have hmro : (c.graph.allocate.2).mro? = c.graph.mro? := rfl
  have hid : c.graph.allocate.1 = c.graph.nextId := rfl
  simp only [defineForeign, defineWith, hmro, hid]
  cases hlin : linearize c.graph.nextId bases c.graph.mro? with
  | error e => exact .refused rfl rfl rfl
  | ok mro =>
    set cls : ClassObject :=
      { name, bases, mro, kind := .foreign readOnly, members := .ofList members }
    refine .definedForeign (c := cls.addFlags { initialized := true }) hlin rfl rfl ?_
      (.of_classes rfl rfl) rfl
    intro d hd
    exact class?_insert_of_ne _ hd _

theorem step_setBases (c : Context) (id : ClassId) (bases : List ClassId) :
    GraphStep c.config.extendsBase c.graph (.setBases id bases) (c.setBases id bases).1.graph := by
  unfold setBases
  cases hed : c.editable id with
  | error e => exact c.step_refl rfl
  | ok cls =>
    simp only
    cases hok : c.graph.rebase id bases with
    | error e => cases e <;> exact c.step_refl rfl
    | ok r =>
      obtain ⟨changed, k⟩ := r
      obtain ⟨hcls, hmut⟩ := mutable_of_editable hed
      have hadopt := adopt_graph c (k.basesReplaced id changed)
      have hstep : GraphStep c.config.extendsBase c.graph (.setBases id bases)
          (c.adopt (k.basesReplaced id changed)).1.graph := by
        rw [hadopt]
        exact .rebased ⟨cls, hcls, hmut⟩ hok
      simp only
      split
      · next ha =>
        rw [ha] at hstep
        exact hstep
      · exact hstep

theorem apply_step (c : Context) (e : ClassEdit) :
    GraphStep c.config.extendsBase c.graph e (c.apply e).graph := by
  cases e with
  | define name bases members => exact c.step_define name bases members
  | defineForeign name bases members readOnly =>
    exact c.step_defineForeign name bases members readOnly
  | setMember id name v =>
    unfold apply setMember
    simp only
    cases hed : c.editable id with
    | error e => exact c.step_refl rfl
    | ok cls => exact step_write rfl hed
  | deleteMember id name =>
    unfold apply deleteMember
    simp only
    cases hed : c.editable id with
    | error e => exact c.step_refl rfl
    | ok cls => exact step_write rfl hed
  | setBases id bases => exact c.step_setBases id bases
  | unregister id =>
    unfold apply unregister
    simp only
    cases hed : c.editable id with
    | error e => exact c.step_refl rfl
    | ok cls => exact .removed ⟨cls, mutable_of_editable hed⟩

end Context

namespace ClassGraph

theorem nextId_allocate (g : ClassGraph) :
    g.allocate.2.nextId = (g.nextId + 1) % UInt32.size :=
  UInt32.toNat_add _ _

theorem nextId_allocate_of_lt {g : ClassGraph} (hfew : g.nextId + 1 < UInt32.size) :
    g.allocate.2.nextId = g.nextId + 1 := by
  rw [nextId_allocate, Nat.mod_eq_of_lt hfew]

/-- What holds of the graph of every context that runs lead to, as long as ids have not begun again
at zero. -/
structure Sound (g : ClassGraph) : Prop where
  wellFormed : g.WellFormed
  published : g.Published
  rootRight : g.RootRight
  frozen : ∀ t : BuiltinType, ∃ c, g.class? t.classId = some c ∧ c.isImmutable = true

namespace Sound

variable {g h : ClassGraph} {mayExtend : Bool} {e : ClassEdit}

theorem ne_of_mutable (hs : g.Sound) {id : ClassId} (hm : g.Mutable id) (t : BuiltinType) :
    id ≠ t.classId := by
  rintro rfl
  obtain ⟨c, hc, hmut⟩ := hm
  obtain ⟨c', hc', himm⟩ := hs.frozen t
  obtain rfl : c = c' := Option.some.inj (hc.symm.trans hc')
  rw [hmut] at himm
  simp at himm

theorem ne_root (hs : g.Sound) {id : ClassId} (hm : g.Mutable id) : id ≠ ClassId.root :=
  hs.ne_of_mutable hm .object

theorem class?_nextId (hs : g.Sound) : g.class? g.nextId = none := by
  cases hc : g.class? g.nextId with
  | none => rfl
  | some c => exact absurd (hs.wellFormed.lt_nextId (contains_of_class? hc)) (Nat.lt_irrefl _)

theorem nextId_not_mem_mro (hs : g.Sound) (d : ClassId) : g.nextId ∉ g.mro d := by
  intro hmem
  rw [mro_eq] at hmem
  cases ho : g.mro? d with
  | none => simp [ho] at hmem
  | some o =>
    rw [ho, Option.getD_some] at hmem
    exact Nat.lt_irrefl _ (hs.wellFormed.known_of_mro? ho _ hmem)

theorem nextId_ne_root (hs : g.Sound) : g.nextId ≠ ClassId.root :=
  Nat.ne_of_gt hs.wellFormed.root_lt_nextId

theorem frozen_of_flags (hs : g.Sound)
    (hflags : ∀ d, (∃ t : BuiltinType, d = t.classId) →
      (h.class? d).map ClassObject.flags = (g.class? d).map ClassObject.flags) :
    ∀ t : BuiltinType, ∃ c, h.class? t.classId = some c ∧ c.isImmutable = true := by
  intro t
  obtain ⟨c, hc, himm⟩ := hs.frozen t
  have hmap := hflags t.classId ⟨t, rfl⟩
  rw [hc, Option.map_some] at hmap
  obtain ⟨c', hc', heq⟩ := Option.map_eq_some_iff.mp hmap
  refine ⟨c', hc', ?_⟩
  rw [ClassObject.isImmutable, heq]
  exact himm

theorem wellFormed_insert (hs : g.Sound) (hfew : g.nextId + 1 < UInt32.size) {c : ClassObject}
    (hlin : linearize g.nextId c.bases g.mro? = .ok c.mro) :
    (g.allocate.2.insert g.nextId c).WellFormed := by
  have hlt : g.nextId < g.allocate.2.nextId := by
    rw [nextId_allocate_of_lt hfew]
    exact Nat.lt_succ_self _
  have hahead : g.allocate.2.WellFormed := hs.wellFormed.of_nextId_le rfl rfl (Nat.le_of_lt hlt)
  apply hahead.insert hs.class?_nextId hs.nextId_ne_root hlt _ hlin
  intro d e he hmem
  have p := hs.wellFormed.placed d e he
  exact Nat.lt_irrefl _ (p.known _ (List.mem_of_mem_tail
    (p.bases_mem _ (mem_effectiveBases_of_mem hmem))))

theorem of_new (hs : g.Sound) (hwf : h.WellFormed)
    (hothers : ∀ d, d ≠ g.nextId → h.class? d = g.class? d)
    (hpub : h.Managed g.nextId → (h.table? g.nextId).isSome = true) : h.Sound := by
  have hroot := Ne.symm hs.nextId_ne_root
  have hne : ∀ t : BuiltinType, t.classId ≠ g.nextId := by
    intro t heq
    obtain ⟨c, hc, -⟩ := hs.frozen t
    rw [heq, hs.class?_nextId] at hc
    simp at hc
  refine ⟨hwf, ?_, ?_, ?_⟩
  · intro d hd
    by_cases hid : d = g.nextId
    · subst hid
      exact hpub hd
    · unfold Managed at hd
      rw [hothers d hid] at hd
      unfold table?
      rw [hothers d hid]
      exact hs.published d hd
  · intro t ht s
    have hsame := hothers _ hroot
    have ht' : g.table? ClassId.root = some t := by
      unfold table? at ht ⊢
      rwa [hsame] at ht
    rw [hs.rootRight t ht' s]
    symm
    have hmro : h.mro ClassId.root = g.mro ClassId.root := by
      unfold mro
      rw [hsame]
    apply resolve_congr hmro
    intro a ha
    rw [mro_eq, hs.wellFormed.mro?_root, Option.getD_some, List.mem_singleton] at ha
    unfold ownMember
    rw [ha, hsame]
  · exact hs.frozen_of_flags fun d ⟨t, hd⟩ => by rw [hothers d (hd ▸ hne t)]

theorem refreshed (hs : g.Sound) {V : ClassId → Slot → Prop} (r : g.Refreshed h V) : h.Sound :=
  ⟨(SameOrders.of_retabled r.retabled).wellFormed hs.wellFormed, r.publishedAll hs.published,
    r.rootRight hs.rootRight, hs.frozen_of_flags fun d _ =>
      r.retabled.map_class? ClassObject.flags ClassObject.untabled_flags d⟩

theorem written (hs : g.Sound) {id : ClassId} {name : String} {v : Option Value}
    (r : g.Written id name v h) (hne : id ≠ ClassId.root) : h.Sound :=
  ⟨r.orders.wellFormed hs.wellFormed, r.published hs.published,
    r.rootRight hs.wellFormed hne hs.rootRight, hs.frozen_of_flags fun d _ => r.flags d⟩

theorem rebased (hs : g.Sound) {id : ClassId} {bases : List ClassId} (r : g.Rebased id bases h)
    (hne : id ≠ ClassId.root) : h.Sound := by
  refine ⟨r.wellFormed hs.wellFormed hne, r.published hs.published,
    r.rootRight hs.wellFormed hne hs.rootRight, hs.frozen_of_flags fun d _ => ?_⟩
  rw [r.classes, Option.map_map]
  rfl

theorem removed (hs : g.Sound) {id : ClassId} (hm : g.Mutable id) : (g.remove id).Sound := by
  have hne := hs.ne_root hm
  refine ⟨hs.wellFormed.remove hne, ?_, ?_, ?_⟩
  · rintro d ⟨c, hc, hf⟩
    obtain ⟨hd, hc'⟩ := class?_of_remove hc
    rw [table?_remove, if_neg (Ne.symm hd)]
    exact hs.published d ⟨c, hc', hf⟩
  · intro t ht s
    rw [table?_remove, if_neg hne] at ht
    have hsame := class?_remove_of_ne g (Ne.symm hne)
    rw [hs.rootRight t ht s]
    have hmro : (g.remove id).mro ClassId.root = g.mro ClassId.root := by
      unfold mro
      rw [hsame]
    symm
    apply resolve_congr hmro
    intro a ha
    rw [mro_eq, hs.wellFormed.mro?_root, Option.getD_some, List.mem_singleton] at ha
    rw [ha, ownMember_eq, ownMember_eq, hsame]
  · apply hs.frozen_of_flags
    rintro d ⟨t, rfl⟩
    rw [class?_remove_of_ne g (Ne.symm (hs.ne_of_mutable hm t))]

theorem exists_memberWritten (hs : g.Sound) {id : ClassId} {name : String} {v : Option Value}
    {c w : ClassObject} (hc : g.class? id = some c) (hmut : c.isImmutable = false)
    (hw : c.writeMember? name v = some w) :
    ∃ u V, (g.modify id fun _ => w).memberWritten id name v = (u, none) ∧
      g.Written id name v (g.modify id fun _ => w) ∧ (g.modify id fun _ => w).Sound ∧
      (g.modify id fun _ => w).Refreshed u.graph V := by
  have r := written_modify hc hw
  have hs' := hs.written r (hs.ne_root ⟨c, hc, hmut⟩)
  obtain ⟨u, V, hdone, hu⟩ := memberWritten_ok id name v hs'.published hs'.wellFormed.acyclic
  exact ⟨u, V, hdone, r, hs', hu⟩

theorem exists_basesReplaced (hs : g.Sound) {id : ClassId} {bases changed : List ClassId}
    {k : ClassGraph} (hmut : g.Mutable id) (hok : g.rebase id bases = .ok (changed, k)) :
    ∃ u V, k.basesReplaced id changed = (u, none) ∧ g.Rebased id bases k ∧ k.Sound ∧
      k.Refreshed u.graph V := by
  have r := (rebase_ok hs.wellFormed hok).1
  have hs' := hs.rebased r (hs.ne_root hmut)
  obtain ⟨u, V, hdone, hu, -⟩ :=
    basesReplaced_ok id changed hs'.wellFormed hs'.published hs'.rootRight
  exact ⟨u, V, hdone, r, hs', hu⟩

/-- Every change leaves the graph sound, unless it takes the last id. -/
theorem step (hs : g.Sound) (hfew : e.isDefinition = true → g.nextId + 1 < UInt32.size)
    (hstep : GraphStep mayExtend g e h) : h.Sound := by
  cases hstep with
  | refused hclasses hlinks hnext =>
    have r : g.Reflagged h := .of_classes hclasses hlinks
    have hle : g.nextId ≤ h.nextId := by
      rw [hnext]
      split
      · next he =>
        rw [nextId_allocate_of_lt (hfew he)]
        exact Nat.le_succ _
      · exact Nat.le_refl _
    refine ⟨r.wellFormed hle hs.wellFormed, r.published hs.published,
      r.rootRight hs.rootRight, hs.frozen_of_flags fun d _ => ?_⟩
    unfold class?
    rw [hclasses]
  | @defined name bases members c h hlin hbases hkind hothers hh hnext =>
    have hwf := hs.wellFormed_insert (hfew rfl) (hbases ▸ hlin)
    have hm : (g.allocate.2.insert g.nextId c).Managed g.nextId :=
      ⟨c, class?_insert_self _ _ c, by simp [ClassObject.isForeign, hkind]⟩
    rw [install_of_managed hm] at hh
    have r := retabled_publish (g.allocate.2.insert g.nextId c) g.nextId
      ((g.allocate.2.insert g.nextId c).build g.nextId mayExtend).1
    apply hs.of_new _ hothers
    · intro _
      rw [hh.table?, table?_publish hm, if_pos rfl, Option.isSome_some]
    · exact hh.wellFormed (Nat.le_of_eq hnext.symm)
        ((SameOrders.of_retabled r).wellFormed hwf)
  | @definedForeign name bases members readOnly c h hlin hbases hkind hothers hh hnext =>
    have hwf := hs.wellFormed_insert (hfew rfl) (hbases ▸ hlin)
    apply hs.of_new (hh.wellFormed (Nat.le_of_eq hnext.symm) hwf) hothers
    intro hm
    rw [hh.managed_iff] at hm
    exact absurd hm (not_managed_of_kind (class?_insert_self _ _ c) hkind)
  | written he hc hmut hw hremoved =>
    obtain ⟨u, V, hdone, -, hs', hu⟩ := hs.exists_memberWritten hc hmut hw
    rw [hdone]
    exact hs'.refreshed hu
  | rebased hmut hok =>
    obtain ⟨u, V, hdone, -, hs', hu⟩ := hs.exists_basesReplaced hmut hok
    rw [hdone]
    exact hs'.refreshed hu
  | removed hmut => exact hs.removed hmut

theorem nextId_step (hs : g.Sound) (hstep : GraphStep mayExtend g e h) :
    h.nextId = if e.isDefinition then g.allocate.2.nextId else g.nextId := by
  cases hstep with
  | refused hclasses hlinks hnext => exact hnext
  | defined hlin hbases hkind hothers hh hnext => exact hnext
  | definedForeign hlin hbases hkind hothers hh hnext => exact hnext
  | written he hc hmut hw hremoved =>
    obtain ⟨u, V, hdone, -, -, hu⟩ := hs.exists_memberWritten hc hmut hw
    rw [hdone, ClassEdit.isDefinition_of_write? he]
    exact hu.retabled.nextId
  | rebased hmut hok =>
    obtain ⟨u, V, hdone, r, -, hu⟩ := hs.exists_basesReplaced hmut hok
    rw [hdone]
    exact hu.retabled.nextId.trans r.nextId
  | removed hmut => exact nextId_remove g _

theorem closed_step (hs : g.Sound) (hcl : g.Closed) (hkeeps : e.isRemoval = false)
    (hstep : GraphStep mayExtend g e h) : h.Closed := by
  cases hstep with
  | refused hclasses hlinks hnext => exact (Reflagged.of_classes hclasses hlinks).closed hcl
  | @defined name bases members c h hlin hbases hkind hothers hh hnext =>
    have hcl' : (g.allocate.2.insert g.nextId c).Closed :=
      WellFormed.closed_insert hcl hs.nextId_ne_root (hbases ▸ hlin)
    have hm : (g.allocate.2.insert g.nextId c).Managed g.nextId :=
      ⟨c, class?_insert_self _ _ c, by simp [ClassObject.isForeign, hkind]⟩
    rw [install_of_managed hm] at hh
    exact hh.closed ((SameOrders.of_retabled (retabled_publish _ _ _)).closed hcl')
  | @definedForeign name bases members readOnly c h hlin hbases hkind hothers hh hnext =>
    exact hh.closed (WellFormed.closed_insert hcl hs.nextId_ne_root (hbases ▸ hlin))
  | written he hc hmut hw hremoved =>
    obtain ⟨u, V, hdone, r, -, hu⟩ := hs.exists_memberWritten hc hmut hw
    rw [hdone]
    exact (SameOrders.of_retabled hu.retabled).closed (r.orders.closed hcl)
  | rebased hmut hok =>
    obtain ⟨u, V, hdone, r, -, hu⟩ := hs.exists_basesReplaced hmut hok
    rw [hdone]
    exact (SameOrders.of_retabled hu.retabled).closed (r.closed (hs.ne_root hmut) hcl)
  | removed hmut => simp [ClassEdit.isRemoval] at hkeeps

end Sound

end ClassGraph

namespace Context

open ClassGraph

/-- The changes leave an id to the context that is neither used up nor zero again. -/
def HasIdsFor (c : Context) (edits : List ClassEdit) : Prop :=
  c.graph.nextId + edits.countP ClassEdit.isDefinition < UInt32.size

section Ids

variable {c : Context} {e : ClassEdit} {edits : List ClassEdit}

theorem HasIdsFor.head (h : c.HasIdsFor (e :: edits)) (he : e.isDefinition = true) :
    c.graph.nextId + 1 < UInt32.size := by
  unfold HasIdsFor at h
  rw [List.countP_cons_of_pos he] at h
  exact Nat.lt_of_le_of_lt (Nat.add_le_add_left (Nat.le_add_left 1 _) _) h

theorem nextId_apply (hs : c.graph.Sound)
    (hfew : e.isDefinition = true → c.graph.nextId + 1 < UInt32.size) :
    (c.apply e).graph.nextId = c.graph.nextId + if e.isDefinition then 1 else 0 := by
  rw [hs.nextId_step (c.apply_step e)]
  split
  · next he => exact nextId_allocate_of_lt (hfew he)
  · rfl

theorem HasIdsFor.tail (h : c.HasIdsFor (e :: edits)) (hs : c.graph.Sound) :
    (c.apply e).HasIdsFor edits := by
  unfold HasIdsFor
  rw [nextId_apply hs h.head, Nat.add_assoc, Nat.add_comm _ (edits.countP _), ← List.countP_cons]
  exact h

end Ids

theorem sound_run {c : Context} (hs : c.graph.Sound) {edits : List ClassEdit}
    (hids : c.HasIdsFor edits) : (c.run edits).graph.Sound := by
  induction edits generalizing c with
  | nil => exact hs
  | cons e rest ih => exact ih (hs.step hids.head (c.apply_step e)) (hids.tail hs)

theorem closed_run {c : Context} (hs : c.graph.Sound) (hcl : c.graph.Closed)
    {edits : List ClassEdit} (hids : c.HasIdsFor edits)
    (hkeeps : ∀ e ∈ edits, e.isRemoval = false) : (c.run edits).graph.Closed := by
  induction edits generalizing c with
  | nil => exact hcl
  | cons e rest ih =>
    have hstep := c.apply_step e
    have he := hkeeps e List.mem_cons_self
    exact ih (hs.step hids.head hstep) (hs.closed_step hcl he hstep) (hids.tail hs)
      fun e' he' => hkeeps e' (List.mem_cons_of_mem e he')

end Context

end MethodCache
