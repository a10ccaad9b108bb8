import MethodCache.Proofs.Relinearization

/-!
What replacing the bases of a class leads to. The class and everything below it are linearized
from the orders that are in force afterwards, no other order changes, and the links of the class
lead from its new bases. A well formed graph stays well formed, and the classes reported as
changed are those below whose order is another one.
-/
namespace MethodCache.ClassGraph

open Relation

structure Rebased (g : ClassGraph) (id : ClassId) (bases : List ClassId)
    (h : ClassGraph) : Prop where
  classes : ∀ d, h.class? d = (g.class? d).map fun c =>
    { c with bases := if d = id then bases else c.bases, mro := h.mro d }
  links : ∀ b d, h.Link b d ↔
    (d ≠ id ∧ g.Link b d) ∨ (d = id ∧ b ∈ effectiveBases id bases)
  registered : g.contains id = true
  above : ∀ b ∈ bases, b ≠ id ∧ b ∉ g.descendants id
  linearized : ∀ d, d = id ∨ d ∈ g.descendants id →
    linearize d (h.basesOf d) h.mro? = .ok (h.mro d)
  kept : ∀ d, d ≠ id → d ∉ g.descendants id → h.mro? d = g.mro? d
  nextId : h.nextId = g.nextId
  constructing : h.constructing = g.constructing
  tracks : h.tracksConstruction = g.tracksConstruction

/-! Storing the new orders. -/

theorem class?_storeOrders (g : ClassGraph) {es : List (ClassId × List ClassId)}
    (hes : es.Pairwise fun a b => a.1 < b.1) (d : ClassId) :
    (g.storeOrders es).class? d =
      (g.class? d).map fun c => { c with mro := (IndexMap.find d es).getD c.mro } := by
  unfold storeOrders
  induction es generalizing g with
  | nil => cases hc : g.class? d <;> simp [IndexMap.find, hc]
  | cons e rest ih =>
    obtain ⟨he, hrest⟩ := List.pairwise_cons.mp hes
    rw [List.foldl_cons, ih _ hrest, class?_modify, IndexMap.find]
    by_cases hd : e.1 = d
    · have hnone : IndexMap.find d rest = none := by
        apply IndexMap.find_eq_none
        intro a ha
        exact hd ▸ (Nat.ne_of_gt (he a ha))
      rw [if_pos hd, if_pos hd, hnone, Option.map_map]
      rfl
    · rw [if_neg hd, if_neg hd]

theorem storeOrders_rest (g : ClassGraph) (es : List (ClassId × List ClassId)) :
    (g.storeOrders es).links = g.links ∧ (g.storeOrders es).nextId = g.nextId ∧
    (g.storeOrders es).constructing = g.constructing ∧
    (g.storeOrders es).tracksConstruction = g.tracksConstruction := by
  unfold storeOrders
  induction es generalizing g with
  | nil => exact ⟨rfl, rfl, rfl, rfl⟩
  | cons e rest ih =>
    rw [List.foldl_cons]
    exact ih _

/-- The orders found for a rebased class and for everything below it. -/
structure Relinearized (g : ClassGraph) (id : ClassId) (bases : List ClassId)
    (r : Relinearization) : Prop where
  above : ∀ b ∈ bases, b ≠ id ∧ b ∉ g.descendants id
  ordered : ∃ first, linearize id bases g.mro? = .ok first ∧ g.Ordered id first r
  nodup : r.order.Nodup
  mem_order : ∀ d, d ∈ r.order ↔ d ∈ g.descendants id

theorem relinearize_ok {g : ClassGraph} {id : ClassId} {bases : List ClassId}
    {r : Relinearization} (hwf : g.WellFormed) (h : g.relinearize id bases = .ok r) :
    g.Relinearized id bases r := by
  obtain ⟨habove, first, ids, hfirst, ht, hready⟩ := relinearize_turns h
  have hid : id ∉ g.descendants id := fun hmem => (mem_descendants.mp hmem).1 rfl
  obtain ⟨s, ord, -⟩ := ht.kept hwf (hwf.registered_below id) hid
    (g.startRelinearization_scheduled (g.descendants_nodup id) id first)
    (g.startRelinearization_ordered (g.descendants id) id first)
  refine ⟨habove, ⟨first, hfirst, ord⟩, (List.nodup_append.mp s.nodup).1, ?_⟩
  intro d
  exact ⟨fun hd => s.mem_below d (List.mem_append_left _ hd), s.complete hwf hready d⟩

namespace Relinearized

variable {g : ClassGraph} {id : ClassId} {bases : List ClassId} {r : Relinearization}

theorem of_get? (p : g.Relinearized id bases r) {d : ClassId} {o : List ClassId}
    (h : r.pending.get? d = some o) : d = id ∨ d ∈ g.descendants id := by
  obtain ⟨first, -, ord⟩ := p.ordered
  have hsome : (r.pending.get? d).isSome = true := by
    rw [h]
    rfl
  exact ((ord.known d).mp hsome).imp_right (p.mem_order d).mp

theorem of_mem (p : g.Relinearized id bases r) {d : ClassId} (hd : d ∈ g.descendants id) :
    ∃ o, r.pending.get? d = some o ∧
      linearize d (g.basesOf d) (g.orderIn? r.pending) = .ok o := by
  obtain ⟨first, -, ord⟩ := p.ordered
  have hmem := (p.mem_order d).mpr hd
  obtain ⟨o, ho⟩ := Option.isSome_iff_exists.mp ((ord.known d).mpr (Or.inr hmem))
  exact ⟨o, ho, ord.linearized d hmem o ho⟩

end Relinearized

/-! The graph with the new bases, links and orders written into it. -/

section Written

variable {g : ClassGraph} {id : ClassId} {c : ClassObject}

def rewritten (g : ClassGraph) (id : ClassId) (old bases : List ClassId)
    (pending : IndexMap (List ClassId)) : ClassGraph :=
  (((g.unlink id (effectiveBases id old)).link id (effectiveBases id bases)).modify id
    fun c => { c with bases := bases }).storeOrders pending.entries

theorem class?_rewritten (g : ClassGraph) (id : ClassId) (old bases : List ClassId)
    (pending : IndexMap (List ClassId)) (d : ClassId) :
    (g.rewritten id old bases pending).class? d = (g.class? d).map fun c =>
      { c with
        bases := if d = id then bases else c.bases
        mro := (pending.get? d).getD c.mro } := by
  have hsame : ((g.unlink id (effectiveBases id old)).link id
      (effectiveBases id bases)).class? d = g.class? d := rfl
  have hfind : IndexMap.find d pending.entries = pending.get? d := rfl
  rw [rewritten, class?_storeOrders _ pending.ascending, class?_modify, hsame, hfind]
  by_cases hd : id = d
  · subst hd
    simp only [if_true, Option.map_map]
    rfl
  · simp only [if_neg hd, if_neg (Ne.symm hd)]

theorem link_rewritten (hwf : g.WellFormed) (hc : g.class? id = some c) (bases : List ClassId)
    (pending : IndexMap (List ClassId)) (b d : ClassId) :
    (g.rewritten id c.bases bases pending).Link b d ↔
      (d ≠ id ∧ g.Link b d) ∨ (d = id ∧ b ∈ effectiveBases id bases) := by
  have hlinks : (g.rewritten id c.bases bases pending).subclasses b =
      ((g.unlink id (effectiveBases id c.bases)).link id
        (effectiveBases id bases)).subclasses b := by
    rw [subclasses_eq_listed, subclasses_eq_listed]
    exact congrArg (listed · b) (storeOrders_rest _ _).1
  unfold Link
  rw [hlinks, mem_subclasses_link, mem_subclasses_unlink]
  by_cases hd : d = id
  · subst hd
    have hold : d ∈ g.subclasses b → b ∈ effectiveBases d c.bases :=
      fun hl => ((hwf.links b d).mp hl).2.mem hc
    simp only [true_and, ne_eq, not_true, false_and, false_or]
    constructor
    · rintro (⟨hl, hnot⟩ | hb)
      · exact absurd (hold hl) hnot
      · exact hb
    · exact Or.inr
  · simp [hd]

theorem mro?_rewritten (old : List ClassId) {bases : List ClassId} {r : Relinearization}
    (hwf : g.WellFormed) (hid : g.contains id = true) (p : g.Relinearized id bases r)
    (d : ClassId) : (g.rewritten id old bases r.pending).mro? d = g.orderIn? r.pending d := by
  unfold mro? orderIn? mro?
  rw [class?_rewritten, Option.map_map]
  cases ho : r.pending.get? d with
  | none => simp [Function.comp_def]
  | some o =>
    have hd : g.contains d = true := by
      rcases p.of_get? ho with rfl | hmem
      · exact hid
      · exact hwf.contains_of_mem_descendants hmem
    obtain ⟨e, he⟩ := contains_iff.mp hd
    simp [he]

theorem basesOf_rewritten (hc : g.class? id = some c) (bases : List ClassId)
    (pending : IndexMap (List ClassId)) (d : ClassId) :
    (g.rewritten id c.bases bases pending).basesOf d =
      if d = id then bases else g.basesOf d := by
  unfold basesOf
  rw [class?_rewritten]
  by_cases hid : d = id
  · subst hid
    simp [hc]
  · simp [hid, Function.comp_def]

/-- The class itself and all classes below it stand as their bases demand. -/
theorem linearize_rewritten {bases : List ClassId} {r : Relinearization} (hwf : g.WellFormed)
    (hc : g.class? id = some c) (p : g.Relinearized id bases r) {d : ClassId}
    (hd : d = id ∨ d ∈ g.descendants id) :
    linearize d ((g.rewritten id c.bases bases r.pending).basesOf d)
      (g.rewritten id c.bases bases r.pending).mro? =
        .ok ((g.rewritten id c.bases bases r.pending).mro d) := by
  have hmro := mro?_rewritten c.bases hwf (contains_of_class? hc) p
  rw [basesOf_rewritten hc, mro_eq, hmro, linearize_congr fun b _ => hmro b]
  rcases hd with rfl | hd
  · obtain ⟨first, hfirst, ord⟩ := p.ordered
    have hsame : ∀ b ∈ bases, g.orderIn? r.pending b = g.mro? b := by
      intro b hb
      obtain ⟨hne, hnot⟩ := p.above b hb
      rw [orderIn?]
      cases ho : r.pending.get? b with
      | none => rfl
      | some o => exact absurd (p.of_get? ho) (not_or.mpr ⟨hne, hnot⟩)
    rw [if_pos rfl, linearize_congr hsame, hfirst, orderIn?, ord.first]
    rfl
  · obtain ⟨o, ho, hlin⟩ := p.of_mem hd
    rw [if_neg (mem_descendants.mp hd).1, hlin, orderIn?, ho]
    rfl

theorem rebased_rewritten {bases : List ClassId} {r : Relinearization} (hwf : g.WellFormed)
    (hc : g.class? id = some c) (p : g.Relinearized id bases r) :
    g.Rebased id bases (g.rewritten id c.bases bases r.pending) := by
  obtain ⟨-, hnext, hconstructing, htracks⟩ := storeOrders_rest
    (((g.unlink id (effectiveBases id c.bases)).link id (effectiveBases id bases)).modify id
      fun c => { c with bases := bases }) r.pending.entries
  refine ⟨?_, link_rewritten hwf hc bases r.pending, contains_of_class? hc, p.above,
    fun d hd => linearize_rewritten hwf hc p hd, ?_, hnext, hconstructing, htracks⟩
  · intro d
    unfold mro
    rw [class?_rewritten]
    cases g.class? d <;> simp
  · intro d hd hdesc
    rw [mro?_rewritten c.bases hwf (contains_of_class? hc) p, orderIn?]
    cases ho : r.pending.get? d with
    | none => rfl
    | some o => exact absurd (p.of_get? ho) (not_or.mpr ⟨hd, hdesc⟩)

end Written

theorem exists_relinearization {g h : ClassGraph} {id : ClassId} {bases changed : List ClassId}
    (hok : g.rebase id bases = .ok (changed, h)) :
    ∃ c r, g.class? id = some c ∧ g.relinearize id bases = .ok r ∧
      changed = (r.order.eraseDups.filter fun d => r.pending.get? d ≠ g.mro? d) ∧
      h = g.rewritten id c.bases bases r.pending := by
  unfold rebase at hok
  split at hok
  · simp at hok
  · next c hc =>
    split at hok
    · simp at hok
    · next r hr =>
      obtain ⟨rfl, rfl⟩ := Prod.mk.inj (Except.ok.inj hok)
      exact ⟨c, r, hc, hr, rfl, rfl⟩

/-- A replacement of bases does what it should, and reports the classes below whose order it
changed. -/
theorem rebase_ok {g h : ClassGraph} {id : ClassId} {bases changed : List ClassId}
    (hwf : g.WellFormed) (hok : g.rebase id bases = .ok (changed, h)) :
    g.Rebased id bases h ∧
    ∀ d, d ∈ changed ↔ d ∈ g.descendants id ∧ h.mro? d ≠ g.mro? d := by
  obtain ⟨c, r, hc, hr, rfl, rfl⟩ := exists_relinearization hok
  have p := relinearize_ok hwf hr
  refine ⟨rebased_rewritten hwf hc p, ?_⟩
  intro d
  rw [List.mem_filter, List.mem_eraseDups, p.mem_order,
    mro?_rewritten c.bases hwf (contains_of_class? hc) p]
  apply and_congr_right
  intro hd
  obtain ⟨o, ho, -⟩ := p.of_mem hd
  simp [orderIn?, ho]

namespace Rebased

variable {g h : ClassGraph} {id : ClassId} {bases : List ClassId}

theorem contains (r : g.Rebased id bases h) (d : ClassId) : h.contains d = g.contains d := by
  have hmap := congrArg Option.isSome (r.classes d)
  rwa [Option.isSome_map] at hmap

theorem exists_class (r : g.Rebased id bases h) {d : ClassId} {c' : ClassObject}
    (hc' : h.class? d = some c') : ∃ c, g.class? d = some c ∧
      c'.bases = (if d = id then bases else c.bases) ∧ c'.mro = h.mro d ∧
      c'.members = c.members ∧ c'.kind = c.kind ∧ c'.flags = c.flags := by
  have hclass := r.classes d
  rw [hc'] at hclass
  obtain ⟨c, hc, heq⟩ := Option.map_eq_some_iff.mp hclass.symm
  obtain rfl := heq.symm
  exact ⟨c, hc, rfl, rfl, rfl, rfl, rfl⟩

theorem ownMember (r : g.Rebased id bases h) (d : ClassId) (name : String) :
    h.ownMember d name = g.ownMember d name := by
  unfold ClassGraph.ownMember
  rw [r.classes]
  cases g.class? d <;> rfl

theorem basesOf (r : g.Rebased id bases h) (d : ClassId) :
    h.basesOf d = if d = id then bases else g.basesOf d := by
  unfold ClassGraph.basesOf
  rw [r.classes]
  by_cases hd : d = id
  · obtain ⟨c, hc⟩ := contains_iff.mp r.registered
    simp [hd, hc]
  · simp [hd, Function.comp_def]

/-- A change of bases that is not refused finds all bases of the classes below. -/
theorem contains_of_mem_basesOf (r : g.Rebased id bases h) (hwf : g.WellFormed) {b d : ClassId}
    (hd : d ∈ g.descendants id) (hb : b ∈ g.basesOf d) : g.contains b = true := by
  have hlin := r.linearized d (Or.inr hd)
  rw [r.basesOf, if_neg (mem_descendants.mp hd).1] at hlin
  rw [← r.contains]
  exact WellFormed.contains_of_linearize (hwf.registered_below id d hd).2 hlin b hb

/-- A class that is not below keeps its registered bases out of what is below as well. -/
theorem base_not_below {b d : ClassId} (hd : d ≠ id)
    (hdesc : d ∉ g.descendants id) (hl : g.Link b d) : b ≠ id ∧ b ∉ g.descendants id := by
  constructor
  · rintro rfl
    exact hdesc (mem_descendants.mpr ⟨hd, TransGen.single hl⟩)
  · intro hb
    exact hdesc (mem_descendants.mpr ⟨hd, (mem_descendants.mp hb).2.tail hl⟩)

theorem derives_iff (r : g.Rebased id bases h) {b d : ClassId} (hd : d ≠ id) :
    h.Derives d b ↔ g.Derives d b := by
  unfold Derives
  rw [r.classes]
  cases g.class? d <;> simp [hd]

theorem mem_of_mro? (r : g.Rebased id bases h) (hwf : g.WellFormed) {b : ClassId}
    {o : List ClassId} (ho : h.mro? b = some o) : b ∈ o := by
  by_cases hb : b = id ∨ b ∈ g.descendants id
  · have hlin := r.linearized b hb
    rw [mro_eq, ho, Option.getD_some] at hlin
    rw [linearize_eq_cons hlin]
    exact List.mem_cons_self
  · obtain ⟨hne, hdesc⟩ := not_or.mp hb
    rw [r.kept b hne hdesc] at ho
    exact hwf.mem_of_mro? ho

theorem order_of_mro? (r : g.Rebased id bases h) (hwf : g.WellFormed) {d : ClassId}
    {o : List ClassId} (ho : h.mro? d = some o) :
    o.getLast? = some ClassId.root ∧ ∀ a ∈ o, a < g.nextId := by
  have hkept : ∀ b, b ≠ id → b ∉ g.descendants id → ∀ o, h.mro? b = some o →
      o.getLast? = some ClassId.root ∧ ∀ a ∈ o, a < g.nextId := by
    intro b hb hdesc o ho
    rw [r.kept b hb hdesc] at ho
    exact ⟨hwf.last_of_mro? ho, hwf.known_of_mro? ho⟩
  have hmro : ∀ b p, h.mro? b = some p → h.mro b = p := by
    intro b p hp
    rw [mro_eq, hp, Option.getD_some]
  have hreg : ∀ b p, h.mro? b = some p → g.contains b = true := by
    intro b p hp
    rw [← r.contains, ← mro?_isSome, hp, Option.isSome_some]
  have hself : ∀ b ∈ h.basesOf d, ∀ p, h.mro? b = some p → b ∈ p :=
    fun b _ p hp => r.mem_of_mro? hwf hp
  -- the bases of a class below have shorter orders before the change
  induction hn : (g.mro d).length using Nat.strongRecOn generalizing d o with
  | ind n ih =>
    by_cases hd : d = id ∨ d ∈ g.descendants id
    · have hlin := r.linearized d hd
      have hbases : ∀ b ∈ h.basesOf d, ∀ p, h.mro? b = some p →
          p.getLast? = some ClassId.root ∧ ∀ a ∈ p, a < g.nextId := by
        intro b hb p hp
        by_cases hdid : d = id
        · subst hdid
          rw [r.basesOf, if_pos rfl] at hb
          exact hkept b (r.above b hb).1 (r.above b hb).2 p hp
        · obtain ⟨c', hc', hbc⟩ := exists_class_of_mem_basesOf hb
          have hdrv : g.Derives d b :=
            (r.derives_iff hdid).mp ⟨c', hc', mem_effectiveBases_of_mem hbc⟩
          have hless := hwf.mro_length_lt ((hwf.links b d).mpr ⟨hreg b p hp, hdrv⟩)
          exact ih _ (hn ▸ hless) hp (fun b _ p hp => r.mem_of_mro? hwf hp) rfl
      rw [← hmro d o ho]
      exact ⟨getLast?_of_linearize hself (fun b hb p hp => (hbases b hb p hp).1) hlin,
        forall_mem_of_linearize (hwf.lt_nextId (hreg d o ho)) hwf.root_lt_nextId hself
          (fun b hb p hp => (hbases b hb p hp).2) hlin⟩
    · obtain ⟨hdid, hdesc⟩ := not_or.mp hd
      exact hkept d hdid hdesc o ho

theorem linearize_class (r : g.Rebased id bases h) {d : ClassId} {c' : ClassObject}
    (hc' : h.class? d = some c') (hd : d = id ∨ d ∈ g.descendants id) :
    linearize d c'.bases h.mro? = .ok c'.mro := by
  have hlin := r.linearized d hd
  rwa [basesOf_of_class? hc', mro_of_class? hc'] at hlin

theorem links_iff (r : g.Rebased id bases h) (hwf : g.WellFormed) (hne : id ≠ ClassId.root)
    (b d : ClassId) : h.Link b d ↔ h.contains b = true ∧ h.Derives d b := by
  rw [r.links, r.contains]
  by_cases hd : d = id
  · subst hd
    obtain ⟨c, hc⟩ := contains_iff.mp r.registered
    have hclass := r.classes d
    rw [hc, Option.map_some] at hclass
    simp only [if_true] at hclass
    have hreg : ∀ b ∈ effectiveBases d bases, g.contains b = true := by
      intro b hb
      rcases mem_effectiveBases.mp hb with hb | ⟨-, -, rfl⟩
      · rw [← r.contains]
        exact WellFormed.contains_of_linearize hne (r.linearize_class hclass (Or.inl rfl)) b hb
      · exact hwf.contains_root
    constructor
    · rintro (⟨hd, -⟩ | ⟨-, hb⟩)
      · exact absurd rfl hd
      · exact ⟨hreg b hb, _, hclass, hb⟩
    · rintro ⟨-, hdrv⟩
      exact Or.inr ⟨rfl, hdrv.mem hclass⟩
  · rw [r.derives_iff hd, hwf.links]
    simp [hd]

theorem placed_kept (r : g.Rebased id bases h) (hwf : g.WellFormed) {d : ClassId}
    {c' : ClassObject} (hc' : h.class? d = some c') (hd : d ≠ id)
    (hdesc : d ∉ g.descendants id) : h.Placed d c' := by
  obtain ⟨c, hc, hb', -⟩ := r.exists_class hc'
  have hmro : c'.mro = c.mro := by
    have hkept := r.kept d hd hdesc
    rw [mro?_of_class? hc', mro?_of_class? hc] at hkept
    exact Option.some.inj hkept
  rw [if_neg hd] at hb'
  have p := (hwf.placed d c hc).congr hb' hmro
  apply p.frame _ (Nat.le_of_eq r.nextId.symm)
  intro b hb o ho
  have hreg : g.contains b = true := by
    rw [← r.contains, ← mro?_isSome, ho]
    rfl
  rw [hb'] at hb
  obtain ⟨hbid, hbdesc⟩ := base_not_below hd hdesc ((hwf.links b d).mpr ⟨hreg, c, hc, hb⟩)
  rwa [r.kept b hbid hbdesc] at ho

theorem wellFormed (r : g.Rebased id bases h) (hwf : g.WellFormed) (hne : id ≠ ClassId.root) :
    h.WellFormed := by
  have hrootdesc := hwf.root_not_mem_descendants id
  have hmroot : h.mro? ClassId.root = some [ClassId.root] := by
    rw [r.kept _ (Ne.symm hne) hrootdesc, hwf.mro?_root]
  have hidroot : ∀ d, d = id ∨ d ∈ g.descendants id → d ≠ ClassId.root := by
    rintro d (rfl | hd)
    · exact hne
    · rintro rfl
      exact hrootdesc hd
  refine ⟨?_, r.links_iff hwf hne, ?_⟩
  · obtain ⟨c, hc, hbases⟩ := hwf.root
    have hclass := r.classes ClassId.root
    rw [hc, Option.map_some] at hclass
    exact ⟨_, hclass, by simp [Ne.symm hne, hbases]⟩
  · intro d c' hc'
    by_cases hd : d = id ∨ d ∈ g.descendants id
    · have hreg : g.contains d = true := by
        rw [← r.contains]
        exact contains_of_class? hc'
      exact Placed.of_linearize (hidroot d hd) hmroot (fun b _ o ho => r.mem_of_mro? hwf ho)
        (fun b _ o ho => (r.order_of_mro? hwf ho).1) (r.linearize_class hc' hd)
        (r.nextId.symm ▸ ⟨hwf.lt_nextId hreg, hwf.root_lt_nextId⟩)
        (fun b _ o ho => r.nextId.symm ▸ (r.order_of_mro? hwf ho).2)
    · obtain ⟨hdid, hdesc⟩ := not_or.mp hd
      exact r.placed_kept hwf hc' hdid hdesc

theorem closed (r : g.Rebased id bases h) (hne : id ≠ ClassId.root) (hcl : g.Closed) :
    h.Closed := by
  intro d c' hc' b hb
  obtain ⟨c, hc, hb', -⟩ := r.exists_class hc'
  rw [hb'] at hb
  split at hb
  · next hd =>
    subst hd
    have hlin := r.linearize_class hc' (Or.inl rfl)
    rw [hb', if_pos rfl] at hlin
    exact WellFormed.contains_of_linearize hne hlin b hb
  · rw [r.contains]
    exact hcl d c hc b hb

end Rebased

end MethodCache.ClassGraph
