import MethodCache.Proofs.Process

/-!
What a change of bases goes through and what it reports. The classes below the class have one
turn each, and a class has its turn after all of its bases below, so it is linearized from orders
that are final. The new orders are then written into the classes in whatever order a map lists
them; the classes that got another order are reported, sorted by their turns, so the report does
not depend on the map and names a class after its bases.
-/
namespace MethodCache.ClassGraph

open Relation

/-! ### Turns -/

section Turns

variable {g : ClassGraph} {r r' : Relinearization} {before after ids : List ClassId}
  {d : ClassId}

theorem Turns.split (t : g.Turns r ids r') (hids : ids = before ++ d :: after) :
    ∃ s rest, g.Turns r before s ∧ s.ready = d :: rest ∧ g.Turns s (d :: after) r' := by
  induction before generalizing r ids with
  | nil =>
    subst hids
    cases t with
    | turn hready hnext hrest => exact ⟨r, _, .done r, hready, .turn hready hnext hrest⟩
  | cons a before ih =>
    subst hids
    cases t with
    | turn hready hnext hrest =>
      obtain ⟨s, rest, ht, hs, ht'⟩ := ih hrest rfl
      exact ⟨s, rest, .turn hready hnext ht, hs, ht'⟩

theorem Turns.pending (t : g.Turns r ids r') (hreg : ∀ a ∈ ids, g.contains a = true)
    (hd : d ∉ ids) : r'.pending.get? d = r.pending.get? d := by
  induction t with
  | done r => rfl
  | @turn r r₁ r' x rest ids hready hnext _ ih =>
    obtain ⟨hx, hids⟩ := List.forall_mem_cons.mp hreg
    obtain ⟨hdx, hdids⟩ := not_or.mp fun h => hd (List.mem_cons.mpr h)
    obtain ⟨o, -, rfl⟩ := relinearizeNext_ok hx hnext
    rw [ih hids hdids, (foldl_release _ (g.subclasses_nodup x)).1, IndexMap.get?_insert,
      if_neg (Ne.symm hdx)]

theorem not_mem_of_split (hnd : ids.Nodup) (hids : ids = before ++ d :: after) {b : ClassId}
    (hb : b ∈ before) : b ∉ d :: after := by
  intro hlate
  have hdisj := (List.nodup_append.mp (hids ▸ hnd)).2.2
  exact hdisj b hb b hlate rfl

end Turns

/-- The turns of a change of bases. They begin with the classes that have no base below, they end
when no class is ready, each class below has one, and a class that has its turn finds its bases
below behind it and the orders of all its bases as they will stand. -/
structure TakenInTurn (g : ClassGraph) (id : ClassId) (bases first : List ClassId)
    (r : Relinearization) (h : ClassGraph) : Prop where
  linearized : linearize id bases g.mro? = .ok first
  turns : g.Turns (g.startRelinearization (g.descendants id) id first) r.order r
  ended : r.ready = []
  once : r.order.Perm (g.descendants id)
  basesBefore : ∀ before d after, r.order = before ++ d :: after →
    ∀ b ∈ g.basesOf d, b ∈ g.descendants id → b ∈ before
  final : ∀ before d after, r.order = before ++ d :: after → ∃ s rest,
    g.Turns (g.startRelinearization (g.descendants id) id first) before s ∧
    s.ready = d :: rest ∧ (∀ b ∈ g.basesOf d, g.orderIn? s.pending b = h.mro? b) ∧
    linearize d (g.basesOf d) (g.orderIn? s.pending) = .ok (h.mro d)

theorem exists_takenInTurn {g : ClassGraph} {id : ClassId} {c : ClassObject} {bases : List ClassId}
    {r : Relinearization} (hwf : g.WellFormed) (hc : g.class? id = some c)
    (hok : g.relinearize id bases = .ok r) :
    ∃ first, g.TakenInTurn id bases first r (g.rewritten id c.bases bases r.pending) := by
  have p := relinearize_ok hwf hok
  have q := rebased_rewritten hwf hc p
  obtain ⟨-, first, ids, hfirst, ht, hend⟩ := relinearize_turns hok
  have hid : id ∉ g.descendants id := fun hmem => (mem_descendants.mp hmem).1 rfl
  have hbelow := hwf.registered_below id
  have hkept : ∀ {ids : List ClassId} {s : Relinearization},
      g.Turns (g.startRelinearization (g.descendants id) id first) ids s →
      g.Scheduled (g.descendants id) s ∧ s.order = ids := by
    intro ids s ht
    obtain ⟨hs, -, horder⟩ := ht.kept hwf hbelow hid
      (g.startRelinearization_scheduled (g.descendants_nodup id) id first)
      (g.startRelinearization_ordered (g.descendants id) id first)
    exact ⟨hs, horder⟩
  obtain rfl : r.order = ids := (hkept ht).2
  have hbefore : ∀ before d after, r.order = before ++ d :: after →
      ∀ b ∈ g.basesOf d, b ∈ g.descendants id → b ∈ before := by
    intro before d after horder b hb hmem
    obtain ⟨s, rest, ht, hready, -⟩ := ht.split horder
    obtain ⟨hs, rfl⟩ := hkept ht
    exact hs.bases_done hready hb hmem
  refine ⟨first, hfirst, ht, hend, ?_, hbefore, ?_⟩
  · exact (List.perm_ext_iff_of_nodup p.nodup (g.descendants_nodup id)).mpr p.mem_order
  · intro before d after horder
    obtain ⟨s, rest, hts, hready, htr⟩ := ht.split horder
    have hmem : ∀ a ∈ d :: after, a ∈ g.descendants id := by
      intro a ha
      exact (p.mem_order a).mp (horder ▸ List.mem_append_right before ha)
    have hd := hmem d List.mem_cons_self
    -- no base of the class has its turn from here on
    have hlater : ∀ b ∈ g.basesOf d, b ∉ d :: after := by
      intro b hb hlate
      have hearly := hbefore before d after horder b hb (hmem b hlate)
      exact not_mem_of_split p.nodup horder hearly hlate
    have hsame : ∀ b ∈ g.basesOf d,
        g.orderIn? s.pending b = (g.rewritten id c.bases bases r.pending).mro? b := by
      intro b hb
      rw [mro?_rewritten c.bases hwf (contains_of_class? hc) p, orderIn?, orderIn?,
        htr.pending (fun a ha => (hbelow a (hmem a ha)).1) (hlater b hb)]
    refine ⟨s, rest, hts, hready, hsame, ?_⟩
    have hlin := q.linearized d (Or.inr hd)
    rw [q.basesOf, if_neg (mem_descendants.mp hd).1] at hlin
    rw [linearize_congr hsame, hlin]

/-! ### Transitive bases -/

theorem WellFormed.below_of_derives {g : ClassGraph} (hwf : g.WellFormed) {id b d : ClassId}
    (hb : b ∈ g.descendants id) (hd : g.Derives d b) :
    d ∈ g.descendants id ∧ b ∈ g.basesOf d := by
  obtain ⟨hreg, hroot⟩ := hwf.registered_below id b hb
  have hlink : g.Link b d := (hwf.links b d).mpr ⟨hreg, hd⟩
  have hchain := (mem_descendants.mp hb).2.tail hlink
  refine ⟨mem_descendants.mpr ⟨?_, hchain⟩, (hwf.link_iff_mem_basesOf hreg hroot).mp hlink⟩
  rintro rfl
  exact hwf.acyclic _ hchain

/-- New bases do not lie below, so after a change of bases as well what derives from a class below
is below. -/
theorem Rebased.below_of_derives {g h : ClassGraph} {id : ClassId} {bases : List ClassId}
    (q : g.Rebased id bases h) (hwf : g.WellFormed) {b d : ClassId}
    (hb : b ∈ g.descendants id) (hd : h.Derives d b) :
    d ∈ g.descendants id ∧ b ∈ g.basesOf d := by
  have hne : d ≠ id := by
    rintro rfl
    obtain ⟨c, hc, hbases⟩ := hd
    obtain ⟨_, _, hb', -⟩ := q.exists_class hc
    rw [hb', if_pos rfl] at hbases
    rcases mem_effectiveBases.mp hbases with hmem | ⟨-, -, rfl⟩
    · exact (q.above b hmem).2 hb
    · exact hwf.root_not_mem_descendants d hb
  exact hwf.below_of_derives hb ((q.derives_iff hne).mp hd)

/-- When every class has its bases below before it, it has its transitive bases below before it. -/
theorem TakenInTurn.above_before {g h : ClassGraph} {id : ClassId} {bases first : List ClassId}
    {r : Relinearization} (t : g.TakenInTurn id bases first r h) {R : ClassId → ClassId → Prop}
    (hbelow : ∀ b d, b ∈ g.descendants id → R d b → d ∈ g.descendants id ∧ b ∈ g.basesOf d)
    {d e : ClassId} (hchain : TransGen R d e) (he : e ∈ g.descendants id) :
    d ∈ g.descendants id ∧
      ∀ before after, r.order = before ++ d :: after → e ∈ before := by
  induction hchain using TransGen.head_induction_on with
  | single hd =>
    obtain ⟨hmem, hbase⟩ := hbelow e _ he hd
    exact ⟨hmem, fun before after horder => t.basesBefore before _ after horder e hbase he⟩
  | @head d b hd _ ih =>
    obtain ⟨hb, hbefore⟩ := ih
    obtain ⟨hmem, hbase⟩ := hbelow b d hb hd
    refine ⟨hmem, ?_⟩
    intro before after horder
    obtain ⟨early, late, rfl⟩ :=
      List.append_of_mem (t.basesBefore before d after horder b hbase hb)
    have hearly := hbefore early (late ++ d :: after) (by simpa using horder)
    exact List.mem_append_left _ hearly

theorem pairwise_of_split {α : Type} {R : α → α → Prop} {l : List α}
    (h : ∀ before d after, l = before ++ d :: after → ∀ e ∈ after, R d e) : l.Pairwise R := by
  induction l with
  | nil => exact .nil
  | cons a l ih =>
    refine List.pairwise_cons.mpr ⟨h [] a l rfl, ih ?_⟩
    intro before d after hl
    exact h (a :: before) d after (by rw [hl, List.cons_append])

theorem TakenInTurn.pairwise {g h : ClassGraph} {id : ClassId} {bases first : List ClassId}
    {r : Relinearization} (t : g.TakenInTurn id bases first r h) {R : ClassId → ClassId → Prop}
    (hbelow : ∀ b d, b ∈ g.descendants id → R d b → d ∈ g.descendants id ∧ b ∈ g.basesOf d) :
    r.order.Pairwise fun d e => ¬ TransGen R d e := by
  apply pairwise_of_split
  intro before d after horder e he hchain
  have hmem : e ∈ r.order := horder ▸ List.mem_append_right before (List.mem_cons_of_mem d he)
  have hearly := (t.above_before hbelow hchain (t.once.mem_iff.mp hmem)).2 before after horder
  have hnd : r.order.Nodup := t.once.nodup_iff.mpr (g.descendants_nodup id)
  exact not_mem_of_split hnd horder hearly (List.mem_cons_of_mem d he)

/-! ### The report -/

/-- What a change of bases reports: the classes below whose order is another one afterwards, once
each, and no class before one that it derives from. -/
structure Reported (g h : ClassGraph) (id : ClassId) (changed : List ClassId) : Prop where
  nodup : changed.Nodup
  mem_iff : ∀ d, d ∈ changed ↔ d ∈ g.descendants id ∧ h.mro? d ≠ g.mro? d
  basesFirst : changed.Pairwise fun d e => ¬ TransGen g.Derives d e ∧ ¬ TransGen h.Derives d e

def exchangeBases (g : ClassGraph) (id : ClassId) (bases : List ClassId) : ClassGraph :=
  ((g.unlink id (effectiveBases id (g.basesOf id))).link id (effectiveBases id bases)).modify id
    fun c => { c with bases := bases }

/-- Writes one new order into its class, if that is registered and had another order, and notes
the class unless it is the one whose bases changed. -/
def writeOrder (id : ClassId) (s : List ClassId × ClassGraph) (e : ClassId × List ClassId) :
    List ClassId × ClassGraph :=
  match s.2.class? e.1 with
  | none => s
  | some c =>
    if c.mro = e.2 then s
    else
      (if e.1 = id then s.1 else s.1 ++ [e.1], s.2.modify e.1 fun c => { c with mro := e.2 })

/-- The turn of a class, counted from one, and zero for a class that had none. -/
def turnOf (order : List ClassId) (d : ClassId) : ℕ :=
  match order.idxOf? d with
  | none => 0
  | some i => i + 1

/-- Writes new orders into their classes one after the other, and sorts the classes that were
noted by their turns. -/
def writeOrders (g : ClassGraph) (id : ClassId) (order : List ClassId)
    (entries : List (ClassId × List ClassId)) : List ClassId × ClassGraph :=
  let s := entries.foldl (writeOrder id) ([], g)
  (s.1.mergeSort fun a b => turnOf order a ≤ turnOf order b, s.2)

section Writing

variable {g : ClassGraph} {id : ClassId}

def notes (g : ClassGraph) (id : ClassId) (e : ClassId × List ClassId) : Bool :=
  e.1 ≠ id && (g.mro? e.1).any (· ≠ e.2)

theorem storeOrders_cons (g : ClassGraph) (e : ClassId × List ClassId)
    (es : List (ClassId × List ClassId)) :
    g.storeOrders (e :: es) = (g.modify e.1 fun c => { c with mro := e.2 }).storeOrders es := rfl

/-- An order that is skipped would have changed nothing. -/
theorem writeOrder_eq (acc : List ClassId) (g : ClassGraph) (e : ClassId × List ClassId) :
    writeOrder id (acc, g) e = (acc ++ if g.notes id e then [e.1] else [],
      g.modify e.1 fun c => { c with mro := e.2 }) := by
  unfold writeOrder notes mro?
  cases hc : g.class? e.1 with
  | none =>
    have hsame : (g.modify e.1 fun c => { c with mro := e.2 }) = g :=
      modify_of_fixed fun c hc' => by simp [hc] at hc'
    simp [hsame]
  | some c =>
    by_cases hmro : c.mro = e.2
    · have hsame : (g.modify e.1 fun c => { c with mro := e.2 }) = g := by
        apply modify_of_fixed
        intro c' hc'
        obtain rfl : c = c' := Option.some.inj (hc.symm.trans hc')
        rw [← hmro]
      simp [hsame, hmro]
    · by_cases hid : e.1 = id
      · simp [hmro, hid]
      · simp [hmro, hid]

theorem foldl_writeOrder (acc : List ClassId) (g : ClassGraph)
    {es : List (ClassId × List ClassId)} (hes : (es.map Prod.fst).Nodup) :
    es.foldl (writeOrder id) (acc, g) =
      (acc ++ (es.filter (g.notes id)).map Prod.fst, g.storeOrders es) := by
  induction es generalizing acc g with
  | nil => simp [storeOrders]
  | cons e rest ih =>
    obtain ⟨he, hrest⟩ := List.nodup_cons.mp hes
    have hsame : rest.filter ((g.modify e.1 fun c => { c with mro := e.2 }).notes id) =
        rest.filter (g.notes id) := by
      apply List.filter_congr
      intro a ha
      have hne : e.1 ≠ a.1 := fun heq => he (heq ▸ List.mem_map_of_mem ha)
      unfold notes mro?
      rw [class?_modify_of_ne _ hne]
    rw [List.foldl_cons, writeOrder_eq, ih _ _ hrest, hsame, storeOrders_cons]
    by_cases hnotes : g.notes id e = true
    · simp [hnotes]
    · simp [hnotes]

theorem storeOrders_perm (g : ClassGraph) {es fs : List (ClassId × List ClassId)}
    (hes : (es.map Prod.fst).Nodup) (hperm : es.Perm fs) :
    g.storeOrders es = g.storeOrders fs := by
  apply hperm.foldl_eq'
  intro a ha b hb k
  by_cases hab : a.1 = b.1
  · rw [List.inj_on_of_nodup_map hes ha hb hab]
  · exact k.modify_comm hab _ _

end Writing

/-! ### The sorting -/

section Sorting

variable {order : List ClassId} {a b : ClassId}

theorem turnOf_of_mem (ha : a ∈ order) : turnOf order a = order.idxOf a + 1 := by
  unfold turnOf
  rw [List.idxOf_eq_getD_idxOf?]
  cases hi : order.idxOf? a with
  | none => exact absurd ha (List.idxOf?_eq_none_iff.mp hi)
  | some i => rfl

theorem eq_of_turnOf (ha : a ∈ order) (hb : b ∈ order) (h : turnOf order a = turnOf order b) :
    a = b := by
  rw [turnOf_of_mem ha, turnOf_of_mem hb] at h
  exact (List.idxOf_inj ha).mp (Nat.succ.inj h)

theorem pairwise_turnOf (hnd : order.Nodup) :
    order.Pairwise fun a b => turnOf order a ≤ turnOf order b := by
  rw [List.pairwise_iff_getElem]
  intro i j hi hj hij
  rw [turnOf_of_mem (List.getElem_mem hi), turnOf_of_mem (List.getElem_mem hj),
    hnd.idxOf_getElem i hi, hnd.idxOf_getElem j hj]
  omega

theorem mergeSort_turnOf {l changed : List ClassId} (hnd : order.Nodup)
    (hsub : changed.Sublist order) (hperm : l.Perm changed) :
    l.mergeSort (fun a b => turnOf order a ≤ turnOf order b) = changed := by
  have hsorted : (l.mergeSort fun a b => turnOf order a ≤ turnOf order b).Pairwise
      fun a b => decide (turnOf order a ≤ turnOf order b) = true := by
    apply List.pairwise_mergeSort
    · intro a b c hab hbc
      exact decide_eq_true (Nat.le_trans (of_decide_eq_true hab) (of_decide_eq_true hbc))
    · intro a b
      simpa using Nat.le_total (turnOf order a) (turnOf order b)
  have hsame := (List.mergeSort_perm l fun a b => turnOf order a ≤ turnOf order b).trans hperm
  refine List.Perm.eq_of_pairwise ?_ (hsorted.imp of_decide_eq_true)
    ((pairwise_turnOf hnd).sublist hsub) hsame
  intro a b ha hb hab hba
  exact eq_of_turnOf (hsub.subset (hsame.subset ha)) (hsub.subset hb) (Nat.le_antisymm hab hba)

end Sorting

/-! ### Any sequence of entries -/

theorem mro?_exchangeBases (g : ClassGraph) (id : ClassId) (bases : List ClassId) (d : ClassId) :
    (g.exchangeBases id bases).mro? d = g.mro? d := by
  have hsame : ((g.unlink id (effectiveBases id (g.basesOf id))).link id
      (effectiveBases id bases)).class? d = g.class? d := rfl
  unfold mro? exchangeBases
  rw [class?_modify, hsame]
  split
  · rw [Option.map_map]
    rfl
  · rfl

section Entries

variable {g h : ClassGraph} {id : ClassId} {c : ClassObject} {bases changed : List ClassId}
  {r : Relinearization} {entries : List (ClassId × List ClassId)}

theorem mem_noted (p : g.Relinearized id bases r) (hwf : g.WellFormed)
    (hentries : entries.Perm r.pending.entries) (d : ClassId) :
    d ∈ (entries.filter ((g.exchangeBases id bases).notes id)).map Prod.fst ↔
      d ∈ g.descendants id ∧ g.orderIn? r.pending d ≠ g.mro? d := by
  constructor
  · intro hd
    obtain ⟨⟨b, o⟩, he, rfl⟩ := List.mem_map.mp hd
    obtain ⟨he, hnotes⟩ := List.mem_filter.mp he
    have ho : r.pending.get? b = some o :=
      IndexMap.find_of_mem r.pending.ascending (hentries.mem_iff.mp he)
    simp only [notes, mro?_exchangeBases, Bool.and_eq_true, decide_eq_true_eq,
      Option.any_eq_true] at hnotes
    obtain ⟨hne, old, hold, hother⟩ := hnotes
    refine ⟨(p.of_get? ho).resolve_left hne, ?_⟩
    simp only [orderIn?, ho, hold, Option.some_or, ne_eq, Option.some.injEq]
    exact Ne.symm hother
  · rintro ⟨hd, hne⟩
    obtain ⟨o, ho, -⟩ := p.of_mem hd
    obtain ⟨old, hold⟩ := contains_iff.mp (hwf.contains_of_mem_descendants hd)
    have he : (d, o) ∈ entries := hentries.mem_iff.mpr (IndexMap.mem_of_find ho)
    refine List.mem_map.mpr ⟨(d, o), List.mem_filter.mpr ⟨he, ?_⟩, rfl⟩
    rw [orderIn?, ho, mro?_of_class? hold] at hne
    have hother : old.mro ≠ o := by
      rintro rfl
      exact hne rfl
    simp [notes, mro?_exchangeBases, mro?_of_class? hold, (mem_descendants.mp hd).1, hother]

/-- In whatever sequence the new orders are written, the change comes out as it does. -/
theorem writeOrders_rewritten (p : g.Relinearized id bases r) (hwf : g.WellFormed)
    (hc : g.class? id = some c) (hentries : entries.Perm r.pending.entries) :
    (g.exchangeBases id bases).writeOrders id r.order entries =
      (r.order.filter fun d => r.pending.get? d ≠ g.mro? d,
        g.rewritten id c.bases bases r.pending) := by
  have hnd : (entries.map Prod.fst).Nodup :=
    (hentries.map Prod.fst).nodup_iff.mpr (r.pending.keys_ascending.imp Nat.ne_of_lt)
  have hsub : (r.order.filter fun d => r.pending.get? d ≠ g.mro? d).Sublist r.order :=
    List.filter_sublist
  have hperm : ((entries.filter ((g.exchangeBases id bases).notes id)).map Prod.fst).Perm
      (r.order.filter fun d => r.pending.get? d ≠ g.mro? d) := by
    apply (List.perm_ext_iff_of_nodup _ (p.nodup.sublist hsub)).mpr
    · intro d
      rw [mem_noted p hwf hentries, List.mem_filter, p.mem_order]
      apply and_congr_right
      intro hd
      obtain ⟨o, ho, -⟩ := p.of_mem hd
      simp [orderIn?, ho]
    · exact hnd.sublist (List.filter_sublist.map Prod.fst)
  have hstore : (g.exchangeBases id bases).storeOrders entries =
      g.rewritten id c.bases bases r.pending := by
    rw [storeOrders_perm _ hnd hentries, exchangeBases, basesOf_of_class? hc, rewritten]
  simp only [writeOrders, foldl_writeOrder _ _ hnd, List.nil_append, hstore,
    mergeSort_turnOf p.nodup hsub hperm]

end Entries

end MethodCache.ClassGraph

namespace MethodCache.Process

open ClassGraph

/-- A change of bases in a context of a process takes the classes below the class in turn, each
after its bases below and from final orders. It reports the classes whose order it changed, bases
before what derives from them, and the sequence in which new orders are written makes no
difference. -/
theorem rebased_in_turn {p : Process} (hp : p.Reachable) {c : Context} {n : ℕ}
    (hc : (c, n) ∈ p.contexts) (hn : n < ClassId.available) {id : ClassId}
    {bases changed : List ClassId} {h : ClassGraph}
    (hok : c.graph.rebase id bases = .ok (changed, h)) :
    ∃ first r, c.graph.TakenInTurn id bases first r h ∧ c.graph.Reported h id changed ∧
      ∀ entries, entries.Perm r.pending.entries →
        (c.graph.exchangeBases id bases).writeOrders id r.order entries = (changed, h) := by
  have hwf := (hp.sound hc hn).wellFormed
  obtain ⟨hq, hmem⟩ := rebase_ok hwf hok
  obtain ⟨cls, r, hcls, hr, hchanged, rfl⟩ := exists_relinearization hok
  have hturns := relinearize_ok hwf hr
  rw [eraseDups_of_nodup hturns.nodup] at hchanged
  have hsub : changed.Sublist r.order := hchanged ▸ List.filter_sublist
  obtain ⟨first, ht⟩ := exists_takenInTurn hwf hcls hr
  have hold := ht.pairwise fun b d hb hd => hwf.below_of_derives hb hd
  have hnew := ht.pairwise fun b d hb hd => hq.below_of_derives hwf hb hd
  refine ⟨first, r, ht, ⟨hturns.nodup.sublist hsub, hmem, (hold.and hnew).sublist hsub⟩, ?_⟩
  intro entries hentries
  rw [hchanged]
  exact writeOrders_rewritten hturns hwf hcls hentries

/-- A diamond, and a class beside it that the top of the diamond is to derive from. -/
def liftedEdits : List ClassEdit :=
  [.define "Top" [] [], .define "Left" [64] [], .define "Right" [64] [],
    .define "Bottom" [65, 66] [], .define "Above" [] []]

/-- All three classes below the top get another order then, the one at the bottom last. -/
theorem lifted_in_turn :
    ∃ c n h first r, (c, n) ∈ (ofRun .unchecked liftedEdits).contexts ∧ n < ClassId.available ∧
      c.graph.rebase 64 [68] = .ok ([65, 66, 67], h) ∧
      c.graph.TakenInTurn 64 [68] first r h ∧ c.graph.Reported h 64 [65, 66, 67] ∧
      ∀ entries, entries.Perm r.pending.entries →
        (c.graph.exchangeBases 64 [68]).writeOrders 64 r.order entries = ([65, 66, 67], h) := by
  let c := (({} : Host).start .unchecked).1.run liftedEdits
  have hrun : (c.graph.rebase 64 [68]).toOption.map Prod.fst = some [65, 66, 67] := by
    decide +kernel
  have hc : (c, 5) ∈ (ofRun .unchecked liftedEdits).contexts := List.mem_singleton_self _
  cases hok : c.graph.rebase 64 [68] with
  | error e => simp [hok, Except.toOption] at hrun
  | ok s =>
    obtain ⟨changed, h⟩ := s
    obtain rfl : changed = [65, 66, 67] := by simpa [hok, Except.toOption] using hrun
    obtain ⟨first, r, ht, hreport, hany⟩ :=
      rebased_in_turn (reachable_ofRun .unchecked liftedEdits) hc (by decide) hok
    exact ⟨c, 5, h, first, r, hc, by decide, hok, ht, hreport, hany⟩

end MethodCache.Process
