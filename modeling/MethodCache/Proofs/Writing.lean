import MethodCache.Proofs.Rebuilding

/-!
Writing a member. The write itself changes what lookups find along the linearizations that hold
the class, and the walk that follows it visits the classes it is handed on to: from the written
class down every link below a class that is foreign or finds another value than before. If all
tables were right before the write, they are right afterwards exactly when no other class finds
another value.
-/
namespace MethodCache

namespace ClassObject

/-- The class may be changed, and it lets its members be written. -/
def isWritable (c : ClassObject) : Bool :=
  !c.isImmutable &&
    match c.kind with
    | .foreign readOnly => !readOnly
    | .managed _ => true

variable {c w : ClassObject} {name : String} {v : Option Value}

theorem isImmutable_of_isWritable (h : c.isWritable = true) : c.isImmutable = false := by
  simp only [isWritable, Bool.and_eq_true, Bool.not_eq_true'] at h
  exact h.1

theorem untabled_isWritable (c : ClassObject) : c.untabled.isWritable = c.isWritable := by
  unfold isWritable isImmutable
  rw [untabled_flags]
  cases hk : c.kind with
  | managed cell => simp [untabled, hk]
  | foreign ro => simp [untabled, hk]

theorem eq_of_writeMember? (h : c.writeMember? name v = some w) :
    w = { c with members := c.members.write name v } := by
  unfold writeMember? at h
  split at h
  · simp at h
  · exact (Option.some.inj h).symm

theorem writeMember?_of_isWritable (h : c.isWritable = true) (name : String)
    (v : Option Value) :
    c.writeMember? name v = some { c with members := c.members.write name v } := by
  unfold writeMember?
  split
  · next hk => simp [isWritable, hk] at h
  · rfl

end ClassObject

namespace ClassGraph

/-- One graph is the other with a member of a class written, or removed when there is no value. -/
structure Written (g : ClassGraph) (id : ClassId) (name : String) (v : Option Value)
    (h : ClassGraph) : Prop where
  orders : g.SameOrders h
  tables : ∀ d, h.table? d = g.table? d
  managed : ∀ d, h.Managed d ↔ g.Managed d
  ownMember : ∀ a n, h.ownMember a n =
    if a = id ∧ n = name ∧ g.contains id = true then v else g.ownMember a n
  flags : ∀ d, (h.class? d).map ClassObject.flags = (g.class? d).map ClassObject.flags

theorem written_modify {g : ClassGraph} {id : ClassId} {name : String} {v : Option Value}
    {c w : ClassObject} (hc : g.class? id = some c) (hw : c.writeMember? name v = some w) :
    g.Written id name v (g.modify id fun _ => w) := by
  have hw' := ClassObject.eq_of_writeMember? hw
  have hclass : ∀ d, (g.modify id fun _ => w).class? d =
      if id = d then some w else g.class? d := by
    intro d
    rw [class?_modify]
    split
    · next hd => rw [← hd, hc, Option.map_some]
    · rfl
  have hsame : ∀ {α : Type} (f : ClassObject → α), f w = f c → ∀ d,
      ((g.modify id fun _ => w).class? d).map f = (g.class? d).map f := by
    intro α f hf d
    rw [hclass]
    split
    · next hd => rw [← hd, hc, Option.map_some, Option.map_some, hf]
    · rfl
  refine ⟨⟨?_, rfl, rfl⟩, ?_, ?_, ?_, ?_⟩
  · exact hsame _ (by rw [hw'])
  · intro d
    have htable : ∀ k : ClassGraph, k.table? d =
        ((k.class? d).map ClassObject.table?).bind fun t => t := by
      intro k
      rw [Option.bind_map]
      rfl
    rw [htable, htable, hsame ClassObject.table? (by rw [hw']; rfl)]
  · intro d
    exact managed_congr (hsame ClassObject.isForeign (by rw [hw']; rfl) d)
  · intro a n
    have hreg := contains_of_class? hc
    unfold ClassGraph.ownMember
    rw [hclass]
    by_cases ha : a = id
    · subst ha
      rw [if_pos rfl, hc, Option.bind_some, Option.bind_some, hw', Members.get?_write]
      by_cases hn : n = name
      · simp [hn, hreg]
      · simp [hn, Ne.symm hn]
    · rw [if_neg (Ne.symm ha), if_neg fun h => ha h.1]
  · exact hsame _ (by rw [hw'])

theorem exists_writable_of_written {g h : ClassGraph} {id : ClassId} {name : String}
    {v : Option Value} {c w : ClassObject} (hc : g.class? id = some c)
    (hwritable : c.isWritable = true) (hw : c.writeMember? name v = some w)
    (t : (g.modify id fun _ => w).Retabled h) :
    ∃ c', h.class? id = some c' ∧ c'.isWritable = true ∧
      c'.members = c.members.write name v := by
  have hself : (g.modify id fun _ => w).class? id = some w := by
    rw [class?_modify, if_pos rfl, hc, Option.map_some]
  obtain ⟨c', hc', hsame⟩ := t.exists_class hself
  obtain rfl := ClassObject.eq_of_writeMember? hw
  refine ⟨c', hc', ?_, ?_⟩
  · rw [← c'.untabled_isWritable, hsame, ClassObject.untabled_isWritable]
    exact hwritable
  · rw [← c'.untabled_members, hsame, ClassObject.untabled_members]

theorem modify_self {g : ClassGraph} {id : ClassId} {c : ClassObject} (hc : g.class? id = some c) :
    (g.modify id fun _ => c) = g :=
  modify_of_fixed fun _ hc' => Option.some.inj (hc.symm.trans hc')

theorem modify_of_missing {g : ClassGraph} {id : ClassId} {name : String} {c w : ClassObject}
    (hc : g.class? id = some c) (hw : c.writeMember? name none = some w)
    (hmissing : c.members.get? name = none) : (g.modify id fun _ => w) = g := by
  have hsame : w = c := by
    rw [ClassObject.eq_of_writeMember? hw, Members.write, Members.erase_of_get?_eq_none hmissing]
  rw [hsame, modify_self hc]

namespace Written

variable {g h : ClassGraph} {id : ClassId} {name : String} {v : Option Value}

theorem cached (r : g.Written id name v h) (d : ClassId) (s : Slot) :
    h.cached d s = g.cached d s := by
  unfold ClassGraph.cached
  rw [r.tables]

theorem published (r : g.Written id name v h) (hpub : g.Published) : h.Published := by
  intro d hd
  rw [r.tables]
  exact hpub d ((r.managed d).mp hd)

theorem link_eq (r : g.Written id name v h) : h.Link = g.Link := link_congr r.orders.links

theorem ownMember_of_ne (r : g.Written id name v h) {a : ClassId} (ha : a ≠ id) (n : String) :
    h.ownMember a n = g.ownMember a n := by
  rw [r.ownMember, if_neg fun hn => ha hn.1]

theorem resolve_of_ne (r : g.Written id name v h) {s : Slot} (hs : s.name ≠ name) (d : ClassId) :
    h.resolve d s = g.resolve d s := by
  apply resolve_congr (r.orders.mro d)
  intro a _
  rw [r.ownMember, if_neg fun hn => hs hn.2.1]

/-- Only classes with the written class in their linearization find another value. -/
theorem mem_mro_of_moved (r : g.Written id name v h) {d : ClassId} {s : Slot}
    (hne : g.resolve d s ≠ h.resolve d s) : id ∈ g.mro d := by
  by_contra hnot
  apply hne
  symm
  apply resolve_congr (r.orders.mro d)
  intro a ha
  exact r.ownMember_of_ne (fun heq => hnot (heq ▸ ha)) s.name

theorem rootRight (r : g.Written id name v h) (hwf : g.WellFormed) (hne : id ≠ ClassId.root)
    (hroot : g.RootRight) : h.RootRight := by
  intro t ht s
  rw [r.tables] at ht
  rw [hroot t ht s]
  symm
  apply resolve_congr (r.orders.mro _)
  intro a ha
  rw [mro_eq, hwf.mro?_root, Option.getD_some, List.mem_singleton] at ha
  exact r.ownMember_of_ne (fun heq => hne (heq.symm.trans ha)) s.name

theorem resolve_self (r : g.Written id name v h) (hwf : g.WellFormed) {s : Slot}
    (hs : s.name = name) (hid : g.contains id = true) {x : Value} (hv : v = some x) :
    h.resolve id s = some x := by
  obtain ⟨c, hc⟩ := contains_iff.mp hid
  have hmro : h.mro id = id :: c.mro.tail := by
    rw [r.orders.mro, mro_of_class? hc]
    exact (hwf.placed id c hc).cons
  rw [resolve_eq, hmro, List.findSome?_cons, r.ownMember, if_pos ⟨rfl, hs, hid⟩, hv]

end Written

/-! What follows a write. -/

theorem memberWritten_of_not_slot {h : ClassGraph} {id : ClassId} {name : String}
    {v : Option Value} (hname : Slot.ofName? name = none) :
    h.memberWritten id name v = (⟨h, {}⟩, none) := by
  simp only [memberWritten, hname]

theorem visited_singleton {g : ClassGraph} {s : Slot} {id d : ClassId} :
    g.Visited s [id] d ↔ d = id ∨ (g.PassesOn s id ∧ g.Visited s (g.subclasses id) d) := by
  constructor
  · intro h
    induction h with
    | start hd => exact Or.inl (List.mem_singleton.mp hd)
    | down _ hp hl ih =>
      rcases ih with rfl | ⟨hpid, hvis⟩
      · exact Or.inr ⟨hp, .start hl⟩
      · exact Or.inr ⟨hpid, hvis.down hp hl⟩
  · rintro (rfl | ⟨hp, h⟩)
    · exact .start (List.mem_singleton_self d)
    · induction h with
      | start hd => exact .down (.start (List.mem_singleton_self id)) hp hd
      | down _ hpa hl ih => exact ih.down hpa hl

section Follow

variable {h : ClassGraph} {id : ClassId} {s : Slot} {v : Option Value} {c : ClassObject}

theorem memberWritten_foreign {ro : Bool} (hc : h.class? id = some c)
    (hk : c.kind = .foreign ro) :
    h.memberWritten id s.name v =
      (Update.visit ⟨h, { slot := some s }⟩).propagate s (h.subclasses id) := by
  simp only [memberWritten, Slot.ofName?_name, hc, hk]

variable {cell : TableCell} {t : SlotTable}

theorem memberWritten_early (hc : h.class? id = some c) (hk : c.kind = .managed cell)
    (ht : cell.table = some t) (hv : t.get s = v) :
    h.memberWritten id s.name v =
      (⟨h, { slot := some s, earlyExit := true, visited := 1 }⟩, none) := by
  have hentry : cell.entry s = some (t.get s) := by simp [TableCell.entry, ht]
  simp only [memberWritten, Slot.ofName?_name, hc, hk, hentry, hv, if_true]
  rfl

theorem memberWritten_managed (hc : h.class? id = some c) (hk : c.kind = .managed cell)
    (ht : cell.table = some t) (hv : t.get s ≠ v) :
    h.memberWritten id s.name v = Update.propagate s [id] ⟨h, { slot := some s }⟩ := by
  have hentry : cell.entry s = some (t.get s) := by simp [TableCell.entry, ht]
  simp only [memberWritten, Slot.ofName?_name, hc, hk, hentry, if_neg hv]

/-- Writing a slot has it looked up again for the classes that a walk from the written class
visits, unless the class has the value cached already. -/
theorem memberWritten_slot (s : Slot) (id : ClassId) (v : Option Value) (hpub : h.Published)
    (hac : h.Acyclic) :
    ∃ u, h.memberWritten id s.name v = (u, none) ∧
      ((h.Managed id ∧ h.cached id s = v ∧ u.graph = h) ∨
        h.Refreshed u.graph fun d w => w = s ∧ h.Visited s [id] d) := by
  cases hc : h.class? id with
  | none =>
    have hnot : h.contains id ≠ true := by
      rw [Ne, contains_iff]
      simp [hc]
    have hdone : h.memberWritten id s.name v = (⟨h, { slot := some s }⟩, none) := by
      simp only [memberWritten, Slot.ofName?_name, hc]
    refine ⟨_, hdone, Or.inr ((Refreshed.refl h).congr fun d w hm => ?_)⟩
    refine iff_of_false not_false ?_
    rintro ⟨-, hvis⟩
    rcases visited_singleton.mp hvis with rfl | ⟨hp, -⟩
    · exact hnot hm.contains
    · exact hnot hp.1
  | some c =>
    cases hk : c.kind with
    | foreign ro =>
      have hnot := not_managed_of_kind hc hk
      have hp : h.PassesOn s id := ⟨contains_of_class? hc, fun hm => absurd hm hnot⟩
      obtain ⟨u, hwalk, r⟩ := Update.propagate_ok s (h.subclasses id)
        (u := Update.visit ⟨h, { slot := some s }⟩) hpub hac
      refine ⟨u, (memberWritten_foreign hc hk).trans hwalk,
        Or.inr (r.congr fun d w hm => and_congr_right fun _ => ?_)⟩
      rw [visited_singleton]
      constructor
      · exact fun hvis => Or.inr ⟨hp, hvis⟩
      · rintro (rfl | ⟨-, hvis⟩)
        · exact absurd hm hnot
        · exact hvis
    | managed cell =>
      have hm := managed_of_kind hc hk
      obtain ⟨t, ht, hcell⟩ := hpub.table_of_kind hc hk
      by_cases hsame : t.get s = v
      · refine ⟨_, memberWritten_early hc hk hcell hsame, Or.inl ⟨hm, ?_, rfl⟩⟩
        rw [cached, ht, Option.bind_some, hsame]
      · obtain ⟨u, hwalk, r⟩ := Update.propagate_ok s [id]
          (u := ⟨h, { slot := some s }⟩) hpub hac
        exact ⟨u, (memberWritten_managed hc hk hcell hsame).trans hwalk, Or.inr r⟩

/-- Stopping at once is as good as a walk from a class whose entry is right. -/
theorem Refreshed.of_fresh (hm : h.Managed id) (hfresh : h.cached id s = h.resolve id s) :
    h.Refreshed h fun d w => w = s ∧ h.Visited s [id] d := by
  refine ⟨.refl h, fun _ => rfl, ?_, fun _ _ _ => rfl⟩
  rintro d w ⟨rfl, hvis⟩ hd
  rcases visited_singleton.mp hvis with rfl | ⟨hp, -⟩
  · exact hfresh
  · exact absurd hfresh (hp.2 hm)

theorem memberWritten_ok (id : ClassId) (name : String) (v : Option Value)
    (hpub : h.Published) (hac : h.Acyclic) :
    ∃ u V, h.memberWritten id name v = (u, none) ∧ h.Refreshed u.graph V := by
  cases hname : Slot.ofName? name with
  | none => exact ⟨_, _, memberWritten_of_not_slot hname, Refreshed.refl h⟩
  | some s =>
    obtain rfl := Slot.name_of_ofName? hname
    obtain ⟨u, hdone, ⟨-, -, hsame⟩ | r⟩ := memberWritten_slot s id v hpub hac
    · refine ⟨u, fun _ _ => False, hdone, ?_⟩
      rw [hsame]
      exact Refreshed.refl h
    · exact ⟨u, _, hdone, r⟩

end Follow

/-- A class that a change at another class is handed on to: the class itself, and the classes
linked below one that is foreign or finds another value than before. -/
inductive Handed (g h : ClassGraph) (s : Slot) (id : ClassId) : ClassId → Prop
  | self : Handed g h s id id
  | down {a d : ClassId} (ha : Handed g h s id a)
      (hmoved : g.Managed a → g.resolve a s ≠ h.resolve a s) (hl : g.Link a d) :
      Handed g h s id d

/-- Every managed class that finds another value than before is handed the change. -/
def Carried (g h : ClassGraph) (id : ClassId) : Prop :=
  ∀ s d, g.Managed d → g.resolve d s ≠ h.resolve d s → Handed g h s id d

namespace Written

variable {g h : ClassGraph} {id : ClassId} {name : String} {v : Option Value}

theorem cached_eq_resolve (r : g.Written id name v h) (hexact : g.Exact) {d : ClassId}
    (hd : g.Managed d) (s : Slot) : h.cached d s = g.resolve d s := by
  rw [r.cached]
  exact (exact_iff.mp hexact).2 d hd s

/-- In a graph with right tables a walk after a write visits the classes the change is handed
to. -/
theorem visited_iff (r : g.Written id name v h) (hwf : g.WellFormed) (hexact : g.Exact)
    {s : Slot} {d : ClassId} : h.Visited s [id] d ↔ Handed g h s id d := by
  constructor
  · intro hvis
    induction hvis with
    | start hd =>
      obtain rfl := List.mem_singleton.mp hd
      exact .self
    | @down a d _ hp hl ih =>
      apply ih.down _ (r.link_eq ▸ hl)
      intro ha
      rw [← r.cached_eq_resolve hexact ha]
      exact hp.2 ((r.managed a).mpr ha)
  · intro hd
    induction hd with
    | self => exact .start (List.mem_singleton_self id)
    | @down a d _ hmoved hl ih =>
      apply ih.down _ (r.link_eq ▸ hl)
      refine ⟨?_, ?_⟩
      · rw [r.orders.contains]
        exact ((hwf.links a d).mp hl).1
      · intro ha
        have ha' := (r.managed a).mp ha
        rw [r.cached_eq_resolve hexact ha']
        exact hmoved ha'

/-- A class that has the value cached already when it is written finds the value as well. -/
theorem resolve_of_cached (r : g.Written id name v h) (hwf : g.WellFormed) (hexact : g.Exact)
    (hid : g.contains id = true) {s : Slot} (hs : s.name = name)
    (hremoved : v = none → (g.ownMember id name).isSome = true) (hm : g.Managed id)
    (hcached : h.cached id s = v) : h.cached id s = h.resolve id s := by
  cases hv : v with
  | some x => rw [r.resolve_self hwf hs hid hv, hcached, hv]
  | none =>
    rw [r.cached_eq_resolve hexact hm, hv] at hcached
    obtain ⟨x, hx⟩ := Option.isSome_iff_exists.mp (hremoved hv)
    obtain ⟨c, hc⟩ := contains_iff.mp hid
    rw [resolve_eq, mro_of_class? hc, (hwf.placed id c hc).cons, List.findSome?_cons, hs,
      hx] at hcached
    simp at hcached

theorem refreshed (r : g.Written id name v h) (hwf : g.WellFormed) (hexact : g.Exact)
    (hid : g.contains id = true) {s : Slot} (hs : s.name = name)
    (hremoved : v = none → (g.ownMember id name).isSome = true) :
    ∃ u, h.memberWritten id name v = (u, none) ∧
      h.Refreshed u.graph fun d w => w = s ∧ h.Visited s [id] d := by
  have hpub := r.published (exact_iff.mp hexact).1
  have hac := hwf.acyclic.congr r.orders.links
  obtain ⟨u, hdone, ⟨hm, hearly, hsame⟩ | hu⟩ := memberWritten_slot s id v hpub hac
  · -- the cached value is what looking up finds, so the walk would have stopped at once
    have hfresh := r.resolve_of_cached hwf hexact hid hs hremoved ((r.managed id).mp hm) hearly
    refine ⟨u, hs ▸ hdone, ?_⟩
    rw [hsame]
    exact .of_fresh hm hfresh
  · exact ⟨u, hs ▸ hdone, hu⟩

/-- Once the slot is looked up again along the walk, all tables are right exactly when the change
is handed to every class that finds another value. -/
theorem exact_iff_of_refreshed (r : g.Written id name v h) (hwf : g.WellFormed)
    (hexact : g.Exact) {s : Slot} (hs : s.name = name) {k : ClassGraph}
    (hk : h.Refreshed k fun d w => w = s ∧ h.Visited s [id] d) :
    k.Exact ↔ g.Carried h id := by
  constructor
  · intro hafter w d hd hne
    have hentry := (exact_iff.mp hafter).2 d
      ((hk.retabled.managed_iff d).mpr ((r.managed d).mpr hd)) w
    rw [hk.retabled.resolve] at hentry
    have hvis : w = s ∧ h.Visited s [id] d := by
      by_contra hnot
      rw [hk.kept d w hnot, r.cached_eq_resolve hexact hd] at hentry
      exact hne hentry
    obtain ⟨rfl, hvis⟩ := hvis
    exact (r.visited_iff hwf hexact).mp hvis
  · intro hcarried
    rw [exact_iff]
    refine ⟨hk.publishedAll (r.published (exact_iff.mp hexact).1), ?_⟩
    intro d hd w
    rw [hk.retabled.managed_iff] at hd
    have hd' := (r.managed d).mp hd
    rw [hk.retabled.resolve]
    by_cases hvis : w = s ∧ h.Visited s [id] d
    · exact hk.looked d w hvis hd
    · rw [hk.kept d w hvis, r.cached_eq_resolve hexact hd']
      by_contra hne
      apply hvis
      have hws : w = s := by
        by_contra hws
        exact hne (r.resolve_of_ne (fun hn => hws (Slot.name_inj.mp (hn.trans hs.symm))) d).symm
      subst hws
      exact ⟨rfl, (r.visited_iff hwf hexact).mpr (hcarried w d hd' hne)⟩

/-- Tables that were right before a write are right after it exactly when the change is handed to
every class that finds another value. -/
theorem exact_iff_carried (r : g.Written id name v h) (hwf : g.WellFormed) (hexact : g.Exact)
    (hid : g.contains id = true) (hremoved : v = none → (g.ownMember id name).isSome = true) :
    ∃ u, h.memberWritten id name v = (u, none) ∧ h.Retabled u.graph ∧
      (u.graph.Exact ↔ g.Carried h id) := by
  cases hname : Slot.ofName? name with
  | some s =>
    have hs := Slot.name_of_ofName? hname
    obtain ⟨u, hdone, hu⟩ := r.refreshed hwf hexact hid hs hremoved
    exact ⟨u, hdone, hu.retabled, r.exact_iff_of_refreshed hwf hexact hs hu⟩
  | none =>
    have hother : ∀ d s, h.resolve d s = g.resolve d s := by
      intro d s
      apply r.resolve_of_ne
      rintro rfl
      rw [Slot.ofName?_name] at hname
      simp at hname
    refine ⟨_, memberWritten_of_not_slot hname, .refl h, iff_of_true ?_ ?_⟩
    · rw [exact_iff]
      refine ⟨r.published (exact_iff.mp hexact).1, ?_⟩
      intro d hd s
      rw [r.cached_eq_resolve hexact ((r.managed d).mp hd), hother]
    · intro s d _ hne
      exact absurd (hother d s).symm hne

end Written

end ClassGraph

end MethodCache
