import MethodCache.Proofs.Answering
import MethodCache.Proofs.ExactRuns
import MethodCache.Proofs.OrderedRuns
import MethodCache.Proofs.Tracking

/-!
Writes that are always carried. A write is seen by the classes in whose linearization nothing
defines the slot before the written class, and when a class sees it, so does each base through
which it inherits from the written class. A class that sees the write finds another value after
it unless the value that comes or goes is the one inherited from elsewhere. Where that is ruled
out, the walk reaches all classes that see the write, and it updates these and no others. Without
that, an inheritance diamond may keep a wrong table: a class in the middle takes over the value that
it has inherited so far, which leaves its own entry as it is and changes the one of a class below.
-/
namespace MethodCache

open Relation

namespace ClassGraph

/-- Looking the slot up in one class comes as far as the other: it stands in the linearization,
and no class before it defines the slot. -/
def Sees (g : ClassGraph) (d a : ClassId) (s : Slot) : Prop :=
  ∃ before after, g.mro d = before ++ a :: after ∧ ∀ x ∈ before, g.ownMember x s.name = none

/-- The written value is told from what other classes define: it replaces a value of the class,
or else no other class holds the value that comes or goes under the name of the slot. -/
def Distinguished (g : ClassGraph) (id : ClassId) (s : Slot) (v : Option Value) : Prop :=
  ((g.ownMember id s.name).isSome = true ∧ v.isSome = true) ∨
  ∀ a x, a ≠ id → g.ownMember a s.name = some x → v ≠ some x ∧ g.ownMember id s.name ≠ some x

/-- A value put in front of others shows, unless it comes or goes where the others have the same. -/
theorem or_ne_or {old new rest : Option Value} (hne : new ≠ old)
    (hrest : ∀ x, rest = some x →
      (old.isSome = true ∧ new.isSome = true) ∨ (new ≠ some x ∧ old ≠ some x)) :
    old.or rest ≠ new.or rest := by
  intro heq
  cases old with
  | none =>
    cases new with
    | none => exact hne rfl
    | some x => simpa using hrest x heq
  | some y =>
    cases new with
    | none => simpa using hrest y heq.symm
    | some x => exact hne heq.symm

/-- Looking a slot up where another class is seen: the class answers first, then the ones after
it. -/
theorem resolve_of_before {g : ClassGraph} {d a : ClassId} {s : Slot}
    {before after : List ClassId} (hmro : g.mro d = before ++ a :: after)
    (hbefore : ∀ x ∈ before, g.ownMember x s.name = none) :
    g.resolve d s =
      (g.ownMember a s.name).or (after.findSome? fun x => g.ownMember x s.name) := by
  rw [resolve_eq, hmro, List.findSome?_append, List.findSome?_eq_none_iff.mpr hbefore,
    Option.none_or, List.findSome?_cons]
  cases g.ownMember a s.name <;> rfl

theorem not_mem_of_mro {g : ClassGraph} (hwf : g.WellFormed) {d a : ClassId}
    {before after : List ClassId} (hmro : g.mro d = before ++ a :: after) :
    a ∉ before ∧ a ∉ after := by
  have hnd : (g.mro d).Nodup := by
    cases hc : g.class? d with
    | none => simp [mro, hc]
    | some c =>
      rw [mro_of_class? hc]
      exact (hwf.placed d c hc).nodup
  rw [hmro, List.nodup_middle, List.nodup_cons, List.mem_append, not_or] at hnd
  exact hnd.1

/-- A class that inherits from another through a base and sees it does so through the base. -/
theorem Sees.base {g : ClassGraph} (hwf : g.WellFormed) {d b a : ClassId} {s : Slot}
    (h : g.Sees d a s) (hsub : (g.mro b).Sublist (g.mro d)) (ha : a ∈ g.mro b) :
    g.Sees b a s := by
  obtain ⟨before, after, hmro, hbefore⟩ := h
  obtain ⟨hnot, hnot'⟩ := not_mem_of_mro hwf hmro
  rw [hmro] at hsub
  -- the order of the base splits where the order of the class does
  obtain ⟨first, later, hb, hfirst, hlater⟩ := List.sublist_append_iff.mp hsub
  have hmem : a ∈ later := by
    rw [hb, List.mem_append] at ha
    exact ha.resolve_left fun hmem => hnot (hfirst.subset hmem)
  rcases List.sublist_cons_iff.mp hlater with hlater | ⟨rest, rfl, -⟩
  · exact absurd (hlater.subset hmem) hnot'
  · exact ⟨first, rest, hb, fun x hx => hbefore x (hfirst.subset hx)⟩

namespace Written

variable {g h : ClassGraph} {id d : ClassId} {s : Slot} {v : Option Value}

theorem findFrom_of_unseen (r : g.Written id s.name v h) {order : List ClassId} (i : ℕ)
    (hunseen : ¬ ∃ before after, order = before ++ id :: after ∧
      ∀ x ∈ before, g.ownMember x s.name = none) :
    h.findFrom s.name i order = g.findFrom s.name i order := by
  induction order generalizing i with
  | nil => rfl
  | cons a rest ih =>
    have ha : a ≠ id := by
      rintro rfl
      exact hunseen ⟨[], rest, rfl, by simp⟩
    rw [findFrom, findFrom, r.ownMember_of_ne ha]
    cases hown : g.ownMember a s.name with
    | some x => rfl
    | none =>
      apply ih
      rintro ⟨before, after, rfl, hbefore⟩
      exact hunseen ⟨a :: before, after, rfl, List.forall_mem_cons.mpr ⟨hown, hbefore⟩⟩

theorem lookup_of_not_sees (r : g.Written id s.name v h) (hnot : ¬ g.Sees d id s) :
    h.lookup d s.name = g.lookup d s.name := by
  unfold lookup
  rw [r.orders.mro]
  exact r.findFrom_of_unseen 0 hnot

theorem lookup_of_same (r : g.Written id s.name v h) (hv : v = g.ownMember id s.name) :
    h.lookup d s.name = g.lookup d s.name := by
  apply lookup_congr (r.orders.mro d)
  intro a _
  rw [r.ownMember]
  split
  · next ha => rw [hv, ha.1]
  · rfl

theorem resolve_ne_of_sees (r : g.Written id s.name v h) (hwf : g.WellFormed)
    (hid : g.contains id = true) (hdist : g.Distinguished id s v)
    (hv : v ≠ g.ownMember id s.name) (hsees : g.Sees d id s) :
    g.resolve d s ≠ h.resolve d s := by
  obtain ⟨before, after, hmro, hbefore⟩ := hsees
  obtain ⟨hnot, hnot'⟩ := not_mem_of_mro hwf hmro
  have hbefore' : ∀ x ∈ before, h.ownMember x s.name = none := by
    intro x hx
    rw [r.ownMember_of_ne fun heq => hnot (heq ▸ hx)]
    exact hbefore x hx
  have hafter : after.findSome? (fun x => h.ownMember x s.name) =
      after.findSome? fun x => g.ownMember x s.name :=
    findSome?_congr fun x hx => r.ownMember_of_ne (fun heq => hnot' (heq ▸ hx)) s.name
  have hself : h.ownMember id s.name = v := by
    rw [r.ownMember, if_pos ⟨rfl, rfl, hid⟩]
  rw [resolve_of_before hmro hbefore, resolve_of_before ((r.orders.mro d).trans hmro) hbefore',
    hself, hafter]
  -- what stands after the class is inherited from elsewhere
  apply or_ne_or hv
  intro x hx
  obtain ⟨a, ha, hown⟩ := List.exists_of_findSome?_eq_some hx
  exact hdist.imp_right fun hother => hother a x (fun heq => hnot' (heq ▸ ha)) hown

/-- The classes that find something else after the write are those that see the class, if the
write makes a difference there. -/
theorem lookup_ne_iff (r : g.Written id s.name v h) (hwf : g.WellFormed)
    (hid : g.contains id = true) (hdist : g.Distinguished id s v) :
    g.lookup d s.name ≠ h.lookup d s.name ↔ v ≠ g.ownMember id s.name ∧ g.Sees d id s := by
  constructor
  · intro hne
    refine ⟨fun hv => hne (r.lookup_of_same hv).symm, ?_⟩
    by_contra hnot
    exact hne (r.lookup_of_not_sees hnot).symm
  · rintro ⟨hv, hsees⟩ heq
    apply r.resolve_ne_of_sees hwf hid hdist hv hsees
    rw [resolve, resolve, heq]

theorem resolve_ne_iff (r : g.Written id s.name v h) (hwf : g.WellFormed)
    (hid : g.contains id = true) (hdist : g.Distinguished id s v) :
    g.resolve d s ≠ h.resolve d s ↔ v ≠ g.ownMember id s.name ∧ g.Sees d id s := by
  constructor
  · intro hne
    apply (r.lookup_ne_iff hwf hid hdist).mp
    intro heq
    exact hne (by rw [resolve, resolve, heq])
  · rintro ⟨hv, hsees⟩
    exact r.resolve_ne_of_sees hwf hid hdist hv hsees

/-- A class that sees the written class is handed the write, by the bases through which it
inherits. -/
theorem handed_of_sees (r : g.Written id s.name v h) (hwf : g.WellFormed) (hcl : g.Closed)
    (hid : g.contains id = true) (hdist : g.Distinguished id s v)
    (hv : v ≠ g.ownMember id s.name) (hd : ReflTransGen g.Derives d id)
    (hsees : g.Sees d id s) : Handed g h s id d := by
  -- along the bases from the class up to the written one, each of which sees it
  induction hd using ReflTransGen.head_induction_on with
  | refl => exact .self
  | @head d b hb hchain ih =>
    have hreg := hb.contains_base hwf hcl
    have hbase : g.Sees b id s := hsees.base hwf (sublist_of_derives hwf hcl (.single hb))
      ((mem_mro_iff hwf hcl hreg).mpr hchain)
    refine (ih hbase).down ?_ ((hwf.links b d).mpr ⟨hreg, hb⟩)
    exact fun _ => r.resolve_ne_of_sees hwf hid hdist hv hbase

/-- A write that is told from what other classes define is carried. -/
theorem carried (r : g.Written id s.name v h) (hwf : g.WellFormed) (hcl : g.Closed)
    (hid : g.contains id = true) (hdist : g.Distinguished id s v) : g.Carried h id := by
  intro w d hm hne
  have hw : w = s := by
    by_contra hws
    exact hne (r.resolve_of_ne (fun hn => hws (Slot.name_inj.mp hn)) d).symm
  subst hw
  obtain ⟨hv, hsees⟩ := (r.resolve_ne_iff hwf hid hdist).mp hne
  have hmem := r.mem_mro_of_moved hne
  exact r.handed_of_sees hwf hcl hid hdist hv ((mem_mro_iff hwf hcl hm.contains).mp hmem) hsees

end Written

/-- What a write is to bring about: all tables are right, and the report lists as updated, each
once, the managed classes in which looking the slot up finds something else than before. Something
else is found, and another value, by the classes that see the written class, if the write makes a
difference there. -/
structure Propagated (g h : ClassGraph) (id : ClassId) (s : Slot) (v : Option Value)
    (r : UpdateReport) : Prop where
  exact : h.Exact
  nodup : r.updated.Nodup
  mem_updated_iff : ∀ d, d ∈ r.updated ↔ g.Managed d ∧ g.lookup d s.name ≠ h.lookup d s.name
  lookup_ne_iff : ∀ d, g.lookup d s.name ≠ h.lookup d s.name ↔
    v ≠ g.ownMember id s.name ∧ g.Sees d id s
  resolve_ne_iff : ∀ d, g.resolve d s ≠ h.resolve d s ↔ v ≠ g.ownMember id s.name ∧ g.Sees d id s

theorem Written.propagated {g h : ClassGraph} {id : ClassId} {s : Slot} {v : Option Value}
    {u : Update} (r : g.Written id s.name v h) (hwf : g.WellFormed) (hcl : g.Closed)
    (hexact : g.Exact) (hid : g.contains id = true)
    (hremoved : v = none → (g.ownMember id s.name).isSome = true)
    (hdist : g.Distinguished id s v) (hdone : h.memberWritten id s.name v = (u, none)) :
    g.Propagated u.graph id s v u.report := by
  obtain ⟨u', hdone', hu⟩ := r.refreshed hwf hexact hid rfl hremoved
  obtain rfl : u' = u := congrArg Prod.fst (hdone'.symm.trans hdone)
  have hafter : u'.graph.Exact :=
    (r.exact_iff_of_refreshed hwf hexact rfl hu).mpr (r.carried hwf hcl hid hdist)
  have hlookup : ∀ d, u'.graph.lookup d s.name = h.lookup d s.name := fun d =>
    hu.retabled.lookup d s.name
  have htracked := memberWritten_tracked id s v (r.published (exact_iff.mp hexact).1)
  rw [hdone] at htracked
  obtain ⟨moved, hmoved, hnd, hmem⟩ := htracked.listed
  obtain rfl : moved = u'.report.updated := hmoved.symm
  refine ⟨hafter, hnd, ?_, ?_, ?_⟩
  · intro d
    rw [hmem, hlookup, r.lookup_ne_iff hwf hid hdist, ← r.resolve_ne_iff hwf hid hdist]
    constructor
    · intro hne
      obtain ⟨hm, hright⟩ := hu.looked_of_ne hne
      have hm' := (r.managed d).mp hm
      rw [hright, r.cached_eq_resolve hexact hm'] at hne
      exact ⟨hm', hne.symm⟩
    · rintro ⟨hm, hne⟩
      have hm' : u'.graph.Managed d :=
        (hu.retabled.managed_iff d).mpr ((r.managed d).mpr hm)
      rw [(exact_iff.mp hafter).2 d hm', r.cached_eq_resolve hexact hm, hu.retabled.resolve]
      exact hne.symm
  · intro d
    rw [hlookup]
    exact r.lookup_ne_iff hwf hid hdist
  · intro d
    rw [hu.retabled.resolve]
    exact r.resolve_ne_iff hwf hid hdist

end ClassGraph

namespace Context

open ClassGraph

theorem answer_of_write? (c : Context) {e : ClassEdit} {id : ClassId} {name : String}
    {v : Option Value} (he : e.write? = some (id, name, v)) :
    c.answer e = (c.write id name v).2.map some ∧ c.apply e = (c.write id name v).1 := by
  cases e with
  | setMember id' name' x =>
    obtain ⟨rfl, rfl, rfl⟩ := by simpa [ClassEdit.write?] using he
    exact ⟨rfl, rfl⟩
  | deleteMember id' name' =>
    obtain ⟨rfl, rfl, rfl⟩ := by simpa [ClassEdit.write?] using he
    exact ⟨rfl, rfl⟩
  | define _ _ _ => simp [ClassEdit.write?] at he
  | defineForeign _ _ _ _ => simp [ClassEdit.write?] at he
  | setBases _ _ => simp [ClassEdit.write?] at he
  | unregister _ => simp [ClassEdit.write?] at he

/-- In a context without missing bases and with right tables a slot is written with a value that is
told from what other classes define. -/
theorem propagated_of_ok {c : Context} (hs : c.graph.Sound) (hcl : c.graph.Closed)
    (hright : c.graph.TablesRight) {e : ClassEdit} {id : ClassId} {s : Slot} {v : Option Value}
    {r : UpdateReport} (he : e.write? = some (id, s.name, v)) (hok : c.answer e = .ok (some r))
    (hdist : c.graph.Distinguished id s v) : c.graph.Propagated (c.apply e).graph id s v r := by
  obtain ⟨hanswer, happly⟩ := c.answer_of_write? he
  rw [hanswer] at hok
  rw [happly]
  rcases write_cases hs id s.name v with
    ⟨err, href⟩ | ⟨cls, w, u, hcls, -, hw, hremoved, hdone, hans⟩
  · rw [href] at hok
    simp [refuse, Except.map] at hok
  · rw [hans] at hok ⊢
    obtain rfl : u.report = r := by simpa [Except.map] using hok
    apply (written_modify hcls hw).propagated hs.wellFormed hcl (hright.exact hs.published)
      (contains_of_class? hcls) _ hdist hdone
    rw [ownMember_of_class? hcls]
    exact hremoved

theorem exact_along_snoc {c : Context} {edits : List ClassEdit} {e : ClassEdit}
    (hall : ∀ k, (c.run (edits.take k)).graph.Exact)
    (hlast : ((c.run edits).apply e).graph.Exact) (k : ℕ) :
    (c.run ((edits ++ [e]).take k)).graph.Exact := by
  by_cases hk : k ≤ edits.length
  · rw [List.take_append_of_le_length hk]
    exact hall k
  · have hlen : (edits ++ [e]).length ≤ k := by
      rw [List.length_append]
      exact Nat.lt_of_not_le hk
    rw [List.take_of_length_le hlen, run_snoc]
    exact hlast

end Context

namespace Host

open ClassGraph

/-- After a run that takes no class away and leaves all tables right, a slot is written with a
value that is told from what other classes define. Then all tables are right again, and exactly
the entries of the classes that see the written class were updated. -/
theorem propagated_after_write (p : Host) (config : Config) (edits : List ClassEdit)
    (hids : edits.countP ClassEdit.isDefinition < ClassId.available)
    (hkeeps : ∀ e ∈ edits, e.isRemoval = false)
    (hright : ((p.start config).1.run edits).graph.TablesRight) {e : ClassEdit} {id : ClassId}
    {s : Slot} {v : Option Value} {r : UpdateReport} (he : e.write? = some (id, s.name, v))
    (hok : ((p.start config).1.run edits).answer e = .ok (some r))
    (hdist : ((p.start config).1.run edits).graph.Distinguished id s v) :
    ((p.start config).1.run edits).graph.Propagated
      (((p.start config).1.run edits).apply e).graph id s v r :=
  Context.propagated_of_ok (p.sound_run config hids) (p.closed_run config hids hkeeps) hright he hok
    hdist

/-- Two classes below a third one, and a class below both: the class on the right has a value of its
own, and the one on the left inherits. -/
def diamondEdits : List ClassEdit :=
  [.define "Top" [] [("__len__", .function ⟨1, "f"⟩)],
   .define "Left" [64] [],
   .define "Right" [64] [("__len__", .function ⟨2, "g"⟩)],
   .define "Bottom" [65, 66] []]

def diamond : Context := (({} : Host).start .unchecked).1.run diamondEdits

theorem diamond_tablesRight : diamond.graph.TablesRight :=
  tablesRight_of_no_write {} .unchecked (by decide) (by decide) (by decide)

/-- The class on the right takes over the value of the class at the top instead of its own. -/
def overwriting : ClassEdit := .setMember 66 "__len__" (.function ⟨1, "f"⟩)

theorem diamond_answer :
    diamond.answer overwriting = .ok (some ⟨some .len, false, 2, [66, 67], []⟩) ∧
      (diamond.graph.ownMember 66 Slot.len.name).isSome = true := by decide +kernel

/-- The class at the bottom takes the value over as well. -/
theorem diamond_overwritten :
    ∃ r : UpdateReport, r.updated = [66, 67] ∧
      diamond.graph.Propagated (diamond.apply overwriting).graph 66 .len
        (some (.function ⟨1, "f"⟩)) r := by
  obtain ⟨hok, hown⟩ := diamond_answer
  exact ⟨_, rfl, propagated_after_write {} .unchecked diamondEdits (by decide) (by decide)
    diamond_tablesRight rfl hok (Or.inl ⟨hown, rfl⟩)⟩

/-- Over a run that takes no class away, tables are right all along exactly when every write is
carried. -/
theorem exact_along_run_iff (p : Host) (config : Config) (edits : List ClassEdit)
    (hids : edits.countP ClassEdit.isDefinition < ClassId.available)
    (hkeeps : ∀ e ∈ edits, e.isRemoval = false) :
    (∀ k, ((p.start config).1.run (edits.take k)).graph.Exact) ↔
      ∀ k e, edits[k]? = some e → ((p.start config).1.run (edits.take k)).Carries e := by
  obtain ⟨hs, -, hexact⟩ := p.start_sound config
  exact Context.exact_run_iff_of_sound hs hexact (p.hasIdsFor_start config hids) hkeeps

/-- The write on the right of the diamond is carried, since all tables are right before it and
after it. -/
theorem diamond_carried : diamond.Carries overwriting := by
  obtain ⟨hs, -, hexact⟩ := ({} : Host).start_sound .unchecked
  obtain ⟨hok, hown⟩ := diamond_answer
  have hids : diamondEdits.countP ClassEdit.isDefinition < ClassId.available := by decide
  have hkeeps : ∀ e ∈ diamondEdits, e.isRemoval = false := by decide
  have hnone : ∀ e ∈ diamondEdits, e.write? = none := by decide
  have hbefore : ∀ k, ((({} : Host).start .unchecked).1.run (diamondEdits.take k)).graph.Exact :=
    (Context.exact_run_iff_of_sound hs hexact (Host.hasIdsFor_start {} .unchecked hids) hkeeps).mpr
      fun _ e he => Context.carries_of_no_write (hnone e (List.mem_of_getElem? he)) _
  have hafter : (diamond.apply overwriting).graph.Exact :=
    (Context.propagated_of_ok (sound_run {} .unchecked hids) (closed_run {} .unchecked hids hkeeps)
      diamond_tablesRight (s := .len) rfl hok (Or.inl ⟨hown, rfl⟩)).exact
  have hcarries := (exact_along_run_iff {} .unchecked (diamondEdits ++ [overwriting]) (by decide)
    (by decide)).mp (Context.exact_along_snoc hbefore hafter) 4 overwriting rfl
  rwa [show (diamondEdits ++ [overwriting]).take 4 = diamondEdits from rfl] at hcarries

/-- The class on the left comes to define the value that it inherited. Its entry stays as it is, and
the class at the bottom keeps the entry from the class on the right. -/
def slipped : Context :=
  (({} : Host).start .unchecked).1.run
    (diamondEdits ++ [.setMember 65 "__len__" (.function ⟨1, "f"⟩)])

theorem diamond_not_exact :
    ¬ ∀ (p : Host) (config : Config) (edits : List ClassEdit),
      (∀ e ∈ edits, e.isRemoval = false) → ((p.start config).1.run edits).graph.Exact := by
  intro hall
  have hexact := hall {} .unchecked (diamondEdits ++ [.setMember 65 "__len__" (.function ⟨1, "f"⟩)])
    (by decide)
  rw [← slipped] at hexact
  have hstale : (slipped.graph.cached 67 .len).any
      (fun v => slipped.graph.resolve 67 .len ≠ some v) = true := by decide +kernel
  exact not_tablesRight_of_stale hstale hexact.tablesRight

end Host

end MethodCache
