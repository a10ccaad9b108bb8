import MethodCache.Proofs.Writing

/-!
What the report of an update says. A walk lists a class when it replaces a stale entry of its
table, and a rebuild lists the class it makes a table for; no other class is touched, and an entry
that is right stays right. So a report holds every class that the update changed, and each class
listed as updated does have an entry that was stale before and is right afterwards. All of this
happens at the class where the update starts and below it.
-/
namespace MethodCache

open ClassGraph Relation

namespace ClassGraph

/-- A managed class whose entry is not what looking the slot up finds. -/
def Stale (g : ClassGraph) (d : ClassId) (s : Slot) : Prop :=
  g.Managed d ∧ g.cached d s ≠ g.resolve d s

end ClassGraph

namespace Update

def Lists (u : Update) (d : ClassId) : Prop :=
  d ∈ u.report.updated ∨ d ∈ u.report.rebuilt

/-- One update goes on to another, and the report tells what happened in between: nothing outside
some classes, and nothing that is not listed. -/
structure Reported (B : ClassId → Prop) (u v : Update) : Prop where
  refreshed : ∃ V, u.graph.Refreshed v.graph V
  kept : ∀ d, u.Lists d → v.Lists d
  listed : ∀ d, v.graph.class? d ≠ u.graph.class? d → v.Lists d
  within : ∀ d, v.Lists d → u.Lists d ∨ B d
  moved : ∀ d ∈ v.report.updated, d ∈ u.report.updated ∨
    ∃ s, u.graph.Stale d s ∧ v.graph.cached d s = u.graph.resolve d s

namespace Reported

variable {B : ClassId → Prop} {u v w : Update}

/-- Only what the report counts besides the classes it lists may differ. -/
theorem of_lists (hgraph : v.graph = u.graph) (hupdated : v.report.updated = u.report.updated)
    (hrebuilt : v.report.rebuilt = u.report.rebuilt) : Reported B u v := by
  have hlists : ∀ d, v.Lists d ↔ u.Lists d := by
    intro d
    unfold Lists
    rw [hupdated, hrebuilt]
  refine ⟨?_, fun d => (hlists d).mpr, ?_, fun d hd => Or.inl ((hlists d).mp hd),
    fun d hd => Or.inl (hupdated ▸ hd)⟩
  · rw [hgraph]
    exact ⟨_, Refreshed.refl _⟩
  · intro d hne
    exact absurd (congrArg (·.class? d) hgraph) hne

theorem refl (u : Update) : Reported B u u := of_lists rfl rfl rfl

theorem trans (r : Reported B u v) (r' : Reported B v w) : Reported B u w := by
  obtain ⟨V, hV⟩ := r.refreshed
  obtain ⟨W, hW⟩ := r'.refreshed
  refine ⟨⟨_, hV.trans hW⟩, fun d hd => r'.kept d (r.kept d hd), ?_, ?_, ?_⟩
  · intro d hne
    by_cases hmid : v.graph.class? d = u.graph.class? d
    · exact r'.listed d (hmid ▸ hne)
    · exact r'.kept d (r.listed d hmid)
  · intro d hd
    rcases r'.within d hd with hd | hB
    · exact r.within d hd
    · exact Or.inr hB
  · intro d hd
    rcases r'.moved d hd with hd | ⟨s, ⟨hm, hstale⟩, hright⟩
    · refine (r.moved d hd).imp_right ?_
      rintro ⟨s, hs, hright⟩
      refine ⟨s, hs, ?_⟩
      -- what the first part brought up to date, the second leaves so
      have hm := (hV.retabled.managed_iff d).mpr hs.1
      rw [← hV.retabled.resolve] at hright ⊢
      exact hW.stays hm hright
    · right
      have hmu := (hV.retabled.managed_iff d).mp hm
      rw [hV.retabled.resolve] at hstale hright
      refine ⟨s, ⟨hmu, ?_⟩, hright⟩
      -- an entry that is stale later on was so from the start
      rcases hV.kept_or_looked hmu s with hkept | hlooked
      · exact hkept ▸ hstale
      · exact absurd hlooked hstale

theorem of_listed {id : ClassId} {V : ClassId → Slot → Prop} (hid : B id)
    (r : u.graph.Refreshed v.graph V)
    (hothers : ∀ d, d ≠ id → v.graph.class? d = u.graph.class? d)
    (hlists : ∀ d, v.Lists d ↔ u.Lists d ∨ d = id)
    (hmoved : ∀ d ∈ v.report.updated, d ∈ u.report.updated ∨
      ∃ s, u.graph.Stale d s ∧ v.graph.cached d s = u.graph.resolve d s) : Reported B u v := by
  refine ⟨⟨V, r⟩, fun d hd => (hlists d).mpr (Or.inl hd), ?_, ?_, hmoved⟩
  · intro d hne
    refine (hlists d).mpr (Or.inr ?_)
    by_contra hd
    exact hne (hothers d hd)
  · intro d hd
    refine ((hlists d).mp hd).imp_right ?_
    rintro rfl
    exact hid

end Reported

/-! A walk. -/

/-- One step of a walk leaves the graph and the lists alone, or it replaces one stale entry and
lists the class as updated; either way it goes on along links. -/
theorem visitClass_cases (s : Slot) (id : ClassId) {u : Update} (hpub : u.graph.Published) :
    ∃ v below, visitClass s id u = (v, .ok below) ∧ (∀ d ∈ below, u.graph.Link id d) ∧
      v.report.rebuilt = u.report.rebuilt ∧
      ((v.graph = u.graph ∧ v.report.updated = u.report.updated) ∨
        (u.graph.Stale id s ∧ v.report.updated = u.report.updated ++ [id] ∧
          (u.graph.Refreshed v.graph fun d w => w = s ∧ d = id) ∧
          ∀ d, d ≠ id → v.graph.class? d = u.graph.class? d)) := by
  have hnone : ∀ d ∈ ([] : List ClassId), u.graph.Link id d := by simp
  have hbelow : ∀ d ∈ (u.graph.subclasses id).reverse, u.graph.Link id d :=
    fun d hd => List.mem_reverse.mp hd
  cases hc : u.graph.class? id with
  | none => exact ⟨u, [], visitClass_of_none hc, hnone, rfl, Or.inl ⟨rfl, rfl⟩⟩
  | some c =>
    cases hk : c.kind with
    | foreign ro =>
      exact ⟨_, _, visitClass_of_foreign hc hk, hbelow, rfl, Or.inl ⟨rfl, rfl⟩⟩
    | managed cell =>
      obtain ⟨t, ht, hcell⟩ := hpub.table_of_kind hc hk
      by_cases hfresh : t.get s = u.graph.resolve id s
      · exact ⟨_, _, visitClass_of_fresh hc hk hcell hfresh, hnone, rfl, Or.inl ⟨rfl, rfl⟩⟩
      · refine ⟨_, _, visitClass_of_stale hc hk hcell hfresh, hbelow, rfl,
          Or.inr ⟨⟨managed_of_kind hc hk, ?_⟩, rfl, refreshed_of_stale hc hk hcell, ?_⟩⟩
        · rw [cached, ht]
          exact hfresh
        · intro d hd
          exact class?_modify_of_ne _ (Ne.symm hd) _

theorem visitClass_reported {B : ClassId → Prop} (s : Slot) {id : ClassId} {u : Update}
    (hpub : u.graph.Published) (hid : B id) :
    ∃ v below, visitClass s id u = (v, .ok below) ∧ Reported B u v ∧
      ∀ d ∈ below, u.graph.Link id d := by
  obtain ⟨v, below, hvisit, hbelow, hrebuilt, hcases⟩ := visitClass_cases s id hpub
  rcases hcases with ⟨hgraph, hupdated⟩ | ⟨hstale, hupdated, r, hothers⟩
  · exact ⟨v, below, hvisit, .of_lists hgraph hupdated hrebuilt, hbelow⟩
  · refine ⟨v, below, hvisit, .of_listed hid r hothers ?_ ?_, hbelow⟩
    · intro d
      simp only [Lists, hupdated, hrebuilt, List.mem_append, List.mem_singleton]
      exact or_right_comm
    · intro d hd
      rw [hupdated, List.mem_append, List.mem_singleton] at hd
      refine hd.imp_right ?_
      rintro rfl
      exact ⟨s, hstale, r.looked d s ⟨rfl, rfl⟩ hstale.1⟩

section Walk

variable {B : ClassId → Prop} {u : Update}

theorem walkWithin_reported (s : Slot) {steps : ℕ} {stack : List ClassId}
    (hpub : u.graph.Published) (hB : ∀ a d, B a → u.graph.Link a d → B d)
    (hstack : ∀ d ∈ stack, B d) : Reported B u (walkWithin s steps stack u).1 := by
  induction steps generalizing stack u with
  | zero => cases stack <;> exact .refl u
  | succ steps ih =>
    cases stack with
    | nil => exact .refl u
    | cons id stack =>
      have hid := hstack id List.mem_cons_self
      obtain ⟨v, below, hvisit, r, hbelow⟩ := visitClass_reported s hpub hid
      obtain ⟨V, hV⟩ := r.refreshed
      rw [walkWithin, hvisit]
      apply r.trans
      apply ih (hV.publishedAll hpub)
      · rw [hV.retabled.link_eq]
        exact hB
      · intro d hd
        rcases List.mem_append.mp hd with hd | hd
        · exact hB id d hid (hbelow d hd)
        · exact hstack d (List.mem_cons_of_mem id hd)

theorem propagate_reported (s : Slot) {start : List ClassId} (hpub : u.graph.Published)
    (hB : ∀ a d, B a → u.graph.Link a d → B d) (hstart : ∀ d ∈ start, B d) :
    Reported B u (propagate s start u).1 :=
  walkWithin_reported s hpub hB fun d hd => hstart d (List.mem_reverse.mp hd)

theorem forEach_reported {α : Type} {work : α → Update → Outcome} {items : List α}
    (hwork : ∀ a ∈ items, ∀ v, Reported B u v → Reported B v (work a v).1) :
    Reported B u (forEach work items u).1 := by
  have hall : ∀ v, Reported B u v → Reported B u (forEach work items v).1 := by
    induction items with
    | nil => exact fun v r => r
    | cons a rest ih =>
      intro v r
      have ha := r.trans (hwork a List.mem_cons_self v r)
      rw [forEach]
      split
      · next w hw =>
        rw [hw] at ha
        exact ih (fun b hb => hwork b (List.mem_cons_of_mem a hb)) w ha
      · exact ha
  exact hall u (.refl u)

theorem rebuild_reported {id : ClassId} (hwf : u.graph.WellFormed) (hpub : u.graph.Published)
    (hroot : u.graph.RootRight) (hB : ∀ a d, B a → u.graph.Link a d → B d) (hid : B id) :
    Reported B u (rebuild id u).1 := by
  by_cases hm : u.graph.Managed id
  · obtain ⟨t, ht⟩ := Option.isSome_iff_exists.mp (hpub id hm)
    have hagrees := hwf.agrees_build hroot hm.contains false (by simp)
    have hsome : (u.graph.table? id).isSome = true := by rw [ht, Option.isSome_some]
    have hV := refreshed_publish hm hsome hagrees
    rw [rebuild_of_table? ht]
    refine Reported.trans (.of_listed hid hV ?_ ?_ ?_) (forEach_reported ?_)
    · intro d hd
      exact class?_modify_of_ne _ (Ne.symm hd) _
    · intro d
      simp only [Lists, List.mem_append, List.mem_singleton]
      exact or_assoc.symm
    · exact fun d hd => Or.inl hd
    · intro s _ v r
      obtain ⟨W, hW⟩ := r.refreshed
      have hlink : v.graph.Link = u.graph.Link :=
        hW.retabled.link_eq.trans hV.retabled.link_eq
      apply propagate_reported s (hW.publishedAll (hV.publishedAll hpub))
      · rw [hlink]
        exact hB
      · intro d hd
        exact hB id d hid (hlink ▸ hd)
  · rw [rebuild_of_not_managed hm]
    exact .of_lists rfl rfl rfl

end Walk

end Update

namespace ClassGraph

open Update

variable {g : ClassGraph} {id : ClassId}

/-- What follows a write is at most one walk, from the written class or, where that is foreign,
from the classes below it. -/
theorem memberWritten_walk (g : ClassGraph) (id : ClassId) (s : Slot) (v : Option Value) :
    ∃ u : Update, u.graph = g ∧ u.report.updated = [] ∧ u.report.rebuilt = [] ∧
      ((g.memberWritten id s.name v).1 = u ∨
        ∃ start, (start = [id] ∨ start = g.subclasses id) ∧
          g.memberWritten id s.name v = propagate s start u) := by
  simp only [memberWritten, Slot.ofName?_name]
  split
  · exact ⟨_, rfl, rfl, rfl, Or.inl rfl⟩
  · split
    · exact ⟨_, rfl, rfl, rfl, Or.inr ⟨_, Or.inr rfl, rfl⟩⟩
    · split
      · split <;> exact ⟨_, rfl, rfl, rfl, Or.inl rfl⟩
      · split
        · exact ⟨_, rfl, rfl, rfl, Or.inl rfl⟩
        · exact ⟨_, rfl, rfl, rfl, Or.inr ⟨_, Or.inl rfl, rfl⟩⟩

theorem memberWritten_reported (id : ClassId) (name : String) (v : Option Value)
    (hpub : g.Published) :
    Reported (ReflTransGen g.Link id) ⟨g, {}⟩ (g.memberWritten id name v).1 := by
  cases hname : Slot.ofName? name with
  | none =>
    rw [memberWritten_of_not_slot hname]
    exact .refl _
  | some s =>
    obtain rfl := Slot.name_of_ofName? hname
    obtain ⟨u, rfl, hupdated, hrebuilt, hsame | ⟨start, hstart, hwalk⟩⟩ :=
      g.memberWritten_walk id s v
    · rw [hsame]
      exact .of_lists rfl hupdated hrebuilt
    · have hbegin : Reported (ReflTransGen u.graph.Link id) ⟨u.graph, {}⟩ u :=
        .of_lists rfl hupdated hrebuilt
      rw [hwalk]
      apply hbegin.trans (propagate_reported s hpub (fun _ _ ha hl => ha.tail hl) _)
      intro d hd
      rcases hstart with rfl | rfl
      · rw [List.mem_singleton.mp hd]
      · exact .single hd

theorem basesReplaced_reported {changed : List ClassId} (hwf : g.WellFormed)
    (hpub : g.Published) (hroot : g.RootRight)
    (hchanged : ∀ d ∈ changed, ReflTransGen g.Link id d) :
    Reported (ReflTransGen g.Link id) ⟨g, {}⟩ (g.basesReplaced id changed).1 := by
  have hdown : ∀ a d, ReflTransGen g.Link id a → g.Link a d → ReflTransGen g.Link id d :=
    fun _ _ ha hl => ha.tail hl
  -- the graph of every update on the way is as good as the first one
  have hrebuild : ∀ d u, Reported (ReflTransGen g.Link id) ⟨g, {}⟩ u →
      ReflTransGen g.Link id d → Reported (ReflTransGen g.Link id) u (rebuild d u).1 := by
    intro d u r hd
    obtain ⟨V, hV⟩ := r.refreshed
    apply rebuild_reported ((SameOrders.of_retabled hV.retabled).wellFormed hwf)
      (hV.publishedAll hpub) (hV.rootRight hroot) _ hd
    rw [hV.retabled.link_eq]
    exact hdown
  have hself := hrebuild id ⟨g, {}⟩ (.refl _) .refl
  unfold basesReplaced
  split
  · next u hu =>
    rw [hu] at hself
    apply hself.trans
    apply forEach_reported
    intro d hd v r
    split
    · exact hrebuild d v (hself.trans r) (hchanged d hd)
    · exact .refl v
  · exact hself

end ClassGraph

end MethodCache
