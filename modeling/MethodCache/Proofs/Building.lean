import MethodCache.Proofs.Lookup

/-!
A table holds what lookups find when it is made. Laying the members of a class over a table sets
exactly the slots that the class defines, so laying all ancestors over the root's table, root
first, answers as the search along the linearization does. Extending the table of a single base
gives the same answers when the base's table is right.
-/
namespace MethodCache

namespace Slot

theorem ofName?_name (s : Slot) : ofName? s.name = some s := by
  cases s <;> rfl

theorem name_of_ofName? {name : String} {s : Slot} (h : ofName? name = some s) :
    s.name = name := by
  unfold ofName? at h
  split at h
  · simpa using List.find?_some h
  · simp at h

theorem name_inj {s u : Slot} : s.name = u.name ↔ s = u := by
  constructor
  · intro h
    have hs := ofName?_name s
    rw [h, ofName?_name] at hs
    exact (Option.some.inj hs).symm
  · rintro rfl
    rfl

theorem all_nodup : all.Nodup := by decide

end Slot

theorem Members.find_eq_none {name : String} {es : List (String × Value)}
    (h : name ∉ es.map (·.1)) : Members.find name es = none := by
  induction es with
  | nil => rfl
  | cons e es ih =>
    rw [List.map_cons, List.mem_cons, not_or] at h
    rw [Members.find, if_neg (Ne.symm h.1), ih h.2]

theorem SlotTable.get_overlay (t : SlotTable) (c : ClassObject) (s : Slot) :
    (t.overlay c).get s = (c.members.get? s.name).or (t.get s) := by
  unfold SlotTable.overlay Members.slots Members.get?
  have hnd := c.members.nodup
  generalize c.members.entries = es at hnd
  induction es generalizing t with
  | nil => rfl
  | cons e es ih =>
    rw [List.map_cons, List.nodup_cons] at hnd
    rw [List.filterMap_cons, Members.find]
    cases hu : Slot.ofName? e.1 with
    | none =>
      have hne : e.1 ≠ s.name := by
        intro heq
        rw [heq, Slot.ofName?_name] at hu
        simp at hu
      rw [if_neg hne]
      exact ih t hnd.2
    | some u =>
      have hname := Slot.name_of_ofName? hu
      simp only [Option.map_some, List.foldl_cons]
      rw [ih _ hnd.2, SlotArray.get_set, ← hname]
      by_cases hus : u = s
      · subst hus
        rw [if_pos rfl, if_pos rfl, Members.find_eq_none (hname ▸ hnd.1)]
        rfl
      · rw [if_neg hus, if_neg fun h => hus (Slot.name_inj.mp h)]

namespace ClassGraph

/-- Laying the members along a list over a table, last class first, lets the first class win. -/
theorem get_overlayAll (g : ClassGraph) (order : List ClassId) (t : SlotTable) (s : Slot) :
    (g.overlayAll order t).get s =
      (order.findSome? fun a => g.ownMember a s.name).or (t.get s) := by
  unfold overlayAll
  induction order with
  | nil => rfl
  | cons a rest ih =>
    rw [List.foldr_cons, List.findSome?_cons]
    cases hc : g.class? a with
    | none => simp only [ownMember, hc, Option.bind_none, ih]
    | some c =>
      simp only [SlotTable.get_overlay, ih, ownMember_of_class? hc]
      cases c.members.get? s.name <;> rfl

/-- The table holds what lookups in the class find. -/
def Agrees (g : ClassGraph) (id : ClassId) (t : SlotTable) : Prop :=
  ∀ s, t.get s = g.resolve id s

theorem agrees_extendBase? {g : ClassGraph} {id : ClassId} {t : SlotTable}
    (hhead : (g.mro id).head? = some id)
    (hbase : ∀ c b u, g.class? id = some c → c.bases = [b] → g.table? b = some u →
      g.Agrees b u)
    (h : g.extendBase? id (g.mro id) = some t) : g.Agrees id t := by
  unfold extendBase? at h
  split at h
  · simp at h
  · next c hc =>
    split at h
    · next b hb =>
      split at h
      · split at h
        · simp at h
        · next u hu =>
          split at h
          · next hmro =>
            obtain rfl := Option.some.inj h
            intro s
            obtain ⟨rest, horder⟩ : ∃ rest, g.mro id = id :: rest :=
              ⟨_, List.eq_cons_of_mem_head? hhead⟩
            rw [horder, List.tail_cons] at hmro
            rw [SlotTable.get_overlay, hbase c b u hc hb hu, resolve_eq, resolve_eq, hmro, horder,
              List.findSome?_cons, ownMember_of_class? hc]
            cases c.members.get? s.name <;> rfl
          · simp at h
      · simp at h
    · simp at h

theorem agrees_overlayAll {g : ClassGraph} {id root : ClassId}
    (hlast : (g.mro id).getLast? = some root) (hroot : g.mro root = [root])
    (htable : root ≠ id → ∀ t, g.table? root = some t → g.Agrees root t) :
    g.Agrees id (g.overlayAll (g.mro id) (g.rootTable id root)) := by
  intro s
  rw [get_overlayAll, resolve_eq]
  cases hfound : (g.mro id).findSome? fun a => g.ownMember a s.name with
  | some v => rfl
  | none =>
    rw [Option.none_or, rootTable]
    split
    · exact SlotArray.get_fill none s
    · next hne =>
      cases ht : g.table? root with
      | none => exact SlotArray.get_fill none s
      | some t =>
        have hown := List.findSome?_eq_none_iff.mp hfound root (List.mem_of_getLast? hlast)
        rw [Option.getD_some, htable hne t ht, resolve_eq, hroot, List.findSome?_cons, hown]
        rfl

/-- Whichever way a table is made, it holds what lookups find. -/
theorem agrees_build {g : ClassGraph} {id root : ClassId} (mayExtend : Bool)
    (hhead : (g.mro id).head? = some id) (hlast : (g.mro id).getLast? = some root)
    (hroot : g.mro root = [root])
    (htable : root ≠ id → ∀ t, g.table? root = some t → g.Agrees root t)
    (hbase : mayExtend = true → ∀ c b u, g.class? id = some c → c.bases = [b] →
      g.table? b = some u → g.Agrees b u) : g.Agrees id (g.build id mayExtend).1 := by
  unfold build
  simp only [hlast]
  split
  · next t ht =>
    split at ht
    · next hext => exact agrees_extendBase? hhead (hbase hext) ht
    · simp at ht
  · exact agrees_overlayAll hlast hroot htable

theorem install?_eq_some {g h : ClassGraph} {id : ClassId} {mayExtend : Bool} {i : Installed} :
    g.install? id mayExtend = some (i, h) ↔
      ∃ c cell, g.class? id = some c ∧ c.cell? = some cell ∧
        i = ⟨(g.build id mayExtend).2, cell.table, (g.build id mayExtend).1⟩ ∧
        h = g.modify id (·.publish (g.build id mayExtend).1) := by
  unfold install?
  cases hc : g.class? id with
  | none => simp
  | some c =>
    cases hcell : c.cell? with
    | none => simp [hcell]
    | some cell => simp [hcell, eq_comm]

end ClassGraph

end MethodCache
