import MethodCache.Proofs.Equipping
import MethodCache.Proofs.Numbering

/-!
What the shared tables hold. They are filled from the class graph of the first context, before
late slots are installed. An entry is left open, or it describes the native that the definer of
the slot holds; a slot that its type installs late is left open, and so the definer is the same in
every context. Numbers given to natives are never taken back, and a description stays right while
further natives are numbered.
-/
namespace MethodCache

open ClassGraph

namespace DescriptorIndex

theorem size_le (x : DescriptorIndex) : x.size ≤ UInt32.size := by
  have hsub : x.listed ⊆ BuiltinType.all.flatMap fun t => Slot.all.map (Native.mk t) := by
    rintro ⟨t, s⟩ -
    exact List.mem_flatMap.mpr
      ⟨t, t.mem_all, List.mem_map.mpr ⟨s, s.mem_all, rfl⟩⟩
  have hlen := (List.subperm_of_subset x.nodup hsub).length_le
  have hcount : (BuiltinType.all.flatMap fun t => Slot.all.map (Native.mk t)).length ≤
      UInt32.size := by decide +kernel
  exact Nat.le_trans hlen hcount

theorem get?_number (x : DescriptorIndex) (n : Native) :
    (x.number n).2.get? (x.number n).1 = some n :=
  Numbering.get?_number (size_le _)

end DescriptorIndex

/-- A shared entry is open, or it describes the native that the definer of the slot holds, under
the number of the native. -/
inductive SharedEntry.Describes (x : DescriptorIndex) (t : BuiltinType) (s : Slot) :
    SharedEntry → Prop
  | unknown : Describes x t s .unknown
  | descriptor {u : BuiltinType} {i : ℕ} (hu : t.definer? BuiltinType.slots s = some u)
      (hi : x.get? i = some ⟨u, s⟩) : Describes x t s (.descriptor ⟨s, ⟨u, s⟩, i, u⟩)

theorem SharedEntry.Describes.mono {x y : DescriptorIndex} {t : BuiltinType} {s : Slot}
    {e : SharedEntry} (h : e.Describes x t s) (hxy : x.Extends y) : e.Describes y t s := by
  cases h with
  | unknown => exact .unknown
  | descriptor hu hi => exact .descriptor hu (hxy _ _ hi)

namespace ClassGraph

variable {g : ClassGraph} {id : ContextId}

theorem classify_describes (q : g.Equipped id BuiltinType.installedSlots) (x : DescriptorIndex)
    (t : BuiltinType) (s : Slot) :
    let r := g.classify x t s (g.resolve t.classId s)
    x.Extends r.2 ∧ r.1.Describes r.2 t s := by
  have hopen : ∀ {r : SharedEntry × DescriptorIndex}, r = (.unknown, x) →
      x.Extends r.2 ∧ r.1.Describes r.2 t s := by
    rintro r rfl
    exact ⟨.refl x, .unknown⟩
  simp only
  by_cases hlate : s ∈ t.lateSlots
  · apply hopen
    simp [classify, BuiltinType.redefines, hlate]
  · rw [q.resolve]
    cases hu : t.definer? BuiltinType.installedSlots s with
    | none =>
      apply hopen
      simp [classify]
    | some u =>
      have howner : g.slotOwner t s = u := by
        rw [slotOwner, q.definer_lookup, hu, Option.getD_some]
      by_cases hfree : (s.allowsDescriptor && (Native.mk u s).contextFree) = true
      · have hclass : g.classify x t s (some (.builtin ((Native.mk u s).ownedBy id))) =
            (.descriptor ⟨s, ⟨u, s⟩, (x.number ⟨u, s⟩).1, u⟩, (x.number ⟨u, s⟩).2) := by
          simp only [classify, BuiltinType.redefines, hlate, Native.ownedBy, hfree, howner,
            decide_false, if_true, Bool.false_eq_true, if_false]
        rw [Option.map_some, hclass]
        refine ⟨x.extends_number _, .descriptor ?_ (x.get?_number _)⟩
        rw [BuiltinType.definer?_slots hlate, hu]
      · apply hopen
        simp only [classify, BuiltinType.redefines, hlate, Native.ownedBy, hfree,
          decide_false, Bool.false_eq_true, if_false, Option.map_some]

theorem classifySlots_describes (q : g.Equipped id BuiltinType.installedSlots)
    {t : BuiltinType} {own : SlotTable} (hown : g.Agrees t.classId own) (slots : List Slot)
    (r : SlotArray SharedEntry × DescriptorIndex) (hr : ∀ s, (r.1.get s).Describes r.2 t s) :
    r.2.Extends (g.classifySlots t own slots r).2 ∧
    ∀ s, ((g.classifySlots t own slots r).1.get s).Describes (g.classifySlots t own slots r).2
      t s := by
  induction slots generalizing r with
  | nil => exact ⟨.refl _, hr⟩
  | cons s rest ih =>
    obtain ⟨entries, x⟩ := r
    obtain ⟨hext, hentry⟩ := classify_describes q x t s
    rw [← hown s] at hext hentry
    obtain ⟨hrest, hall⟩ := ih (entries.set s (g.classify x t s (own.get s)).1,
      (g.classify x t s (own.get s)).2) (by
        intro u
        rw [SlotArray.get_set]
        split
        · next hsu => exact hsu ▸ hentry
        · exact (hr u).mono hext)
    exact ⟨hext.trans hrest, hall⟩

theorem shareTable_eq {x : DescriptorIndex} {t : BuiltinType} {own : SlotTable}
    (ht : g.table? t.classId = some own) :
    g.shareTable x t =
      let r := g.classifySlots t own Slot.all (.fill .unknown, x)
      (⟨t, r.1⟩, r.2) := by
  simp only [shareTable, ht, Option.getD_some]

/-- The shared table of a type describes what the type's own table holds. -/
theorem shareTable_describes (q : g.Equipped id BuiltinType.installedSlots) (x : DescriptorIndex)
    (t : BuiltinType) :
    x.Extends (g.shareTable x t).2 ∧ (g.shareTable x t).1.type = t ∧
    ∀ s, ((g.shareTable x t).1.entries.get s).Describes (g.shareTable x t).2 t s := by
  obtain ⟨own, ht, hown⟩ := q.right t
  have hfill : ∀ s, ((SlotArray.fill SharedEntry.unknown).get s).Describes x t s := by
    intro s
    rw [SlotArray.get_fill]
    exact .unknown
  have hall := classifySlots_describes q hown Slot.all (.fill .unknown, x) hfill
  rw [shareTable_eq ht]
  exact ⟨hall.1, rfl, hall.2⟩

theorem shareTables_cons (g : ClassGraph) (t : BuiltinType) (rest : List BuiltinType)
    (x : DescriptorIndex) : g.shareTables (t :: rest) x =
      ((g.shareTable x t).1 :: (g.shareTables rest (g.shareTable x t).2).1,
        (g.shareTables rest (g.shareTable x t).2).2) := by
  rw [shareTables]

theorem shareTables_describes (q : g.Equipped id BuiltinType.installedSlots)
    (ts : List BuiltinType) (x : DescriptorIndex) :
    x.Extends (g.shareTables ts x).2 ∧
    ∀ table ∈ (g.shareTables ts x).1, ∀ s,
      (table.entries.get s).Describes (g.shareTables ts x).2 table.type s := by
  induction ts generalizing x with
  | nil => exact ⟨.refl x, by simp [shareTables]⟩
  | cons t rest ih =>
    obtain ⟨hext, htype, hself⟩ := shareTable_describes q x t
    obtain ⟨hrest, hall⟩ := ih (g.shareTable x t).2
    rw [shareTables_cons]
    refine ⟨hext.trans hrest, ?_⟩
    intro table hmem s
    rcases List.mem_cons.mp hmem with rfl | hmem
    · rw [htype]
      exact (hself s).mono hrest
    · exact hall table hmem s

end ClassGraph

def SharedTables.Describe (h : SharedTables) (x : DescriptorIndex) : Prop :=
  ∀ t s, (h.entry t s).Describes x t s

namespace SharedTables

variable {h : SharedTables} {x y : DescriptorIndex}

theorem Describe.mono (hd : h.Describe x) (hxy : x.Extends y) : h.Describe y :=
  fun t s => (hd t s).mono hxy

theorem Describe.of_entry (hd : h.Describe x) {t : BuiltinType} {s : Slot} {d : Descriptor}
    (he : h.entry t s = .descriptor d) :
    t.definer? BuiltinType.slots s = some d.owner ∧ d.slot = s ∧ d.native = ⟨d.owner, d.slot⟩ ∧
      x.get? d.index = some d.native := by
  have hdesc := hd t s
  rw [he] at hdesc
  cases hdesc with
  | descriptor hu hi => exact ⟨hu, rfl, rfl, hi⟩

theorem Describe.ne_constant (hd : h.Describe x) (t : BuiltinType) (s : Slot) (v : Value) :
    h.entry t s ≠ .constant v := by
  intro he
  have hdesc := hd t s
  rw [he] at hdesc
  cases hdesc

/-- Only the first context fills the tables; later ones leave them and the numbers alone. -/
theorem fill_describes {g : ClassGraph} {id : ContextId}
    (q : g.Equipped id BuiltinType.installedSlots) (hd : h.Describe x) :
    x.Extends (h.fill g x).2 ∧ (h.fill g x).1.Describe (h.fill g x).2 := by
  unfold fill
  split
  · exact ⟨.refl x, hd⟩
  · have hall := shareTables_describes q BuiltinType.all x
    generalize g.shareTables BuiltinType.all x = r at hall
    obtain ⟨tables, y⟩ := r
    obtain ⟨hext, hall⟩ := hall
    refine ⟨hext, fun t s => ?_⟩
    simp only [entry, get?, Option.bind_some]
    cases hf : tables.find? (·.type = t) with
    | none => exact .unknown
    | some table =>
      have htype : table.type = t := by simpa using List.find?_some hf
      rw [← htype]
      exact hall table (List.mem_of_find?_eq_some hf) s

theorem describe_empty (x : DescriptorIndex) : ({} : SharedTables).Describe x :=
  fun _ _ => .unknown

end SharedTables

namespace Host

variable {p : Host}

def Consistent (p : Host) : Prop := p.shared.Describe p.index

theorem start_snd (p : Host) (config : Config) :
    (p.start config).2 =
      let filled := p.shared.fill (Context.withBuiltins p.nextContext config).graph p.index
      { contextCounter := p.contextCounter + 1, index := filled.2, shared := filled.1 } := by
  unfold start
  simp only

/-- Starting a context fills the tables if they are empty, and takes no number back. -/
theorem start_consistent (hp : p.Consistent) (config : Config) :
    p.index.Extends (p.start config).2.index ∧ (p.start config).2.Consistent := by
  have q := Context.equipped_withBuiltins p.nextContext config
  rw [start_snd]
  exact SharedTables.fill_describes q hp

theorem number_consistent (hp : p.Consistent) (n : Native) :
    p.index.Extends (p.number n).index ∧ (p.number n).Consistent :=
  ⟨p.index.extends_number n, hp.mono (p.index.extends_number n)⟩

end Host

end MethodCache
