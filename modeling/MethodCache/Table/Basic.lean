import MethodCache.Value.Basic

/-!
Tables with one place for every slot. A slot table caches, for one class, what looking each
special method up would find. A cell holds the table a class has published, if it has one;
published tables are replaced and never changed.
-/
namespace MethodCache

/-- One value for every slot. -/
structure SlotArray (α : Type) where
  places : Vector α Slot.count
  deriving DecidableEq

namespace SlotArray

variable {α : Type}

def fill (a : α) : SlotArray α := ⟨Vector.replicate Slot.count a⟩

def get (t : SlotArray α) (s : Slot) : α := t.places[s.ordinal]

def set (t : SlotArray α) (s : Slot) (a : α) : SlotArray α :=
  ⟨t.places.set s.ordinal a⟩

@[simp] theorem get_fill (a : α) (s : Slot) : (fill a).get s = a := by
  simp [fill, get]

theorem get_set (t : SlotArray α) (s u : Slot) (a : α) :
    (t.set s a).get u = if s = u then a else t.get u := by
  simp only [set, get, Fin.getElem_fin, Vector.getElem_set]
  by_cases h : s = u
  · simp [h]
  · rw [if_neg h, if_neg fun he => h (Slot.ordinal_injective (Fin.ext he))]

end SlotArray

/-- What looking up each slot of a class finds. -/
abbrev SlotTable := SlotArray (Option Value)

namespace SlotTable

def absent : SlotTable := .fill none

def present (t : SlotTable) : List (Slot × Value) :=
  Slot.all.filterMap fun s => (t.get s).map (s, ·)

def diff (t u : SlotTable) : List Slot :=
  Slot.all.filter fun s => t.get s ≠ u.get s

theorem mem_diff {t u : SlotTable} {s : Slot} : s ∈ t.diff u ↔ t.get s ≠ u.get s := by
  simp [diff, Slot.mem_all]

def text (t : SlotTable) : String :=
  let entry (e : Slot × Value) : String := "\"" ++ e.1.name ++ "\": " ++ e.2.text
  "\x7b" ++ ", ".intercalate (t.present.map entry) ++ "\x7d"

end SlotTable

/-- The place where a class publishes its table. -/
structure TableCell where
  table : Option SlotTable := none

namespace TableCell

def isPublished (c : TableCell) : Bool := c.table.isSome

def entry (c : TableCell) (s : Slot) : Option (Option Value) :=
  c.table.map (·.get s)

def publish (_ : TableCell) (t : SlotTable) : TableCell := ⟨some t⟩

/-- Publishes the table with one entry replaced. Without a table, or when the entry holds the
value already, there is nothing to publish. -/
def update? (c : TableCell) (s : Slot) (v : Option Value) : Option TableCell := do
  let t ← c.table
  if t.get s = v then none else some ⟨some (t.set s v)⟩

def text (c : TableCell) : String :=
  match c.table with
  | some t => s!"SlotCell({t.present.length} present)"
  | none => "SlotCell(uninitialized)"

end TableCell

end MethodCache
