import MethodCache.Slot.Resolve

/-!
Reflected operators. A pairing links a binary operator with the variant that takes the right
operand first; `standard` is the pairing in use. `defect?` is the self-check of a pairing: it
names the first slot whose name does not resolve, whose link is one-sided, or whose reflected
name exists without a link.
-/
namespace MethodCache

/-- Which slot, if any, a slot is reflected to. -/
structure Pairing where
  partner : Slot → Option Slot

namespace Pairing

def empty : Pairing := ⟨fun _ => none⟩

/-- Writes both links of a pair over whatever was there. -/
def link (p : Pairing) (forward reflected : Slot) : Pairing :=
  ⟨fun s => if s = reflected then some forward
    else if s = forward then some reflected
    else p.partner s⟩

/-- The links that a list of pairs leaves, later pairs written over earlier ones. -/
def ofPairs (pairs : List (Slot × Slot)) : Pairing :=
  pairs.foldl (fun p e => p.link e.1 e.2) empty

def links (p : Pairing) : List (Slot × Slot) :=
  Slot.all.filterMap fun s => (p.partner s).map (s, ·)

/-- The binary operators that have a reflected variant. -/
def operators : List (Slot × Slot) :=
  [(.and, .rand), (.or, .ror), (.xor, .rxor), (.add, .radd), (.sub, .rsub), (.mul, .rmul),
   (.matMul, .rmatMul), (.mod, .rmod), (.divMod, .rdivMod), (.pow, .rpow),
   (.trueDiv, .rtrueDiv), (.floorDiv, .rfloorDiv), (.lshift, .rlshift), (.rshift, .rrshift)]

def standard : Pairing := ofPairs operators

inductive Defect
  | unresolvable (s : Slot)
  | falsePositive (name : String)
  | oneSided (s partner : Slot)
  | missing (forward reflected : Slot)
  deriving DecidableEq

def Defect.message : Defect → String
  | .unresolvable s => s!"slot {s.name} does not resolve to itself"
  | .falsePositive n => s!"'{n}' resolved to a slot"
  | .oneSided s r => s!"{s.name} reverses to {r.name} but not vice versa"
  | .missing f r => s!"{f.name} and {r.name} are not linked"

/-- A name shaped like a slot name that denotes none. -/
def bogusName : String := "__bogus__"

/-- The slot named like `s` without the letter r that marks a reflected operator. -/
def forwardOf? (s : Slot) : Option Slot :=
  match s.name.toList with
  | '_' :: '_' :: 'r' :: op => Slot.ofName? (String.ofList ('_' :: '_' :: op))
  | _ => none

def slotDefect? (p : Pairing) (s : Slot) : Option Defect :=
  let oneSided : Option Defect := do
    let r ← p.partner s
    if p.partner r = some s then none else some (.oneSided s r)
  let missing : Option Defect := do
    let f ← forwardOf? s
    if p.partner f = some s then none else some (.missing f s)
  oneSided <|> missing

/-- The first thing wrong with a pairing: names before links, slots in table order. -/
def defect? (p : Pairing) : Option Defect :=
  (Slot.all.findSome? fun s =>
      if Slot.ofName? s.name = some s then none else some (.unresolvable s))
    <|> (if (Slot.ofName? bogusName).isSome then some (.falsePositive bogusName) else none)
    <|> Slot.all.findSome? p.slotDefect?

end Pairing

/-- The reflected, or forward, counterpart of a binary operator. -/
def Slot.reverse (s : Slot) : Option Slot :=
  Pairing.standard.partner s

end MethodCache
