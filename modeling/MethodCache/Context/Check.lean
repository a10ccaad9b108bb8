import MethodCache.Context.Read
import MethodCache.Table.Mismatch

/-!
Checking a context. Its own tables are compared with looking members up, and every entry of the
shared tables must stand for the value that looking it up finds in this context.
-/
namespace MethodCache.Context

def sharedMismatch? (c : Context) (t : BuiltinType) (cls : ClassObject) (s : Slot)
    (e : SharedEntry) : Option Mismatch × Context :=
  let expected := c.graph.resolve t.classId s
  let report (actual : Option Value) : Option Mismatch :=
    some ⟨t.classId, cls.name, s, expected, actual, .shared⟩
  match e with
  | .unknown => (none, c)
  | .constant v => (if expected = some v then none else report (some v), c)
  | .descriptor d =>
    let (actual, c) := c.materialize (.descriptor d)
    let described :=
      match expected with
      | some (.builtin f) => d.describes f
      | _ => false
    (if s.allowsDescriptor && described && actual = expected then none else report actual, c)

def sharedMismatchesOf (t : BuiltinType) (cls : ClassObject) (table : SharedTable) :
    List Slot → Context → List Mismatch × Context
  | [], c => ([], c)
  | s :: rest, c =>
    let (m, c) := c.sharedMismatch? t cls s (table.entries.get s)
    let (ms, c) := sharedMismatchesOf t cls table rest c
    (m.toList ++ ms, c)

/-- The mismatches of the shared tables of some built-in types. Types without a table or without
a registered class are passed over. -/
def sharedMismatches (h : SharedTables) : List BuiltinType → Context → List Mismatch × Context
  | [], c => ([], c)
  | t :: rest, c =>
    let (ms, c) :=
      match h.get? t, c.graph.class? t.classId with
      | some table, some cls => sharedMismatchesOf t cls table Slot.all c
      | _, _ => ([], c)
    let (ms', c) := sharedMismatches h rest c
    (ms ++ ms', c)

/-- All mismatches of a context, those of its own tables first. -/
def check (c : Context) (h : SharedTables) : List Mismatch × Context :=
  let own := c.graph.mismatches c.graph.ids
  let (shared, c) := sharedMismatches h BuiltinType.all c
  (own ++ shared, c)

end MethodCache.Context
