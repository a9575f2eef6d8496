import Sql.Dialect

/-!
# Table schemas

No database is asked: whoever calls supplies a `Lookup`, a function from a table name to the
table's columns in order. A `Catalog` is a lookup held in memory.
-/

namespace Sql

/-- The columns of a table by its name as written; `none` for a table that is not known, or the
reason why the schema cannot be asked. -/
abbrev Lookup := String → Except String (Option (List String))

/-- Ask a lookup for the qualified name, and for the bare name if that is not known. -/
def lookupColumns (lookup : Option Lookup) (qualified name : String) :
    Except Error (Option (List String)) :=
  match lookup with
  | none => .ok none
  | some ask =>
    match ask qualified with
    | .error reason => .error (.lookup qualified reason)
    | .ok (some columns) => .ok (some columns)
    | .ok none =>
      if qualified = name then .ok none
      else
        match ask name with
        | .error reason => .error (.lookup name reason)
        | .ok found => .ok found

/-- Tables with their columns. Names are kept in lower case. -/
structure Catalog where
  tables : List (String × List String)
deriving DecidableEq, Repr

namespace Catalog

/-- No table. -/
def empty : Catalog := ⟨[]⟩

/-- Set the columns of a name in a list of tables. -/
def setColumns (name : String) (columns : List String) :
    List (String × List String) → List (String × List String)
  | [] => [(name, columns)]
  | (n, cs) :: rest =>
    if n = name then (n, columns) :: rest else (n, cs) :: setColumns name columns rest

/-- Add a table, in place of one of the same name in any case. -/
def withTable (c : Catalog) (name : String) (columns : List String) : Catalog :=
  ⟨setColumns (foldCase name) columns c.tables⟩

/-- The columns of a table, by its name in any case. -/
def columns? (c : Catalog) (name : String) : Option (List String) :=
  (c.tables.find? fun t => t.1 == foldCase name).map Prod.snd

/-- The catalog as a lookup; it never fails. -/
def lookup (c : Catalog) : Lookup := fun name => .ok (c.columns? name)

/-- The strings of a JSON array of strings. -/
def stringsOfJson : Value → Option (List String)
  | .array items => items.mapM Value.string?
  | _ => none

/-- The tables of a JSON object, in the order of their keys' code points. -/
def tablesOfJson : Value → Option (List (String × List String))
  | .object ms => do
    let tables ← ms.mapM fun (name, v) => do return (name, ← stringsOfJson v)
    return tables.mergeSort fun a b => decide (a.1 ≤ b.1)
  | _ => none

/-- The catalog of a JSON object with a member `tables`. Keys are taken in the order of their code
points; of keys that differ only in case the last wins. -/
def ofJson? : Value → Option Catalog
  | .object ms => do
    let tables ← Value.memberOr ms "tables" [] tablesOfJson
    return tables.foldl (fun c t => c.withTable t.1 t.2) empty
  | _ => none

/-- The catalog as a JSON object. -/
def toJson (c : Catalog) : Value :=
  .object [("tables", .object (c.tables.map fun t => (t.1, .array (t.2.map .string))))]

end Catalog

end Sql
