import Sql.Scope.Columns

/-!
# Adding sort keys

A statement is sorted by columns that its leftmost select can name. A set operation is sorted by
the names of its columns, on its last select.
-/

namespace Sql

/-- A column to sort by. -/
structure SortSpec where
  column : String
  direction : SortDirection
  nulls : Option NullsOrder
deriving DecidableEq, Repr

namespace SortSpec

/-- The sort key over an expression. -/
def orderItem (spec : SortSpec) (e : Expr) : OrderItem := ⟨e, some spec.direction, spec.nulls⟩

/-- A direction by its name. -/
def directionOfJson (v : Value) : Option SortDirection :=
  match v.constant? with
  | some "asc" => some .asc
  | some "desc" => some .desc
  | _ => none

/-- A place of nulls by its name; null for none. -/
def nullsOfJson : Value → Option (Option NullsOrder)
  | .null => some none
  | v =>
    match v.constant? with
    | some "first" => some (some .first)
    | some "last" => some (some .last)
    | _ => none

/-- The sort key of a JSON object. Without a direction it is ascending. -/
def ofJson? : Value → Option SortSpec
  | .object ms => do
    let column ← (Value.lookup "column" ms).bind Value.string?
    let direction ← Value.memberOr ms "direction" .asc directionOfJson
    let nulls ← Value.memberOr ms "nulls" none nullsOfJson
    return { column, direction, nulls }
  | _ => none

/-- The sort keys of a JSON array. -/
def listOfJson? : Value → Option (List SortSpec)
  | .array items => items.mapM ofJson?
  | _ => none

/-- The sort key as a JSON object. -/
def toJson (spec : SortSpec) : Value :=
  .object
    [("column", .string spec.column),
     ("direction", .string (match spec.direction with | .asc => "asc" | .desc => "desc")),
     ("nulls", match spec.nulls with
        | some .first => .string "first"
        | some .last => .string "last"
        | none => .null)]

end SortSpec

/-- What a sort key refers to: the column's expression in a select, its name in a set operation. -/
def Body.sortExpr (b : Body) (c : SelectableColumn) : Expr :=
  match b with
  | .select _ => c.expr
  | _ => .name c.name

/-- Sort a statement further, after the keys it is sorted by. -/
def Statement.addSort (s : Statement) (specs : List SortSpec) (lookup : Option Lookup) :
    Except Error Statement :=
  if specs.isEmpty then .ok s
  else do
    let columns ← requireColumns lookup s (specs.map SortSpec.column)
    let items := specs.zipWith (fun spec c => spec.orderItem (s.body.sortExpr c)) columns
    if s.body.rightmost?.isNone then
      throw (.invalidArgument "cannot order a set operation whose last operand is parenthesised")
    else
      return { s with
        body := s.body.updateRightmost fun q => { q with orderBy := q.orderBy ++ items } }

end Sql
