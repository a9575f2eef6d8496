import Sql.Format
import Sql.Scope.Columns

/-!
# The select list as text

The items of a statement's leftmost select: the name of each column and its expression as text. A
star is written out when a schema is at hand that knows the columns of all its sources, and stays a
star otherwise.
-/

namespace Sql

/-- The name of a select item that has none. -/
def unnamedColumn : String := "?column?"

/-- The name and the text of one column. -/
structure ProjectedColumn where
  name : String
  text : String
deriving DecidableEq, Repr

/-- One column of a source. -/
def projectColumn (config : DialectConfig) (qualify : Bool) (source column : String) :
    Except Error ProjectedColumn := do
  let e : Expr := if qualify then .qualified source column else .name column
  return ⟨column, ← e.format config⟩

/-- The columns that a star stands for, when the columns of all its sources are known. -/
def expandStar (lookup : Option Lookup) (config : DialectConfig) (scope : Scope) (q : Select)
    (qualifier : Option String) : Except Error (Option (List ProjectedColumn)) := do
  let sources ← sourceColumns lookup scope q
  let matching := starSources qualifier sources
  if matching.isEmpty || matching.any SourceColumns.inferred then return none
  else
    let qualify := qualifier.isSome || sources.length > 1
    let columns ← matching.mapM fun s => s.columns.mapM (projectColumn config qualify s.source)
    return some columns.flatten

/-- One select item as it is written. -/
def projectItem (config : DialectConfig) (item : SelectItem) : Except Error ProjectedColumn := do
  let name := item.derivedName.getD (if item.expr.isStar then "*" else unnamedColumn)
  return ⟨name, ← item.expr.format config⟩

/-- The columns of one select item. -/
def projectedColumns (lookup : Option Lookup) (config : DialectConfig) (scope : Scope)
    (q : Select) (item : SelectItem) : Except Error (List ProjectedColumn) := do
  match item.expr, lookup with
  | .star qualifier, some _ =>
    match ← expandStar lookup config scope q qualifier with
    | some columns => return columns
    | none => return [← projectItem config item]
  | _, _ => return [← projectItem config item]

/-- The columns of a statement's leftmost select. -/
def Statement.projection (s : Statement) (lookup : Option Lookup) (config : DialectConfig) :
    Except Error (List ProjectedColumn) := do
  let (q, scope) := s.body.leftmostIn (Scope.root s)
  return (← q.items.mapM (projectedColumns lookup config scope q)).flatten

end Sql
