import Sql.Schema
import Sql.Scope
import Sql.Statement.Walk

/-!
# Columns in scope

Which columns a select can name, and which a statement has. The columns of a table come from the
schema lookup; those of a CTE or a subquery from its own select list. A table that no lookup knows
has the columns that the text says it has: those written with its name before them, those without
a qualifier when it is the only source, and those that joins share by name. Such a list is marked
as inferred, and what depends on it as incomplete.

* `outputColumns`, `sourceColumns` and `columnsOf` call each other down the tree and along the
  names of CTEs; `Scope.weight` and the size of the node bound the descent.
* `selectable` lists what a select can name: its items first, then the columns of its sources.
-/

namespace Sql

/-- How many names of CTEs may be followed from one body into the next. -/
def maxCteDepth : Nat := 256

/-- The columns that a source has; inferred when they are taken from the text. -/
structure SourceColumns where
  source : String
  columns : List String
  inferred : Bool
deriving DecidableEq, Repr

/-- The source has a column of that name, up to case. -/
def SourceColumns.exposes (s : SourceColumns) (column : String) : Bool := nameIn column s.columns

/-- The names of the columns that a statement has; complete unless a star stands for columns that
are only inferred. -/
structure OutputColumns where
  names : List String
  complete : Bool
deriving DecidableEq, Repr

/-- A name that a select can use, and the expression it stands for. -/
structure SelectableColumn where
  name : String
  expr : Expr

/-! ## Inference from the text -/

/-- The columns that a clause expression says the source of that name has. A bare name counts when
there is no other source and it is no alias of the select list. -/
def referencedColumn? (name : String) (single : Bool) (aliases : List String) :
    Expr → Option String
  | .column c =>
    match c.qualifier with
    | some q => if sameName q name then some c.name else none
    | none => if single && !nameIn c.name aliases then some c.name else none
  | _ => none

/-- The columns that the text of a select says a source has. -/
def inferColumns (q : Select) (t : Source) : List String :=
  let aliases := q.items.filterMap SelectItem.asName
  let nodes := q.exprs.flatMap Expr.nodes
  distinctNames
    (nodes.filterMap (referencedColumn? t.effectiveName q.joins.isEmpty aliases)
      ++ q.joins.flatMap fun j => j.constraint.sharedColumns)

/-! ## Select lists -/

/-- The sources that a star stands for. -/
def starSources (qualifier : Option String) (sources : List SourceColumns) : List SourceColumns :=
  match qualifier with
  | some q => sources.filter fun s => sameName q s.source
  | none => sources

/-- Add the columns that are not there yet. -/
def addNames (names : List String) (columns : List String) : List String :=
  columns.foldl (fun ns c => if nameIn c ns then ns else ns ++ [c]) names

/-- Add the columns of a select item. A star adds the columns of its sources that are not there
yet; an item without a name adds nothing. -/
def OutputColumns.addItem (sources : List SourceColumns) (out : OutputColumns)
    (item : SelectItem) : OutputColumns :=
  match item.expr with
  | .star qualifier =>
    let matching := starSources qualifier sources
    { names := addNames out.names (matching.flatMap SourceColumns.columns)
      complete := out.complete && !matching.isEmpty && !matching.any SourceColumns.inferred }
  | _ =>
    match item.derivedName with
    | some n => { out with names := out.names ++ [n] }
    | none => out

/-- The columns of a select list over its sources. -/
def listColumns (sources : List SourceColumns) (items : List SelectItem) : OutputColumns :=
  items.foldl (OutputColumns.addItem sources) ⟨[], true⟩

/-! ## Resolution -/

variable (lookup : Option Lookup)

mutual

/-- The columns of a statement: those of its leftmost select, stars written out. -/
def outputColumns (scope : Scope) (s : Statement) : Except Error OutputColumns :=
  if scope.depth > maxCteDepth then
    .error (.invalidArgument "CTE references nested too deeply to resolve columns")
  else
    match _h : s.body.leftmostIn (scope.enter s) with
    | (q, inner) =>
      -- without a star the sources do not matter, and no lookup is asked about them
      if q.items.any fun i => i.expr.isStar then do
        return listColumns (← sourceColumns inner q) q.items
      else return listColumns [] q.items
termination_by sizeOf s + scope.weight
decreasing_by
  have h₁ := s.body.leftmostIn_weight_lt (scope.enter s)
  have h₂ := scope.weight_enter_le s
  rw [_h] at h₁
  dsimp only at h₁
  omega

/-- The columns of each source of a select, in order. -/
def sourceColumns (scope : Scope) (q : Select) : Except Error (List SourceColumns) :=
  q.sources.attach.mapM fun t => columnsOf scope q t.1
termination_by sizeOf q + scope.weight
decreasing_by
  have := Select.sizeOf_lt_of_mem_sources t.2
  omega

/-- The columns of one source of a select. -/
def columnsOf (scope : Scope) (q : Select) (t : Source) : Except Error SourceColumns :=
  match t with
  | .subquery s asName => do
    let out ← outputColumns scope s
    return ⟨asName, out.names, !out.complete⟩
  | .table path name asName =>
    let effective := asName.getD name
    match _h : scope.resolve? (.table path name asName) with
    | some (entry, before) =>
      -- the body of a CTE sees what stands before it, not the scope of its use
      if entry.cte.columns.isEmpty then do
        let out ← outputColumns before entry.cte.statement
        return ⟨effective, out.names, !out.complete⟩
      else return ⟨effective, entry.cte.columns, false⟩
    | none => do
      match ← lookupColumns lookup (dotted (path ++ [name])) name with
      | some columns => return ⟨effective, columns, false⟩
      | none => return ⟨effective, inferColumns q (.table path name asName), true⟩
termination_by sizeOf t + scope.weight
decreasing_by
  · simp +arith
  · have := Scope.resolve?_weight_lt _h
    omega

end

theorem sourceColumns_eq (scope : Scope) (q : Select) :
    sourceColumns lookup scope q = q.sources.mapM (columnsOf lookup scope q) := by
  rw [sourceColumns, List.mapM_subtype (g := columnsOf lookup scope q) (fun _ _ => rfl),
    List.unattach_attach]

/-- The columns of a CTE, given the scope of its body: its column list, if it has one. -/
def cteColumns (scope : Scope) (c : Cte) : Except Error OutputColumns :=
  if c.columns.isEmpty then outputColumns lookup scope c.statement
  else return ⟨c.columns, true⟩

/-! ## What a select can name -/

/-- The columns of the sources as expressions, qualified when there are several sources. -/
def sourceExprs (sources : List SourceColumns) : List SelectableColumn :=
  let qualify := sources.length > 1
  sources.flatMap fun s =>
    s.columns.map fun c => ⟨c, if qualify then .qualified s.source c else .name c⟩

/-- The named items of a select list. -/
def itemExprs (items : List SelectItem) : List SelectableColumn :=
  items.filterMap fun i => i.outputName.map fun n => ⟨n, i.expr⟩

/-- What a select can name: its named items, then the columns of its sources. The first of equal
names counts. -/
def selectableIn (scope : Scope) (q : Select) : Except Error (List SelectableColumn) := do
  let sources ← sourceColumns lookup scope q
  return firstByName SelectableColumn.name (itemExprs q.items ++ sourceExprs sources)

/-- What the leftmost select of a statement can name. -/
def selectable (s : Statement) : Except Error (List SelectableColumn) :=
  let (q, scope) := s.body.leftmostIn (Scope.root s)
  selectableIn lookup scope q

/-- The column of that name, up to case. -/
def findColumn? (columns : List SelectableColumn) (name : String) : Option SelectableColumn :=
  columns.find? fun c => sameName c.name name

/-- The columns of those names. All names that are missing are reported together. -/
def pickColumns (columns : List SelectableColumn) (names : List String) (label : String) :
    Except Error (List SelectableColumn) :=
  let missing := names.filter fun n => (findColumn? columns n).isNone
  if missing.isEmpty then .ok (names.filterMap (findColumn? columns))
  else .error (.unresolvedColumns missing label)

/-- The columns of those names that the leftmost select of a statement can name. -/
def requireColumns (s : Statement) (names : List String) :
    Except Error (List SelectableColumn) := do
  pickColumns (← selectable lookup s) names s.body.leftmost.label

end Sql
