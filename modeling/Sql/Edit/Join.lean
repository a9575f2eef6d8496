import Sql.Scope.Columns

/-!
# Adding a join

A table is joined to a select on columns of equal names. The one source that has all those columns
is what they are compared with; no such source, or several, is refused.
-/

namespace Sql

/-- A table to be joined: its qualified name as written, its alias (blank for none), the columns
and the kind. -/
structure JoinRequest where
  table : String
  asName : String
  columns : List String
  kind : JoinKind
deriving DecidableEq, Repr

/-- Why a table cannot be joined, with the columns concerned. -/
inductive JoinFault
  | noFrom (columns : List String)
  | aliasInUse (asName : String) (columns : List String)
  | notInTable (table : String) (columns : List String)
  | spread (columns : List String)
  | notExposed (columns : List String)
  | ambiguous (sources columns : List String)
deriving DecidableEq, Repr

namespace JoinFault

/-- The columns concerned. -/
def columns : JoinFault → List String
  | noFrom cs | aliasInUse _ cs | notInTable _ cs | spread cs | notExposed cs | ambiguous _ cs => cs

/-- The reason that the message gives. -/
def reason : JoinFault → String
  | noFrom _ => "the select has no FROM clause"
  | aliasInUse asName _ => "alias '" ++ asName ++ "' is already in use"
  | notInTable table _ => table ++ " does not have the join column(s)"
  | spread _ => "join columns are spread across sources; no single source exposes all of them"
  | notExposed _ => "no source exposes the join column(s)"
  | ambiguous sources _ =>
    "join columns are ambiguous between sources " ++ ", ".intercalate sources

/-- The refusal to join a table. -/
def toError (table : String) (f : JoinFault) : Error := .unresolvedJoin table f.columns f.reason

end JoinFault

namespace JoinRequest

/-- The parts of the table's name before the last, and the last. -/
def nameParts? (r : JoinRequest) : Option (List String × String) :=
  let parts := splitName r.table
  parts.getLast?.map fun name => (parts.dropLast, name)

/-- The alias without surrounding blanks, or the table's name. -/
def effectiveAlias (r : JoinRequest) (name : String) : String :=
  let asName := Text.trimBlank r.asName
  if asName = "" then name else asName

/-- The columns that a known table lacks. -/
def absentColumns (r : JoinRequest) (known : Option (List String)) : List String :=
  match known with
  | none => []
  | some columns => r.columns.filter fun c => !nameIn c columns

/-- The one source that has all the columns. -/
def chooseSource (r : JoinRequest) (sources : List SourceColumns) : Except JoinFault String :=
  match (sources.filter fun s => r.columns.all s.exposes).map SourceColumns.source with
  | [one] => .ok one
  | [] =>
    let unexposed := r.columns.filter fun c => !sources.any fun s => s.exposes c
    .error (if unexposed.isEmpty then .spread r.columns else .notExposed unexposed)
  | many => .error (.ambiguous many r.columns)

/-- The condition that the columns of two sources are equal, one by one. -/
def condition? (source asName : String) : List String → Option Expr
  | [] => none
  | c :: cs =>
    let equal (c : String) : Expr := .binary (.qualified source c) .eq (.qualified asName c)
    some (cs.foldl (fun e c => .and e (equal c)) (equal c))

/-- The join of a select to the requested table. -/
def joinFor (r : JoinRequest) (lookup : Option Lookup) (scope : Scope) (q : Select)
    (path : List String) (name : String) : Except Error Join := do
  let asName := r.effectiveAlias name
  if q.source.isNone then throw (JoinFault.toError r.table (.noFrom r.columns))
  if q.sources.any fun s => sameName s.effectiveName asName then
    throw (JoinFault.toError r.table (.aliasInUse asName r.columns))
  let qualified := dotted (path ++ [name])
  let absent := r.absentColumns (← lookupColumns lookup qualified name)
  if !absent.isEmpty then throw (JoinFault.toError r.table (.notInTable qualified absent))
  let sources ← sourceColumns lookup scope q
  match r.chooseSource sources with
  | .error f => throw (f.toError r.table)
  | .ok source =>
    match condition? source asName r.columns with
    | none => throw (.invalidArgument "join requires at least one column")
    | some e =>
      return { kind := r.kind
               right := .table path name (if sameName asName name then none else some asName)
               constraint := .on e }

end JoinRequest

/-- Join a table to the select that a statement is. -/
def Statement.addJoin (s : Statement) (r : JoinRequest) (lookup : Option Lookup) :
    Except Error Statement := do
  if r.columns.isEmpty then throw (.invalidArgument "join requires at least one column")
  if r.kind = .cross ∨ r.kind = .comma then
    throw (.invalidArgument "injected joins need an ON condition; use inner, left, right or full")
  match r.nameParts? with
  | none => throw (.invalidArgument "join table name is empty")
  | some (path, name) =>
    match s.body with
    | .select q =>
      let j ← r.joinFor lookup (Scope.root s) q path name
      return { s with body := .select { q with joins := q.joins ++ [j] } }
    | _ => throw (.invalidArgument "cannot inject a join into a set operation")

end Sql
