import Sql.Name.Quoted
import Sql.Value

/-!
# The statement tree

A statement is an optional WITH clause and a body; a body is one select, a set operation on two
bodies, or a statement in parentheses. Selects hold expressions, and expressions hold statements
again, so the types are defined together.

The tree keeps what the text says: parentheses, the two notations of a cast, the text of numbers.
It does not rule out trees that no text has, such as a join without a first source; what printing
and walking do with those is said where they are defined.
-/

namespace Sql

/-! ## Leaves -/

/-- The operators that combine two bodies. -/
inductive SetOperator
  | union | unionAll | intersect | except
deriving DecidableEq, Repr, Inhabited

/-- Ascending or descending. -/
inductive SortDirection
  | asc | desc
deriving DecidableEq, Repr

/-- Where the nulls of a sort key go. -/
inductive NullsOrder
  | first | last
deriving DecidableEq, Repr

/-- How a source is joined to the sources before it. A comma is a kind of its own. -/
inductive JoinKind
  | inner | left | right | full | cross | comma
deriving DecidableEq, Repr

/-- A column, with the path that qualifies it, outermost first. -/
structure ColumnRef where
  path : List String
  name : String
deriving DecidableEq, Repr

namespace ColumnRef

/-- The qualifier next to the name: a table name or alias. -/
def qualifier (c : ColumnRef) : Option String := c.path.getLast?

end ColumnRef

/-- A constant. Numbers keep their text; a typed literal is a type name before a string. -/
inductive Literal
  | number (text : String)
  | string (s : String)
  | boolean (b : Bool)
  | null
  | typed (type value : String)
deriving DecidableEq, Repr

/-- A bind parameter. One without a name is the anonymous question mark; one without a value is
not bound. -/
structure Param where
  name : Option String
  value : Option Value
deriving Inhabited

/-- A named parameter with its value. -/
def Param.bound (name : String) (value : Value) : Param := ⟨some name, some value⟩

/-- The operators between two operands. -/
inductive BinaryOp
  | eq | notEq | lt | ltEq | gt | gtEq
  | like | notLike | ilike | notIlike
  | and | or
  | add | sub | mul | div | mod
  | concat | jsonGet | jsonGetText
deriving DecidableEq, Repr

/-- The operators before an operand. -/
inductive UnaryOp
  | not | minus | plus
deriving DecidableEq, Repr

/-! ## The tree -/

mutual

/-- An expression. -/
inductive Expr
  | column (c : ColumnRef)
  /-- `*`, or `t.*` with a qualifier. -/
  | star (qualifier : Option String)
  | literal (l : Literal)
  | param (p : Param)
  /-- A call, with the aggregate's FILTER condition and its window. -/
  | call (name : String) (args : List Expr) (distinct : Bool) (filter : Option Expr)
      (window : Option Window)
  | binary (left : Expr) (op : BinaryOp) (right : Expr)
  | unary (op : UnaryOp) (e : Expr)
  | isNull (e : Expr) (negated : Bool)
  | between (e low high : Expr) (negated : Bool)
  | inList (e : Expr) (items : List Expr) (negated : Bool)
  | inQuery (e : Expr) (s : Statement) (negated : Bool)
  | hasRows (s : Statement)
  | subquery (s : Statement)
  | case (operand : Option Expr) (branches : List Branch) (fallback : Option Expr)
  /-- `CAST(e AS type)`, or `e::type` when short. -/
  | cast (e : Expr) (type : String) (short : Bool)
  /-- Parentheses that the text has. -/
  | paren (e : Expr)

/-- One WHEN of a CASE. -/
structure Branch where
  condition : Expr
  result : Expr

/-- One sort key. -/
structure OrderItem where
  expr : Expr
  direction : Option SortDirection
  nulls : Option NullsOrder

/-- The window of a call. -/
structure Window where
  partitionBy : List Expr
  orderBy : List OrderItem

/-- One item of a select list. -/
structure SelectItem where
  expr : Expr
  asName : Option String

/-- What stands in a FROM clause: a table by its qualified name, or a statement with an alias. -/
inductive Source
  | table (path : List String) (name : String) (asName : Option String)
  | subquery (s : Statement) (asName : String)

/-- What a join is restricted by: a condition (ON), equal columns of shared names (USING), or
nothing. -/
inductive JoinConstraint
  | on (e : Expr)
  | shared (columns : List String)
  | none

/-- A join to the sources before it. -/
structure Join where
  kind : JoinKind
  right : Source
  constraint : JoinConstraint

/-- One simple select. -/
structure Select where
  distinct : Bool
  items : List SelectItem
  source : Option Source
  joins : List Join
  filter : Option Expr
  groupBy : List Expr
  having : Option Expr
  orderBy : List OrderItem
  limit : Option Expr
  offset : Option Expr

/-- The definition of a common table expression, with its optional column list. -/
structure Cte where
  name : String
  columns : List String
  statement : Statement

/-- A WITH clause. -/
structure With where
  recursive : Bool
  ctes : List Cte

/-- The body of a statement. -/
inductive Body
  | select (q : Select)
  | setOp (left : Body) (op : SetOperator) (right : Body)
  /-- A statement in parentheses. -/
  | nested (s : Statement)

/-- A whole statement. -/
structure Statement where
  withClause : Option With
  body : Body

end

/-! ## Spelling and binding strength -/

/-- The words of a set operator. -/
def SetOperator.keyword : SetOperator → String
  | union => "union"
  | unionAll => "union all"
  | intersect => "intersect"
  | except => "except"

/-- The words that introduce a join. -/
def JoinKind.keyword : JoinKind → String
  | inner => "inner join"
  | left => "left join"
  | right => "right join"
  | full => "full join"
  | cross => "cross join"
  | comma => ","

namespace BinaryOp

/-- How the operator is written. -/
def symbol : BinaryOp → String
  | eq => "="
  | notEq => "<>"
  | lt => "<"
  | ltEq => "<="
  | gt => ">"
  | gtEq => ">="
  | like => "like"
  | notLike => "not like"
  | ilike => "ilike"
  | notIlike => "not ilike"
  | and => "and"
  | or => "or"
  | add => "+"
  | sub => "-"
  | mul => "*"
  | div => "/"
  | mod => "%"
  | concat => "||"
  | jsonGet => "->"
  | jsonGetText => "->>"

/-- The operator is a word, or two, and takes the case of the keywords. -/
def isWord : BinaryOp → Bool
  | like | notLike | ilike | notIlike | and | or => true
  | _ => false

end BinaryOp

/-- Binding strength of NOT. -/
def strengthNot : Nat := 3

/-- Binding strength of the comparisons and of the predicates that follow their operand. -/
def strengthComparison : Nat := 4

/-- Binding strength of a sign. -/
def strengthSign : Nat := 8

/-- Binding strength of the short cast. -/
def strengthCast : Nat := 9

/-- Binding strength of everything that is no operand list. -/
def strengthAtom : Nat := 100

/-- Binding strength of an operator; the greater binds first. -/
def BinaryOp.strength : BinaryOp → Nat
  | or => 1
  | and => 2
  | eq | notEq | lt | ltEq | gt | gtEq | like | notLike | ilike | notIlike => strengthComparison
  | concat | jsonGet | jsonGetText => 5
  | add | sub => 6
  | mul | div | mod => 7

namespace Expr

/-- Binding strength of the outermost operator of an expression. -/
def strength : Expr → Nat
  | binary _ op _ => op.strength
  | unary .not _ => strengthNot
  | unary _ _ => strengthSign
  | isNull .. | between .. | inList .. | inQuery .. => strengthComparison
  | cast _ _ true => strengthCast
  | _ => strengthAtom

/-- A column without qualifier. -/
def name (n : String) : Expr := column ⟨[], n⟩

/-- A column of a table. -/
def qualified (table n : String) : Expr := column ⟨[table], n⟩

/-- A string constant. -/
def string (s : String) : Expr := literal (.string s)

/-- The null constant. -/
def null : Expr := literal .null

/-- The conjunction of two conditions. -/
def and (a b : Expr) : Expr := binary a .and b

/-- A call with nothing but arguments. -/
def apply (name : String) (args : List Expr) : Expr := call name args false Option.none Option.none

/-- The column, when the expression is nothing else. -/
def column? : Expr → Option ColumnRef
  | column c => some c
  | _ => Option.none

/-- The expression is `*` or `t.*`. -/
def isStar : Expr → Bool
  | star _ => true
  | _ => false

/-- The name a select item has without an alias: the column's, or the last part of the function's,
also through casts and parentheses. -/
def implicitName : Expr → Option String
  | column c => some c.name
  | call name .. => some (lastPart name)
  | cast e _ _ => implicitName e
  | paren e => implicitName e
  | _ => Option.none

end Expr

/-! ## Aggregates and windows of a single call -/

/-- The functions that fold the rows of a group. -/
def aggregateFunctions : List String :=
  ["count", "sum", "avg", "min", "max", "array_agg", "string_agg", "json_agg", "jsonb_agg",
   "json_object_agg", "jsonb_object_agg", "bool_and", "bool_or", "every", "stddev", "variance"]

/-- The last part of the name is that of an aggregate function, in any case. -/
def isAggregateFunction (name : String) : Bool := nameIn (lastPart name) aggregateFunctions

/-! ## Sources -/

namespace Source

/-- The name that qualifies the columns of a source: its alias, else its table name. -/
def effectiveName : Source → String
  | table _ name asName => asName.getD name
  | subquery _ asName => asName

/-- The table name; a subquery has none. -/
def tableName : Source → Option String
  | table _ name _ => some name
  | subquery .. => none

/-- The alias. -/
def asName : Source → Option String
  | table _ _ asName => asName
  | subquery _ asName => some asName

/-- The table name with its qualifying path; a subquery has none. -/
def qualifiedName : Source → Option String
  | table path name _ => some (dotted (path ++ [name]))
  | subquery .. => none

/-- The statement of a subquery. -/
def statement? : Source → Option Statement
  | table .. => none
  | subquery s _ => some s

end Source

/-- The condition of a join. -/
def JoinConstraint.condition? : JoinConstraint → Option Expr
  | on e => some e
  | _ => Option.none

/-- The columns that a join shares by name. -/
def JoinConstraint.sharedColumns : JoinConstraint → List String
  | shared columns => columns
  | _ => []

/-! ## Selects -/

/-- The name of a select item: its alias, or the name of a bare column. -/
def SelectItem.outputName (i : SelectItem) : Option String :=
  match i.asName with
  | some a => some a
  | none => i.expr.column?.map ColumnRef.name

/-- The name of a select item, taking also the name of a function. -/
def SelectItem.derivedName (i : SelectItem) : Option String :=
  match i.asName with
  | some a => some a
  | none => i.expr.implicitName

/-- An item without alias. -/
def SelectItem.bare (e : Expr) : SelectItem := ⟨e, none⟩

namespace Select

/-- A select list, and optionally a source. -/
def simple (items : List SelectItem) (source : Option Source) : Select :=
  { distinct := false, items, source, joins := [], filter := none, groupBy := [], having := none,
    orderBy := [], limit := none, offset := none }

/-- The sources in the order of the FROM clause. -/
def sources (q : Select) : List Source := q.source.toList ++ q.joins.map Join.right

/-- The first source of that effective name. -/
def findSource? (q : Select) (name : String) : Option Source :=
  q.sources.find? fun s => sameName s.effectiveName name

/-- How messages name a select. -/
def label (q : Select) : String :=
  match q.source with
  | some s => "select from " ++ s.effectiveName
  | none => "select"

end Select

/-! ## Statements -/

namespace Statement

/-- The CTEs of the statement's own WITH clause. -/
def ctes (s : Statement) : List Cte :=
  match s.withClause with
  | some w => w.ctes
  | none => []

/-- The WITH clause is recursive. -/
def isRecursive (s : Statement) : Bool :=
  match s.withClause with
  | some w => w.recursive
  | none => false

/-- A statement of one select. -/
def ofSelect (q : Select) : Statement := ⟨none, .select q⟩

/-- The select, when the body is nothing else. -/
def select? (s : Statement) : Option Select :=
  match s.body with
  | .select q => some q
  | _ => none

end Statement

namespace Body

/-- The selects that the set operations of a body combine, also within parentheses. -/
def leaves : Body → List Select
  | select q => [q]
  | setOp left _ right => left.leaves ++ right.leaves
  | nested ⟨_, body⟩ => body.leaves

/-- The first select of a body; it names the columns. -/
def leftmost : Body → Select
  | select q => q
  | setOp left _ _ => left.leftmost
  | nested ⟨_, body⟩ => body.leftmost

/-- The last select of a body, unless it stands in parentheses. -/
def rightmost? : Body → Option Select
  | select q => some q
  | setOp _ _ right => right.rightmost?
  | nested _ => none

/-- Change the last select of a body, unless it stands in parentheses. -/
def updateRightmost (f : Select → Select) : Body → Body
  | select q => select (f q)
  | setOp left op right => setOp left op (right.updateRightmost f)
  | nested s => nested s

/-- Change every select that the set operations of a body combine. -/
def updateLeaves (f : Select → Select) : Body → Body
  | select q => select (f q)
  | setOp left op right => setOp (left.updateLeaves f) op (right.updateLeaves f)
  | nested ⟨w, body⟩ => nested ⟨w, body.updateLeaves f⟩

end Body

end Sql
