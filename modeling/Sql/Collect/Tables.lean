import Sql.Scope
import Sql.Statement.Walk

/-!
# Tables of a statement

The physical tables that a statement reads anywhere: in CTE bodies, FROM subqueries, operands of set
operations and subqueries of expressions. A name that stands for a CTE in scope is no table. Under
WITH RECURSIVE the body of a CTE sees every CTE of its clause, else only those before it.
-/

namespace Sql

/-- A table by its qualified name. -/
structure TableName where
  path : List String
  name : String
deriving DecidableEq, Repr

/-- The qualified name with its dots. -/
def TableName.qualified (t : TableName) : String := dotted (t.path ++ [t.name])

/-- The table that a source names, unless it names a CTE or is a subquery. -/
def Scope.table? (scope : Scope) (t : Source) : Option TableName :=
  match t with
  | .subquery .. => none
  | .table path name _ => if (scope.resolve? t).isSome then none else some ⟨path, name⟩

/-- The scope of a CTE body, given the scope inside the statement that defines it. -/
def Scope.ofCte (inner : Scope) (recursive : Bool) (c : Cte) : Scope :=
  if recursive then inner
  else
    match inner.find? c.name with
    | some (_, before) => before
    | none => inner

mutual

/-- Every mention of a table in a statement that stands in a scope. -/
def Statement.tablesIn (scope : Scope) (s : Statement) : List TableName :=
  let inner := scope.enter s
  s.ctes.attach.flatMap (fun c => c.1.statement.tablesIn (inner.ofCte s.isRecursive c.1))
    ++ s.body.tablesIn inner
termination_by sizeOf s
decreasing_by
  · exact Statement.sizeOf_lt_of_mem_ctes c.2
  · exact s.sizeOf_body_lt

/-- Every mention of a table in a body that stands in a scope. -/
def Body.tablesIn (scope : Scope) (b : Body) : List TableName :=
  match b with
  | .select q =>
    q.sources.attach.flatMap (fun t =>
      match _h : t.1.statement? with
      | some s => s.tablesIn scope
      | none => (scope.table? t.1).toList)
      ++ ((q.exprs.flatMap Expr.nodes).filterMap Expr.statement?).attach.flatMap
        fun s => s.1.tablesIn scope
  | .setOp left _ right => left.tablesIn scope ++ right.tablesIn scope
  | .nested s => s.tablesIn scope
termination_by sizeOf b
decreasing_by
  · have := Source.sizeOf_lt_of_statement? _h
    have := Select.sizeOf_lt_of_mem_sources t.2
    simp +arith only [Body.select.sizeOf_spec]; omega
  · have := Select.sizeOf_lt_of_mem_subqueries (q := q) (List.mem_append_right _ s.2)
    simp +arith only [Body.select.sizeOf_spec]; omega
  all_goals simp +arith

end

/-- The tables that a statement reads, each once, in the order of first mention. -/
def Statement.tables (s : Statement) : List TableName :=
  firstByName TableName.qualified (s.tablesIn Scope.empty)

/-- The mentions of tables in one source of a select. -/
def Source.tablesIn (scope : Scope) (t : Source) : List TableName :=
  match t.statement? with
  | some s => s.tablesIn scope
  | none => (scope.table? t).toList

theorem Statement.tablesIn_eq (scope : Scope) (s : Statement) :
    s.tablesIn scope =
      s.ctes.flatMap (fun c => c.statement.tablesIn ((scope.enter s).ofCte s.isRecursive c))
        ++ s.body.tablesIn (scope.enter s) := by
  rw [tablesIn, List.flatMap_subtype
    (g := fun c => c.statement.tablesIn ((scope.enter s).ofCte s.isRecursive c))
    (fun _ _ => rfl), List.unattach_attach]

theorem Body.tablesIn_select (scope : Scope) (q : Select) :
    (Body.select q).tablesIn scope =
      q.sources.flatMap (Source.tablesIn scope)
        ++ ((q.exprs.flatMap Expr.nodes).filterMap Expr.statement?).flatMap
          (Statement.tablesIn scope) := by
  rw [tablesIn, List.flatMap_subtype (g := Source.tablesIn scope), List.unattach_attach,
    List.flatMap_subtype (g := Statement.tablesIn scope) (fun _ _ => rfl),
    List.unattach_attach]
  intro t _
  simp only [Source.tablesIn]
  split <;> simp_all

theorem Body.tablesIn_setOp (scope : Scope) (left right : Body) (op : SetOperator) :
    (Body.setOp left op right).tablesIn scope = left.tablesIn scope ++ right.tablesIn scope := by
  rw [tablesIn]

theorem Body.tablesIn_nested (scope : Scope) (s : Statement) :
    (Body.nested s).tablesIn scope = s.tablesIn scope := by
  rw [tablesIn]

end Sql
