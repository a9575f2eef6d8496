import Sql.Statement
import Sql.Error

/-!
# Combining statements

Statements are combined by one set operator, from the left. Their CTEs move into one WITH clause,
so no name may be defined twice. An operand that would fall apart or whose trailing clauses would
come to belong to the whole is put in parentheses.
-/

namespace Sql

/-- ORDER BY, LIMIT or OFFSET. -/
def Select.hasTrailingClauses (q : Select) : Bool :=
  !q.orderBy.isEmpty || q.limit.isSome || q.offset.isSome

/-- The body ends with ORDER BY, LIMIT or OFFSET outside parentheses. -/
def Body.endsWithTrailingClauses (b : Body) : Bool :=
  match b.rightmost? with
  | some q => q.hasTrailingClauses
  | none => false

/-- The body is a set operation. -/
def Body.isSetOp : Body → Bool
  | setOp .. => true
  | _ => false

/-- The body is a set operation of another operator. -/
def Body.isOtherSetOp (op : SetOperator) : Body → Bool
  | setOp _ o _ => o != op
  | _ => false

/-- The body in parentheses. -/
def Body.inParens (b : Body) : Body := nested ⟨none, b⟩

/-- The first operand of a chain. -/
def Body.asFirst (op : SetOperator) (b : Body) : Body :=
  if b.isOtherSetOp op || b.endsWithTrailingClauses then b.inParens else b

/-- A further operand of a chain. -/
def Body.asNext (b : Body) : Body :=
  if b.isSetOp || b.endsWithTrailingClauses then b.inParens else b

/-- Add definitions to those of the statements before. -/
def hoist (before : List Cte) : List Cte → Except Error (List Cte)
  | [] => .ok before
  | c :: cs =>
    if nameIn c.name (before.map Cte.name) then .error (.duplicateCte c.name)
    else hoist (before ++ [c]) cs

/-- The WITH clause of definitions, if there are any. -/
def withOf (recursive : Bool) (ctes : List Cte) : Option With :=
  if ctes.isEmpty then none else some ⟨recursive, ctes⟩

/-- The definitions of all statements, or the first name that is defined twice. -/
def hoistAll (statements : List Statement) : Except Error (List Cte) :=
  statements.foldlM (fun before s => hoist before s.ctes) []

/-- Combine statements by one operator. One statement alone stays as it is. -/
def combine (statements : List Statement) (op : SetOperator) : Except Error Statement :=
  match statements with
  | [] => .error (.invalidArgument "set operation needs at least one statement")
  | [s] => .ok s
  | s :: rest => do
    let ctes ← hoistAll (s :: rest)
    let body := rest.foldl (fun left t => .setOp left op t.body.asNext) (s.body.asFirst op)
    return ⟨withOf ((s :: rest).any Statement.isRecursive) ctes, body⟩

end Sql
