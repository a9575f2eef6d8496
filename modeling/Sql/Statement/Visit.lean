import Sql.Statement.Walk

/-!
# Visiting a tree in place

A visit goes through the selects of a tree, in the order of `Statement.selects`, and may change each
of them; a visit of all expressions goes through the expressions of each select, clause by clause
and each before those below it. A state is threaded through.

A visit enters what stands below a node after the node itself. It takes what a change makes of the
node, but not what it makes of the parts below: they are visited as they were.

* `Expr.eachChild`, `Select.eachExpr`, `Select.eachStatement`: the parts next to a node, in place.
* `Expr.visit`: an expression and everything below it, without entering nested statements.
* `Statement.visit`: every select of a tree; `Statement.visitExprs`: every expression.
-/

namespace Sql

variable {σ : Type}

theorem mapM_attach {α β : Type} (f : α → StateM σ β) (xs : List α) :
    (xs.attach.mapM fun x => f x.1) = xs.mapM f := by
  rw [List.mapM_subtype (g := f) fun _ _ => rfl, List.unattach_attach]

/-! ## Parts in place -/

/-- Put the next element of a list in the place of another one. -/
def next {α : Type} (a : α) : StateM (List α) α := do
  match ← get with
  | [] => return a
  | b :: rest =>
    set rest
    return b

/-- Visit the expressions of a window. -/
def Window.eachExpr (f : Expr → StateM σ Expr) (w : Window) : StateM σ Window := do
  let partitionBy ← w.partitionBy.mapM f
  let orderBy ← w.orderBy.mapM fun o => return { o with expr := ← f o.expr }
  return { partitionBy, orderBy }

/-- Visit the expressions directly below an expression. -/
def Expr.eachChild (f : Expr → StateM σ Expr) : Expr → StateM σ Expr
  | .call n args distinct filter window => do
    let args ← args.mapM f
    let filter ← filter.mapM f
    let window ← window.mapM (Window.eachExpr f)
    return .call n args distinct filter window
  | .binary l op r => return .binary (← f l) op (← f r)
  | .unary op e => return .unary op (← f e)
  | .isNull e negated => return .isNull (← f e) negated
  | .between e low high negated => return .between (← f e) (← f low) (← f high) negated
  | .inList e items negated => return .inList (← f e) (← items.mapM f) negated
  | .inQuery e s negated => return .inQuery (← f e) s negated
  | .case operand branches fallback => do
    let operand ← operand.mapM f
    let branches ← branches.mapM fun b => return ⟨← f b.condition, ← f b.result⟩
    let fallback ← fallback.mapM f
    return .case operand branches fallback
  | .cast e type short => return .cast (← f e) type short
  | .paren e => return .paren (← f e)
  | e => return e

/-- Visit the statement nested directly in an expression. -/
def Expr.eachStatement (f : Statement → StateM σ Statement) : Expr → StateM σ Expr
  | .inQuery e s negated => return .inQuery e (← f s) negated
  | .hasRows s => return .hasRows (← f s)
  | .subquery s => return .subquery (← f s)
  | e => return e

/-- Visit the statement of a FROM source. -/
def Source.eachStatement (f : Statement → StateM σ Statement) : Source → StateM σ Source
  | .table path name asName => return .table path name asName
  | .subquery s asName => return .subquery (← f s) asName

/-- Visit the condition of a join. -/
def JoinConstraint.eachExpr (f : Expr → StateM σ Expr) : JoinConstraint → StateM σ JoinConstraint
  | .on e => return .on (← f e)
  | c => return c

/-- Visit the expressions of a select, clause by clause. -/
def Select.eachExpr (f : Expr → StateM σ Expr) (q : Select) : StateM σ Select := do
  let items ← q.items.mapM fun i => return { i with expr := ← f i.expr }
  let joins ← q.joins.mapM fun j => return { j with constraint := ← j.constraint.eachExpr f }
  let filter ← q.filter.mapM f
  let groupBy ← q.groupBy.mapM f
  let having ← q.having.mapM f
  let orderBy ← q.orderBy.mapM fun o => return { o with expr := ← f o.expr }
  let limit ← q.limit.mapM f
  let offset ← q.offset.mapM f
  return { q with items, joins, filter, groupBy, having, orderBy, limit, offset }

/-! ## Expressions -/

/-- Put expressions in the place of the children. -/
def Expr.withChildren (e : Expr) (children : List Expr) : Expr :=
  ((e.eachChild next).run children).1

/-- Visit an expression and all expressions below it, each before the ones below it. -/
def Expr.visit (f : Expr → StateM σ Expr) (e : Expr) : StateM σ Expr := do
  let changed ← f e
  let children ← e.children.attach.mapM fun c => c.1.visit f
  return changed.withChildren children
termination_by sizeOf e
decreasing_by exact Expr.sizeOf_lt_of_mem_children c.2

theorem Expr.visit_eq (f : Expr → StateM σ Expr) (e : Expr) :
    e.visit f = do
      let changed ← f e
      let children ← e.children.mapM (Expr.visit f)
      return changed.withChildren children := by
  rw [visit, mapM_attach (Expr.visit f)]

/-- Visit the statements nested in a select: those of FROM, then those of the expressions. -/
def Select.eachStatement (f : Statement → StateM σ Statement) (q : Select) : StateM σ Select := do
  let source ← q.source.mapM (Source.eachStatement f)
  let joins ← q.joins.mapM fun j => return { j with right := ← j.right.eachStatement f }
  let q := { q with source, joins }
  q.eachExpr (Expr.visit (Expr.eachStatement f))

/-- Put statements in the place of the nested ones. -/
def Select.withSubqueries (q : Select) (statements : List Statement) : Select :=
  ((q.eachStatement next).run statements).1

/-! ## Statements -/

mutual

/-- Visit every select of a statement: those of its CTEs, then those of its body. -/
def Statement.visit (f : Select → StateM σ Select) (s : Statement) : StateM σ Statement := do
  let ctes ← s.ctes.attach.mapM fun c =>
    return ⟨c.1.name, c.1.columns, ← c.1.statement.visit f⟩
  let body ← s.body.visit f
  return ⟨s.withClause.map fun w => { w with ctes }, body⟩
termination_by sizeOf s
decreasing_by
  · exact Statement.sizeOf_lt_of_mem_ctes c.2
  · exact s.sizeOf_body_lt

/-- Visit every select of a body, each before the selects nested in it. -/
def Body.visit (f : Select → StateM σ Select) (b : Body) : StateM σ Body :=
  match b with
  | .select q => do
    let changed ← f q
    let subqueries ← q.subqueries.attach.mapM fun s => s.1.visit f
    return .select (changed.withSubqueries subqueries)
  | .setOp left op right => return .setOp (← left.visit f) op (← right.visit f)
  | .nested s => return .nested (← s.visit f)
termination_by sizeOf b
decreasing_by
  · have := Select.sizeOf_lt_of_mem_subqueries s.2
    simp +arith only [Body.select.sizeOf_spec]; omega
  all_goals simp +arith

end

theorem Statement.visit_eq (f : Select → StateM σ Select) (s : Statement) :
    s.visit f = do
      let ctes ← s.ctes.mapM fun c => return ⟨c.name, c.columns, ← c.statement.visit f⟩
      let body ← s.body.visit f
      return ⟨s.withClause.map fun w => { w with ctes }, body⟩ := by
  rw [visit, mapM_attach fun c : Cte => do
    return Cte.mk c.name c.columns (← c.statement.visit f)]

theorem Body.visit_select (f : Select → StateM σ Select) (q : Select) :
    (Body.select q).visit f = do
      let changed ← f q
      let subqueries ← q.subqueries.mapM (Statement.visit f)
      return .select (changed.withSubqueries subqueries) := by
  rw [visit, mapM_attach (Statement.visit f)]

theorem Body.visit_setOp (f : Select → StateM σ Select) (left right : Body) (op : SetOperator) :
    (Body.setOp left op right).visit f = do
      let left ← left.visit f
      let right ← right.visit f
      return .setOp left op right := by
  rw [visit]

theorem Body.visit_nested (f : Select → StateM σ Select) (s : Statement) :
    (Body.nested s).visit f = do return .nested (← s.visit f) := by
  rw [visit]

/-- Visit every expression of a statement. -/
def Statement.visitExprs (f : Expr → StateM σ Expr) (s : Statement) : StateM σ Statement :=
  s.visit fun q => q.eachExpr (Expr.visit f)

end Sql
