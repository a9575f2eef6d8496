import Sql.Statement

/-!
# Walking a tree

* `Expr.children`, `Expr.statement?`, `Select.exprs` and `Select.subqueries` name the parts next to
  a node; every part is smaller than its node.
* `Expr.nodes` lists an expression and everything below it, without entering nested statements.
* `Statement.selects` lists every select of a tree, each before the selects inside it.
* `Statement.nodes` lists every expression of a tree, select by select; `Statement.nodesInOrder`
  lists them in the order in which they are printed.
-/

namespace Sql

/-! ## The parts next to a node -/

/-- The expressions of a window. -/
def Window.exprs (w : Window) : List Expr := w.partitionBy ++ w.orderBy.map OrderItem.expr

/-- The expressions directly below an expression, in the order in which they are printed. -/
def Expr.children : Expr → List Expr
  | .column _ | .star _ | .literal _ | .param _ | .hasRows _ | .subquery _ => []
  | .call _ args _ filter window => args ++ filter.toList ++ window.toList.flatMap Window.exprs
  | .binary left _ right => [left, right]
  | .unary _ e | .isNull e _ | .inQuery e _ _ | .cast e _ _ | .paren e => [e]
  | .between e low high _ => [e, low, high]
  | .inList e items _ => e :: items
  | .case operand branches fallback =>
    operand.toList ++ (branches.flatMap fun b => [b.condition, b.result]) ++ fallback.toList

/-- The statement nested directly in an expression. -/
def Expr.statement? : Expr → Option Statement
  | .hasRows s | .subquery s | .inQuery _ s _ => some s
  | _ => none

/-- The expressions of a select, clause by clause; conditions of joins follow the select list. -/
def Select.exprs (q : Select) : List Expr :=
  q.items.map SelectItem.expr ++ q.joins.filterMap (fun j => j.constraint.condition?)
    ++ q.filter.toList ++ q.groupBy ++ q.having.toList ++ q.orderBy.map OrderItem.expr
    ++ q.limit.toList ++ q.offset.toList

theorem Select.conditions_eq (js : List Join) :
    js.filterMap (fun j => j.constraint.condition?)
      = js.flatMap fun j => j.constraint.condition?.toList := by
  induction js with
  | nil => rfl
  | cons j js ih =>
    rw [List.filterMap_cons, List.flatMap_cons, ← ih]
    cases j.constraint.condition? <;> rfl

/-! ## Parts are smaller -/

theorem Window.sizeOf_lt_of_mem_exprs {e : Expr} {w : Window} (h : e ∈ w.exprs) :
    sizeOf e < sizeOf w := by
  obtain ⟨p, o⟩ := w
  simp only [exprs, List.mem_append, List.mem_map] at h
  rcases h with h | ⟨i, hi, rfl⟩
  · have := List.sizeOf_lt_of_mem h
    simp only [mk.sizeOf_spec]; omega
  · have := List.sizeOf_lt_of_mem hi
    obtain ⟨e, d, n⟩ := i
    simp only [mk.sizeOf_spec, OrderItem.mk.sizeOf_spec] at *; omega

theorem Expr.sizeOf_lt_of_mem_children {c e : Expr} (h : c ∈ e.children) :
    sizeOf c < sizeOf e := by
  cases e with
  | call name args distinct filter window =>
    simp only [children, List.mem_append, Option.mem_toList, List.mem_flatMap] at h
    rcases h with (h | rfl) | ⟨w, rfl, h⟩
    · have := List.sizeOf_lt_of_mem h
      simp only [call.sizeOf_spec]; omega
    · simp only [call.sizeOf_spec, Option.some.sizeOf_spec]; omega
    · have := Window.sizeOf_lt_of_mem_exprs h
      simp only [call.sizeOf_spec, Option.some.sizeOf_spec]; omega
  | case operand branches fallback =>
    simp only [children, List.mem_append, Option.mem_toList, List.mem_flatMap] at h
    rcases h with (rfl | ⟨⟨condition, result⟩, hb, h⟩) | rfl
    · simp only [case.sizeOf_spec, Option.some.sizeOf_spec]; omega
    · have := List.sizeOf_lt_of_mem hb
      simp only [Branch.mk.sizeOf_spec] at this
      simp only [List.mem_cons, List.not_mem_nil, or_false] at h
      rcases h with rfl | rfl <;> simp only [case.sizeOf_spec] <;> omega
    · simp only [case.sizeOf_spec, Option.some.sizeOf_spec]; omega
  | inList e items negated =>
    simp only [children, List.mem_cons] at h
    rcases h with rfl | h
    · simp only [inList.sizeOf_spec]; omega
    · have := List.sizeOf_lt_of_mem h
      simp only [inList.sizeOf_spec]; omega
  | binary left op right =>
    simp only [children, List.mem_cons, List.not_mem_nil, or_false] at h
    rcases h with rfl | rfl <;> simp only [binary.sizeOf_spec] <;> omega
  | between e low high negated =>
    simp only [children, List.mem_cons, List.not_mem_nil, or_false] at h
    rcases h with rfl | rfl | rfl <;> simp only [between.sizeOf_spec] <;> omega
  | unary op e => simp only [children, List.mem_singleton] at h; subst h; simp +arith
  | isNull e n => simp only [children, List.mem_singleton] at h; subst h; simp +arith
  | inQuery e s n => simp only [children, List.mem_singleton] at h; subst h; simp +arith
  | cast e t s => simp only [children, List.mem_singleton] at h; subst h; simp +arith
  | paren e => simp only [children, List.mem_singleton] at h; subst h; simp +arith
  | _ => simp [children] at h

theorem Expr.sizeOf_lt_of_statement? {s : Statement} {e : Expr} (h : e.statement? = some s) :
    sizeOf s < sizeOf e := by
  cases e <;> simp only [statement?, Option.some.injEq, reduceCtorEq] at h <;> subst h <;>
    simp +arith

theorem Select.sizeOf_lt_of_mem_exprs {e : Expr} {q : Select} (h : e ∈ q.exprs) :
    sizeOf e < sizeOf q := by
  obtain ⟨distinct, items, source, joins, filter, groupBy, having, orderBy, limit, offset⟩ := q
  simp only [exprs, List.mem_append, List.mem_map, List.mem_filterMap, Option.mem_toList] at h
  simp only [mk.sizeOf_spec]
  rcases h with (((((((⟨i, hi, rfl⟩ | ⟨j, hj, h⟩) | rfl) | h) | rfl) | ⟨i, hi, rfl⟩) | rfl) | rfl)
  · have := List.sizeOf_lt_of_mem hi
    obtain ⟨e, a⟩ := i
    simp only [SelectItem.mk.sizeOf_spec] at *; omega
  · have := List.sizeOf_lt_of_mem hj
    obtain ⟨kind, right, constraint⟩ := j
    cases constraint <;> simp only [JoinConstraint.condition?, Option.some.injEq, reduceCtorEq] at h
    subst h
    simp only [Join.mk.sizeOf_spec, JoinConstraint.on.sizeOf_spec] at this; omega
  · simp only [Option.some.sizeOf_spec]; omega
  · have := List.sizeOf_lt_of_mem h; omega
  · simp only [Option.some.sizeOf_spec]; omega
  · have := List.sizeOf_lt_of_mem hi
    obtain ⟨e, d, n⟩ := i
    simp only [OrderItem.mk.sizeOf_spec] at *; omega
  · simp only [Option.some.sizeOf_spec]; omega
  · simp only [Option.some.sizeOf_spec]; omega

theorem Select.sizeOf_lt_of_mem_sources {s : Source} {q : Select} (h : s ∈ q.sources) :
    sizeOf s < sizeOf q := by
  obtain ⟨distinct, items, source, joins, filter, groupBy, having, orderBy, limit, offset⟩ := q
  simp only [sources, List.mem_append, Option.mem_toList, List.mem_map] at h
  simp only [mk.sizeOf_spec]
  rcases h with rfl | ⟨j, hj, rfl⟩
  · simp only [Option.some.sizeOf_spec]; omega
  · have := List.sizeOf_lt_of_mem hj
    obtain ⟨kind, right, constraint⟩ := j
    simp only [Join.mk.sizeOf_spec] at *; omega

theorem Source.sizeOf_lt_of_statement? {s : Statement} {t : Source} (h : t.statement? = some s) :
    sizeOf s < sizeOf t := by
  cases t <;> simp only [statement?, Option.some.injEq, reduceCtorEq] at h
  subst h
  simp +arith

theorem Statement.sizeOf_lt_of_mem_ctes {c : Cte} {s : Statement} (h : c ∈ s.ctes) :
    sizeOf c.statement < sizeOf s := by
  obtain ⟨w, b⟩ := s
  cases w with
  | none => simp [ctes] at h
  | some w =>
    have := List.sizeOf_lt_of_mem (show c ∈ w.ctes from h)
    obtain ⟨r, cs⟩ := w
    obtain ⟨n, cols, s⟩ := c
    simp only [mk.sizeOf_spec, Option.some.sizeOf_spec, With.mk.sizeOf_spec,
      Cte.mk.sizeOf_spec] at *
    omega

theorem Statement.sizeOf_body_lt (s : Statement) : sizeOf s.body < sizeOf s := by
  obtain ⟨w, b⟩ := s
  simp +arith

/-! ## Nodes of one expression -/

namespace Expr

/-- An expression and all expressions below it, each before the ones below it. Nested statements
are not entered. -/
def nodes (e : Expr) : List Expr := e :: e.children.attach.flatMap fun c => c.1.nodes
termination_by sizeOf e
decreasing_by exact sizeOf_lt_of_mem_children c.2

theorem nodes_eq (e : Expr) : e.nodes = e :: e.children.flatMap nodes := by
  rw [nodes, List.flatMap_subtype (g := nodes) (fun _ _ => rfl), List.unattach_attach]

/-- An aggregate function is called outside every window. -/
def containsAggregate (e : Expr) : Bool :=
  e.nodes.any fun
    | call name _ _ _ Option.none => isAggregateFunction name
    | _ => false

/-- A window function is called. -/
def containsWindow (e : Expr) : Bool :=
  e.nodes.any fun
    | call _ _ _ _ (some _) => true
    | _ => false

theorem sizeOf_le_of_mem_nodes (e : Expr) : ∀ c ∈ e.nodes, sizeOf c ≤ sizeOf e := by
  induction h : sizeOf e using Nat.strongRecOn generalizing e with
  | ind n ih =>
    subst h
    intro c hc
    rw [nodes_eq, List.mem_cons, List.mem_flatMap] at hc
    rcases hc with rfl | ⟨d, hd, hc⟩
    · exact Nat.le_refl _
    · have hlt := sizeOf_lt_of_mem_children hd
      have := ih _ hlt d rfl c hc
      omega

end Expr

/-! ## Statements nested in a select -/

/-- The statements nested anywhere in a select: FROM subqueries first, then the subqueries of its
expressions. The CTEs of the statement around it do not count. -/
def Select.subqueries (q : Select) : List Statement :=
  q.sources.filterMap Source.statement? ++ (q.exprs.flatMap Expr.nodes).filterMap Expr.statement?

theorem Select.sizeOf_lt_of_mem_subqueries {s : Statement} {q : Select} (h : s ∈ q.subqueries) :
    sizeOf s < sizeOf q := by
  simp only [subqueries, List.mem_append, List.mem_filterMap, List.mem_flatMap] at h
  rcases h with ⟨t, ht, hs⟩ | ⟨c, ⟨e, he, hc⟩, hs⟩
  · exact Nat.lt_trans (Source.sizeOf_lt_of_statement? hs) (sizeOf_lt_of_mem_sources ht)
  · have h₁ := Expr.sizeOf_lt_of_statement? hs
    have h₂ := Expr.sizeOf_le_of_mem_nodes e c hc
    have h₃ := sizeOf_lt_of_mem_exprs he
    omega

/-- What the statements in an expression hold is what its own statement holds, and then what the
statements in its children hold. -/
theorem Expr.flatMap_statements {γ : Type} (f : Statement → List γ) (e : Expr) :
    (e.nodes.filterMap Expr.statement?).flatMap f = e.statement?.toList.flatMap f
      ++ e.children.flatMap fun c => (c.nodes.filterMap Expr.statement?).flatMap f := by
  rw [Expr.nodes_eq, List.filterMap_cons, List.filterMap_flatMap]
  cases e.statement? <;> simp [List.flatMap_assoc]

/-- What the subqueries of a select hold is what its sources hold, and then what the statements in
its expressions hold. -/
theorem Select.flatMap_subqueries {γ : Type} (f : Statement → List γ) (q : Select) :
    q.subqueries.flatMap f = q.sources.flatMap (fun t => t.statement?.toList.flatMap f)
      ++ q.exprs.flatMap fun e => (e.nodes.filterMap Expr.statement?).flatMap f := by
  have hsource : ∀ ts : List Source, (ts.filterMap Source.statement?).flatMap f
      = ts.flatMap fun t => t.statement?.toList.flatMap f := by
    intro ts
    induction ts with
    | nil => rfl
    | cons t ts ih =>
      rw [List.filterMap_cons, List.flatMap_cons, ← ih]
      cases t.statement? <;> simp
  rw [Select.subqueries, List.flatMap_append, hsource, List.filterMap_flatMap, List.flatMap_assoc]

/-! ## Selects of a tree -/

mutual

/-- Every select of a statement: those of its CTEs, then those of its body. -/
def Statement.selects (s : Statement) : List Select :=
  s.ctes.attach.flatMap (fun c => c.1.statement.selects) ++ s.body.selects
termination_by sizeOf s
decreasing_by
  · exact Statement.sizeOf_lt_of_mem_ctes c.2
  · exact s.sizeOf_body_lt

/-- Every select of a body, each before the selects nested in it. -/
def Body.selects (b : Body) : List Select :=
  match b with
  | .select q => q :: q.subqueries.attach.flatMap fun s => s.1.selects
  | .setOp left _ right => left.selects ++ right.selects
  | .nested s => s.selects
termination_by sizeOf b
decreasing_by
  · have := Select.sizeOf_lt_of_mem_subqueries s.2
    simp +arith only [Body.select.sizeOf_spec]; omega
  all_goals simp +arith

end

theorem Statement.selects_eq (s : Statement) :
    s.selects = s.ctes.flatMap (fun c => c.statement.selects) ++ s.body.selects := by
  rw [selects, List.flatMap_subtype (g := fun c => c.statement.selects) (fun _ _ => rfl),
    List.unattach_attach]

theorem Body.selects_select (q : Select) :
    (Body.select q).selects = q :: q.subqueries.flatMap Statement.selects := by
  rw [selects, List.flatMap_subtype (g := Statement.selects) (fun _ _ => rfl),
    List.unattach_attach]

theorem Body.selects_setOp (left right : Body) (op : SetOperator) :
    (Body.setOp left op right).selects = left.selects ++ right.selects := by
  rw [selects]

theorem Body.selects_nested (s : Statement) : (Body.nested s).selects = s.selects := by
  rw [selects]

/-- Every expression of a tree, select by select. -/
def Statement.nodes (s : Statement) : List Expr :=
  s.selects.flatMap fun q => q.exprs.flatMap Expr.nodes

/-! ## Expressions in printed order -/

/-- The expressions of a select that are printed after its FROM clause. -/
def Select.tailExprs (q : Select) : List Expr :=
  q.filter.toList ++ q.groupBy ++ q.having.toList ++ q.orderBy.map OrderItem.expr
    ++ q.limit.toList ++ q.offset.toList

theorem Select.exprs_eq (q : Select) :
    q.exprs = q.items.map SelectItem.expr ++ q.joins.filterMap (fun j => j.constraint.condition?)
      ++ q.tailExprs := by
  simp [exprs, tailExprs]

/-- The parts of a select in printed order: expressions, and the sources among them. -/
def Select.parts (q : Select) : List (Expr ⊕ Source) :=
  q.items.map (fun i => .inl i.expr)
    ++ q.source.toList.map .inr
    ++ q.joins.flatMap (fun j => .inr j.right :: j.constraint.condition?.toList.map .inl)
    ++ q.tailExprs.map .inl

theorem Select.mem_exprs_of_mem_parts {e : Expr} {q : Select} (h : .inl e ∈ q.parts) :
    e ∈ q.exprs := by
  simp only [parts, List.mem_append, List.mem_map, List.mem_flatMap, List.mem_cons,
    Option.mem_toList, reduceCtorEq, Sum.inl.injEq, false_or, and_false, exists_false,
    or_false, exists_eq_right] at h
  simp only [exprs_eq, List.mem_append, List.mem_map, List.mem_filterMap]
  rcases h with (⟨i, hi, rfl⟩ | ⟨j, hj, h⟩) | h
  · exact .inl (.inl ⟨i, hi, rfl⟩)
  · exact .inl (.inr ⟨j, hj, h⟩)
  · exact .inr h

theorem Select.mem_sources_of_mem_parts {t : Source} {q : Select} (h : .inr t ∈ q.parts) :
    t ∈ q.sources := by
  simp only [parts, List.mem_append, List.mem_map, List.mem_flatMap, List.mem_cons,
    Option.mem_toList, reduceCtorEq, Sum.inr.injEq, and_false, exists_false,
    or_false, false_or, exists_eq_right] at h
  simp only [sources, List.mem_append, Option.mem_toList, List.mem_map]
  rcases h with h | ⟨j, hj, rfl⟩
  · exact .inl h
  · exact .inr ⟨j, hj, rfl⟩

mutual

/-- Every expression of a statement in printed order, nested statements at their place. -/
def Statement.nodesInOrder (s : Statement) : List Expr :=
  s.ctes.attach.flatMap (fun c => c.1.statement.nodesInOrder) ++ s.body.nodesInOrder
termination_by sizeOf s
decreasing_by
  · exact Statement.sizeOf_lt_of_mem_ctes c.2
  · exact s.sizeOf_body_lt

/-- Every expression of a body in printed order. -/
def Body.nodesInOrder (b : Body) : List Expr :=
  match b with
  | .select q => q.parts.attach.flatMap fun
    | ⟨.inl e, _⟩ => e.nodesInOrder
    | ⟨.inr t, _⟩ =>
      match _h : t.statement? with
      | some s => s.nodesInOrder
      | none => []
  | .setOp left _ right => left.nodesInOrder ++ right.nodesInOrder
  | .nested s => s.nodesInOrder
termination_by sizeOf b
decreasing_by
  · have := Select.sizeOf_lt_of_mem_exprs (Select.mem_exprs_of_mem_parts (by assumption))
    simp +arith only [Body.select.sizeOf_spec]; omega
  · have := Source.sizeOf_lt_of_statement? _h
    have := Select.sizeOf_lt_of_mem_sources (Select.mem_sources_of_mem_parts (by assumption))
    simp +arith only [Body.select.sizeOf_spec]; omega
  all_goals simp +arith

/-- An expression, the ones below it, and last the statement nested in it. -/
def Expr.nodesInOrder (e : Expr) : List Expr :=
  e :: (e.children.attach.flatMap (fun c => c.1.nodesInOrder) ++
    match _h : e.statement? with
    | some s => s.nodesInOrder
    | none => [])
termination_by sizeOf e
decreasing_by
  · exact Expr.sizeOf_lt_of_mem_children c.2
  · exact Expr.sizeOf_lt_of_statement? _h

end

/-- The expressions of a FROM source in printed order. -/
def Source.nodesInOrder (t : Source) : List Expr :=
  match t.statement? with
  | some s => s.nodesInOrder
  | none => []

theorem Statement.nodesInOrder_eq (s : Statement) :
    s.nodesInOrder = s.ctes.flatMap (fun c => c.statement.nodesInOrder) ++ s.body.nodesInOrder := by
  rw [nodesInOrder, List.flatMap_subtype (g := fun c => c.statement.nodesInOrder)
    (fun _ _ => rfl), List.unattach_attach]

theorem Body.nodesInOrder_select (q : Select) :
    (Body.select q).nodesInOrder =
      q.parts.flatMap fun p => p.elim Expr.nodesInOrder Source.nodesInOrder := by
  rw [nodesInOrder, List.flatMap_subtype
    (g := fun p => p.elim Expr.nodesInOrder Source.nodesInOrder), List.unattach_attach]
  rintro (e | t) _
  · rfl
  · simp only [Sum.elim_inr, Source.nodesInOrder]
    split <;> simp_all

theorem Body.nodesInOrder_setOp (left right : Body) (op : SetOperator) :
    (Body.setOp left op right).nodesInOrder = left.nodesInOrder ++ right.nodesInOrder := by
  rw [nodesInOrder]

theorem Body.nodesInOrder_nested (s : Statement) :
    (Body.nested s).nodesInOrder = s.nodesInOrder := by
  rw [nodesInOrder]

theorem Expr.nodesInOrder_eq (e : Expr) :
    e.nodesInOrder = e :: (e.children.flatMap nodesInOrder
      ++ e.statement?.toList.flatMap Statement.nodesInOrder) := by
  rw [nodesInOrder, List.flatMap_subtype (g := nodesInOrder) (fun _ _ => rfl),
    List.unattach_attach]
  split <;> simp_all

/-! ## CTE definitions -/

mutual

/-- Every CTE definition of a statement, each before the definitions inside it. -/
def Statement.allCtes (s : Statement) : List Cte :=
  s.ctes.attach.flatMap (fun c => c.1 :: c.1.statement.allCtes) ++ s.body.allCtes
termination_by sizeOf s
decreasing_by
  · exact Statement.sizeOf_lt_of_mem_ctes c.2
  · exact s.sizeOf_body_lt

/-- Every CTE definition of a body. Within a select, FROM subqueries come before the subqueries
of expressions. -/
def Body.allCtes (b : Body) : List Cte :=
  match b with
  | .select q => q.subqueries.attach.flatMap fun s => s.1.allCtes
  | .setOp left _ right => left.allCtes ++ right.allCtes
  | .nested s => s.allCtes
termination_by sizeOf b
decreasing_by
  · have := Select.sizeOf_lt_of_mem_subqueries s.2
    simp +arith only [Body.select.sizeOf_spec]; omega
  all_goals simp +arith

end

theorem Statement.allCtes_eq (s : Statement) :
    s.allCtes = s.ctes.flatMap (fun c => c :: c.statement.allCtes) ++ s.body.allCtes := by
  rw [allCtes, List.flatMap_subtype (g := fun c => c :: c.statement.allCtes)
    (fun _ _ => rfl), List.unattach_attach]

theorem Body.allCtes_select (q : Select) :
    (Body.select q).allCtes = q.subqueries.flatMap Statement.allCtes := by
  rw [allCtes, List.flatMap_subtype (g := Statement.allCtes) (fun _ _ => rfl),
    List.unattach_attach]

theorem Body.allCtes_setOp (left right : Body) (op : SetOperator) :
    (Body.setOp left op right).allCtes = left.allCtes ++ right.allCtes := by
  rw [allCtes]

theorem Body.allCtes_nested (s : Statement) : (Body.nested s).allCtes = s.allCtes := by
  rw [allCtes]

end Sql
