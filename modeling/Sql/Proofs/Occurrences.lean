import Sql.Statement.Walk

/-!
# Where things stand in a select

The positions in which an expression, a source or a nested statement can stand, one rule for each.
The walks over a tree reach all of them and nothing else.

* `Expr.HasPart` and `Expr.mem_children_iff`: expressions directly below an expression.
* `Expr.Encloses` and `Expr.mem_filterMap_nodes_iff`: statements nested in an expression.
* `Select.HasExpr`, `Select.HasSource` and `Select.mem_subqueries_iff`: what stands in the clauses.
-/

namespace Sql

/-! ## Parts of an expression -/

/-- The second expression stands directly in the first one. -/
inductive Expr.HasPart : Expr → Expr → Prop
  | argument {f : String} {args : List Expr} {distinct : Bool} {filter : Option Expr}
      {window : Option Window} {a : Expr} : a ∈ args →
      HasPart (.call f args distinct filter window) a
  | callFilter {f : String} {args : List Expr} {distinct : Bool} {window : Option Window}
      {a : Expr} : HasPart (.call f args distinct (some a) window) a
  | partitionBy {f : String} {args : List Expr} {distinct : Bool} {filter : Option Expr}
      {w : Window} {a : Expr} : a ∈ w.partitionBy →
      HasPart (.call f args distinct filter (some w)) a
  | windowOrder {f : String} {args : List Expr} {distinct : Bool} {filter : Option Expr}
      {w : Window} {i : OrderItem} : i ∈ w.orderBy →
      HasPart (.call f args distinct filter (some w)) i.expr
  | left {l r : Expr} {op : BinaryOp} : HasPart (.binary l op r) l
  | right {l r : Expr} {op : BinaryOp} : HasPart (.binary l op r) r
  | unary {op : UnaryOp} {e : Expr} : HasPart (.unary op e) e
  | isNull {e : Expr} {negated : Bool} : HasPart (.isNull e negated) e
  | between {e low high : Expr} {negated : Bool} : HasPart (.between e low high negated) e
  | low {e low high : Expr} {negated : Bool} : HasPart (.between e low high negated) low
  | high {e low high : Expr} {negated : Bool} : HasPart (.between e low high negated) high
  | inList {e : Expr} {items : List Expr} {negated : Bool} : HasPart (.inList e items negated) e
  | listItem {e : Expr} {items : List Expr} {negated : Bool} {i : Expr} : i ∈ items →
      HasPart (.inList e items negated) i
  | inQuery {e : Expr} {s : Statement} {negated : Bool} : HasPart (.inQuery e s negated) e
  | caseOperand {e : Expr} {branches : List Branch} {fallback : Option Expr} :
      HasPart (.case (some e) branches fallback) e
  | condition {operand : Option Expr} {branches : List Branch} {fallback : Option Expr}
      {b : Branch} : b ∈ branches → HasPart (.case operand branches fallback) b.condition
  | result {operand : Option Expr} {branches : List Branch} {fallback : Option Expr}
      {b : Branch} : b ∈ branches → HasPart (.case operand branches fallback) b.result
  | fallback {operand : Option Expr} {branches : List Branch} {e : Expr} :
      HasPart (.case operand branches (some e)) e
  | cast {e : Expr} {type : String} {short : Bool} : HasPart (.cast e type short) e
  | paren {e : Expr} : HasPart (.paren e) e

theorem Expr.mem_children_iff {e c : Expr} : c ∈ e.children ↔ e.HasPart c := by
  constructor
  · intro h
    cases e with
    | call f args distinct filter window =>
      simp only [children, Window.exprs, List.mem_append, Option.mem_toList, List.mem_flatMap,
        List.mem_map] at h
      rcases h with (h | rfl) | ⟨w, rfl, h | ⟨i, hi, rfl⟩⟩
      · exact .argument h
      · exact .callFilter
      · exact .partitionBy h
      · exact .windowOrder hi
    | case operand branches fallback =>
      simp only [children, List.mem_append, Option.mem_toList, List.mem_flatMap, List.mem_cons,
        List.not_mem_nil, or_false] at h
      rcases h with (rfl | ⟨b, hb, rfl | rfl⟩) | rfl
      · exact .caseOperand
      · exact .condition hb
      · exact .result hb
      · exact .fallback
    | binary l op r =>
      simp only [children, List.mem_cons, List.not_mem_nil, or_false] at h
      rcases h with rfl | rfl
      · exact .left
      · exact .right
    | between e low high negated =>
      simp only [children, List.mem_cons, List.not_mem_nil, or_false] at h
      rcases h with rfl | rfl | rfl
      · exact .between
      · exact .low
      · exact .high
    | inList e items negated =>
      rcases List.mem_cons.mp h with rfl | h
      · exact .inList
      · exact .listItem h
    | unary op e => exact List.mem_singleton.mp h ▸ .unary
    | isNull e negated => exact List.mem_singleton.mp h ▸ .isNull
    | inQuery e s negated => exact List.mem_singleton.mp h ▸ .inQuery
    | cast e type short => exact List.mem_singleton.mp h ▸ .cast
    | paren e => exact List.mem_singleton.mp h ▸ .paren
    | _ => simp [children] at h
  · intro h
    cases h with
    | condition hb | result hb =>
      refine List.mem_append_left _ (List.mem_append_right _ (List.mem_flatMap.mpr ⟨_, hb, ?_⟩))
      simp
    | windowOrder hi =>
      refine List.mem_append_right _ (List.mem_flatMap.mpr ⟨_, List.mem_singleton_self _, ?_⟩)
      exact List.mem_append_right _ (List.mem_map_of_mem hi)
    | _ => simp_all [children, Window.exprs]

/-! ## Statements in an expression -/

/-- The statement is nested in the expression, at any depth, but in no other statement there. -/
inductive Expr.Encloses : Expr → Statement → Prop
  | hasRows {s : Statement} : Encloses (.hasRows s) s
  | subquery {s : Statement} : Encloses (.subquery s) s
  | inQuery {e : Expr} {s : Statement} {negated : Bool} : Encloses (.inQuery e s negated) s
  | part {e c : Expr} {s : Statement} : e.HasPart c → Encloses c s → Encloses e s

theorem Expr.encloses_of_statement? {e : Expr} {s : Statement} (h : e.statement? = some s) :
    e.Encloses s := by
  cases e <;> simp only [statement?, Option.some.injEq, reduceCtorEq] at h <;> subst h
  · exact .inQuery
  · exact .hasRows
  · exact .subquery

theorem Expr.encloses_of_mem_nodes (e : Expr) {x : Expr} (hx : x ∈ e.nodes) {s : Statement}
    (h : x.statement? = some s) : e.Encloses s := by
  rw [nodes_eq, List.mem_cons, List.mem_flatMap] at hx
  rcases hx with rfl | ⟨c, hc, hx⟩
  · exact encloses_of_statement? h
  · exact .part (mem_children_iff.mp hc) (c.encloses_of_mem_nodes hx h)
termination_by sizeOf e
decreasing_by exact sizeOf_lt_of_mem_children hc

/-- The walk over an expression reaches the statements that it encloses. -/
theorem Expr.mem_filterMap_nodes_iff {e : Expr} {s : Statement} :
    s ∈ e.nodes.filterMap statement? ↔ e.Encloses s := by
  constructor
  · intro h
    obtain ⟨x, hx, hs⟩ := List.mem_filterMap.mp h
    exact e.encloses_of_mem_nodes hx hs
  · intro h
    induction h with
    | hasRows | subquery | inQuery =>
      rw [nodes_eq]
      exact List.mem_filterMap.mpr ⟨_, List.mem_cons_self, rfl⟩
    | part hpart _ ih =>
      obtain ⟨x, hx, hs⟩ := List.mem_filterMap.mp ih
      rw [nodes_eq]
      refine List.mem_filterMap.mpr ⟨x, List.mem_cons_of_mem _ ?_, hs⟩
      exact List.mem_flatMap.mpr ⟨_, mem_children_iff.mpr hpart, hx⟩

/-! ## The clauses of a select -/

/-- The expression stands in a clause of the select. -/
inductive Select.HasExpr (q : Select) : Expr → Prop
  | item {i : SelectItem} : i ∈ q.items → HasExpr q i.expr
  | joinedOn {j : Join} {e : Expr} : j ∈ q.joins → j.constraint = .on e → HasExpr q e
  | filter {e : Expr} : q.filter = some e → HasExpr q e
  | groupBy {e : Expr} : e ∈ q.groupBy → HasExpr q e
  | having {e : Expr} : q.having = some e → HasExpr q e
  | orderBy {i : OrderItem} : i ∈ q.orderBy → HasExpr q i.expr
  | limit {e : Expr} : q.limit = some e → HasExpr q e
  | offset {e : Expr} : q.offset = some e → HasExpr q e

theorem JoinConstraint.condition?_eq_some {c : JoinConstraint} {e : Expr} :
    c.condition? = some e ↔ c = .on e := by
  cases c <;> simp [condition?]

theorem Select.mem_exprs_iff {q : Select} {e : Expr} : e ∈ q.exprs ↔ q.HasExpr e := by
  simp only [exprs, List.mem_append, List.mem_map, List.mem_filterMap, Option.mem_toList,
    JoinConstraint.condition?_eq_some]
  constructor
  · rintro (((((((⟨i, hi, rfl⟩ | ⟨j, hj, h⟩) | h) | h) | h) | ⟨i, hi, rfl⟩) | h) | h)
    · exact .item hi
    · exact .joinedOn hj h
    · exact .filter h
    · exact .groupBy h
    · exact .having h
    · exact .orderBy hi
    · exact .limit h
    · exact .offset h
  · intro h
    cases h with
    | item hi => exact .inl (.inl (.inl (.inl (.inl (.inl (.inl ⟨_, hi, rfl⟩))))))
    | joinedOn hj h => exact .inl (.inl (.inl (.inl (.inl (.inl (.inr ⟨_, hj, h⟩))))))
    | filter h => exact .inl (.inl (.inl (.inl (.inl (.inr h)))))
    | groupBy h => exact .inl (.inl (.inl (.inl (.inr h))))
    | having h => exact .inl (.inl (.inl (.inr h)))
    | orderBy hi => exact .inl (.inl (.inr ⟨_, hi, rfl⟩))
    | limit h => exact .inl (.inr h)
    | offset h => exact .inr h

/-- The source stands in FROM, first or in a join. -/
inductive Select.HasSource (q : Select) : Source → Prop
  | first {t : Source} : q.source = some t → HasSource q t
  | joined {j : Join} : j ∈ q.joins → HasSource q j.right

theorem Select.mem_sources_iff {q : Select} {t : Source} : t ∈ q.sources ↔ q.HasSource t := by
  rw [sources, List.mem_append, Option.mem_toList, List.mem_map]
  constructor
  · rintro (h | ⟨j, hj, rfl⟩)
    · exact .first h
    · exact .joined hj
  · rintro (h | hj)
    · exact .inl h
    · exact .inr ⟨_, hj, rfl⟩

/-- The walk over the expressions of a select reaches the statements that they enclose. -/
theorem Select.mem_statements_iff {q : Select} {s : Statement} :
    s ∈ (q.exprs.flatMap Expr.nodes).filterMap Expr.statement?
      ↔ ∃ e, q.HasExpr e ∧ e.Encloses s := by
  rw [List.filterMap_flatMap, List.mem_flatMap]
  simp only [mem_exprs_iff, Expr.mem_filterMap_nodes_iff]

/-- The statements nested in a select stand in FROM or in an expression of a clause. -/
theorem Select.mem_subqueries_iff {q : Select} {s : Statement} :
    s ∈ q.subqueries
      ↔ (∃ a, q.HasSource (.subquery s a)) ∨ ∃ e, q.HasExpr e ∧ e.Encloses s := by
  have hsource : ∀ t : Source, t.statement? = some s ↔ ∃ a, t = .subquery s a := by
    intro t
    cases t <;> simp [Source.statement?, eq_comm]
  rw [subqueries, List.mem_append, List.mem_filterMap, mem_statements_iff]
  simp only [hsource, mem_sources_iff]
  refine or_congr_left ⟨?_, ?_⟩
  · rintro ⟨_, h, a, rfl⟩
    exact ⟨a, h⟩
  · rintro ⟨a, h⟩
    exact ⟨_, h, a, rfl⟩

end Sql
