import Sql.Proofs.FilteredTrees

/-!
# Trees without filters

`Statement.unfiltered` takes the WHERE and HAVING clauses out of a tree, in every select of it:
those of CTEs, of operands of set operations, of FROM subqueries, and of subqueries in expressions.

* `Statement.unfiltered_filteredBy`: predicates that are added anywhere make no difference to it.
-/

namespace Sql

mutual

/-- The expression without the WHERE and HAVING clauses of its subqueries. -/
def Expr.unfiltered : Expr → Expr
  | .column c => .column c
  | .star q => .star q
  | .literal l => .literal l
  | .param p => .param p
  | .call n args d filter window =>
    .call n (unfilteredExprs args) d (unfilteredExpr? filter) (unfilteredWindow? window)
  | .binary l op r => .binary l.unfiltered op r.unfiltered
  | .unary op e => .unary op e.unfiltered
  | .isNull e n => .isNull e.unfiltered n
  | .between e l h n => .between e.unfiltered l.unfiltered h.unfiltered n
  | .inList e items n => .inList e.unfiltered (unfilteredExprs items) n
  | .inQuery e s n => .inQuery e.unfiltered s.unfiltered n
  | .hasRows s => .hasRows s.unfiltered
  | .subquery s => .subquery s.unfiltered
  | .case o bs e => .case (unfilteredExpr? o) (unfilteredBranches bs) (unfilteredExpr? e)
  | .cast e t short => .cast e.unfiltered t short
  | .paren e => .paren e.unfiltered

/-- Expressions without the WHERE and HAVING clauses of their subqueries. -/
def unfilteredExprs : List Expr → List Expr
  | [] => []
  | e :: es => e.unfiltered :: unfilteredExprs es

/-- An optional expression without the WHERE and HAVING clauses of its subqueries. -/
def unfilteredExpr? : Option Expr → Option Expr
  | some e => some e.unfiltered
  | none => none

/-- Branches of a CASE without the WHERE and HAVING clauses of their subqueries. -/
def unfilteredBranches : List Branch → List Branch
  | [] => []
  | ⟨c, r⟩ :: bs => ⟨c.unfiltered, r.unfiltered⟩ :: unfilteredBranches bs

/-- Sort keys without the WHERE and HAVING clauses of their subqueries. -/
def unfilteredOrder : List OrderItem → List OrderItem
  | [] => []
  | ⟨e, d, n⟩ :: os => ⟨e.unfiltered, d, n⟩ :: unfilteredOrder os

/-- An optional window without the WHERE and HAVING clauses of its subqueries. -/
def unfilteredWindow? : Option Window → Option Window
  | some ⟨p, o⟩ => some ⟨unfilteredExprs p, unfilteredOrder o⟩
  | none => none

/-- Select items without the WHERE and HAVING clauses of their subqueries. -/
def unfilteredItems : List SelectItem → List SelectItem
  | [] => []
  | ⟨e, a⟩ :: is => ⟨e.unfiltered, a⟩ :: unfilteredItems is

/-- A source without WHERE and HAVING clauses. -/
def Source.unfiltered : Source → Source
  | .table p n a => .table p n a
  | .subquery s a => .subquery s.unfiltered a

/-- An optional source without WHERE and HAVING clauses. -/
def unfilteredSource? : Option Source → Option Source
  | some t => some t.unfiltered
  | none => none

/-- A constraint without the WHERE and HAVING clauses of its subqueries. -/
def JoinConstraint.unfiltered : JoinConstraint → JoinConstraint
  | .on e => .on e.unfiltered
  | .shared cs => .shared cs
  | .none => .none

/-- Joins without WHERE and HAVING clauses. -/
def unfilteredJoins : List Join → List Join
  | [] => []
  | ⟨k, t, c⟩ :: js => ⟨k, t.unfiltered, c.unfiltered⟩ :: unfilteredJoins js

/-- A select without WHERE and HAVING, and whatever stands in it likewise. -/
def Select.unfiltered : Select → Select
  | ⟨d, is, s, js, _, g, _, o, l, x⟩ =>
    ⟨d, unfilteredItems is, unfilteredSource? s, unfilteredJoins js, none, unfilteredExprs g, none,
      unfilteredOrder o, unfilteredExpr? l, unfilteredExpr? x⟩

/-- Definitions without WHERE and HAVING clauses. -/
def unfilteredCtes : List Cte → List Cte
  | [] => []
  | ⟨n, cs, s⟩ :: rest => ⟨n, cs, s.unfiltered⟩ :: unfilteredCtes rest

/-- An optional WITH clause without WHERE and HAVING clauses. -/
def unfilteredWith? : Option With → Option With
  | some ⟨r, cs⟩ => some ⟨r, unfilteredCtes cs⟩
  | none => none

/-- A body without WHERE and HAVING clauses. -/
def Body.unfiltered : Body → Body
  | .select q => .select q.unfiltered
  | .setOp l op r => .setOp l.unfiltered op r.unfiltered
  | .nested s => .nested s.unfiltered

/-- A statement without WHERE and HAVING clauses. -/
def Statement.unfiltered : Statement → Statement
  | ⟨w, b⟩ => ⟨unfilteredWith? w, b.unfiltered⟩

end

/-! ## Adding predicates -/

mutual

/-- **Predicates that are added make no difference but in WHERE and HAVING clauses.** -/
theorem Statement.unfiltered_filteredBy (ps : List Placement) :
    (s : Statement) → (s.filteredBy ps).unfiltered = s.unfiltered
  | ⟨w, b⟩ => by
    rw [Statement.filteredBy, Statement.unfiltered, Statement.unfiltered,
      Body.unfiltered_filteredBy _ b]
    match w with
    | none => rw [filteredWith?]
    | some ⟨recursive, cs⟩ =>
      rw [filteredWith?, unfilteredWith?, unfilteredWith?, unfilteredCtes_filteredCtes ps 0 cs]

theorem unfilteredCtes_filteredCtes (ps : List Placement) (i : Nat) :
    (cs : List Cte) → unfilteredCtes (filteredCtes ps i cs) = unfilteredCtes cs
  | [] => rfl
  | ⟨n, columns, s⟩ :: cs => by
    rw [filteredCtes, unfilteredCtes, unfilteredCtes, Statement.unfiltered_filteredBy _ s,
      unfilteredCtes_filteredCtes ps (i + 1) cs]

theorem Body.unfiltered_filteredBy (ps : List Placement) :
    (b : Body) → (b.filteredBy ps).unfiltered = b.unfiltered
  | .select q => by
    rw [Body.filteredBy, Body.unfiltered, Body.unfiltered, Select.unfiltered_filteredBy ps q]
  | .setOp l op r => by
    rw [Body.filteredBy, Body.unfiltered, Body.unfiltered, Body.unfiltered_filteredBy _ l,
      Body.unfiltered_filteredBy _ r]
  | .nested s => by
    rw [Body.filteredBy, Body.unfiltered, Body.unfiltered, Statement.unfiltered_filteredBy _ s]

theorem Select.unfiltered_filteredBy (ps : List Placement) :
    (q : Select) → (q.filteredBy ps).unfiltered = q.unfiltered
  | ⟨distinct, items, source, joins, filter, groupBy, having, orderBy, limit, offset⟩ => by
    rw [Select.filteredBy, Select.unfiltered, Select.unfiltered,
      unfilteredJoins_filteredJoins ps _ joins]
    match source with
    | none => rw [filteredSource?]
    | some t =>
      rw [filteredSource?, unfilteredSource?, unfilteredSource?, Source.unfiltered_filteredBy _ t]

theorem unfilteredJoins_filteredJoins (ps : List Placement) (i : Nat) :
    (js : List Join) → unfilteredJoins (filteredJoins ps i js) = unfilteredJoins js
  | [] => rfl
  | ⟨kind, t, c⟩ :: js => by
    rw [filteredJoins, unfilteredJoins, unfilteredJoins, Source.unfiltered_filteredBy _ t,
      unfilteredJoins_filteredJoins ps (i + 1) js]

theorem Source.unfiltered_filteredBy (ps : List Placement) :
    (t : Source) → (t.filteredBy ps).unfiltered = t.unfiltered
  | .table path name asName => by rw [Source.filteredBy]
  | .subquery s asName => by
    rw [Source.filteredBy, Source.unfiltered, Source.unfiltered, Statement.unfiltered_filteredBy ps s]

end

end Sql
