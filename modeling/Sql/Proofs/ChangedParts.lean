import Sql.Proofs.MappedParams

/-!
# Changing the parts next to a node

One level of a tree is changed at a time: the children of an expression, its nested statement, the
expressions of a select and the statements of its sources. Different parts are changed
independently, and the parameters of a tree change part by part (`Expr.mapParams_eq`,
`Select.mapParams_eq`, `Statement.mapParams_eq`).
-/

namespace Sql

/-! ## Parts -/

/-- Change the expressions of a window. -/
def Window.mapExprs (g : Expr → Expr) (w : Window) : Window :=
  ⟨w.partitionBy.map g, w.orderBy.map fun o => { o with expr := g o.expr }⟩

/-- Change the expressions directly below an expression. -/
def Expr.mapChildren (g : Expr → Expr) : Expr → Expr
  | .call n args distinct filter window =>
    .call n (args.map g) distinct (filter.map g) (window.map (Window.mapExprs g))
  | .binary l op r => .binary (g l) op (g r)
  | .unary op e => .unary op (g e)
  | .isNull e negated => .isNull (g e) negated
  | .between e low high negated => .between (g e) (g low) (g high) negated
  | .inList e items negated => .inList (g e) (items.map g) negated
  | .inQuery e s negated => .inQuery (g e) s negated
  | .case operand branches fallback =>
    .case (operand.map g) (branches.map fun b => ⟨g b.condition, g b.result⟩) (fallback.map g)
  | .cast e type short => .cast (g e) type short
  | .paren e => .paren (g e)
  | e => e

/-- Change the statement nested directly in an expression. -/
def Expr.mapStatement (g : Statement → Statement) : Expr → Expr
  | .inQuery e s negated => .inQuery e (g s) negated
  | .hasRows s => .hasRows (g s)
  | .subquery s => .subquery (g s)
  | e => e

/-- Change the statement of a FROM source. -/
def Source.mapStatement (g : Statement → Statement) : Source → Source
  | .table path n a => .table path n a
  | .subquery s a => .subquery (g s) a

/-- Change the condition of a join. -/
def JoinConstraint.mapExpr (g : Expr → Expr) : JoinConstraint → JoinConstraint
  | .on e => .on (g e)
  | c => c

/-- Change the expressions of a select. -/
def Select.mapExprs (g : Expr → Expr) (q : Select) : Select :=
  { q with
    items := q.items.map fun i => { i with expr := g i.expr }
    joins := q.joins.map fun j => { j with constraint := j.constraint.mapExpr g }
    filter := q.filter.map g
    groupBy := q.groupBy.map g
    having := q.having.map g
    orderBy := q.orderBy.map fun o => { o with expr := g o.expr }
    limit := q.limit.map g
    offset := q.offset.map g }

/-- Change the statements of the sources of a select. -/
def Select.mapStatements (g : Statement → Statement) (q : Select) : Select :=
  { q with
    source := q.source.map (Source.mapStatement g)
    joins := q.joins.map fun j => { j with right := j.right.mapStatement g } }

/-! ## Parts of a changed expression -/

namespace Expr

theorem children_mapChildren (g : Expr → Expr) (e : Expr) :
    (e.mapChildren g).children = e.children.map g := by
  have hoption : ∀ o : Option Expr, (o.map g).toList = o.toList.map g := by
    intro o
    cases o <;> rfl
  cases e with
  | call n args distinct filter window =>
    cases window <;> simp [mapChildren, children, hoption, Window.exprs, Window.mapExprs]
  | case scrutinee branches fallback =>
    simp [mapChildren, children, hoption, List.flatMap_map, List.map_flatMap]
  | _ => simp [mapChildren, children]

theorem statement?_mapChildren (g : Expr → Expr) (e : Expr) :
    (e.mapChildren g).statement? = e.statement? := by
  cases e <;> rfl

theorem mapChildren_mapChildren (g g' : Expr → Expr) (e : Expr) :
    (e.mapChildren g).mapChildren g' = e.mapChildren (g' ∘ g) := by
  cases e with
  | call n args distinct filter window =>
    cases filter <;> cases window <;> simp [mapChildren, Window.mapExprs]
  | case scrutinee branches fallback =>
    cases scrutinee <;> cases fallback <;> simp [mapChildren]
  | _ => simp [mapChildren]

theorem children_mapStatement (g : Statement → Statement) (e : Expr) :
    (e.mapStatement g).children = e.children := by
  cases e <;> rfl

theorem mapStatement_mapChildren (g : Expr → Expr) (g' : Statement → Statement) (e : Expr) :
    (e.mapChildren g).mapStatement g' = (e.mapStatement g').mapChildren g := by
  cases e <;> rfl

/-- Change the parameter that an expression is. -/
def mapParam (h : Param → Param) : Expr → Expr
  | .param p => .param (h p)
  | e => e

theorem mapChildren_id (e : Expr) : e.mapChildren id = e := by
  have hoption : ∀ o : Option Expr, o.map id = o := fun o => Option.map_id_apply
  cases e with
  | call n args distinct filter window =>
    have hwindow : window.map (Window.mapExprs id) = window := by
      cases window with
      | none => rfl
      | some w =>
        obtain ⟨partitionBy, orderBy⟩ := w
        have horder : orderBy.map (fun o => { o with expr := id o.expr }) = orderBy :=
          List.map_id'' (fun ⟨_, _, _⟩ => rfl) orderBy
        rw [Option.map_some, Window.mapExprs, horder, List.map_id]
    rw [mapChildren, hoption, hwindow, List.map_id]
  | case scrutinee branches fallback =>
    have hbranches : branches.map (fun b => Branch.mk (id b.condition) (id b.result)) = branches :=
      List.map_id'' (fun ⟨_, _⟩ => rfl) branches
    rw [mapChildren, hoption, hoption, hbranches]
  | _ => simp [mapChildren]

theorem mapStatement_mapStatement (g g' : Statement → Statement) (e : Expr) :
    (e.mapStatement g).mapStatement g' = e.mapStatement (g' ∘ g) := by
  cases e <;> rfl

theorem mapStatement_congr {g g' : Statement → Statement} {e : Expr}
    (h : ∀ s ∈ e.statement?, g s = g' s) : e.mapStatement g = e.mapStatement g' := by
  cases e with
  | inQuery e s negated => rw [mapStatement, mapStatement, h s rfl]
  | hasRows s => rw [mapStatement, mapStatement, h s rfl]
  | subquery s => rw [mapStatement, mapStatement, h s rfl]
  | _ => rfl

theorem mapStatement_id (e : Expr) : e.mapStatement id = e := by
  cases e <;> rfl

theorem mapParam_mapChildren (h : Param → Param) (g : Expr → Expr) (e : Expr) :
    (e.mapChildren g).mapParam h = (e.mapParam h).mapChildren g := by
  cases e <;> rfl

theorem mapParam_mapStatement (h : Param → Param) (g : Statement → Statement) (e : Expr) :
    (e.mapStatement g).mapParam h = (e.mapParam h).mapStatement g := by
  cases e <;> rfl

theorem children_mapParam (h : Param → Param) (e : Expr) :
    (e.mapParam h).children = e.children := by
  cases e <;> rfl

theorem statement?_mapParam (h : Param → Param) (e : Expr) :
    (e.mapParam h).statement? = e.statement? := by
  cases e <;> rfl

/-- The parameters of an expression change at its node, in its statement and in its children. -/
theorem mapParams_eq (h : Param → Param) (e : Expr) :
    e.mapParams h
      = ((e.mapParam h).mapStatement (Statement.mapParams h)).mapChildren (mapParams h) := by
  cases e with
  | call n args distinct filter window =>
    rcases window with _ | ⟨partitionBy, orderBy⟩ <;>
      simp [mapParams, mapParam, mapStatement, mapChildren, mapParamsList_eq, mapParams?_eq,
        mapParamsWindow?, mapParamsOrder_eq, Window.mapExprs]
  | case scrutinee branches fallback =>
    simp [mapParams, mapParam, mapStatement, mapChildren, mapParams?_eq, mapParamsBranches_eq]
  | inList e items negated =>
    simp [mapParams, mapParam, mapStatement, mapChildren, mapParamsList_eq]
  | _ => simp [mapParams, mapParam, mapStatement, mapChildren]

end Expr

/-! ## Parts of a changed select -/

namespace Select

theorem exprs_mapExprs (g : Expr → Expr) (q : Select) : (q.mapExprs g).exprs = q.exprs.map g := by
  have hjoins : ((q.joins.map fun j => { j with constraint := j.constraint.mapExpr g }).filterMap
      fun j => j.constraint.condition?)
      = (q.joins.filterMap fun j => j.constraint.condition?).map g := by
    rw [List.filterMap_map, List.map_filterMap]
    congr 1
    funext j
    cases hj : j.constraint <;> simp [hj, JoinConstraint.mapExpr, JoinConstraint.condition?]
  have hoption : ∀ o : Option Expr, (o.map g).toList = o.toList.map g := by
    intro o
    cases o <;> rfl
  simp only [mapExprs, exprs, hjoins, hoption, List.map_append, List.map_map]
  rfl

theorem sources_mapExprs (g : Expr → Expr) (q : Select) : (q.mapExprs g).sources = q.sources := by
  simp [mapExprs, sources]

theorem exprs_mapStatements (g : Statement → Statement) (q : Select) :
    (q.mapStatements g).exprs = q.exprs := by
  simp only [mapStatements, exprs, List.filterMap_map]
  rfl

theorem mapExprs_mapExprs (g g' : Expr → Expr) (q : Select) :
    (q.mapExprs g).mapExprs g' = q.mapExprs (g' ∘ g) := by
  have hconstraint : ∀ c : JoinConstraint, (c.mapExpr g).mapExpr g' = c.mapExpr (g' ∘ g) := by
    intro c
    cases c <;> rfl
  simp [mapExprs, hconstraint, Function.comp_def]

theorem mapStatements_mapExprs (g : Expr → Expr) (g' : Statement → Statement) (q : Select) :
    (q.mapExprs g).mapStatements g' = (q.mapStatements g').mapExprs g := by
  simp [mapExprs, mapStatements, Function.comp_def]

theorem mapExprs_id (q : Select) : q.mapExprs id = q := by
  have hconstraint : ∀ c : JoinConstraint, c.mapExpr id = c := by
    intro c
    cases c <;> rfl
  obtain ⟨distinct, items, source, joins, filter, groupBy, having, orderBy, limit, offset⟩ := q
  have hitems : items.map (fun i => { i with expr := id i.expr }) = items :=
    List.map_id'' (fun ⟨_, _⟩ => rfl) items
  have hjoins : joins.map (fun j => { j with constraint := j.constraint.mapExpr id }) = joins :=
    List.map_id'' (fun ⟨_, _, c⟩ => by rw [hconstraint c]) joins
  have horder : orderBy.map (fun o => { o with expr := id o.expr }) = orderBy :=
    List.map_id'' (fun ⟨_, _, _⟩ => rfl) orderBy
  have hoption : ∀ o : Option Expr, o.map id = o := fun o => Option.map_id_apply
  rw [mapExprs, hitems, hjoins, horder, hoption, hoption, hoption, hoption, List.map_id]

theorem mapStatements_mapStatements (g g' : Statement → Statement) (q : Select) :
    (q.mapStatements g).mapStatements g' = q.mapStatements (g' ∘ g) := by
  have hsource : Source.mapStatement g' ∘ Source.mapStatement g
      = Source.mapStatement (g' ∘ g) := by
    funext t
    cases t <;> rfl
  have hright : ∀ t : Source,
      (t.mapStatement g).mapStatement g' = t.mapStatement (g' ∘ g) := congrFun hsource
  simp [mapStatements, hsource, hright]

theorem mapStatements_congr {g g' : Statement → Statement} {q : Select}
    (h : ∀ t ∈ q.sources, ∀ s ∈ t.statement?, g s = g' s) :
    q.mapStatements g = q.mapStatements g' := by
  have hstatement : ∀ t ∈ q.sources, t.mapStatement g = t.mapStatement g' := by
    intro t ht
    cases t with
    | table path n a => rfl
    | subquery s a => rw [Source.mapStatement, Source.mapStatement, h _ ht s rfl]
  have hjoins : q.joins.map (fun j => { j with right := j.right.mapStatement g })
      = q.joins.map fun j => { j with right := j.right.mapStatement g' } := by
    refine List.map_congr_left fun j hj => ?_
    rw [hstatement j.right (by simpa [sources] using .inr ⟨j, hj, rfl⟩)]
  have hsource : q.source.map (Source.mapStatement g) = q.source.map (Source.mapStatement g') := by
    cases hq : q.source with
    | none => rfl
    | some t => simp [hstatement t (by simp [sources, hq])]
  rw [mapStatements, mapStatements, hjoins, hsource]

theorem mapStatements_id (q : Select) : q.mapStatements id = q := by
  have hsource : ∀ t : Source, t.mapStatement id = t := by
    intro t
    cases t <;> rfl
  obtain ⟨distinct, items, source, joins, filter, groupBy, having, orderBy, limit, offset⟩ := q
  have hjoins : joins.map (fun j => { j with right := j.right.mapStatement id }) = joins :=
    List.map_id'' (fun ⟨_, t, _⟩ => by rw [hsource t]) joins
  have hfirst : source.map (Source.mapStatement id) = source := by
    cases source with
    | none => rfl
    | some t => rw [Option.map_some, hsource]
  rw [mapStatements, hjoins, hfirst]

theorem mapParams_eq (h : Param → Param) (q : Select) :
    q.mapParams h = (q.mapStatements (Statement.mapParams h)).mapExprs (Expr.mapParams h) := by
  obtain ⟨distinct, items, source, joins, filter, groupBy, having, orderBy, limit, offset⟩ := q
  have hsource : Source.mapParams h = Source.mapStatement (Statement.mapParams h) := by
    funext t
    cases t <;> simp [Source.mapParams, Source.mapStatement]
  have hconstraint : ∀ c : JoinConstraint, c.mapParams h = c.mapExpr (Expr.mapParams h) := by
    intro c
    cases c <;> simp [JoinConstraint.mapParams, JoinConstraint.mapExpr]
  simp [mapParams, mapStatements, mapExprs, mapParamsItems_eq, mapParamsSource?_eq,
    mapParamsJoins_eq, mapParams?_eq, mapParamsList_eq, mapParamsOrder_eq, hsource, hconstraint,
    Function.comp_def]

end Select

theorem Statement.mapParams_eq (h : Param → Param) (s : Statement) :
    s.mapParams h = ⟨s.withClause.map fun w => { w with
      ctes := s.ctes.map fun c => ⟨c.name, c.columns, c.statement.mapParams h⟩ },
      s.body.mapParams h⟩ := by
  rcases s with ⟨_ | ⟨recursive, cs⟩, body⟩
  · simp [mapParams, mapParamsWith?]
  · simp [mapParams, mapParamsWith?, mapParamsCtes_eq, ctes]

end Sql
