import Sql.Statement.Walk

/-!
# Changing parameters

`mapParams` changes the parameters of a tree and nothing else: the parts of the changed tree are the
changed parts of the tree (`Expr.children_mapParams` and its neighbours).
-/

namespace Sql

/-! ## Parameters of a tree -/

mutual

/-- Change every parameter of an expression. -/
def Expr.mapParams (f : Param → Param) : Expr → Expr
  | .column c => .column c
  | .star q => .star q
  | .literal l => .literal l
  | .param p => .param (f p)
  | .call n args d filter window =>
    .call n (mapParamsList f args) d (mapParams? f filter) (mapParamsWindow? f window)
  | .binary l op r => .binary (l.mapParams f) op (r.mapParams f)
  | .unary op e => .unary op (e.mapParams f)
  | .isNull e n => .isNull (e.mapParams f) n
  | .between e l h n => .between (e.mapParams f) (l.mapParams f) (h.mapParams f) n
  | .inList e items n => .inList (e.mapParams f) (mapParamsList f items) n
  | .inQuery e s n => .inQuery (e.mapParams f) (s.mapParams f) n
  | .hasRows s => .hasRows (s.mapParams f)
  | .subquery s => .subquery (s.mapParams f)
  | .case o bs e => .case (mapParams? f o) (mapParamsBranches f bs) (mapParams? f e)
  | .cast e t short => .cast (e.mapParams f) t short
  | .paren e => .paren (e.mapParams f)

/-- Change every parameter of a list of expressions. -/
def mapParamsList (f : Param → Param) : List Expr → List Expr
  | [] => []
  | e :: es => e.mapParams f :: mapParamsList f es

/-- Change every parameter of an optional expression. -/
def mapParams? (f : Param → Param) : Option Expr → Option Expr
  | some e => some (e.mapParams f)
  | none => none

/-- Change every parameter of the branches of a CASE. -/
def mapParamsBranches (f : Param → Param) : List Branch → List Branch
  | [] => []
  | ⟨c, r⟩ :: bs => ⟨c.mapParams f, r.mapParams f⟩ :: mapParamsBranches f bs

/-- Change every parameter of sort keys. -/
def mapParamsOrder (f : Param → Param) : List OrderItem → List OrderItem
  | [] => []
  | ⟨e, d, n⟩ :: os => ⟨e.mapParams f, d, n⟩ :: mapParamsOrder f os

/-- Change every parameter of an optional window. -/
def mapParamsWindow? (f : Param → Param) : Option Window → Option Window
  | some ⟨p, o⟩ => some ⟨mapParamsList f p, mapParamsOrder f o⟩
  | none => none

/-- Change every parameter of select items. -/
def mapParamsItems (f : Param → Param) : List SelectItem → List SelectItem
  | [] => []
  | ⟨e, a⟩ :: is => ⟨e.mapParams f, a⟩ :: mapParamsItems f is

/-- Change every parameter of a source. -/
def Source.mapParams (f : Param → Param) : Source → Source
  | .table p n a => .table p n a
  | .subquery s a => .subquery (s.mapParams f) a

/-- Change every parameter of an optional source. -/
def mapParamsSource? (f : Param → Param) : Option Source → Option Source
  | some t => some (t.mapParams f)
  | none => none

/-- Change every parameter of a constraint. -/
def JoinConstraint.mapParams (f : Param → Param) : JoinConstraint → JoinConstraint
  | .on e => .on (e.mapParams f)
  | .shared cs => .shared cs
  | .none => .none

/-- Change every parameter of joins. -/
def mapParamsJoins (f : Param → Param) : List Join → List Join
  | [] => []
  | ⟨k, r, c⟩ :: js => ⟨k, r.mapParams f, c.mapParams f⟩ :: mapParamsJoins f js

/-- Change every parameter of a select. -/
def Select.mapParams (f : Param → Param) : Select → Select
  | ⟨d, is, s, js, w, g, h, o, l, x⟩ =>
    ⟨d, mapParamsItems f is, mapParamsSource? f s, mapParamsJoins f js, mapParams? f w,
      mapParamsList f g, mapParams? f h, mapParamsOrder f o, mapParams? f l, mapParams? f x⟩

/-- Change every parameter of definitions. -/
def mapParamsCtes (f : Param → Param) : List Cte → List Cte
  | [] => []
  | ⟨n, cs, s⟩ :: rest => ⟨n, cs, s.mapParams f⟩ :: mapParamsCtes f rest

/-- Change every parameter of an optional WITH clause. -/
def mapParamsWith? (f : Param → Param) : Option With → Option With
  | some ⟨r, cs⟩ => some ⟨r, mapParamsCtes f cs⟩
  | none => none

/-- Change every parameter of a body. -/
def Body.mapParams (f : Param → Param) : Body → Body
  | .select q => .select (q.mapParams f)
  | .setOp l op r => .setOp (l.mapParams f) op (r.mapParams f)
  | .nested s => .nested (s.mapParams f)

/-- Change every parameter of a statement. -/
def Statement.mapParams (f : Param → Param) : Statement → Statement
  | ⟨w, b⟩ => ⟨mapParamsWith? f w, b.mapParams f⟩

end

/-! ## Lists -/

section

variable (f : Param → Param)

theorem mapParamsList_eq (es : List Expr) : mapParamsList f es = es.map (Expr.mapParams f) := by
  induction es with
  | nil => rfl
  | cons e es ih => rw [mapParamsList, ih, List.map_cons]

theorem mapParams?_eq (o : Option Expr) : mapParams? f o = o.map (Expr.mapParams f) := by
  cases o <;> rfl

theorem mapParamsBranches_eq (bs : List Branch) :
    mapParamsBranches f bs
      = bs.map fun b => ⟨b.condition.mapParams f, b.result.mapParams f⟩ := by
  induction bs with
  | nil => rfl
  | cons b bs ih =>
    obtain ⟨c, r⟩ := b
    rw [mapParamsBranches, ih, List.map_cons]

theorem mapParamsOrder_eq (os : List OrderItem) :
    mapParamsOrder f os = os.map fun o => { o with expr := o.expr.mapParams f } := by
  induction os with
  | nil => rfl
  | cons o os ih =>
    obtain ⟨e, d, n⟩ := o
    rw [mapParamsOrder, ih, List.map_cons]

theorem mapParamsItems_eq (is : List SelectItem) :
    mapParamsItems f is = is.map fun i => { i with expr := i.expr.mapParams f } := by
  induction is with
  | nil => rfl
  | cons i is ih =>
    obtain ⟨e, a⟩ := i
    rw [mapParamsItems, ih, List.map_cons]

theorem mapParamsSource?_eq (t : Option Source) :
    mapParamsSource? f t = t.map (Source.mapParams f) := by
  cases t <;> rfl

theorem mapParamsJoins_eq (js : List Join) :
    mapParamsJoins f js
      = js.map fun j => ⟨j.kind, j.right.mapParams f, j.constraint.mapParams f⟩ := by
  induction js with
  | nil => rfl
  | cons j js ih =>
    obtain ⟨kind, right, constraint⟩ := j
    rw [mapParamsJoins, ih, List.map_cons]

theorem mapParamsCtes_eq (cs : List Cte) :
    mapParamsCtes f cs = cs.map fun c => { c with statement := c.statement.mapParams f } := by
  induction cs with
  | nil => rfl
  | cons c cs ih =>
    obtain ⟨name, columns, s⟩ := c
    rw [mapParamsCtes, ih, List.map_cons]

/-! ## Parts -/

theorem Window.exprs_mapParams (partitionBy : List Expr) (orderBy : List OrderItem) :
    Window.exprs ⟨mapParamsList f partitionBy, mapParamsOrder f orderBy⟩
      = (Window.exprs ⟨partitionBy, orderBy⟩).map (Expr.mapParams f) := by
  simp [Window.exprs, mapParamsList_eq, mapParamsOrder_eq]

theorem Expr.children_mapParams (e : Expr) :
    (e.mapParams f).children = e.children.map (Expr.mapParams f) := by
  cases e with
  | call n args distinct filter window =>
    rw [mapParams, children, children, mapParamsList_eq, mapParams?_eq, List.map_append,
      List.map_append]
    congr 1
    · cases filter <;> simp
    · cases window with
      | none => rfl
      | some w =>
        obtain ⟨partitionBy, orderBy⟩ := w
        simp [mapParamsWindow?, Window.exprs_mapParams]
  | case scrutinee branches fallback =>
    rw [mapParams, children, children, mapParams?_eq, mapParams?_eq, mapParamsBranches_eq,
      List.map_append, List.map_append, List.map_flatMap, List.flatMap_map]
    congr 1
    · cases scrutinee <;> rfl
    · cases fallback <;> rfl
  | inList e items negated => simp [mapParams, children, mapParamsList_eq]
  | _ => simp [mapParams, children]

theorem Expr.statement?_mapParams (e : Expr) :
    (e.mapParams f).statement? = e.statement?.map (Statement.mapParams f) := by
  cases e <;> simp [mapParams, statement?]

@[simp] theorem Expr.isStar_mapParams (e : Expr) : (e.mapParams f).isStar = e.isStar := by
  cases e <;> simp [mapParams, isStar]

theorem Source.statement?_mapParams (t : Source) :
    (t.mapParams f).statement? = t.statement?.map (Statement.mapParams f) := by
  cases t <;> simp [mapParams, statement?]

@[simp] theorem Source.effectiveName_mapParams (t : Source) :
    (t.mapParams f).effectiveName = t.effectiveName := by
  cases t <;> simp [mapParams, effectiveName]

theorem JoinConstraint.condition?_mapParams (c : JoinConstraint) :
    (c.mapParams f).condition? = c.condition?.map (Expr.mapParams f) := by
  cases c <;> simp [mapParams, condition?]

theorem Select.sources_mapParams (q : Select) :
    (q.mapParams f).sources = q.sources.map (Source.mapParams f) := by
  obtain ⟨distinct, items, source, joins, filter, groupBy, having, orderBy, limit, offset⟩ := q
  simp only [mapParams, sources, mapParamsSource?_eq, mapParamsJoins_eq, List.map_append,
    List.map_map]
  congr 1
  cases source <;> rfl

theorem Select.exprs_mapParams (q : Select) :
    (q.mapParams f).exprs = q.exprs.map (Expr.mapParams f) := by
  obtain ⟨distinct, items, source, joins, filter, groupBy, having, orderBy, limit, offset⟩ := q
  have hjoins : (joins.map fun j => Join.mk j.kind (j.right.mapParams f) (j.constraint.mapParams f)
      ).filterMap (fun j => j.constraint.condition?)
      = (joins.filterMap fun j => j.constraint.condition?).map (Expr.mapParams f) := by
    rw [List.filterMap_map, List.map_filterMap]
    congr 1
    funext j
    exact JoinConstraint.condition?_mapParams f j.constraint
  have hoption : ∀ o : Option Expr,
      (o.map (Expr.mapParams f)).toList = o.toList.map (Expr.mapParams f) := by
    intro o
    cases o <;> rfl
  simp only [mapParams, exprs, mapParamsItems_eq, mapParamsJoins_eq, mapParams?_eq,
    mapParamsList_eq, mapParamsOrder_eq, hjoins, hoption, List.map_append, List.map_map]
  rfl

theorem Statement.ctes_mapParams (s : Statement) :
    (s.mapParams f).ctes = s.ctes.map fun c => { c with statement := c.statement.mapParams f } := by
  obtain ⟨w, b⟩ := s
  cases w with
  | none => simp [mapParams, mapParamsWith?, ctes]
  | some w =>
    obtain ⟨recursive, cs⟩ := w
    simp [mapParams, mapParamsWith?, ctes, mapParamsCtes_eq]

theorem Statement.body_mapParams (s : Statement) :
    (s.mapParams f).body = s.body.mapParams f := by
  obtain ⟨w, b⟩ := s
  rw [mapParams]

end

end Sql
