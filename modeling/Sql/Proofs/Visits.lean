import Mathlib.Data.List.Basic
import Sql.Proofs.ChangedParts
import Sql.Statement.Visit

/-!
# What a visit does

A visit of a tree is made of visits of its parts. Two things are known of each visit: what it makes
of the tree, and how it moves the state (`Visits`). A visit may fold the state over what it meets
(`Ledger.fold`), or take it for a list from whose front it puts parts back (`Ledger.take`).
-/

namespace Sql

variable {σ ι α β : Type}

/-! ## Ledgers -/

/-- How a state moves when items are entered one after the other. -/
structure Ledger (σ ι : Type) where
  Moves : List ι → σ → σ → Prop
  eq_of_nil : ∀ {c c' : σ}, Moves [] c c' → c = c'
  split : ∀ {v w : List ι} {c c'' : σ}, Moves (v ++ w) c c'' → ∃ c', Moves v c c' ∧ Moves w c' c''

/-- Every item is folded into the state. -/
def Ledger.fold (k : σ → ι → σ) : Ledger σ ι where
  Moves v c c' := v.foldl k c = c'
  eq_of_nil h := h
  split h := ⟨_, rfl, by rw [← h, List.foldl_append]⟩

/-- The items are those at the front of a list, and leave it. -/
def Ledger.take : Ledger (List α) α where
  Moves v c c' := c = v ++ c'
  eq_of_nil h := h
  split h := ⟨_, by rw [h, List.append_assoc], rfl⟩

/-- The visit enters these items and has this result. -/
def Visits (D : Ledger σ ι) (x : StateM σ α) (v : List ι) (a : α) : Prop :=
  ∀ c c', D.Moves v c c' → x.run c = (a, c')

variable {D : Ledger σ ι}

theorem Visits.pure (a : α) : Visits D (pure a) [] a := by
  intro c c' h
  rw [← D.eq_of_nil h]
  rfl

theorem Visits.bind {x : StateM σ α} {f : α → StateM σ β} {v w : List ι} {a : α} {b : β}
    (hx : Visits D x v a) (hf : Visits D (f a) w b) : Visits D (x >>= f) (v ++ w) b := by
  intro c c'' h
  obtain ⟨c', hv, hw⟩ := D.split h
  have hfirst := hx c c' hv
  have hrest := hf c' c'' hw
  show (do let p ← x.run c; (f p.1).run p.2 : Id _) = _
  rw [hfirst]
  exact hrest

theorem Visits.congr {x : StateM σ α} {v w : List ι} {a : α} (hx : Visits D x v a) (h : v = w) :
    Visits D x w a :=
  h ▸ hx

/-- A visit whose result is used at the end. -/
theorem Visits.map {x : StateM σ α} {v : List ι} {a : α} (hx : Visits D x v a) (g : α → β) :
    Visits D (do return g (← x)) v (g a) := by
  have h := hx.bind (f := fun a => Pure.pure (g a)) (Visits.pure (g a))
  rwa [List.append_nil] at h

theorem Visits.mapM {xs : List α} {f : α → StateM σ β} {v : α → List ι} {g : α → β}
    (h : ∀ x ∈ xs, Visits D (f x) (v x) (g x)) :
    Visits D (xs.mapM f) (xs.flatMap v) (xs.map g) := by
  induction xs with
  | nil => exact Visits.pure []
  | cons x xs ih =>
    rw [List.forall_mem_cons] at h
    rw [List.mapM_cons]
    exact h.1.bind ((ih h.2).map _)

theorem Visits.option {o : Option α} {f : α → StateM σ β} {v : α → List ι} {g : α → β}
    (h : ∀ x ∈ o.toList, Visits D (f x) (v x) (g x)) :
    Visits D (o.mapM f) (o.toList.flatMap v) (o.map g) := by
  cases o with
  | none => exact Visits.pure none
  | some x =>
    have hx := (h x (by simp)).map some
    simpa using hx

theorem visits_next (a b : α) : Visits Ledger.take (next a) [b] b := by
  rintro _ c' rfl
  rfl

/-! ## Visits of the parts next to a node -/

section

variable {f : Expr → StateM σ Expr} {v : Expr → List ι} {g : Expr → Expr}

theorem Window.visits_eachExpr {w : Window} (h : ∀ e ∈ w.exprs, Visits D (f e) (v e) (g e)) :
    Visits D (w.eachExpr f) (w.exprs.flatMap v) (w.mapExprs g) := by
  simp only [exprs, List.forall_mem_append, List.forall_mem_map] at h
  have horder := Visits.mapM fun o ho => (h.2 o ho).map fun e => { o with expr := e }
  exact ((Visits.mapM h.1).bind (horder.map _)).congr (by simp [exprs, List.flatMap_map])

/-- The children of an expression are visited in order. -/
theorem Expr.visits_eachChild {e : Expr} (h : ∀ c ∈ e.children, Visits D (f c) (v c) (g c)) :
    Visits D (e.eachChild f) (e.children.flatMap v) (e.mapChildren g) := by
  cases e with
  | call n args distinct filter window =>
    simp only [children, List.forall_mem_append, List.forall_mem_flatMap] at h
    obtain ⟨⟨hargs, hfilter⟩, hwindow⟩ := h
    have hw := Visits.option fun w hw => Window.visits_eachExpr (hwindow w hw)
    exact ((Visits.mapM hargs).bind ((Visits.option hfilter).bind (hw.map _))).congr
      (by simp [children, List.flatMap_assoc])
  | case scrutinee branches fallback =>
    simp only [children, List.forall_mem_append, List.forall_mem_flatMap,
      List.forall_mem_cons] at h
    obtain ⟨⟨hscrutinee, hbranches⟩, hfallback⟩ := h
    have hb := Visits.mapM fun b hb =>
      (hbranches b hb).1.bind (f := fun c => do return Branch.mk c (← f b.result))
        ((hbranches b hb).2.1.map fun r => Branch.mk (g b.condition) r)
    exact ((Visits.option hscrutinee).bind (hb.bind ((Visits.option hfallback).map _))).congr
      (by simp [children, List.flatMap_assoc])
  | inList e items negated =>
    simp only [children, List.forall_mem_cons] at h
    exact (h.1.bind ((Visits.mapM h.2).map _)).congr (by simp [children])
  | between e low high negated =>
    simp only [children, List.forall_mem_cons] at h
    exact (h.1.bind (h.2.1.bind (h.2.2.1.map _))).congr (by simp [children])
  | binary l op r =>
    simp only [children, List.forall_mem_cons] at h
    exact (h.1.bind (h.2.1.map _)).congr (by simp [children])
  | unary _ e | isNull e _ | inQuery e _ _ | cast e _ _ | paren e =>
    simp only [children, List.forall_mem_cons] at h
    exact (h.1.map _).congr (by simp [children])
  -- the others have no children
  | _ => exact Visits.pure _

theorem JoinConstraint.visits_eachExpr {c : JoinConstraint}
    (h : ∀ e ∈ c.condition?.toList, Visits D (f e) (v e) (g e)) :
    Visits D (c.eachExpr f) (c.condition?.toList.flatMap v) (c.mapExpr g) := by
  cases c with
  | on e => exact ((h e (by simp [condition?])).map _).congr (by simp [condition?])
  | _ => exact Visits.pure _

/-- The expressions of a select are visited in order. -/
theorem Select.visits_eachExpr {q : Select} (h : ∀ e ∈ q.exprs, Visits D (f e) (v e) (g e)) :
    Visits D (q.eachExpr f) (q.exprs.flatMap v) (q.mapExprs g) := by
  simp only [exprs, List.forall_mem_append, List.forall_mem_map] at h
  obtain ⟨⟨⟨⟨⟨⟨⟨hitems, hjoins⟩, hfilter⟩, hgroupBy⟩, hhaving⟩, horderBy⟩, hlimit⟩, hoffset⟩ := h
  have hi := Visits.mapM fun i hi => (hitems i hi).map fun e => { i with expr := e }
  have hj := Visits.mapM fun j (hj : j ∈ q.joins) =>
    (JoinConstraint.visits_eachExpr (c := j.constraint) fun e he =>
      hjoins e (List.mem_filterMap.mpr ⟨j, hj, by simpa using he⟩)).map
        fun c => { j with constraint := c }
  have ho := Visits.mapM fun o ho => (horderBy o ho).map fun e => { o with expr := e }
  exact (hi.bind (hj.bind ((Visits.option hfilter).bind ((Visits.mapM hgroupBy).bind
    ((Visits.option hhaving).bind (ho.bind ((Visits.option hlimit).bind
      ((Visits.option hoffset).map _)))))))).congr
    (by simp [exprs, conditions_eq, List.flatMap_map, List.flatMap_assoc])

end

/-! ## Visits of a whole expression -/

namespace Expr

theorem withChildren_map (e : Expr) (g : Expr → Expr) :
    e.withChildren (e.children.map g) = e.mapChildren g := by
  have h := Expr.visits_eachChild (D := Ledger.take) fun c (_ : c ∈ e.children) =>
    visits_next c (g c)
  have hrun := h (e.children.map g) [] (by simp [Ledger.take, List.map_eq_flatMap])
  rw [withChildren, hrun]

/-- Change an expression, and in the place of its children put the changed ones. -/
def mapNodes (g : Expr → Expr) (e : Expr) : Expr :=
  (g e).withChildren (e.children.attach.map fun c => c.1.mapNodes g)
termination_by sizeOf e
decreasing_by exact sizeOf_lt_of_mem_children c.2

theorem mapNodes_eq {g : Expr → Expr} (hg : ∀ e, (g e).children = e.children) (e : Expr) :
    e.mapNodes g = (g e).mapChildren (mapNodes g) := by
  rw [mapNodes, List.map_subtype (g := mapNodes g) fun _ _ => rfl, List.unattach_attach, ← hg e,
    withChildren_map]

/-- **A visit of an expression enters its nodes, each before those below it.** -/
theorem visits {f : Expr → StateM σ Expr} {v : Expr → List ι} {g : Expr → Expr}
    (hf : ∀ e, Visits D (f e) (v e) (g e)) (e : Expr) :
    Visits D (e.visit f) (e.nodes.flatMap v) (e.mapNodes g) := by
  rw [visit_eq, nodes_eq, List.flatMap_cons, List.flatMap_assoc, mapNodes,
    List.map_subtype (g := mapNodes g) fun _ _ => rfl, List.unattach_attach]
  refine (hf e).bind ((Visits.mapM fun c hc => ?_).map _)
  exact Expr.visits hf c
termination_by sizeOf e
decreasing_by exact sizeOf_lt_of_mem_children hc

theorem mapChildren_congr {g g' : Expr → Expr} {e : Expr} (h : ∀ c ∈ e.children, g c = g' c) :
    e.mapChildren g = e.mapChildren g' := by
  rw [← withChildren_map, ← withChildren_map, List.map_congr_left h]

/-- Where children and statements stay, the statements of all nodes stay. -/
theorem statements_mapNodes {g : Expr → Expr} (hchildren : ∀ e, (g e).children = e.children)
    (hstatement : ∀ e, (g e).statement? = e.statement?) (e : Expr) :
    (e.mapNodes g).nodes.filterMap statement? = e.nodes.filterMap statement? := by
  have hstep : e.children.map (fun c => (c.mapNodes g).nodes.filterMap statement?)
      = e.children.map fun c => c.nodes.filterMap statement? :=
    List.map_congr_left fun c hc => statements_mapNodes hchildren hstatement c
  rw [mapNodes_eq hchildren, nodes_eq, nodes_eq e, children_mapChildren, hchildren,
    List.filterMap_cons, List.filterMap_cons, statement?_mapChildren, hstatement,
    List.filterMap_flatMap, List.filterMap_flatMap, List.flatMap_map, List.flatMap_def, hstep]
  rfl
termination_by sizeOf e
decreasing_by exact sizeOf_lt_of_mem_children hc

/-- Parameters first and statements afterwards: every parameter is changed. -/
theorem mapNodes_mapParam (h : Param → Param) (e : Expr) :
    (e.mapNodes (mapParam h)).mapNodes (mapStatement (Statement.mapParams h)) = e.mapParams h := by
  have hstep : ∀ c ∈ e.children,
      (mapNodes (mapStatement (Statement.mapParams h)) ∘ mapNodes (mapParam h)) c
        = c.mapParams h :=
    fun c hc => mapNodes_mapParam h c
  -- neither round changes the children of a node, so both go down the same tree
  have hkept : ((e.mapParam h).mapStatement (Statement.mapParams h)).children = e.children := by
    rw [children_mapStatement, children_mapParam]
  rw [mapNodes_eq (children_mapParam h), mapNodes_eq (children_mapStatement _),
    mapStatement_mapChildren, mapChildren_mapChildren, mapParams_eq]
  exact mapChildren_congr fun c hc => hstep c (hkept ▸ hc)
termination_by sizeOf e
decreasing_by exact sizeOf_lt_of_mem_children hc

theorem visits_eachStatement {f : Statement → StateM σ Statement} {v : Statement → List ι}
    {g : Statement → Statement} (hf : ∀ s, Visits D (f s) (v s) (g s)) (e : Expr) :
    Visits D (e.eachStatement f) (e.statement?.toList.flatMap v) (e.mapStatement g) := by
  cases e with
  | inQuery e s negated => exact ((hf s).map _).congr (by simp [statement?])
  | hasRows s => exact ((hf s).map _).congr (by simp [statement?])
  | subquery s => exact ((hf s).map _).congr (by simp [statement?])
  | _ => exact Visits.pure _

end Expr

/-! ## Visits of a select -/

theorem Select.mapExprs_congr {g g' : Expr → Expr} {q : Select} (h : ∀ e ∈ q.exprs, g e = g' e) :
    q.mapExprs g = q.mapExprs g' := by
  -- the expressions that are put back determine the select
  have hrun : ∀ g : Expr → Expr, (q.eachExpr next).run (q.exprs.map g) = (q.mapExprs g, []) := by
    intro g
    have hg := Select.visits_eachExpr (D := Ledger.take) fun e (_ : e ∈ q.exprs) =>
      visits_next e (g e)
    exact hg (q.exprs.map g) [] (by simp [Ledger.take, List.map_eq_flatMap])
  have heq := (hrun g).symm.trans (List.map_congr_left h ▸ hrun g')
  exact (Prod.mk.inj heq).1

theorem Source.visits_eachStatement {f : Statement → StateM σ Statement} {v : Statement → List ι}
    {g : Statement → Statement} (hf : ∀ s, Visits D (f s) (v s) (g s)) (t : Source) :
    Visits D (t.eachStatement f) (t.statement?.toList.flatMap v) (t.mapStatement g) := by
  cases t with
  | table path n a => exact Visits.pure _
  | subquery s a => exact ((hf s).map _).congr (by simp [statement?])

namespace Select

/-- The nested statements of a select are visited in the order of `Select.subqueries`. -/
theorem visits_eachStatement {f : Statement → StateM σ Statement} {v : Statement → List ι}
    {g : Statement → Statement} (hf : ∀ s, Visits D (f s) (v s) (g s)) (q : Select) :
    Visits D (q.eachStatement f) (q.subqueries.flatMap v)
      ((q.mapStatements g).mapExprs (Expr.mapNodes (Expr.mapStatement g))) := by
  have hsource := Visits.option fun t (_ : t ∈ q.source.toList) =>
    Source.visits_eachStatement hf t
  have hjoins := Visits.mapM fun j (_ : j ∈ q.joins) =>
    (Source.visits_eachStatement hf j.right).map fun t => { j with right := t }
  have hexprs := visits_eachExpr (q := q.mapStatements g) fun e _ =>
    Expr.visits (Expr.visits_eachStatement hf) e
  have hnodes : ∀ e : Expr, (e.nodes.filterMap Expr.statement?).flatMap v
      = e.nodes.flatMap fun c => c.statement?.toList.flatMap v := by
    intro e
    rw [List.filterMap_eq_flatMap_toList, List.flatMap_assoc]
  refine (hsource.bind (hjoins.bind hexprs)).congr ?_
  rw [flatMap_subqueries, exprs_mapStatements, sources, List.flatMap_append, List.flatMap_map,
    List.append_assoc]
  simp only [hnodes]

theorem withSubqueries_map (g : Statement → Statement) (q : Select) :
    q.withSubqueries (q.subqueries.map g)
      = (q.mapStatements g).mapExprs (Expr.mapNodes (Expr.mapStatement g)) := by
  have h := visits_eachStatement (D := Ledger.take) (fun s => visits_next s (g s)) q
  have hrun := h (q.subqueries.map g) [] (by simp [Ledger.take, List.map_eq_flatMap])
  rw [withSubqueries, hrun]

/-- Parameters of the expressions first and statements afterwards: every parameter is changed. -/
theorem withSubqueries_mapParams (h : Param → Param) (q : Select) :
    (q.mapExprs (Expr.mapNodes (Expr.mapParam h))).withSubqueries
      (q.subqueries.map (Statement.mapParams h)) = q.mapParams h := by
  have hnodes := Expr.statements_mapNodes (Expr.children_mapParam h) (Expr.statement?_mapParam h)
  have hkept : (q.mapExprs (Expr.mapNodes (Expr.mapParam h))).subqueries = q.subqueries := by
    simp only [subqueries, sources_mapExprs, exprs_mapExprs, List.flatMap_map,
      List.filterMap_flatMap, hnodes]
  have hcomp : Expr.mapNodes (Expr.mapStatement (Statement.mapParams h))
      ∘ Expr.mapNodes (Expr.mapParam h) = Expr.mapParams h :=
    funext (Expr.mapNodes_mapParam h)
  rw [← hkept, withSubqueries_map, mapStatements_mapExprs, mapExprs_mapExprs, hcomp, mapParams_eq]

end Select

/-! ## Visits of a tree -/

section

variable {h : Param → Param} {f : Select → StateM σ Select} {v : Select → List ι}

mutual

/-- **A visit of a statement enters every select and changes the parameters of each.** -/
theorem Statement.visits
    (hf : ∀ q, Visits D (f q) (v q) (q.mapExprs (Expr.mapNodes (Expr.mapParam h))))
    (s : Statement) : Visits D (s.visit f) (s.selects.flatMap v) (s.mapParams h) := by
  have hctes := Visits.mapM fun c (hc : c ∈ s.ctes) =>
    (Statement.visits hf c.statement).map (Cte.mk c.name c.columns)
  have hbody := Body.visits hf s.body
  rw [Statement.visit_eq, Statement.selects_eq]
  rw [Statement.mapParams_eq]
  refine (hctes.bind (hbody.map _)).congr ?_
  rw [List.flatMap_append, List.flatMap_assoc]
termination_by sizeOf s
decreasing_by
  · exact Statement.sizeOf_lt_of_mem_ctes hc
  · exact s.sizeOf_body_lt

theorem Body.visits
    (hf : ∀ q, Visits D (f q) (v q) (q.mapExprs (Expr.mapNodes (Expr.mapParam h))))
    (b : Body) : Visits D (b.visit f) (b.selects.flatMap v) (b.mapParams h) := by
  match b with
  | .select q =>
    have hsubqueries := Visits.mapM fun s (hs : s ∈ q.subqueries) => Statement.visits hf s
    -- the select is changed first; its statements are visited as they were and put back
    rw [Body.visit_select, Body.selects_select, Body.mapParams, ← q.withSubqueries_mapParams]
    refine ((hf q).bind (hsubqueries.map _)).congr ?_
    rw [List.flatMap_cons, List.flatMap_assoc]
  | .setOp l op r =>
    rw [Body.visit_setOp, Body.selects_setOp, Body.mapParams]
    refine ((Body.visits hf l).bind ((Body.visits hf r).map _)).congr ?_
    rw [List.flatMap_append]
  | .nested s =>
    rw [Body.visit_nested, Body.selects_nested, Body.mapParams]
    exact (Statement.visits hf s).map _
termination_by sizeOf b
decreasing_by
  · have := Select.sizeOf_lt_of_mem_subqueries hs
    simp +arith only [Body.select.sizeOf_spec]; omega
  all_goals simp +arith

end

end

/-- **A visit of the expressions of a statement enters all its nodes, in the order of
`Statement.nodes`, and changes every parameter.** -/
theorem Statement.visits_exprs {h : Param → Param} {f : Expr → StateM σ Expr} {v : Expr → List ι}
    (hf : ∀ e, Visits D (f e) (v e) (e.mapParam h)) (s : Statement) :
    Visits D (s.visitExprs f) (s.nodes.flatMap v) (s.mapParams h) := by
  have hselects := Statement.visits (f := fun q => q.eachExpr (Expr.visit f))
    (fun q => Select.visits_eachExpr fun e _ => Expr.visits hf e) s
  refine hselects.congr ?_
  simp only [Statement.nodes, List.flatMap_assoc]

end Sql
