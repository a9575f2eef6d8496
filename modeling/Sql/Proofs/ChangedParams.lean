import Sql.Edit.Bind
import Sql.Proofs.CteOrder
import Sql.Proofs.Visits

/-!
# Parameters of a changed tree

The parameters of a tree in printed order are what a change of parameters sees of it.

* `Statement.params_mapParams`: the parameters of the changed tree are the changed parameters.
* `Statement.mapParams_mapParams`: changes one after the other are one change, and what a change
  does to parameters that the tree does not have is of no matter.
* `Statement.mapParams_eq_self`: a change that keeps the parameters of a tree keeps the tree.
-/

namespace Sql

variable {f g h : Param → Param}

/-! ## The parameters of the changed tree -/

theorem Expr.param?_mapParams (e : Expr) : (e.mapParams f).param? = e.param?.map f := by
  cases e <;> simp [mapParams, param?]

theorem Select.parts_mapParams (q : Select) :
    (q.mapParams f).parts = q.parts.map (Sum.map (Expr.mapParams f) (Source.mapParams f)) := by
  obtain ⟨distinct, items, source, joins, filter, groupBy, having, orderBy, limit, offset⟩ := q
  have hoption : ∀ o : Option Expr,
      (o.map (Expr.mapParams f)).toList = o.toList.map (Expr.mapParams f) := by
    intro o
    cases o <;> rfl
  have hsource : (source.map (Source.mapParams f)).toList
      = source.toList.map (Source.mapParams f) := by
    cases source <;> rfl
  simp only [mapParams, parts, tailExprs, mapParamsItems_eq, mapParamsSource?_eq,
    mapParamsJoins_eq, mapParams?_eq, mapParamsList_eq, mapParamsOrder_eq, hoption, hsource,
    List.map_append, List.map_map, List.map_flatMap, List.flatMap_map, List.map_cons,
    JoinConstraint.condition?_mapParams]
  rfl

mutual

theorem Expr.params_mapParams (e : Expr) : (e.mapParams f).params = e.params.map f := by
  have hchildren : e.children.map (fun c => (c.mapParams f).params)
      = e.children.map fun c => c.params.map f :=
    List.map_congr_left fun c hc => Expr.params_mapParams c
  rw [Expr.params_eq, Expr.params_eq e, Expr.param?_mapParams, Expr.children_mapParams,
    Expr.statement?_mapParams, List.map_append, List.map_append, List.flatMap_map,
    List.map_flatMap, List.flatMap_def, hchildren, ← List.flatMap_def]
  congr 1
  · cases e.param? <;> rfl
  · congr 1
    cases hs : e.statement? with
    | none => rfl
    | some s => simp [Statement.params_mapParams s]
termination_by sizeOf e
decreasing_by
  · exact Expr.sizeOf_lt_of_mem_children hc
  · exact Expr.sizeOf_lt_of_statement? hs

theorem Body.params_mapParams (b : Body) : (b.mapParams f).params = b.params.map f := by
  match b with
  | .select q =>
    rw [Body.mapParams, Body.params_select, Body.params_select, Select.parts_mapParams,
      List.flatMap_map, List.map_flatMap, List.flatMap_def, List.flatMap_def]
    refine congrArg List.flatten (List.map_congr_left ?_)
    rintro (e | t) hp
    · exact Expr.params_mapParams e
    · show (t.mapParams f).params = t.params.map f
      rw [Source.params_eq, Source.params_eq, Source.statement?_mapParams]
      cases hs : t.statement? with
      | none => rfl
      | some s => simp [Statement.params_mapParams s]
  | .setOp l op r =>
    rw [Body.mapParams, Body.params_setOp, Body.params_setOp, List.map_append,
      Body.params_mapParams l, Body.params_mapParams r]
  | .nested s =>
    rw [Body.mapParams, Body.params_nested, Body.params_nested, Statement.params_mapParams s]
termination_by sizeOf b
decreasing_by
  · have := Select.sizeOf_lt_of_mem_exprs (Select.mem_exprs_of_mem_parts hp)
    simp +arith only [Body.select.sizeOf_spec]; omega
  · have := Source.sizeOf_lt_of_statement? hs
    have := Select.sizeOf_lt_of_mem_sources (Select.mem_sources_of_mem_parts hp)
    simp +arith only [Body.select.sizeOf_spec]; omega
  all_goals simp +arith

/-- **The parameters of the changed tree are the changed parameters of the tree.** -/
theorem Statement.params_mapParams (s : Statement) : (s.mapParams f).params = s.params.map f := by
  have hctes : s.ctes.map (fun c => (c.statement.mapParams f).params)
      = s.ctes.map fun c => c.statement.params.map f :=
    List.map_congr_left fun c hc => Statement.params_mapParams c.statement
  rw [Statement.params_eq, Statement.params_eq s, Statement.ctes_mapParams,
    Statement.body_mapParams, List.map_append, List.flatMap_map, List.map_flatMap,
    List.flatMap_def, hctes, ← List.flatMap_def, Body.params_mapParams s.body]
termination_by sizeOf s
decreasing_by
  · exact Statement.sizeOf_lt_of_mem_ctes hc
  · exact s.sizeOf_body_lt

end

/-! ## Changes one after the other -/

mutual

theorem Expr.mapParams_mapParams (e : Expr) (hp : ∀ p ∈ e.params, g (f p) = h p) :
    (e.mapParams f).mapParams g = e.mapParams h := by
  rw [Expr.params_eq, List.forall_mem_append, List.forall_mem_append, List.forall_mem_flatMap,
    List.forall_mem_flatMap] at hp
  obtain ⟨hnode, hchildren, hstatement⟩ := hp
  have hparam : (e.mapParam f).mapParam g = e.mapParam h := by
    cases e with
    | param p => rw [Expr.mapParam, Expr.mapParam, Expr.mapParam, hnode p (by simp [Expr.param?])]
    | _ => rfl
  -- changing the parameter at the node leaves its statement and its children
  have hs : ∀ s ∈ (e.mapParam h).statement?,
      (Statement.mapParams g ∘ Statement.mapParams f) s = s.mapParams h := by
    intro s hmem
    have hs : e.statement? = some s := by rwa [Expr.statement?_mapParam] at hmem
    exact Statement.mapParams_mapParams s (hstatement s (by simp [hs]))
  have hc : ∀ c ∈ ((e.mapParam h).mapStatement (Statement.mapParams h)).children,
      (Expr.mapParams g ∘ Expr.mapParams f) c = c.mapParams h := by
    intro c hmem
    have hc : c ∈ e.children := by
      rwa [Expr.children_mapStatement, Expr.children_mapParam] at hmem
    exact Expr.mapParams_mapParams c (hchildren c hc)
  rw [Expr.mapParams_eq f e, Expr.mapParams_eq g, Expr.mapParam_mapChildren,
    Expr.mapParam_mapStatement, hparam, Expr.mapStatement_mapChildren,
    Expr.mapStatement_mapStatement, Expr.mapChildren_mapChildren, Expr.mapStatement_congr hs,
    Expr.mapChildren_congr hc, ← Expr.mapParams_eq]
termination_by sizeOf e
decreasing_by
  · exact Expr.sizeOf_lt_of_statement? hs
  · exact Expr.sizeOf_lt_of_mem_children hc

theorem Body.mapParams_mapParams (b : Body) (hp : ∀ p ∈ b.params, g (f p) = h p) :
    (b.mapParams f).mapParams g = b.mapParams h := by
  match b with
  | .select q =>
    rw [Body.params_select, List.forall_mem_flatMap] at hp
    -- the parameters of the select are those of its parts, in whatever order these are printed
    have he : ∀ e ∈ (q.mapStatements (Statement.mapParams h)).exprs,
        (Expr.mapParams g ∘ Expr.mapParams f) e = e.mapParams h := by
      intro e he
      rw [Select.exprs_mapStatements, ← q.lefts_parts] at he
      obtain ⟨p, hpart, hpe⟩ := List.mem_filterMap.mp he
      obtain rfl := Sum.getLeft?_eq_some_iff.mp hpe
      exact Expr.mapParams_mapParams e (hp _ hpart)
    have ht : ∀ t ∈ q.sources, ∀ s ∈ t.statement?,
        (Statement.mapParams g ∘ Statement.mapParams f) s = s.mapParams h := by
      intro t ht s hs
      rw [← q.rights_parts] at ht
      obtain ⟨p, hpart, hpt⟩ := List.mem_filterMap.mp ht
      obtain rfl := Sum.getRight?_eq_some_iff.mp hpt
      have hparams := hp _ hpart
      rw [Sum.elim_inr, Source.params_eq, List.forall_mem_flatMap] at hparams
      exact Statement.mapParams_mapParams s (hparams s (by simpa using hs))
    rw [Body.mapParams, Body.mapParams, Body.mapParams, Select.mapParams_eq f,
      Select.mapParams_eq g, Select.mapStatements_mapExprs, Select.mapStatements_mapStatements,
      Select.mapExprs_mapExprs, Select.mapStatements_congr ht, Select.mapExprs_congr he,
      ← Select.mapParams_eq]
  | .setOp l op r =>
    rw [Body.params_setOp, List.forall_mem_append] at hp
    rw [Body.mapParams, Body.mapParams, Body.mapParams, Body.mapParams_mapParams l hp.1,
      Body.mapParams_mapParams r hp.2]
  | .nested s =>
    rw [Body.params_nested] at hp
    rw [Body.mapParams, Body.mapParams, Body.mapParams, Statement.mapParams_mapParams s hp]
termination_by sizeOf b
decreasing_by
  · have := Select.sizeOf_lt_of_mem_exprs (Select.mem_exprs_of_mem_parts hpart)
    simp +arith only [Body.select.sizeOf_spec]; omega
  · have := Source.sizeOf_lt_of_statement? hs
    have := Select.sizeOf_lt_of_mem_sources (Select.mem_sources_of_mem_parts hpart)
    simp +arith only [Body.select.sizeOf_spec]; omega
  all_goals simp +arith

/-- **Two changes are one,** whatever they do to parameters that the tree does not have. -/
theorem Statement.mapParams_mapParams (s : Statement) (hp : ∀ p ∈ s.params, g (f p) = h p) :
    (s.mapParams f).mapParams g = s.mapParams h := by
  rw [Statement.params_eq, List.forall_mem_append, List.forall_mem_flatMap] at hp
  have hctes : ∀ c ∈ s.ctes,
      Cte.mk c.name c.columns ((c.statement.mapParams f).mapParams g)
        = Cte.mk c.name c.columns (c.statement.mapParams h) := by
    intro c hc
    rw [Statement.mapParams_mapParams c.statement (hp.1 c hc)]
  have hwith : ((s.mapParams f).withClause.map fun w => { w with
      ctes := (s.mapParams f).ctes.map fun c : Cte =>
        ⟨c.name, c.columns, c.statement.mapParams g⟩ })
      = s.withClause.map fun w => { w with
        ctes := s.ctes.map fun c : Cte => ⟨c.name, c.columns, c.statement.mapParams h⟩ } := by
    rw [Statement.ctes_mapParams, List.map_map, ← List.map_congr_left hctes,
      Statement.mapParams_eq f s]
    cases s.withClause <;> rfl
  rw [Statement.mapParams_eq g, hwith, Statement.body_mapParams,
    Body.mapParams_mapParams s.body hp.2, ← Statement.mapParams_eq]
termination_by sizeOf s
decreasing_by
  · exact Statement.sizeOf_lt_of_mem_ctes hc
  · exact s.sizeOf_body_lt

end

/-! ## Changes that keep the tree -/

mutual

theorem Expr.mapParams_id (e : Expr) : e.mapParams id = e := by
  have hparam : e.mapParam id = e := by
    cases e <;> rfl
  have hs : ∀ s ∈ e.statement?, s.mapParams id = id s := by
    intro s hs
    exact Statement.mapParams_id s
  have hc : ∀ c ∈ e.children, c.mapParams id = id c := by
    intro c hc
    exact Expr.mapParams_id c
  rw [Expr.mapParams_eq, hparam, Expr.mapStatement_congr hs, Expr.mapStatement_id,
    Expr.mapChildren_congr hc, Expr.mapChildren_id]
termination_by sizeOf e
decreasing_by
  · exact Expr.sizeOf_lt_of_statement? hs
  · exact Expr.sizeOf_lt_of_mem_children hc

theorem Body.mapParams_id (b : Body) : b.mapParams id = b := by
  match b with
  | .select q =>
    have ht : ∀ t ∈ q.sources, ∀ s ∈ t.statement?, s.mapParams id = id s := by
      intro t ht s hs
      exact Statement.mapParams_id s
    have he : ∀ e ∈ q.exprs, e.mapParams id = id e := by
      intro e he
      exact Expr.mapParams_id e
    rw [Body.mapParams, Select.mapParams_eq, Select.mapStatements_congr ht, Select.mapStatements_id,
      Select.mapExprs_congr he, Select.mapExprs_id]
  | .setOp l op r => rw [Body.mapParams, Body.mapParams_id l, Body.mapParams_id r]
  | .nested s => rw [Body.mapParams, Statement.mapParams_id s]
termination_by sizeOf b
decreasing_by
  · have := Source.sizeOf_lt_of_statement? hs
    have := Select.sizeOf_lt_of_mem_sources ht
    simp +arith only [Body.select.sizeOf_spec]; omega
  · have := Select.sizeOf_lt_of_mem_exprs he
    simp +arith only [Body.select.sizeOf_spec]; omega
  all_goals simp +arith

theorem Statement.mapParams_id (s : Statement) : s.mapParams id = s := by
  have hctes : ∀ c ∈ s.ctes, Cte.mk c.name c.columns (c.statement.mapParams id) = c := by
    intro c hc
    rw [Statement.mapParams_id c.statement]
    cases c
    rfl
  have hwith : (s.withClause.map fun w => { w with
      ctes := s.ctes.map fun c : Cte => ⟨c.name, c.columns, c.statement.mapParams id⟩ })
      = s.withClause := by
    rw [List.map_congr_left hctes, List.map_id']
    obtain ⟨_ | ⟨recursive, cs⟩, body⟩ := s <;> rfl
  rw [Statement.mapParams_eq, hwith, Body.mapParams_id s.body]
  cases s
  rfl
termination_by sizeOf s
decreasing_by
  · exact Statement.sizeOf_lt_of_mem_ctes hc
  · exact s.sizeOf_body_lt

end

theorem Statement.mapParams_congr {s : Statement} (hp : ∀ p ∈ s.params, f p = g p) :
    s.mapParams f = s.mapParams g := by
  have h := s.mapParams_mapParams (f := id) (g := f) (h := g) hp
  rwa [Statement.mapParams_id] at h

/-- **A change that keeps the parameters of a tree keeps the tree.** -/
theorem Statement.mapParams_eq_self {s : Statement} (hp : ∀ p ∈ s.params, f p = p) :
    s.mapParams f = s := by
  rw [Statement.mapParams_congr (g := id) hp, Statement.mapParams_id]

end Sql
