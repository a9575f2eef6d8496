import Sql.Collect.Parameters
import Sql.Format

/-!
# Parameters in printed order

The printer puts the parameters of a tree among its fragments; the walk in printed order meets them
among the nodes. Both orders are the same one, in every clause and at every depth, as long as the
printer prints every join (`Select.JoinsPrinted`).

* `Fragment.params_joined` and its neighbours: the layout adds no parameter.
* `Statement.params_fragments`: the fragments of a statement hold the parameters that the walk
  meets, in that order.
-/

namespace Sql

/-! ## Parameters among fragments -/

namespace Fragment

/-- The parameter that a fragment is. -/
def param? : Fragment → Option Param
  | param p => some p
  | _ => none

/-- The parameters among fragments. -/
def params (fs : List Fragment) : List Param := fs.filterMap param?

@[simp] theorem params_nil : params [] = [] := rfl

@[simp] theorem params_append (fs gs : List Fragment) : params (fs ++ gs) = params fs ++ params gs :=
  List.filterMap_append

@[simp] theorem params_param (p : Param) (fs : List Fragment) :
    params (param p :: fs) = p :: params fs := rfl

@[simp] theorem params_text (s : String) (fs : List Fragment) : params (text s :: fs) = params fs :=
  rfl

@[simp] theorem params_keyword (w : String) (fs : List Fragment) :
    params (keyword w :: fs) = params fs := rfl

@[simp] theorem params_name (n : String) (fs : List Fragment) : params (name n :: fs) = params fs :=
  rfl

@[simp] theorem params_function (n : String) (fs : List Fragment) :
    params (function n :: fs) = params fs := rfl

@[simp] theorem params_sign (s : String) (fs : List Fragment) : params (sign s :: fs) = params fs :=
  rfl

@[simp] theorem params_lineEnd (d : Nat) (fs : List Fragment) :
    params (lineEnd d :: fs) = params fs := rfl

@[simp] theorem params_edge (d : Nat) (fs : List Fragment) : params (edge d :: fs) = params fs :=
  rfl

@[simp] theorem params_comma (d : Nat) (fs : List Fragment) : params (comma d :: fs) = params fs :=
  rfl

@[simp] theorem params_conjunction (d : Nat) (fs : List Fragment) :
    params (conjunction d :: fs) = params fs := rfl

/-- A separator without parameters adds none. -/
theorem params_joined {separator : List Fragment} (h : params separator = [])
    (parts : List (List Fragment)) : params (joined separator parts) = parts.flatMap params := by
  unfold joined
  induction parts with
  | nil => rfl
  | cons fs parts ih =>
    cases parts with
    | nil => simp
    | cons gs parts => simp_all [List.intercalate_cons_cons]

@[simp] theorem params_joined_text (s : String) (parts : List (List Fragment)) :
    params (joined [text s] parts) = parts.flatMap params :=
  params_joined rfl parts

@[simp] theorem params_joined_comma (depth : Nat) (parts : List (List Fragment)) :
    params (joined [comma depth] parts) = parts.flatMap params :=
  params_joined rfl parts

@[simp] theorem params_inParens (fs : List Fragment) : params (inParens fs) = params fs := by
  simp [inParens]

theorem flatMap_params_name (ns : List String) : (ns.map fun n => [name n]).flatMap params = [] := by
  induction ns with
  | nil => rfl
  | cons n ns ih => simp [ih]

@[simp] theorem params_names (ns : List String) : params (names ns) = [] := by
  rw [names, params_joined rfl, flatMap_params_name]

@[simp] theorem params_dottedName (path : List String) (n : String) :
    params (dottedName path n) = [] := by
  rw [dottedName, params_joined rfl, flatMap_params_name]

@[simp] theorem params_alias? (a : Option String) : params (alias? a) = [] := by
  cases a <;> rfl

end Fragment

open Fragment

@[simp] theorem params_operand (strength : Nat) (onRight : Bool) (e : Expr) (fs : List Fragment) :
    params (operand strength onRight e fs) = params fs := by
  unfold operand
  split
  · exact params_inParens fs
  · rfl

@[simp] theorem Literal.params_fragments (l : Literal) : params l.fragments = [] := by
  cases l with
  | boolean b => cases b <;> rfl
  | _ => rfl

@[simp] theorem BinaryOp.params_fragments (op : BinaryOp) : params op.fragments = [] := by
  cases op <;> rfl

@[simp] theorem UnaryOp.params_fragments (op : UnaryOp) : params op.fragments = [] := by
  cases op <;> rfl

@[simp] theorem params_predicateWord (word negatedWord : String) (negated : Bool) :
    params (predicateWord word negatedWord negated) = [] := rfl

@[simp] theorem params_directionFragments (d : Option SortDirection) :
    params (directionFragments d) = [] := by
  rcases d with _ | ⟨_ | _⟩ <;> rfl

@[simp] theorem params_nullsFragments (n : Option NullsOrder) : params (nullsFragments n) = [] := by
  rcases n with _ | ⟨_ | _⟩ <;> rfl

@[simp] theorem params_clauseFragments (depth : Nat) (word : String) (fs : List Fragment) :
    params (clauseFragments depth word fs) = params fs := by
  simp [clauseFragments]

@[simp] theorem params_listClause (depth : Nat) (word : String) (parts : List (List Fragment)) :
    params (listClause depth word parts) = parts.flatMap params := by
  unfold listClause
  cases parts with
  | nil => rfl
  | cons fs parts =>
    rw [if_neg (by simp), params_clauseFragments, params_joined rfl]

@[simp] theorem params_block (depth : Nat) (fs : List Fragment) :
    params (block depth fs) = params fs := by
  simp [block]

/-! ## Parameters and selects below a node -/

/-- The parameters of an expression in printed order. -/
def Expr.params (e : Expr) : List Param := e.nodesInOrder.filterMap Expr.param?

/-- The parameters of a FROM source in printed order. -/
def Source.params (t : Source) : List Param := t.nodesInOrder.filterMap Expr.param?

/-- The parameters of a body in printed order. -/
def Body.params (b : Body) : List Param := b.nodesInOrder.filterMap Expr.param?

theorem Expr.params_eq (e : Expr) :
    e.params = e.param?.toList ++ (e.children.flatMap Expr.params
      ++ e.statement?.toList.flatMap Statement.params) := by
  unfold Expr.params Statement.params
  rw [Expr.nodesInOrder_eq, List.filterMap_cons, List.filterMap_append, List.filterMap_flatMap,
    List.filterMap_flatMap]
  cases e.param? <;> rfl

theorem Source.params_eq (t : Source) :
    t.params = t.statement?.toList.flatMap Statement.params := by
  unfold Source.params Source.nodesInOrder Statement.params
  cases t.statement? <;> simp

theorem Body.params_select (q : Select) :
    (Body.select q).params = q.parts.flatMap fun p => p.elim Expr.params Source.params := by
  rw [Body.params, Body.nodesInOrder_select, List.filterMap_flatMap]
  congr 1
  funext p
  cases p <;> rfl

theorem Body.params_setOp (left right : Body) (op : SetOperator) :
    (Body.setOp left op right).params = left.params ++ right.params := by
  rw [Body.params, Body.nodesInOrder_setOp, List.filterMap_append]
  rfl

theorem Body.params_nested (s : Statement) : (Body.nested s).params = s.params := by
  rw [Body.params, Body.nodesInOrder_nested]
  rfl

theorem Statement.params_eq (s : Statement) :
    s.params = s.ctes.flatMap (fun c => c.statement.params) ++ s.body.params := by
  unfold Statement.params Body.params
  rw [Statement.nodesInOrder_eq, List.filterMap_append, List.filterMap_flatMap]

/-- The selects of the statements nested in an expression. -/
def Expr.selects (e : Expr) : List Select :=
  (e.nodes.filterMap Expr.statement?).flatMap Statement.selects

/-- The selects of a FROM source. -/
def Source.selects (t : Source) : List Select := t.statement?.toList.flatMap Statement.selects

theorem Expr.selects_eq (e : Expr) :
    e.selects = e.statement?.toList.flatMap Statement.selects
      ++ e.children.flatMap Expr.selects :=
  e.flatMap_statements Statement.selects

theorem Select.selects_subqueries (q : Select) :
    q.subqueries.flatMap Statement.selects
      = q.sources.flatMap Source.selects ++ q.exprs.flatMap Expr.selects :=
  q.flatMap_subqueries Statement.selects

/-! ## Joins that are printed -/

/-- The printer prints every join of the select: there is none without a first source, and a comma
has no condition. -/
def Select.JoinsPrinted (q : Select) : Prop :=
  (q.source = none → q.joins = [])
    ∧ ∀ j ∈ q.joins, j.kind = .comma → j.constraint.condition? = none

/-- The joins of every select of the tree are printed. -/
def Statement.JoinsPrinted (s : Statement) : Prop := ∀ q ∈ s.selects, q.JoinsPrinted

/-! ## One node

Each node prints the parameters that the walk meets in it if its parts do. The parts of a node are
those of the walk: `Expr.children`, `Expr.statement?`, `Select.parts`. -/

/-- The expression prints its parameters in the order of the walk, at every depth. -/
def Expr.PrintsParams (e : Expr) : Prop :=
  ∀ depth condition, Fragment.params (e.fragments depth condition) = e.params

/-- The statement prints its parameters in the order of the walk, at every depth. -/
def Statement.PrintsParams (s : Statement) : Prop :=
  ∀ depth, Fragment.params (s.fragments depth) = s.params

theorem params_optionFragments {e : Option Expr} (h : ∀ x ∈ e.toList, x.PrintsParams)
    (depth : Nat) (condition : Bool) (before after : List Fragment) :
    Fragment.params (optionFragments depth condition before after e) = e.toList.flatMap fun x =>
      Fragment.params before ++ x.params ++ Fragment.params after := by
  cases e with
  | none =>
    rw [optionFragments]
    rfl
  | some x =>
    rw [optionFragments]
    simp [h x (by simp) depth condition]

theorem params_exprFragments {es : List Expr} (h : ∀ e ∈ es, e.PrintsParams) (depth : Nat) :
    (exprFragments depth es).flatMap Fragment.params = es.flatMap Expr.params := by
  induction es with
  | nil =>
    rw [exprFragments]
    rfl
  | cons e es ih =>
    rw [List.forall_mem_cons] at h
    rw [exprFragments, List.flatMap_cons, List.flatMap_cons, h.1, ih h.2]

theorem params_branchFragments {bs : List Branch}
    (h : ∀ e ∈ bs.flatMap fun b => [b.condition, b.result], e.PrintsParams) (depth : Nat) :
    Fragment.params (branchFragments depth bs)
      = (bs.flatMap fun b => [b.condition, b.result]).flatMap Expr.params := by
  induction bs with
  | nil =>
    rw [branchFragments]
    rfl
  | cons b bs ih =>
    obtain ⟨c, r⟩ := b
    simp only [List.flatMap_cons, List.forall_mem_append, List.forall_mem_cons] at h
    obtain ⟨⟨hc, hr, -⟩, hbs⟩ := h
    rw [branchFragments]
    simp [hc depth false, hr depth false, ih hbs]

theorem params_orderFragments {os : List OrderItem}
    (h : ∀ e ∈ os.map OrderItem.expr, e.PrintsParams) (depth : Nat) :
    (orderFragments depth os).flatMap Fragment.params
      = (os.map OrderItem.expr).flatMap Expr.params := by
  induction os with
  | nil =>
    rw [orderFragments]
    rfl
  | cons o os ih =>
    obtain ⟨e, d, n⟩ := o
    rw [List.map_cons, List.forall_mem_cons] at h
    rw [orderFragments]
    simp [h.1 depth false, ih h.2]

theorem params_itemFragments {is : List SelectItem}
    (h : ∀ e ∈ is.map SelectItem.expr, e.PrintsParams) (depth : Nat) :
    (itemFragments depth is).flatMap Fragment.params
      = (is.map SelectItem.expr).flatMap Expr.params := by
  induction is with
  | nil =>
    rw [itemFragments]
    rfl
  | cons i is ih =>
    obtain ⟨e, a⟩ := i
    rw [List.map_cons, List.forall_mem_cons] at h
    rw [itemFragments]
    simp [h.1 depth false, ih h.2]

theorem Window.params_fragments {w : Window} (h : ∀ e ∈ w.exprs, e.PrintsParams) (depth : Nat) :
    Fragment.params (w.fragments depth) = w.exprs.flatMap Expr.params := by
  obtain ⟨partitionBy, orderBy⟩ := w
  simp only [exprs, List.forall_mem_append] at h
  have hp := params_exprFragments h.1 depth
  have ho := params_orderFragments h.2 depth
  rw [Window.fragments, params_joined rfl]
  simp only [exprs, List.flatMap_append]
  congr 1
  · cases partitionBy with
    | nil => rfl
    | cons p ps => simpa using hp
  · cases orderBy with
    | nil => rfl
    | cons o os => simpa using ho

theorem params_overFragments {window : Option Window}
    (h : ∀ e ∈ window.toList.flatMap Window.exprs, e.PrintsParams) (depth : Nat) :
    Fragment.params (overFragments depth window)
      = (window.toList.flatMap Window.exprs).flatMap Expr.params := by
  cases window with
  | none =>
    rw [overFragments]
    rfl
  | some w =>
    have hw := Window.params_fragments (by simpa using h) depth
    rw [overFragments]
    simp [hw]

/-- An expression prints its parameters in order if its children and its nested statement do. -/
theorem Expr.printsParams_of_parts {e : Expr} (hchildren : ∀ c ∈ e.children, c.PrintsParams)
    (hstatement : ∀ s ∈ e.statement?, s.PrintsParams) : e.PrintsParams := by
  intro depth condition
  rw [params_eq]
  cases e with
  | column c =>
    rw [fragments]
    simp [param?, children, statement?]
  | star q => cases q <;> rw [fragments] <;> simp [param?, children, statement?]
  | literal l =>
    rw [fragments]
    simp [param?, children, statement?]
  | param p =>
    rw [fragments]
    simp [param?, children, statement?]
  | call n args distinct filter window =>
    simp only [children, List.forall_mem_append] at hchildren
    obtain ⟨⟨hargs, hfilter⟩, hwindow⟩ := hchildren
    have ha := params_exprFragments hargs depth
    have ho := params_overFragments hwindow depth
    have hf := params_optionFragments hfilter depth false
    rw [fragments]
    cases distinct <;> simp [ha, hf, ho, param?, children, statement?]
  | binary l op r =>
    simp only [children, List.forall_mem_cons] at hchildren
    obtain ⟨hl, hr, -⟩ := hchildren
    rw [fragments]
    simp only [params_append, params_operand, hl depth, hr depth, param?, children, statement?]
    -- the operator is a place for a line end, or text: no parameter either way
    split <;> simp
  | between e low high negated =>
    simp only [children, List.forall_mem_cons] at hchildren
    obtain ⟨he, hlow, hhigh, -⟩ := hchildren
    rw [fragments]
    simp [he depth, hlow depth, hhigh depth, param?, children, statement?]
  | inList e items negated =>
    simp only [children, List.forall_mem_cons] at hchildren
    rw [fragments]
    simp [hchildren.1 depth, params_exprFragments hchildren.2 depth, param?, children, statement?]
  | inQuery e s negated =>
    simp only [children, List.forall_mem_cons] at hchildren
    rw [fragments]
    simp [hchildren.1 depth, hstatement s rfl (depth + 1), param?, children, statement?]
  | hasRows s =>
    rw [fragments]
    simp [hstatement s rfl (depth + 1), param?, children, statement?]
  | subquery s =>
    rw [fragments]
    simp [hstatement s rfl (depth + 1), param?, children, statement?]
  | case scrutinee branches fallback =>
    simp only [children, List.forall_mem_append] at hchildren
    obtain ⟨⟨hscrutinee, hbranches⟩, hfallback⟩ := hchildren
    have hb := params_branchFragments hbranches depth
    have hs := params_optionFragments hscrutinee depth false
    have hf := params_optionFragments hfallback depth false
    rw [fragments]
    simp [hs, hf, hb, param?, children, statement?]
  | cast e type short =>
    simp only [children, List.forall_mem_cons] at hchildren
    cases short <;> rw [fragments] <;> simp [hchildren.1 depth, param?, children, statement?]
  | unary op e =>
    simp only [children, List.forall_mem_cons] at hchildren
    rw [fragments]
    simp [hchildren.1 depth, param?, children, statement?]
  | isNull e negated =>
    simp only [children, List.forall_mem_cons] at hchildren
    rw [fragments]
    simp [hchildren.1 depth, param?, children, statement?]
  | paren e =>
    simp only [children, List.forall_mem_cons] at hchildren
    rw [fragments]
    simp [hchildren.1 depth, param?, children, statement?]

/-- The statement of the source, if there is one, prints its parameters in order. -/
def Source.PrintsParams (t : Source) : Prop := ∀ s ∈ t.statement?, s.PrintsParams

theorem Source.params_fragments {t : Source} (h : t.PrintsParams) (depth : Nat) :
    Fragment.params (t.fragments depth) = t.params := by
  rw [params_eq]
  cases t with
  | table path n a =>
    rw [fragments]
    simp [statement?]
  | subquery s a =>
    rw [fragments]
    simp [h s rfl (depth + 1), statement?]

theorem params_fromFragments {source : Option Source}
    (h : ∀ t ∈ source.toList, t.PrintsParams) (depth : Nat) :
    Fragment.params (fromFragments depth source) = source.toList.flatMap Source.params := by
  cases source with
  | none =>
    rw [fromFragments]
    rfl
  | some t =>
    rw [fromFragments]
    simp [Source.params_fragments (h t (by simp)) depth]

theorem JoinConstraint.params_fragments {c : JoinConstraint}
    (h : ∀ e ∈ c.condition?.toList, e.PrintsParams) (depth : Nat) :
    Fragment.params (c.fragments depth) = c.condition?.toList.flatMap Expr.params := by
  cases c with
  | on e =>
    rw [fragments]
    simp [h e (by simp [condition?]) depth true, condition?]
  | shared columns =>
    rw [fragments]
    simp [condition?]
  | none =>
    rw [fragments]
    rfl

theorem params_joinFragments {js : List Join}
    (hcomma : ∀ j ∈ js, j.kind = .comma → j.constraint.condition? = none)
    (hright : ∀ j ∈ js, j.right.PrintsParams)
    (hconstraint : ∀ j ∈ js, ∀ e ∈ j.constraint.condition?.toList, e.PrintsParams) (depth : Nat) :
    Fragment.params (joinFragments depth js) = js.flatMap fun j =>
      j.right.params ++ j.constraint.condition?.toList.flatMap Expr.params := by
  induction js with
  | nil =>
    rw [joinFragments]
    rfl
  | cons j js ih =>
    obtain ⟨kind, right, constraint⟩ := j
    rw [List.forall_mem_cons] at hcomma hright hconstraint
    have hr := Source.params_fragments hright.1 depth
    have hc := JoinConstraint.params_fragments hconstraint.1 depth
    rw [joinFragments, List.flatMap_cons, params_append, ih hcomma.2 hright.2 hconstraint.2]
    congr 1
    -- a comma prints no constraint; that it has no condition is what makes this harmless
    by_cases hk : kind = .comma
    · rw [if_pos hk, params_text, hr, hcomma.1 hk]
      simp
    · rw [if_neg hk, params_append, params_clauseFragments, hr, hc]

theorem Select.params_fragments {q : Select} (hq : q.JoinsPrinted)
    (h : ∀ p ∈ q.parts, p.elim Expr.PrintsParams Source.PrintsParams) (depth : Nat) :
    Fragment.params (q.fragments depth)
      = q.parts.flatMap fun p => p.elim Expr.params Source.params := by
  obtain ⟨distinct, items, source, joins, filter, groupBy, having, orderBy, limit, offset⟩ := q
  simp only [parts, tailExprs, List.map_append, List.forall_mem_append, List.forall_mem_map,
    List.forall_mem_flatMap, List.forall_mem_cons, Sum.elim_inl, Sum.elim_inr] at h
  obtain ⟨⟨⟨hitems, hsource⟩, hjoins⟩, ⟨⟨⟨⟨hfilter, hgroupBy⟩, hhaving⟩, horderBy⟩, hlimit⟩,
    hoffset⟩ := h
  have hi := params_itemFragments (List.forall_mem_map.mpr hitems) depth
  have hg := params_exprFragments hgroupBy depth
  have ho := params_orderFragments (List.forall_mem_map.mpr horderBy) depth
  have hs := params_fromFragments hsource depth
  have hj : Fragment.params (if source.isSome then joinFragments depth joins else [])
      = joins.flatMap fun j =>
        j.right.params ++ j.constraint.condition?.toList.flatMap Expr.params := by
    split
    · exact params_joinFragments hq.2 (fun j hj => (hjoins j hj).1)
        (fun j hj => (hjoins j hj).2) depth
    · next hnone =>
      -- without a first source there are no joins, printed or walked
      have : joins = [] := hq.1 (Option.not_isSome_iff_eq_none.mp hnone)
      rw [this]
      rfl
  rw [fragments]
  cases distinct <;>
    simp [hs, hj, hi, hg, ho, params_optionFragments hfilter depth,
      params_optionFragments hhaving depth, params_optionFragments hlimit depth,
      params_optionFragments hoffset depth, parts, tailExprs, List.flatMap_map, List.flatMap_assoc]

theorem params_cteFragments {cs : List Cte} (h : ∀ c ∈ cs, c.statement.PrintsParams)
    (depth : Nat) :
    (cteFragments depth cs).flatMap Fragment.params = cs.flatMap fun c => c.statement.params := by
  induction cs with
  | nil =>
    rw [cteFragments]
    rfl
  | cons c cs ih =>
    obtain ⟨n, columns, s⟩ := c
    rw [List.forall_mem_cons] at h
    rw [cteFragments, List.flatMap_cons, List.flatMap_cons, ih h.2]
    cases columns <;> simp [h.1 (depth + 1)]

theorem Statement.params_fragments_of_parts {s : Statement}
    (hctes : ∀ c ∈ s.ctes, c.statement.PrintsParams)
    (hbody : ∀ depth, Fragment.params (s.body.fragments depth) = s.body.params) :
    s.PrintsParams := by
  intro depth
  rw [params_eq]
  obtain ⟨withClause, body⟩ := s
  cases withClause with
  | none =>
    rw [fragments]
    simpa [ctes] using hbody depth
  | some w =>
    obtain ⟨recursive, cs⟩ := w
    have hcs := params_cteFragments hctes depth
    have hseparator : Fragment.params [text ",", lineEnd depth] = [] := rfl
    rw [fragments]
    cases recursive <;> simp_all [params_joined hseparator, ctes]

/-! ## Every tree

The parts of a node are smaller, and the joins of their selects are among those of the node. -/

mutual

/-- **An expression prints its parameters in the order of the walk.** -/
theorem Expr.printsParams (e : Expr) (h : ∀ q ∈ e.selects, q.JoinsPrinted) : e.PrintsParams := by
  rw [Expr.selects_eq, List.forall_mem_append, List.forall_mem_flatMap,
    List.forall_mem_flatMap] at h
  refine Expr.printsParams_of_parts (fun c hc => ?_) fun s hs => ?_
  · exact Expr.printsParams c (h.2 c hc)
  · exact Statement.printsParams s (h.1 s (by simpa using hs))
termination_by sizeOf e
decreasing_by
  · exact Expr.sizeOf_lt_of_mem_children hc
  · exact Expr.sizeOf_lt_of_statement? hs

theorem Body.params_fragments (b : Body) (h : ∀ q ∈ b.selects, q.JoinsPrinted) (depth : Nat) :
    Fragment.params (b.fragments depth) = b.params := by
  match b with
  | .select q =>
    rw [Body.selects_select, List.forall_mem_cons, Select.selects_subqueries,
      List.forall_mem_append, List.forall_mem_flatMap, List.forall_mem_flatMap] at h
    obtain ⟨hq, hsources, hexprs⟩ := h
    rw [Body.fragments, Body.params_select]
    refine Select.params_fragments hq ?_ depth
    rintro (e | t) hp
    · exact Expr.printsParams e (hexprs e (Select.mem_exprs_of_mem_parts hp))
    · intro s hs
      have ht := hsources t (Select.mem_sources_of_mem_parts hp)
      rw [Source.selects, List.forall_mem_flatMap] at ht
      exact Statement.printsParams s (ht s (by simpa using hs))
  | .setOp l op r =>
    rw [Body.selects_setOp, List.forall_mem_append] at h
    rw [Body.fragments, Body.params_setOp]
    simp [Body.params_fragments l h.1 depth, Body.params_fragments r h.2 depth]
  | .nested s =>
    rw [Body.selects_nested] at h
    rw [Body.fragments, Body.params_nested, params_block]
    exact Statement.printsParams s h (depth + 1)
termination_by sizeOf b
decreasing_by
  · have := Select.sizeOf_lt_of_mem_exprs (Select.mem_exprs_of_mem_parts hp)
    simp +arith only [Body.select.sizeOf_spec]; omega
  · have := Source.sizeOf_lt_of_statement? hs
    have := Select.sizeOf_lt_of_mem_sources (Select.mem_sources_of_mem_parts hp)
    simp +arith only [Body.select.sizeOf_spec]; omega
  all_goals simp +arith

/-- **The fragments of a statement hold the parameters that the walk meets, in its order.** -/
theorem Statement.printsParams (s : Statement) (h : s.JoinsPrinted) : s.PrintsParams := by
  rw [Statement.JoinsPrinted, Statement.selects_eq, List.forall_mem_append,
    List.forall_mem_flatMap] at h
  refine Statement.params_fragments_of_parts (fun c hc => ?_) fun depth => ?_
  · exact Statement.printsParams c.statement (h.1 c hc)
  · exact Body.params_fragments s.body h.2 depth
termination_by sizeOf s
decreasing_by
  · exact Statement.sizeOf_lt_of_mem_ctes hc
  · exact s.sizeOf_body_lt

end

end Sql
