import Mathlib.Algebra.Ring.Nat
import Mathlib.Data.List.Chain
import Sql.Proofs.YieldStatement
import Sql.Statement.Walk

/-!
# Levels along the paths of a tree

A path leads down a tree from node to node (`Node.children`). Three kinds of things on it stand one
level further in than what is around them: a statement, an expression that is read by itself, and
the operand of NOT or of a sign. `Node.levels` counts them at one node.

* `Expr.operands_append_enclosed`: an operand of an expression is read along with it, whatever else
  stands directly below it is read by itself.
* `Node.Fits.of_mem_children`: a node that is well formed within some levels uses up its own, and
  leaves the others to the nodes below it.
* `sum_levels_le_of_parse`: so no path of a tree that was read uses more levels than there are.
-/

namespace Sql

/-! ## Expressions below an expression -/

/-- The expressions that are read along with the expression, as operands of its operator. -/
def Expr.operands : Expr → List Expr
  | .binary left _ right => [left, right]
  | .unary _ e | .isNull e _ | .inList e _ _ | .inQuery e _ _ | .cast e _ true => [e]
  | .between e low high _ => [e, low, high]
  | _ => []

/-- The expressions that are read by themselves within the expression: arguments, filters and
windows of calls, list items, parts of a CASE, and what stands in the parentheses of a CAST or in
parentheses alone. -/
def Expr.enclosed : Expr → List Expr
  | .call _ args _ filter window => args ++ filter.toList ++ window.toList.flatMap Window.exprs
  | .inList _ items _ => items
  | .case operand branches fallback =>
    operand.toList ++ (branches.flatMap fun b => [b.condition, b.result]) ++ fallback.toList
  | .cast e _ false | .paren e => [e]
  | _ => []

/-- Nothing directly below an expression is left out. -/
theorem Expr.operands_append_enclosed (e : Expr) : e.operands ++ e.enclosed = e.children := by
  cases e with
  | cast e type short => cases short <;> rfl
  | call => rfl
  | _ => simp [operands, enclosed, children]

/-- NOT and signs put their operand one level further in. -/
def Expr.opensLevel : Expr → Bool
  | .unary .. => true
  | _ => false

/-! ## Paths -/

/-- A node of a tree: a statement, an expression that is read by itself, or one that is read along
with the expression around it. -/
inductive Node
  | statement (s : Statement)
  | expr (e : Expr)
  | operand (e : Expr)

/-- The nodes directly below a select: FROM subqueries, then the expressions of all clauses. -/
def Select.nodes (q : Select) : List Node :=
  (q.sources.filterMap Source.statement?).map .statement ++ q.exprs.map .expr

/-- The nodes directly below the statement of which this is the body. -/
def Body.nodes : Body → List Node
  | .select q => q.nodes
  | .setOp left _ right => left.nodes ++ right.nodes
  | .nested s => [.statement s]

/-- The nodes directly below an expression. -/
def Expr.nodesBelow (e : Expr) : List Node :=
  e.operands.map .operand ++ e.enclosed.map .expr ++ e.statement?.toList.map .statement

namespace Node

/-- The nodes directly below a node. -/
def children : Node → List Node
  | statement s => s.ctes.map (fun c => .statement c.statement) ++ s.body.nodes
  | expr e | operand e => e.nodesBelow

/-- The levels that a node opens: one for a statement, one for an expression that is read by itself,
and one for NOT or a sign. -/
def levels : Node → Nat
  | statement _ => 1
  | expr e => 1 + e.opensLevel.toNat
  | operand e => e.opensLevel.toNat

/-- The nodes lead down a tree, each directly below the one before it. -/
def IsPath (nodes : List Node) : Prop := List.IsChain (fun a b => b ∈ a.children) nodes

/-- The nodes that are passed from the node on, when each number says which of the nodes directly
below is next. -/
def along : Node → List Nat → Option (List Node)
  | _, [] => some []
  | node, i :: is => do
    let child ← node.children[i]?
    let path ← child.along is
    return child :: path

theorem isPath_of_along {node : Node} {is : List Nat} {path : List Node}
    (h : node.along is = some path) : IsPath (node :: path) := by
  induction is generalizing node path with
  | nil =>
    obtain rfl := Option.some.inj h
    exact List.isChain_singleton _
  | cons i is ih =>
    obtain ⟨child, hchild, h⟩ := Option.bind_eq_some_iff.mp h
    obtain ⟨rest, hrest, h⟩ := Option.bind_eq_some_iff.mp h
    obtain rfl := Option.some.inj h
    exact List.isChain_cons_cons.mpr ⟨List.mem_of_getElem? hchild, ih hrest⟩

/-- The node is well formed where so many levels are left. -/
def Fits (n : Nat) : Node → Prop
  | statement s => 0 < n ∧ s.Wf False True (n - 1)
  | expr e => 0 < n ∧ e.Wf False True (n - 1)
  | operand e => e.Wf False True n

end Node

/-! ## One step down -/

section

variable {n : Nat} {node : Node}

theorem Expr.Wf.opensLevel_le {e : Expr} (h : e.Wf False True n) : e.opensLevel.toNat ≤ n := by
  cases e with
  | unary op e =>
    rw [Expr.Wf] at h
    exact h.1 trivial
  | _ => exact Nat.zero_le n

/-- A node has the levels that it opens. -/
theorem Node.Fits.levels_le (h : node.Fits n) : node.levels ≤ n := by
  cases node with
  | statement s => exact h.1
  | expr e =>
    have := h.2.opensLevel_le
    have := h.1
    simp only [levels]
    omega
  | operand e => exact Expr.Wf.opensLevel_le h

theorem fits_exprs {es : List Expr} (h : exprsWf False True n es) :
    ∀ e ∈ es, (Node.expr e).Fits n :=
  fun e he => (exprsWf_iff.mp h e he).imp_left (· trivial)

theorem fits_option {o : Option Expr} (h : optionWf False True n o) :
    ∀ e ∈ o.toList, (Node.expr e).Fits n :=
  fun e he => (optionWf_iff.mp h e (Option.mem_toList.mp he)).imp_left (· trivial)

theorem fits_order {os : List OrderItem} (h : orderWf False True n os) :
    ∀ e ∈ os.map OrderItem.expr, (Node.expr e).Fits n :=
  List.forall_mem_map.mpr fun i hi => (orderWf_iff.mp h i hi).imp_left (· trivial)

theorem fits_window {window : Option Window} (h : overWf False True n window) :
    ∀ e ∈ window.toList.flatMap Window.exprs, (Node.expr e).Fits n := by
  cases window with
  | none => simp
  | some w =>
    obtain ⟨partitionBy, orderBy⟩ := w
    rw [overWf] at h
    simpa [Window.exprs] using List.forall_mem_append.mpr ⟨fits_exprs h.1, fits_order h.2⟩

theorem fits_branches {bs : List Branch} (h : branchesWf False True n bs) :
    ∀ e ∈ bs.flatMap (fun b => [b.condition, b.result]), (Node.expr e).Fits n := by
  refine List.forall_mem_flatMap.mpr fun b hb => ?_
  obtain ⟨hpos, hcondition, hresult⟩ := branchesWf_iff.mp h b hb
  simpa [Node.Fits] using ⟨⟨hpos trivial, hcondition⟩, hpos trivial, hresult⟩

/-- What is read along with an expression has the levels that are left behind it. -/
theorem fits_operands {e : Expr} (h : e.Wf False True n) :
    ∀ e' ∈ e.operands, e'.Wf False True (n - e.opensLevel.toNat) := by
  cases e with
  | binary l op r =>
    rw [Expr.Wf] at h
    simpa [Expr.operands, Expr.opensLevel] using And.intro h.1 h.2.1
  | unary op e =>
    rw [Expr.Wf] at h
    simpa [Expr.operands, Expr.opensLevel] using h.2.1
  | isNull e negated =>
    rw [Expr.Wf] at h
    simpa [Expr.operands, Expr.opensLevel] using h.1
  | between e low high negated =>
    rw [Expr.Wf] at h
    simpa [Expr.operands, Expr.opensLevel] using ⟨h.1.1, h.2.1.1, h.2.2.1⟩
  | inList e items negated =>
    rw [Expr.Wf] at h
    simpa [Expr.operands, Expr.opensLevel] using h.1.1
  | inQuery e s negated =>
    rw [Expr.Wf] at h
    simpa [Expr.operands, Expr.opensLevel] using h.1.1
  | cast e type short =>
    cases short with
    | true =>
      rw [Expr.Wf] at h
      simpa [Expr.operands, Expr.opensLevel] using h.1.1
    | false => simp [Expr.operands]
  | _ => simp [Expr.operands]

/-- What is read by itself within an expression has all the levels of the expression. -/
theorem fits_enclosed {e : Expr} (h : e.Wf False True n) :
    ∀ e' ∈ e.enclosed, (Node.expr e').Fits n := by
  cases e with
  | call f args distinct filter window =>
    rw [Expr.Wf] at h
    obtain ⟨-, -, hargs, hfilter, hwindow⟩ := h
    exact List.forall_mem_append.mpr
      ⟨List.forall_mem_append.mpr ⟨fits_exprs hargs, fits_option hfilter⟩, fits_window hwindow⟩
  | inList e items negated =>
    rw [Expr.Wf] at h
    exact fits_exprs h.2.2
  | case scrutinee branches fallback =>
    rw [Expr.Wf] at h
    obtain ⟨hscrutinee, -, hbranches, hfallback⟩ := h
    exact List.forall_mem_append.mpr
      ⟨List.forall_mem_append.mpr ⟨fits_option hscrutinee, fits_branches hbranches⟩,
        fits_option hfallback⟩
  | cast e type short =>
    cases short with
    | true => simp [Expr.enclosed]
    | false =>
      rw [Expr.Wf] at h
      simpa [Expr.enclosed, Node.Fits] using h.1
  | paren e =>
    rw [Expr.Wf] at h
    simpa [Expr.enclosed, Node.Fits] using h
  | _ => simp [Expr.enclosed]

theorem fits_statement? {e : Expr} (h : e.Wf False True n) :
    ∀ s ∈ e.statement?, (Node.statement s).Fits n := by
  cases e with
  | inQuery e s negated =>
    rw [Expr.Wf] at h
    simpa [Expr.statement?, Node.Fits] using And.intro h.2.1 h.2.2.1
  | hasRows s =>
    rw [Expr.Wf] at h
    simpa [Expr.statement?, Node.Fits] using h
  | subquery s =>
    rw [Expr.Wf] at h
    simpa [Expr.statement?, Node.Fits] using And.intro h.1 h.2.1
  | _ => simp [Expr.statement?]

/-- Only operands are read behind the level that an expression opens, and it has nothing else. -/
theorem fits_nodesBelow {e : Expr} (h : e.Wf False True n) :
    ∀ node ∈ e.nodesBelow, node.Fits (n - e.opensLevel.toNat) := by
  -- a NOT or a sign has its operand and nothing else
  have hother : e.opensLevel = true → e.enclosed = [] ∧ e.statement? = none := by
    cases e <;> simp [Expr.opensLevel, Expr.enclosed, Expr.statement?]
  refine List.forall_mem_append.mpr ⟨List.forall_mem_append.mpr ⟨?_, ?_⟩, ?_⟩
  · exact List.forall_mem_map.mpr (fits_operands h)
  · cases hopens : e.opensLevel with
    | true => simp [(hother hopens).1]
    | false => exact List.forall_mem_map.mpr (fits_enclosed h)
  · cases hopens : e.opensLevel with
    | true => simp [(hother hopens).2]
    | false =>
      refine List.forall_mem_map.mpr fun s hs => fits_statement? h s (Option.mem_toList.mp hs)

theorem fits_select {q : Select} (h : q.Wf False True n) : ∀ node ∈ q.nodes, node.Fits n := by
  obtain ⟨distinct, items, source, joins, filter, groupBy, having, orderBy, limit, offset⟩ := q
  rw [Select.Wf] at h
  obtain ⟨⟨-, hitems⟩, ⟨hfrom, hjoins, -, -⟩, hfilter, hgroup, hhaving, horder, hlimit,
    hoffset⟩ := h
  have hsource : ∀ t : Source, t.Wf False True n →
      ∀ s ∈ t.statement?, (Node.statement s).Fits n := by
    intro t ht s hs
    cases t with
    | table path name asName => simp [Source.statement?] at hs
    | subquery s' asName =>
      obtain rfl := Option.some.inj hs
      rw [Source.Wf] at ht
      exact ht.1.imp_left (· trivial)
  refine List.forall_mem_append.mpr ⟨List.forall_mem_map.mpr fun s hs => ?_,
    List.forall_mem_map.mpr ?_⟩
  · obtain ⟨t, ht, hs⟩ := List.mem_filterMap.mp hs
    refine hsource t ?_ s hs
    rcases List.mem_append.mp ht with ht | ht
    · obtain rfl := Option.mem_toList.mp ht
      rwa [fromWf] at hfrom
    · obtain ⟨j, hj, rfl⟩ := List.mem_map.mp ht
      exact (joinsWf_iff.mp hjoins j hj).1
  · simp only [Select.exprs, List.forall_mem_append]
    refine ⟨⟨⟨⟨⟨⟨⟨?_, ?_⟩, fits_option hfilter⟩, fits_exprs hgroup⟩, fits_option hhaving⟩,
      fits_order horder⟩, fits_option hlimit⟩, fits_option hoffset⟩
    · exact List.forall_mem_map.mpr fun i hi => (itemsWf_iff.mp hitems i hi).1.imp_left (· trivial)
    · intro e he
      obtain ⟨j, hj, hcondition⟩ := List.mem_filterMap.mp he
      have hwf := (joinsWf_iff.mp hjoins j hj).2.1
      cases hconstraint : j.constraint with
      | on e' =>
        rw [hconstraint] at hcondition hwf
        obtain rfl := Option.some.inj hcondition
        rw [JoinConstraint.Wf] at hwf
        exact hwf.imp_left (· trivial)
      | _ =>
        rw [hconstraint] at hcondition
        simp [JoinConstraint.condition?] at hcondition

theorem fits_body {b : Body} (h : b.Wf False True n) : ∀ node ∈ b.nodes, node.Fits n := by
  induction b using Body.nodes.induct with
  | case1 q =>
    rw [Body.Wf] at h
    exact fits_select h
  | case2 l op r ihl ihr =>
    rw [Body.Wf] at h
    exact List.forall_mem_append.mpr ⟨ihl h.1, ihr h.2.1⟩
  | case3 s =>
    rw [Body.Wf] at h
    simpa [Body.nodes, Node.Fits] using h

/-- **A node uses up the levels that it opens,** and leaves the others to the nodes below it. -/
theorem Node.Fits.of_mem_children {child : Node} (h : node.Fits n)
    (hchild : child ∈ node.children) : child.Fits (n - node.levels) := by
  cases node with
  | statement s =>
    obtain ⟨-, hwf⟩ := h
    obtain ⟨-, hctes, -, hbody⟩ := Statement.wf_iff.mp hwf
    rcases List.mem_append.mp hchild with hchild | hchild
    · obtain ⟨c, hc, rfl⟩ := List.mem_map.mp hchild
      exact (ctesWf_iff.mp hctes c hc).2.2.imp_left (· trivial)
    · exact fits_body hbody child hchild
  | expr e =>
    have hfits := fits_nodesBelow h.2 child hchild
    rwa [Nat.sub_sub] at hfits
  | operand e => exact fits_nodesBelow h child hchild

/-! ## Whole paths -/

/-- The levels that are opened along a path fit into those that are left where it starts. -/
theorem Node.Fits.sum_levels_le {path : List Node} (h : node.Fits n)
    (hpath : Node.IsPath (node :: path)) : ((node :: path).map Node.levels).sum ≤ n := by
  induction path generalizing node n with
  | nil => simpa using h.levels_le
  | cons child path ih =>
    obtain ⟨hchild, hrest⟩ := List.isChain_cons_cons.mp hpath
    have hle := h.levels_le
    have hsum := ih (h.of_mem_children hchild) hrest
    rw [List.map_cons, List.sum_cons]
    omega

/-- **No path of a tree that was read opens more levels than there are.** -/
theorem sum_levels_le_of_parse {text : String} {s : Statement} (h : parse text = .ok s)
    {path : List Node} (hpath : Node.IsPath (.statement s :: path)) :
    ((Node.statement s :: path).map Node.levels).sum ≤ Parser.maxNesting :=
  Node.Fits.sum_levels_le ⟨Nat.succ_pos _, wf_of_parse h⟩ hpath

end

end Sql
