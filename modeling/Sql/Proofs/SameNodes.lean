import Mathlib.Data.List.Perm.Basic
import Sql.Proofs.CteOrder

/-!
# Two walks over the same nodes

`Statement.nodes` enters the expressions of a tree select by select: those of a select before those
of the statements nested in it. `Statement.nodesInOrder` enters them as they are printed. Both walks
enter the same nodes, each as often as the other (`Statement.nodes_perm`).
-/

namespace Sql

variable {α β γ : Type}

/-! ## Parts of two kinds -/

/-- Parts that are entered kind by kind, those on the right first. -/
theorem perm_parts {ps : List (α ⊕ β)} {f f' : α → List γ} {g g' : β → List γ}
    (hf : ∀ a, .inl a ∈ ps → (f a).Perm (f' a)) (hg : ∀ b, .inr b ∈ ps → (g b).Perm (g' b)) :
    ((ps.filterMap Sum.getRight?).flatMap g ++ (ps.filterMap Sum.getLeft?).flatMap f).Perm
      (ps.flatMap fun p => p.elim f' g') := by
  induction ps with
  | nil => exact .nil
  | cons p ps ih =>
    -- a part on the left waits until all parts on the right were entered
    have hrest := ih (fun a ha => hf a (List.mem_cons_of_mem _ ha))
      fun b hb => hg b (List.mem_cons_of_mem _ hb)
    cases p with
    | inl a =>
      have ha := (hf a List.mem_cons_self).append hrest
      exact (List.perm_append_comm_assoc _ _ _).trans ha
    | inr b =>
      have hb := (hg b List.mem_cons_self).append hrest
      rwa [← List.append_assoc] at hb

/-- What is entered in two rounds, with something between them. -/
theorem perm_rounds (xs : List α) (f g : α → List β) (ys : List β) :
    (xs.flatMap f ++ (ys ++ xs.flatMap g)).Perm (ys ++ xs.flatMap fun x => f x ++ g x) :=
  (List.perm_append_comm_assoc _ _ _).trans ((List.flatMap_append_perm xs f g).append_left ys)

/-! ## Nodes, select by select -/

/-- Every expression of a body, select by select. -/
def Body.allNodes (b : Body) : List Expr := b.selects.flatMap fun q => q.exprs.flatMap Expr.nodes

/-- Every expression of a FROM source, select by select. -/
def Source.allNodes (t : Source) : List Expr := t.statement?.toList.flatMap Statement.nodes

/-- The nodes of an expression, and then those of the statements in it. -/
def Expr.allNodes (e : Expr) : List Expr :=
  e.nodes ++ (e.nodes.filterMap Expr.statement?).flatMap Statement.nodes

theorem Statement.nodes_eq (s : Statement) :
    s.nodes = s.ctes.flatMap (fun c => c.statement.nodes) ++ s.body.allNodes := by
  rw [nodes, selects_eq, List.flatMap_append, List.flatMap_assoc]
  rfl

theorem Body.allNodes_select (q : Select) :
    (Body.select q).allNodes
      = q.exprs.flatMap Expr.nodes ++ q.subqueries.flatMap Statement.nodes := by
  rw [allNodes, selects_select, List.flatMap_cons, List.flatMap_assoc]
  rfl

theorem Body.allNodes_setOp (left right : Body) (op : SetOperator) :
    (Body.setOp left op right).allNodes = left.allNodes ++ right.allNodes := by
  rw [allNodes, selects_setOp, List.flatMap_append]
  rfl

theorem Body.allNodes_nested (s : Statement) : (Body.nested s).allNodes = s.nodes := by
  rw [allNodes, selects_nested]
  rfl

theorem Body.allNodes_parts (q : Select) :
    (Body.select q).allNodes.Perm ((q.parts.filterMap Sum.getRight?).flatMap Source.allNodes
      ++ (q.parts.filterMap Sum.getLeft?).flatMap Expr.allNodes) := by
  rw [allNodes_select, Select.flatMap_subqueries, q.rights_parts, q.lefts_parts]
  exact perm_rounds _ _ _ _

theorem Expr.allNodes_parts (e : Expr) :
    e.allNodes.Perm (e :: ((e.parts.filterMap Sum.getRight?).flatMap Statement.nodes
      ++ (e.parts.filterMap Sum.getLeft?).flatMap Expr.allNodes)) := by
  rw [allNodes, flatMap_statements, nodes_eq, e.rights_parts, e.lefts_parts]
  exact (perm_rounds _ _ _ _).cons e

/-! ## Every tree -/

mutual

theorem Expr.allNodes_perm (e : Expr) : e.allNodes.Perm e.nodesInOrder := by
  have hnodes : e.nodesInOrder
      = e :: e.parts.flatMap fun p => p.elim Expr.nodesInOrder Statement.nodesInOrder := by
    rw [Expr.nodesInOrder_eq, Expr.parts, List.flatMap_append, List.flatMap_map, List.flatMap_map]
    rfl
  rw [hnodes]
  refine e.allNodes_parts.trans ((perm_parts (fun c hc => ?_) fun s hs => ?_).cons e)
  · exact Expr.allNodes_perm c
  · exact Statement.nodes_perm s
termination_by sizeOf e
decreasing_by
  · exact Expr.sizeOf_lt_of_mem_children (by simpa [Expr.parts] using hc)
  · exact Expr.sizeOf_lt_of_statement? (by simpa [Expr.parts] using hs)

theorem Body.allNodes_perm (b : Body) : b.allNodes.Perm b.nodesInOrder := by
  match b with
  | .select q =>
    rw [Body.nodesInOrder_select]
    refine (Body.allNodes_parts q).trans (perm_parts (fun e he => ?_) fun t ht => ?_)
    · exact Expr.allNodes_perm e
    · cases hs : t.statement? with
      | none => simp [Source.allNodes, Source.nodesInOrder, hs]
      | some s =>
        have := Statement.nodes_perm s
        simpa [Source.allNodes, Source.nodesInOrder, hs] using this
  | .setOp l op r =>
    rw [Body.allNodes_setOp, Body.nodesInOrder_setOp]
    exact (Body.allNodes_perm l).append (Body.allNodes_perm r)
  | .nested s =>
    rw [Body.allNodes_nested, Body.nodesInOrder_nested]
    exact Statement.nodes_perm s
termination_by sizeOf b
decreasing_by
  · have := Select.sizeOf_lt_of_mem_exprs (Select.mem_exprs_of_mem_parts he)
    simp +arith only [Body.select.sizeOf_spec]; omega
  · have := Source.sizeOf_lt_of_statement? hs
    have := Select.sizeOf_lt_of_mem_sources (Select.mem_sources_of_mem_parts ht)
    simp +arith only [Body.select.sizeOf_spec]; omega
  all_goals simp +arith

/-- **The walk by selects and the walk in printed order enter the same nodes.** -/
theorem Statement.nodes_perm (s : Statement) : s.nodes.Perm s.nodesInOrder := by
  rw [Statement.nodes_eq, Statement.nodesInOrder_eq]
  refine (List.Perm.flatMap_left _ fun c hc => ?_).append (Body.allNodes_perm s.body)
  exact Statement.nodes_perm c.statement
termination_by sizeOf s
decreasing_by
  · exact Statement.sizeOf_lt_of_mem_ctes hc
  · exact s.sizeOf_body_lt

end

end Sql
