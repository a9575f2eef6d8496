import Sql.Proofs.ChangedParams
import Sql.Proofs.SameNodes
import Sql.Proofs.TreePlaces

/-!
# Walks of one tree

The walks of a statement enter what stands at its places: `Statement.selects` the selects, each
before those nested in it, `Statement.nodes` and `Statement.nodesInOrder` the expressions, each of
them once. A visit in place with a callback that changes nothing enters the same in the same order,
and does so where the parts stand: it calls the callback on a node, and goes on from what came back
through the positions of the node that can be changed.

* `TreePart.selects_eq_filterMap`, `TreePart.nodes_perm`: what the walks enter, among all parts.
* `Expr.visit_inPlace`, `Body.visit_inPlace`: a visit that changes nothing goes through
  `Expr.eachChild` and `Select.eachStatement`.
* `Statement.walks_agree`: all of it for one statement.
-/

namespace Sql

variable {σ α β : Type}

/-! ## What the walks enter -/

namespace TreePart

/-- The selects of a part, each before the selects nested in it. -/
def selects : TreePart → List Select
  | .inl (.inl s) => s.selects
  | .inl (.inr b) => b.selects
  | .inr e => e.selects

/-- The expressions of a part, select by select. -/
def nodes : TreePart → List Expr
  | .inl (.inl s) => s.nodes
  | .inl (.inr b) => b.allNodes
  | .inr e => e.allNodes

/-- What stands directly below a statement, a select or an expression, put together. -/
theorem flatMap_below_statement (s : Statement) (f : TreePart → List α) :
    (below (.inl (.inl s))).flatMap f
      = s.ctes.flatMap (fun c => f (.inl (.inl c.statement))) ++ f (.inl (.inr s.body)) := by
  simp [below, List.flatMap_map]

theorem flatMap_below_select (q : Select) (f : TreePart → List α) :
    (below (.inl (.inr (.select q)))).flatMap f
      = q.sources.flatMap (fun t => t.statement?.toList.flatMap fun s => f (.inl (.inl s)))
        ++ q.exprs.flatMap fun e => f (.inr e) := by
  have hsource : ∀ t : Source, (t.statement?.map fun s => (.inl (.inl s) : TreePart)).toList
      = t.statement?.toList.map fun s => .inl (.inl s) := by
    intro t
    cases t.statement? <;> rfl
  rw [below, List.flatMap_append, List.flatMap_map, List.filterMap_eq_flatMap_toList,
    List.flatMap_assoc]
  simp only [hsource, List.flatMap_map]

theorem flatMap_below_expr (e : Expr) (f : TreePart → List α) :
    (below (.inr e)).flatMap f = e.statement?.toList.flatMap (fun s => f (.inl (.inl s)))
      ++ e.children.flatMap fun c => f (.inr c) := by
  rw [below, List.flatMap_append, List.flatMap_map, List.flatMap_map]

theorem selects_below (n : TreePart) :
    n.selects = n.select?.toList ++ n.below.flatMap selects := by
  obtain (s | q | ⟨l, op, r⟩ | s) | e := n
  · rw [flatMap_below_statement]
    exact s.selects_eq
  · rw [flatMap_below_select]
    exact (Body.selects_select q).trans (congrArg (q :: ·) q.selects_subqueries)
  · simp [selects, select?, below, Body.selects_setOp]
  · simp [selects, select?, below, Body.selects_nested]
  · rw [flatMap_below_expr]
    exact e.selects_eq

theorem nodes_below (n : TreePart) :
    n.nodes.Perm (n.expr?.toList ++ n.below.flatMap nodes) := by
  obtain (s | q | ⟨l, op, r⟩ | s) | e := n
  · rw [flatMap_below_statement]
    exact .of_eq s.nodes_eq
  · rw [flatMap_below_select]
    have hparts := Body.allNodes_parts q
    rwa [q.rights_parts, q.lefts_parts] at hparts
  · simp [nodes, expr?, below, Body.allNodes_setOp]
  · simp [nodes, expr?, below, Body.allNodes_nested]
  · rw [flatMap_below_expr]
    have hparts := e.allNodes_parts
    rwa [e.rights_parts, e.lefts_parts] at hparts

theorem filterMap_all (n : TreePart) (pick : TreePart → Option α) :
    n.all.filterMap pick
      = (pick n).toList ++ n.below.flatMap fun m => m.all.filterMap pick := by
  rw [all_eq, List.filterMap_cons, List.filterMap_flatMap]
  cases pick n <;> rfl

/-- **The walk of the selects** enters each select before those below it. -/
theorem selects_eq_filterMap (n : TreePart) : n.selects = n.all.filterMap select? := by
  induction n using induct with
  | step n ih => rw [selects_below, filterMap_all, List.flatMap_congr ih]

/-- **The walk of the expressions** enters each expression once. -/
theorem nodes_perm (n : TreePart) : n.nodes.Perm (n.all.filterMap expr?) := by
  induction n using induct with
  | step n ih =>
    rw [filterMap_all]
    exact n.nodes_below.trans ((List.Perm.flatMap_left _ ih).append_left _)

end TreePart

/-! ## Callbacks that change nothing -/

/-- The callback hands back what it is given. -/
def ChangesNothing (f : α → StateM σ α) : Prop := ∀ a c, ((f a).run c).1 = a

/-- The state that a callback leaves. -/
def stateAfter (f : α → StateM σ α) (c : σ) (a : α) : σ := ((f a).run c).2

theorem ChangesNothing.visits {f : α → StateM σ α} (hf : ChangesNothing f) (a : α) :
    Visits (Ledger.fold (stateAfter f)) (f a) [a] a := by
  rintro c _ rfl
  exact Prod.ext (hf a c) rfl

/-- Visits that fold the same and have the same result are equal. -/
theorem Visits.eq {k : σ → β → σ} {x y : StateM σ α} {v : List β} {a : α}
    (hx : Visits (Ledger.fold k) x v a) (hy : Visits (Ledger.fold k) y v a) : x = y := by
  funext c
  exact (hx c _ rfl).trans (hy c _ rfl).symm

theorem Expr.mapParam_id (e : Expr) : e.mapParam id = e := by
  cases e <;> rfl

theorem Expr.mapNodes_id (e : Expr) : e.mapNodes id = e := by
  have hc : ∀ c ∈ e.children, c.mapNodes id = id c := fun c hc => Expr.mapNodes_id c
  rw [mapNodes_eq (g := id) (fun _ => rfl), id, mapChildren_congr hc, mapChildren_id]
termination_by sizeOf e
decreasing_by exact sizeOf_lt_of_mem_children hc

section

variable {f : Expr → StateM σ Expr} {g : Select → StateM σ Select}

theorem Expr.visits_unchanged (hf : ChangesNothing f) (e : Expr) :
    Visits (Ledger.fold (stateAfter f)) (e.visit f) e.nodes e := by
  have hvisit := Expr.visits (g := id) hf.visits e
  rwa [List.flatMap_singleton', mapNodes_id] at hvisit

theorem Statement.visits_unchanged (hg : ChangesNothing g) (s : Statement) :
    Visits (Ledger.fold (stateAfter g)) (s.visit g) s.selects s := by
  have hmap : Expr.mapNodes (Expr.mapParam id) = id :=
    (congrArg Expr.mapNodes (funext Expr.mapParam_id)).trans (funext Expr.mapNodes_id)
  have hvisit := Statement.visits (h := id) (f := g) (v := fun q => [q])
    (fun q => by rw [hmap, q.mapExprs_id]; exact hg.visits q) s
  rwa [List.flatMap_singleton', Statement.mapParams_id] at hvisit

/-- A visit that changes nothing enters the children of an expression where they stand. -/
theorem Expr.visit_inPlace (hf : ChangesNothing f) (e : Expr) :
    e.visit f = f e >>= Expr.eachChild (Expr.visit f) := by
  have hchildren : Visits (Ledger.fold (stateAfter f)) (e.eachChild (Expr.visit f))
      (e.children.flatMap Expr.nodes) (e.mapChildren id) :=
    Expr.visits_eachChild fun c _ => Expr.visits_unchanged hf c
  rw [mapChildren_id] at hchildren
  -- both sides call the callback on the same nodes and hand back the expression
  refine (Expr.visits_unchanged hf e).eq (((hf.visits e).bind hchildren).congr ?_)
  rw [nodes_eq, List.singleton_append]

/-- A visit that changes nothing enters the statements nested in a select where they stand. -/
theorem Body.visit_inPlace (hg : ChangesNothing g) (q : Select) :
    (Body.select q).visit g
      = do return .select (← g q >>= Select.eachStatement (Statement.visit g)) := by
  have hstatements : Visits (Ledger.fold (stateAfter g)) (q.eachStatement (Statement.visit g))
      (q.subqueries.flatMap Statement.selects) (q.withSubqueries (q.subqueries.map id)) :=
    q.withSubqueries_map id ▸ q.visits_eachStatement (Statement.visits_unchanged hg)
  have hkept : Visits (Ledger.fold (stateAfter g)) (q.subqueries.mapM (Statement.visit g))
      (q.subqueries.flatMap Statement.selects) (q.subqueries.map id) :=
    .mapM fun s _ => Statement.visits_unchanged hg s
  rw [visit_select]
  refine ((hg.visits q).bind (hkept.map _)).eq ?_
  exact ((hg.visits q).bind hstatements).map _

/-- A visit of all expressions that changes nothing. -/
theorem Statement.visitExprs_unchanged (hf : ChangesNothing f) (s : Statement) :
    Visits (Ledger.fold (stateAfter f)) (s.visitExprs f) s.nodes s := by
  have hvisit := Statement.visits_exprs (h := id) (f := f) (v := fun e => [e])
    (fun e => by rw [e.mapParam_id]; exact hf.visits e) s
  rwa [List.flatMap_singleton', Statement.mapParams_id] at hvisit

end

/-! ## One statement -/

/-- The part of a statement that a path leads to. -/
def Statement.partAt? (s : Statement) (p : TreePath) : Option TreePart :=
  TreePart.follow p (.inl (.inl s))

/-- **The walks of a statement agree.** There is a list of all places in the statement, each of them
once and before those below it. The selects are those that stand at these places, in this order; the
expressions that both walks enter are those that stand there, each once. A visit that changes
nothing hands back the statement, and calls its callback on what the walk enters, in its order. From
each select and each expression it goes on in place, to what can be changed of what the callback
hands back. -/
theorem Statement.walks_agree (s : Statement) :
    (∃ places : List TreePath, (∀ p, p ∈ places ↔ s.partAt? p ≠ none)
        ∧ places.Pairwise (fun p p' => ¬ p' <+: p)
        ∧ s.selects = places.filterMap (fun p => (s.partAt? p).bind TreePart.select?)
        ∧ s.nodes.Perm (places.filterMap fun p => (s.partAt? p).bind TreePart.expr?)
        ∧ s.nodesInOrder.Perm (places.filterMap fun p => (s.partAt? p).bind TreePart.expr?))
      ∧ (∀ {σ : Type} (f : Select → StateM σ Select), ChangesNothing f →
        (∀ c, (s.visit f).run c = (s, s.selects.foldl (stateAfter f) c))
          ∧ ∀ q, (Body.select q).visit f
            = do return .select (← f q >>= Select.eachStatement (Statement.visit f)))
      ∧ ∀ {σ : Type} (f : Expr → StateM σ Expr), ChangesNothing f →
        (∀ c, (s.visitExprs f).run c = (s, s.nodes.foldl (stateAfter f) c))
          ∧ ∀ e, Expr.visit f e = f e >>= Expr.eachChild (Expr.visit f) := by
  obtain ⟨places, ⟨hcomplete, horder⟩, hmap⟩ := TreePart.exists_places (.inl (.inl s))
  have hparts : ∀ {α : Type} (pick : TreePart → Option α),
      places.filterMap (fun p => (s.partAt? p).bind pick)
        = (TreePart.all (.inl (.inl s))).filterMap pick := by
    intro α pick
    have hbind : ∀ xs : List TreePart, (xs.map some).filterMap (fun o => o.bind pick)
        = xs.filterMap pick := fun xs => by rw [List.filterMap_map]; rfl
    rw [← hbind, ← hmap, List.filterMap_map]
    rfl
  have hnodes := TreePart.nodes_perm (.inl (.inl s))
  refine ⟨⟨places, hcomplete, horder, ?_, ?_, ?_⟩, fun f hf => ⟨fun c => ?_, Body.visit_inPlace hf⟩,
    fun f hf => ⟨fun c => ?_, Expr.visit_inPlace hf⟩⟩
  · rw [hparts]
    exact TreePart.selects_eq_filterMap (.inl (.inl s))
  · rw [hparts]
    exact hnodes
  -- the walk in printed order enters what the other one enters
  · rw [hparts]
    exact s.nodes_perm.symm.trans hnodes
  · exact Statement.visits_unchanged hf s c _ rfl
  · exact Statement.visitExprs_unchanged hf s c _ rfl

/-- A callback that counts its calls. -/
def countCall {α : Type} (a : α) : StateM Nat α := modifyGet fun n => (a, n + 1)

theorem foldl_countCall (xs : List α) (n : Nat) :
    xs.foldl (stateAfter countCall) n = n + xs.length := by
  induction xs generalizing n with
  | nil => rfl
  | cons x xs ih =>
    rw [List.foldl_cons, ih, List.length_cons, Nat.add_comm xs.length 1, ← Nat.add_assoc]
    rfl

/-- A definition, a window in a subquery, and a subquery in FROM. -/
def nestedSample : Statement :=
  let column (n : String) : Expr := .column ⟨[], n⟩
  let select (e : Expr) (source : Option Source) : Body :=
    .select ⟨false, [⟨e, none⟩], source, [], none, [], none, [], none, none⟩
  let sum : Expr :=
    .call "sum" [column "b"] false none (some ⟨[column "d"], [⟨column "e", none, none⟩]⟩)
  ⟨some ⟨false, [⟨"c", [], ⟨none, select (.literal (.number "1")) none⟩⟩]⟩,
    select (.subquery ⟨none, select sum none⟩)
      (some (.subquery ⟨none, select (column "y") (some (.table [] "c" none))⟩ "q"))⟩

theorem walks_agree_nestedSample :
    ChangesNothing (@countCall Select) ∧ ChangesNothing (@countCall Expr)
      ∧ (nestedSample.visit countCall).run 0 = (nestedSample, 4)
      ∧ (nestedSample.visitExprs countCall).run 0 = (nestedSample, 7) := by
  have hselects : nestedSample.selects.length = 4 := by decide +kernel
  have hnodes : nestedSample.nodes.length = 7 := by decide +kernel
  have hkeeps : ∀ {α : Type}, ChangesNothing (@countCall α) := fun _ _ => rfl
  obtain ⟨-, hvisit, hvisitExprs⟩ := nestedSample.walks_agree
  refine ⟨hkeeps, hkeeps, ?_, ?_⟩
  · rw [(hvisit countCall hkeeps).1, foldl_countCall, hselects]
  · rw [(hvisitExprs countCall hkeeps).1, foldl_countCall, hnodes]

end Sql
