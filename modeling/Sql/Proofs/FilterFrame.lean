import Sql.Proofs.FilterMentions
import Sql.Proofs.PushedDown
import Sql.Proofs.SameTrees
import Sql.Proofs.UnfilteredTrees

/-!
# What filtering by criteria touches

Filtering adds predicates to WHERE and HAVING clauses and leaves everything else as it was. No
criterion is lost on the way, and no predicate lands in a clause that cannot evaluate it.

* `Statement.filterBy_frame`: the tree without its filters stays, each clause is extended by
  predicates of the criteria, and every criterion is carried out for every select that the statement
  combines.
* `Statement.filterBy_evaluable`: no predicate contains a window function, and just those in HAVING
  contain an aggregate.
-/

namespace Sql

variable {lookup : Option Lookup} {pushDown : Bool} {criteria : Criteria} {s t : Statement}
  {key : String} {c : Criterion}

/-! ## Placements that are left out -/

/-- A placement is carried out, or another one that puts the same predicate in its place. -/
theorem exists_mem_distinctPlacements {q : Placement} {ps : List Placement} (h : q ∈ ps) :
    ∃ p ∈ distinctPlacements ps, p.place = q.place
      ∧ (p = q ∨ q.predicate.same p.predicate = true) := by
  induction ps with
  | nil => simp at h
  | cons first ps ih =>
    rw [distinctPlacements]
    rcases List.mem_cons.mp h with rfl | h
    · exact ⟨_, List.mem_cons_self, rfl, .inl rfl⟩
    · obtain ⟨p, hp, hplace, hsame⟩ := ih h
      by_cases hfirst : (p.place == first.place && p.predicate.same first.predicate) = true
      · rw [Bool.and_eq_true, beq_iff_eq] at hfirst
        -- what stands for `q` is left out as well, so `first` stands for both
        refine ⟨first, List.mem_cons_self, hfirst.1.symm.trans hplace, .inr ?_⟩
        rcases hsame with rfl | hsame
        · exact hfirst.2
        · exact Expr.same_trans _ _ _ hsame hfirst.2
      · refine ⟨p, List.mem_cons_of_mem _ (List.mem_filter.mpr ⟨hp, ?_⟩), hplace, hsame⟩
        rw [Bool.not_eq_true] at hfirst
        rw [hfirst]
        rfl

/-! ## Everything but the filters stays -/

/-- The placement carries out a criterion for the select of the statement with that number: it puts
the predicate of the criterion, or one that is the same, where a descent from the key's column in
the select ends. -/
def Placement.CarriesOut (p : Placement) (lookup : Option Lookup) (s : Statement) (key : String)
    (c : Criterion) (i : Nat) (root : Site) : Prop :=
  ∃ q : Placement, (∃ column, s.FindsIn lookup key i root column
      ∧ q.EndsDescent lookup s key c root column.expr)
    ∧ p.place = q.place ∧ (p = q ∨ q.predicate.same p.predicate = true)

/-- The placements belong to criteria, and every criterion is carried out for every select that the
statement combines. -/
structure CarryOut (ps : List Placement) (lookup : Option Lookup) (s : Statement)
    (criteria : Criteria) : Prop where
  belongs : ∀ p ∈ ps, ∃ key c, (key, c) ∈ criteria.active
    ∧ ∃ i root, (s.sites .empty [])[i]? = some root ∧ ∃ column, s.FindsIn lookup key i root column
      ∧ p.EndsDescent lookup s key c root column.expr
  complete : ∀ key c, (key, c) ∈ criteria.active →
    ∀ i root, (s.sites .empty [])[i]? = some root → ∃ p ∈ ps, p.CarriesOut lookup s key c i root

/-- Filtering is carrying out placements, all at once. -/
theorem Statement.exists_carryOut (h : s.filterBy criteria pushDown lookup = .ok t) :
    ∃ ps, t = s.filteredBy ps ∧ CarryOut ps lookup s criteria := by
  obtain ⟨all, rfl, hfrom, hall⟩ := filterBy_eq_placesIn h
  have hroots : ∀ {i : Nat} {root : Site}, (s.sites .empty [])[i]? = some root →
      root.StandsIn s := fun hroot => s.rootSites_stand _ (List.mem_of_getElem? hroot)
  refine ⟨distinctPlacements all, s.foldl_apply _, ?_, ?_⟩
  · intro p hp
    obtain ⟨key, c, hc, i, root, hroot, qs, ⟨column, hcolumn, hqs⟩, hp⟩ :=
      hfrom p (mem_of_mem_distinctPlacements hp)
    exact ⟨key, c, hc, i, root, hroot, column, hcolumn,
      endsDescent_of_placements (hroots hroot) hqs p hp⟩
  · intro key c hc i root hroot
    -- one of its placements is enough, or the one that stands for it
    obtain ⟨qs, ⟨column, hcolumn, hqs⟩, hmem⟩ := hall key c hc i root hroot
    obtain ⟨q, hq⟩ := List.exists_mem_of_ne_nil _ (placements_ne_nil root column.expr hqs)
    obtain ⟨p, hp, hplace, hsame⟩ := exists_mem_distinctPlacements (hmem q hq)
    have hends := endsDescent_of_placements (hroots hroot) hqs q hq
    exact ⟨p, hp, q, ⟨column, hcolumn, hends⟩, hplace, hsame⟩

/-- **Filtering touches only filters and loses no criterion.** Without its WHERE and HAVING clauses
the filtered tree is the one that was there before. It is that tree with predicates added: those of
placements, each joined to the clause that it is meant for, at its place, and every predicate is
that of a criterion over some expression. For every criterion and every select that the statement
combines, a predicate of it stands in that select, or where its column comes from. -/
theorem Statement.filterBy_frame (h : s.filterBy criteria pushDown lookup = .ok t) :
    t.unfiltered = s.unfiltered ∧ ∃ ps, t = s.filteredBy ps
      ∧ (∀ place q, s.selectAt? place = some q → ∃ r, t.selectAt? place = some r
          ∧ r.filter = conjoinAll q.filter (predicatesAt place false ps)
          ∧ r.having = conjoinAll q.having (predicatesAt place true ps) ∧ r.items = q.items)
      ∧ CarryOut ps lookup s criteria := by
  obtain ⟨ps, rfl, hcarry⟩ := exists_carryOut h
  exact ⟨s.unfiltered_filteredBy _, _, rfl, fun _ _ hq => selectAt?_filteredBy hq, hcarry⟩

/-- A filter of the sums of a CTE: the key that is grouped by goes down to both operands of the
CTE, the sum is filtered in HAVING. -/
theorem filterBy_frame_sums :
    ∃ s t, parse ("with p as (select n, k from s union all select m, j from g) "
          ++ "select n, sum(k) as total from p group by n") = .ok s
      ∧ s.filterBy ⟨[("n", .equals (.string "x")), ("total", .atLeast (.nat 5))]⟩ true none = .ok t
      ∧ (∃ out, t.format .generic = .ok out
        ∧ out.sql = "WITH p AS (SELECT n, k FROM s WHERE n = :n UNION ALL "
          ++ "SELECT m, j FROM g WHERE m = :n) "
          ++ "SELECT n, sum(k) AS total FROM p GROUP BY n HAVING sum(k) >= :total_min")
      ∧ t.unfiltered = s.unfiltered ∧ ∃ ps, t = s.filteredBy ps
      ∧ (∀ place q, s.selectAt? place = some q → ∃ r, t.selectAt? place = some r
          ∧ r.filter = conjoinAll q.filter (predicatesAt place false ps)
          ∧ r.having = conjoinAll q.having (predicatesAt place true ps) ∧ r.items = q.items)
      ∧ CarryOut ps none s ⟨[("n", .equals (.string "x")), ("total", .atLeast (.nat 5))]⟩ := by
  obtain ⟨s, hs, h⟩ := exists_ok_of_any
    (show (parse ("with p as (select n, k from s union all select m, j from g) "
        ++ "select n, sum(k) as total from p group by n")).toOption.any
      (fun s => (s.filterBy ⟨[("n", .equals (.string "x")), ("total", .atLeast (.nat 5))]⟩ true
          none).toOption.any
        fun t => (t.format .generic).toOption.any fun out => out.sql ==
          "WITH p AS (SELECT n, k FROM s WHERE n = :n UNION ALL "
          ++ "SELECT m, j FROM g WHERE m = :n) "
          ++ "SELECT n, sum(k) AS total FROM p GROUP BY n HAVING sum(k) >= :total_min")
        = true by decide +kernel)
  obtain ⟨t, ht, h⟩ := exists_ok_of_any h
  obtain ⟨out, hout, h⟩ := exists_ok_of_any h
  exact ⟨s, t, hs, ht, ⟨out, hout, beq_iff_eq.mp h⟩, Statement.filterBy_frame ht⟩

/-! ## Clauses that can evaluate their predicates -/

/-- Whatever is true only of calls is true of some node of a predicate if it is of one of its
column. -/
theorem Predicate.any_nodes {column e : Expr} {bs : List (String × Value)}
    (h : Predicate column bs e) {f : Expr → Bool}
    (hf : ∀ e, f e = true → ∃ n as d filter w, e = .call n as d filter w) :
    e.nodes.any f = column.nodes.any f := by
  have hfalse : ∀ e, (∀ n as d filter w, e ≠ .call n as d filter w) → f e = false := fun e he =>
    Bool.eq_false_iff.mpr fun hfe => by
      obtain ⟨n, as, d, filter, w, rfl⟩ := hf e hfe
      exact he n as d filter w rfl
  have hparam : ∀ p, (Expr.param p).nodes.any f = false := fun p => by
    rw [Expr.nodes_eq]
    simp [Expr.children, hfalse]
  have hbinary : ∀ l op r, (Expr.binary l op r).nodes.any f = (l.nodes.any f || r.nodes.any f) :=
    fun l op r => by
      rw [Expr.nodes_eq]
      simp [Expr.children, hfalse]
  cases h with
  | missing =>
    rw [Expr.nodes_eq]
    simp [Expr.children, hfalse]
  | compare h => rw [hbinary, hparam, Bool.or_false]
  | within => simp only [Expr.and, hbinary, hparam, Bool.or_false, Bool.or_self]
  | listed h =>
    rw [Expr.nodes_eq]
    simp [Expr.children, hfalse, hparam, List.any_flatMap, List.flatMap_map]

theorem Predicate.containsAggregate_eq {column e : Expr} {bs : List (String × Value)}
    (h : Predicate column bs e) : e.containsAggregate = column.containsAggregate := by
  refine h.any_nodes fun e he => ?_
  split at he
  · exact ⟨_, _, _, _, _, rfl⟩
  · simp at he

theorem Predicate.containsWindow_eq {column e : Expr} {bs : List (String × Value)}
    (h : Predicate column bs e) : e.containsWindow = column.containsWindow := by
  refine h.any_nodes fun e he => ?_
  split at he
  · exact ⟨_, _, _, _, _, rfl⟩
  · simp at he

/-- The clause of the placement can evaluate its predicate: there is no window function in it, and
an aggregate just if it is meant for HAVING. -/
structure Placement.Evaluable (p : Placement) : Prop where
  no_window : p.predicate.containsWindow = false
  having_iff : p.having = true ↔ p.predicate.containsAggregate = true

theorem Placement.EndsDescent.evaluable {p : Placement} {root : Site} {column : Expr}
    (h : p.EndsDescent lookup s key c root column) : p.Evaluable := by
  obtain ⟨site, inner, -, hwindow, he, hhaving, -, -⟩ := h
  have hshape := Criterion.shape_of_predicate he
  exact ⟨hshape.containsWindow_eq.trans hwindow, by rw [hhaving, hshape.containsAggregate_eq]⟩

/-- **No predicate lands in a clause that cannot evaluate it.** Filtering is adding the predicates
of placements; none of them contains a window function, and those for HAVING are just those that
contain an aggregate outside every window. -/
theorem Statement.filterBy_evaluable (h : s.filterBy criteria pushDown lookup = .ok t) :
    ∃ ps, t = s.filteredBy ps ∧ CarryOut ps lookup s criteria ∧ ∀ p ∈ ps, p.Evaluable := by
  obtain ⟨ps, rfl, hcarry⟩ := exists_carryOut h
  refine ⟨ps, rfl, hcarry, fun p hp => ?_⟩
  obtain ⟨key, c, -, i, root, -, column, -, hends⟩ := hcarry.belongs p hp
  exact hends.evaluable

/-- A filter of a plain column and of a sum in one select: the first is evaluated in WHERE, the
second in HAVING. -/
theorem filterBy_evaluable_sums :
    ∃ s t, parse "select n, sum(k) as total from s group by n" = .ok s
      ∧ s.filterBy ⟨[("total", .atLeast (.nat 5)), ("n", .equals .null)]⟩ false none = .ok t
      ∧ (∃ out, t.format .generic = .ok out
        ∧ out.sql = "SELECT n, sum(k) AS total FROM s WHERE n IS NULL GROUP BY n "
          ++ "HAVING sum(k) >= :total_min")
      ∧ ∃ ps, t = s.filteredBy ps
        ∧ CarryOut ps none s ⟨[("total", .atLeast (.nat 5)), ("n", .equals .null)]⟩
        ∧ ∀ p ∈ ps, p.Evaluable := by
  obtain ⟨s, hs, h⟩ := exists_ok_of_any
    (show (parse "select n, sum(k) as total from s group by n").toOption.any
      (fun s => (s.filterBy ⟨[("total", .atLeast (.nat 5)), ("n", .equals .null)]⟩ false
          none).toOption.any
        fun t => (t.format .generic).toOption.any fun out => out.sql ==
          "SELECT n, sum(k) AS total FROM s WHERE n IS NULL GROUP BY n "
          ++ "HAVING sum(k) >= :total_min")
        = true by decide +kernel)
  obtain ⟨t, ht, h⟩ := exists_ok_of_any h
  obtain ⟨out, hout, h⟩ := exists_ok_of_any h
  exact ⟨s, t, hs, ht, ⟨out, hout, beq_iff_eq.mp h⟩, Statement.filterBy_evaluable ht⟩

end Sql
