import Sql.Proofs.Occurrences
import Sql.Proofs.Results
import Sql.Proofs.TablesInScope

/-!
# Tables and the scopes of CTEs

A name in FROM is that of a CTE where one of that name is in scope, and else that of a table. What
is in scope goes by the place of the name in the tree alone.

* `Body.Refers`: the names in FROM anywhere in a body, each with the CTEs that its place sees.
* `Body.Refers.mem_tablesIn`, `Body.exists_refers`: the walk over a tree with its scopes finds those
  that no CTE takes, and no others.
* `Statement.tables_scoping`: the tables of a statement by their qualified names.
-/

namespace Sql

/-- FROM names the table `m` somewhere in a body, at a place that sees the CTEs named `there`. The
body itself sees those named `seen`. -/
inductive Body.Refers : List String → Body → TableName → List String → Prop
  | table {seen : List String} {q : Select} {path : List String} {name : String}
      {asName : Option String} : q.HasSource (.table path name asName) →
      Refers seen (.select q) ⟨path, name⟩ seen
  | source {seen there : List String} {q : Select} {s : Statement} {asName : String}
      {m : TableName} : q.HasSource (.subquery s asName) → Refers seen (.nested s) m there →
      Refers seen (.select q) m there
  | expr {seen there : List String} {q : Select} {e : Expr} {s : Statement} {m : TableName} :
      q.HasExpr e → e.Encloses s → Refers seen (.nested s) m there → Refers seen (.select q) m there
  | left {seen there : List String} {l r : Body} {op : SetOperator} {m : TableName} :
      Refers seen l m there → Refers seen (.setOp l op r) m there
  | right {seen there : List String} {l r : Body} {op : SetOperator} {m : TableName} :
      Refers seen r m there → Refers seen (.setOp l op r) m there
  /-- The body of a CTE sees all CTEs of a recursive clause, and else those before it. -/
  | cte {seen there : List String} {s : Statement} {before after : List Cte} {c : Cte}
      {m : TableName} : s.ctes = before ++ c :: after →
      Refers ((if s.isRecursive then s.ctes else before).map Cte.name ++ seen)
        (.nested c.statement) m there →
      Refers seen (.nested s) m there
  | body {seen there : List String} {s : Statement} {m : TableName} :
      Refers (s.ctes.map Cte.name ++ seen) s.body m there → Refers seen (.nested s) m there

/-- FROM names the table somewhere in a statement that stands alone. -/
def Statement.Refers (s : Statement) (m : TableName) (there : List String) : Prop :=
  Body.Refers [] (.nested s) m there

/-- In every statement the names of the CTEs differ. -/
def Body.CtesDiffer (b : Body) : Prop :=
  ∀ t ∈ b.statements, NamesDiffer (t.ctes.map Cte.name)

/-- Where the names differ in a body, they do in its parts. -/
theorem Body.PartOf.ctesDiffer {part b : Body} {inner scope : Scope}
    (h : part.PartOf inner b scope) (hb : b.CtesDiffer) : part.CtesDiffer :=
  fun t ht => hb t (h.statements t ht)

theorem Body.CtesDiffer.nested {s : Statement} (h : (Body.nested s).CtesDiffer) :
    NamesDiffer (s.ctes.map Cte.name) := by
  refine h s ?_
  rw [statements_nested, Statement.statements_eq]
  exact List.mem_cons_self

/-- **A name in FROM that no CTE takes is found as a table.** -/
theorem Body.Refers.mem_tablesIn {seen there : List String} {b : Body} {m : TableName}
    (h : b.Refers seen m there) (hfree : m.takenBy there = false) :
    ∀ {scope : Scope}, scope.Shows seen → b.CtesDiffer → m ∈ b.tablesIn scope := by
  -- what is seen goes down the tree with the scope, so that the two agree where the name stands
  induction h with
  | table hsource =>
    intro scope hshows _
    refine mem_tablesIn_select.mpr (.inl ⟨_, Select.mem_sources_iff.mpr hsource, ?_⟩)
    rw [hshows.takenBy, hfree]
  | source hsource _ ih =>
    intro scope hshows hdiffer
    have hpart := PartOf.subquery (Select.mem_subqueries_iff.mpr (.inl ⟨_, hsource⟩)) scope
    exact hpart.tables _ (ih hfree hshows (hpart.ctesDiffer hdiffer))
  | expr hexpr hencloses _ ih =>
    intro scope hshows hdiffer
    have hpart :=
      PartOf.subquery (Select.mem_subqueries_iff.mpr (.inr ⟨_, hexpr, hencloses⟩)) scope
    exact hpart.tables _ (ih hfree hshows (hpart.ctesDiffer hdiffer))
  | @left _ _ l r op _ _ ih =>
    intro scope hshows hdiffer
    have hpart := PartOf.left l r op scope
    exact hpart.tables _ (ih hfree hshows (hpart.ctesDiffer hdiffer))
  | @right _ _ l r op _ _ ih =>
    intro scope hshows hdiffer
    have hpart := PartOf.right l r op scope
    exact hpart.tables _ (ih hfree hshows (hpart.ctesDiffer hdiffer))
  | @cte _ _ s before after c _ hsplit _ ih =>
    intro scope hshows hdiffer
    have hpart := PartOf.cte (s := s) (c := c) (by simp [hsplit]) scope
    exact hpart.tables _ (ih hfree (hshows.ofCte hsplit hdiffer.nested) (hpart.ctesDiffer hdiffer))
  | @body _ _ s _ _ ih =>
    intro scope hshows hdiffer
    have hpart := PartOf.body s scope
    exact hpart.tables _ (ih hfree (hshows.enter s) (hpart.ctesDiffer hdiffer))

/-- **Every table that is found is a name in FROM that no CTE takes.** -/
theorem Body.exists_refers {seen : List String} {scope : Scope} (hshows : scope.Shows seen)
    (b : Body) (hdiffer : b.CtesDiffer) {m : TableName} (hm : m ∈ b.tablesIn scope) :
    ∃ there, b.Refers seen m there ∧ m.takenBy there = false := by
  -- a name stands in FROM itself, or in one of the parts, which see what the scope shows them
  match b with
  | .select q =>
    rcases mem_tablesIn_select.mp hm with ⟨a, hsource, hfree⟩ | ⟨s, hs, hm⟩
    · rw [hshows.takenBy] at hfree
      exact ⟨seen, .table (Select.mem_sources_iff.mp hsource), hfree⟩
    · rw [← tablesIn_nested] at hm
      obtain ⟨there, h, hfree⟩ := exists_refers hshows (.nested s)
        ((PartOf.subquery hs scope).ctesDiffer hdiffer) hm
      rcases Select.mem_subqueries_iff.mp hs with ⟨a, hsource⟩ | ⟨e, hexpr, hencloses⟩
      · exact ⟨there, .source hsource h, hfree⟩
      · exact ⟨there, .expr hexpr hencloses h, hfree⟩
  | .setOp l op r =>
    rw [tablesIn_setOp, List.mem_append] at hm
    rcases hm with hm | hm
    · obtain ⟨there, h, hfree⟩ :=
        exists_refers hshows l ((PartOf.left l r op scope).ctesDiffer hdiffer) hm
      exact ⟨there, .left h, hfree⟩
    · obtain ⟨there, h, hfree⟩ :=
        exists_refers hshows r ((PartOf.right l r op scope).ctesDiffer hdiffer) hm
      exact ⟨there, .right h, hfree⟩
  | .nested s =>
    rw [tablesIn_nested, Statement.tablesIn_eq, List.mem_append, List.mem_flatMap] at hm
    rcases hm with ⟨c, hc, hm⟩ | hm
    · obtain ⟨before, after, hsplit⟩ := List.append_of_mem hc
      rw [← tablesIn_nested] at hm
      obtain ⟨there, h, hfree⟩ := exists_refers (hshows.ofCte hsplit hdiffer.nested)
        (.nested c.statement) ((PartOf.cte hc scope).ctesDiffer hdiffer) hm
      exact ⟨there, .cte hsplit h, hfree⟩
    · obtain ⟨there, h, hfree⟩ := exists_refers (hshows.enter s) s.body
        ((PartOf.body s scope).ctesDiffer hdiffer) hm
      exact ⟨there, .body h, hfree⟩
termination_by sizeOf b
decreasing_by
  · have := Select.sizeOf_lt_of_mem_subqueries hs
    simp only [Body.nested.sizeOf_spec, Body.select.sizeOf_spec]
    omega
  · simp +arith
  · simp +arith
  · have := Statement.sizeOf_lt_of_mem_ctes hc
    simp only [Body.nested.sizeOf_spec]
    omega
  · have := s.sizeOf_body_lt
    simp only [Body.nested.sizeOf_spec]
    omega

/-- **The tables of a statement are what FROM names and no CTE in scope is.** Where no WITH clause
defines a name twice, a qualified name is listed if FROM names it somewhere, with a path or out of
the scope of every CTE of that name. No qualified name is listed twice. -/
theorem Statement.tables_scoping {s : Statement}
    (hdiffer : ∀ t ∈ s.statements, NamesDiffer (t.ctes.map Cte.name)) :
    (∀ n, nameIn n (s.tables.map TableName.qualified) = true
      ↔ ∃ m there, s.Refers m there ∧ sameName n m.qualified = true
        ∧ (m.path ≠ [] ∨ nameIn m.name there = false))
      ∧ NamesDiffer (s.tables.map TableName.qualified) := by
  have hbody : (Body.nested s).CtesDiffer := by rwa [Body.CtesDiffer, Body.statements_nested]
  have hfree : ∀ (m : TableName) there,
      m.takenBy there = false ↔ m.path ≠ [] ∨ nameIn m.name there = false := by
    intro m there
    rw [TableName.takenBy, Bool.and_eq_false_iff, ← List.isEmpty_eq_false_iff]
  refine ⟨fun n => ?_, namesDiffer_firstByName TableName.qualified _⟩
  rw [nameIn_tables]
  constructor
  · rintro ⟨m, hm, hname⟩
    rw [← Body.tablesIn_nested] at hm
    obtain ⟨there, h, hm⟩ := Body.exists_refers Scope.shows_empty (.nested s) hbody hm
    exact ⟨m, there, h, hname, (hfree m there).mp hm⟩
  · rintro ⟨m, there, h, hname, hm⟩
    refine ⟨m, ?_, hname⟩
    rw [← Body.tablesIn_nested]
    exact h.mem_tablesIn ((hfree m there).mpr hm) Scope.shows_empty hbody

/-- The first CTE reads a table `b`, since the CTE `b` comes later. That one reads the first CTE, the
subquery reads the CTE `b` and a table that has a path. -/
theorem Statement.tables_scoping_later : ∃ s,
    parse ("with a as (select 1 from b), b as (select 2 from A) "
        ++ "select (select 3 from b, s.a)") = .ok s
      ∧ (∀ t ∈ s.statements, NamesDiffer (t.ctes.map Cte.name))
      ∧ (∀ n ∈ ["B", "S.A"], ∃ m there, s.Refers m there ∧ sameName n m.qualified = true
        ∧ (m.path ≠ [] ∨ nameIn m.name there = false))
      ∧ (∀ m there, s.Refers m there → sameName "a" m.qualified = true →
        m.path = [] ∧ nameIn m.name there = true)
      ∧ NamesDiffer (s.tables.map TableName.qualified) := by
  obtain ⟨s, hs, h⟩ := exists_ok_of_any
    (show (parse ("with a as (select 1 from b), b as (select 2 from A) "
        ++ "select (select 3 from b, s.a)")).toOption.any
      (fun s => decide (s.tables = [⟨[], "b"⟩, ⟨["s"], "a"⟩])) = true by decide +kernel)
  have htables := of_decide_eq_true h
  have hdiffer : ∀ t ∈ s.statements, NamesDiffer (t.ctes.map Cte.name) := fun t ht =>
    ((Statement.allSound_of_wf s (wf_of_parse hs)).2.2 t ht).1.names_differ
  obtain ⟨hiff, hdistinct⟩ := Statement.tables_scoping hdiffer
  have hlisted : ∀ n ∈ ["B", "S.A"], nameIn n (s.tables.map TableName.qualified) = true := by
    rw [htables]
    decide +kernel
  have hnot : nameIn "a" (s.tables.map TableName.qualified) = false := by
    rw [htables]
    decide +kernel
  refine ⟨s, hs, hdiffer, fun n hn => (hiff n).mp (hlisted n hn), fun m there h hname => ?_,
    hdistinct⟩
  by_contra hfree
  have hlisted := (hiff "a").mpr ⟨m, there, h, hname, by simpa [or_iff_not_imp_left] using hfree⟩
  simp [hnot] at hlisted

end Sql
