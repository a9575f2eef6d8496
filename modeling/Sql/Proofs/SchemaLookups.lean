import Sql.Proofs.Results
import Sql.Proofs.TablesInScope
import Sql.Scope.Columns

/-!
# What column resolution asks the schema

Column resolution asks the schema about bare names that no CTE takes, and about qualified names. In
both it lets the body of a CTE see the CTEs before it and no others, while for the tables of a
statement a recursive clause shows all its CTEs to each of their bodies.

* `Body.Asks` lists the tables that resolution may ask about.
* `outputColumns_congr`, `selectable_congr`: two lookups that answer alike on those lead to the same
  columns.
* `Body.Asks.mem_tablesIn`: what may be asked about is a table of the statement, but for the CTEs of
  recursive clauses.
* `columns_eq_of_tables`: lookups that agree on the tables of a statement lead to the same columns,
  where tables are told apart by their bare names and no recursive clause names a CTE ahead.
-/

namespace Sql

/-- Resolving the columns of a body may ask the schema about a table, when CTEs of the names `seen`
are in scope. Only the leftmost select and the subqueries and CTEs under it are looked at. -/
inductive Body.Asks : List String → Body → TableName → Prop
  | table {seen : List String} {q : Select} {path : List String} {name : String}
      {asName : Option String} : .table path name asName ∈ q.sources →
      (TableName.mk path name).takenBy seen = false → Asks seen (.select q) ⟨path, name⟩
  | subquery {seen : List String} {q : Select} {s : Statement} {asName : String} {m : TableName} :
      .subquery s asName ∈ q.sources → Asks seen (.nested s) m → Asks seen (.select q) m
  | left {seen : List String} {l r : Body} {op : SetOperator} {m : TableName} :
      Asks seen l m → Asks seen (.setOp l op r) m
  /-- The body of a CTE sees those before it, also in a recursive clause. -/
  | cte {seen : List String} {s : Statement} {before after : List Cte} {c : Cte} {m : TableName} :
      s.ctes = before ++ c :: after →
      Asks ((before.map Cte.name).reverse ++ seen) (.nested c.statement) m →
      Asks seen (.nested s) m
  | body {seen : List String} {s : Statement} {m : TableName} :
      Asks ((s.ctes.map Cte.name).reverse ++ seen) s.body m → Asks seen (.nested s) m

/-- Resolving the columns of a statement that stands alone may ask the schema about a table. -/
def Statement.Asks (s : Statement) (m : TableName) : Prop := Body.Asks [] (.nested s) m

/-! ## Lookups that answer alike -/

section

variable (lookup lookup' : Option Lookup)

/-- The two lookups answer alike when they are asked about the table. -/
def AnsweredAlike (m : TableName) : Prop :=
  lookupColumns lookup m.qualified m.name = lookupColumns lookup' m.qualified m.name

/-- The lookups answer alike on what the definitions in the list ask, each seen from its place. -/
def EntriesAlike : List CteEntry → Prop
  | [] => True
  | e :: before =>
    (∀ m, Body.Asks (before.map fun e => e.cte.name) (.nested e.cte.statement) m →
      AnsweredAlike lookup lookup' m) ∧ EntriesAlike before

/-- The lookups answer alike on what a body in a scope asks, and on what the CTEs in scope ask. -/
structure Body.Alike (scope : Scope) (b : Body) : Prop where
  asks : ∀ m, b.Asks scope.names m → AnsweredAlike lookup lookup' m
  entries : EntriesAlike lookup lookup' scope.entries

end

variable {lookup lookup' : Option Lookup}

theorem EntriesAlike.of_findEntry {n : String} {e : CteEntry} {entries before : List CteEntry}
    (h : EntriesAlike lookup lookup' entries) (hfind : findEntry n entries = some (e, before)) :
    EntriesAlike lookup lookup' (e :: before) := by
  induction entries with
  | nil => simp [findEntry] at hfind
  | cons x entries ih =>
    rw [findEntry] at hfind
    split at hfind
    · obtain ⟨rfl, rfl⟩ := Prod.mk.inj (Option.some.inj hfind)
      exact h
    · exact ih h.2 hfind

/-- The definition that a source names is alike in the scope of its body. -/
theorem EntriesAlike.resolve? {scope before : Scope} {t : Source} {e : CteEntry}
    (h : EntriesAlike lookup lookup' scope.entries)
    (hresolve : scope.resolve? t = some (e, before)) :
    (Body.nested e.cte.statement).Alike lookup lookup' before := by
  unfold Scope.resolve? Scope.find? at hresolve
  split at hresolve
  · simp only [Option.map_eq_some_iff, Prod.exists, Prod.mk.injEq] at hresolve
    obtain ⟨e', entries, hfind, rfl, rfl⟩ := hresolve
    have hbefore := h.of_findEntry hfind
    exact ⟨hbefore.1, hbefore.2⟩
  · simp at hresolve

theorem Body.Alike.enter {scope : Scope} {s : Statement}
    (h : (Body.nested s).Alike lookup lookup' scope) :
    s.body.Alike lookup lookup' (scope.enter s) := by
  -- the definitions are added from the first to the last
  have hadd : ∀ after before : List Cte, s.ctes = before ++ after →
      EntriesAlike lookup lookup'
        ((before.map fun c => ⟨c, s.isRecursive⟩).reverse ++ scope.entries) →
      EntriesAlike lookup lookup' (scope.enter s).entries := by
    intro after
    induction after with
    | nil =>
      intro before hsplit hbefore
      rw [List.append_nil] at hsplit
      rw [Scope.enter, hsplit]
      exact hbefore
    | cons c after ih =>
      intro before hsplit hbefore
      have hnext : s.ctes = (before ++ [c]) ++ after := by simp [hsplit]
      apply ih _ hnext
      rw [List.map_append, List.reverse_append]
      refine ⟨fun m hm => h.asks m (.cte hsplit ?_), hbefore⟩
      simpa [Scope.names, List.map_reverse, Function.comp_def] using hm
  constructor
  · intro m hm
    rw [Scope.names_enter] at hm
    exact h.asks m (.body hm)
  · exact hadd s.ctes [] rfl h.entries

theorem Body.Alike.leftmostIn {scope : Scope} {b : Body} (h : b.Alike lookup lookup' scope) :
    (Body.select (b.leftmostIn scope).1).Alike lookup lookup' (b.leftmostIn scope).2 := by
  fun_induction Body.leftmostIn b scope with
  | case1 q scope => exact h
  | case2 l op r scope ih => exact ih ⟨fun m hm => h.asks m (.left hm), h.entries⟩
  | case3 w body scope ih => exact ih h.enter

mutual

/-- **The columns of a statement rest on what it asks.** -/
theorem outputColumns_congr {scope : Scope} (s : Statement)
    (h : (Body.nested s).Alike lookup lookup' scope) :
    outputColumns lookup scope s = outputColumns lookup' scope s := by
  have hleft := h.enter.leftmostIn
  have hlt := s.body.leftmostIn_weight_lt (scope.enter s)
  have hle := scope.weight_enter_le s
  rw [outputColumns, outputColumns]
  split
  · rfl
  · split
    next q inner hq =>
    rw [hq] at hleft hlt
    have hsmaller : sizeOf q + inner.weight < sizeOf s + scope.weight := by
      dsimp only at hlt
      omega
    rw [sourceColumns_congr q hleft]
termination_by sizeOf s + scope.weight
decreasing_by exact hsmaller

theorem sourceColumns_congr {scope : Scope} (q : Select)
    (h : (Body.select q).Alike lookup lookup' scope) :
    sourceColumns lookup scope q = sourceColumns lookup' scope q := by
  rw [sourceColumns_eq, sourceColumns_eq]
  exact mapM_congr fun t ht => columnsOf_congr q h t ht
termination_by sizeOf q + scope.weight
decreasing_by
  have := Select.sizeOf_lt_of_mem_sources ht
  omega

theorem columnsOf_congr {scope : Scope} (q : Select)
    (h : (Body.select q).Alike lookup lookup' scope) (t : Source) (ht : t ∈ q.sources) :
    columnsOf lookup scope q t = columnsOf lookup' scope q t := by
  match t with
  | .subquery s asName =>
    rw [columnsOf, columnsOf,
      outputColumns_congr s ⟨fun m hm => h.asks m (.subquery ht hm), h.entries⟩]
  | .table path name asName =>
    rw [columnsOf, columnsOf]
    split
    · next entry before hresolve =>
      have hlt := Scope.resolve?_weight_lt hresolve
      rw [outputColumns_congr entry.cte.statement (h.entries.resolve? hresolve)]
    · next hresolve =>
      -- no CTE takes the name, so this is one of the questions
      have hfree : (TableName.mk path name).takenBy scope.names = false := by
        rw [← Scope.isSome_resolve?, hresolve]
        rfl
      have halike := h.asks _ (.table ht hfree)
      unfold AnsweredAlike TableName.qualified at halike
      rw [halike]
termination_by sizeOf t + scope.weight
decreasing_by
  · simp +arith
  · omega

end

/-- What a statement can name rests on what it asks. -/
theorem selectable_congr {s : Statement}
    (h : ∀ m, s.Asks m → AnsweredAlike lookup lookup' m) :
    selectable lookup s = selectable lookup' s := by
  have hroot : (Body.nested s).Alike lookup lookup' .empty := ⟨h, trivial⟩
  have hleft := hroot.enter.leftmostIn
  show selectableIn lookup _ _ = selectableIn lookup' _ _
  rw [selectableIn, selectableIn]
  rw [show Scope.root s = Scope.empty.enter s from rfl, sourceColumns_congr _ hleft]

/-! ## Questions and tables -/

/-- A bare name that a recursive clause of one of the statements defines. -/
def TableName.NamesRecursive (m : TableName) (statements : List Statement) : Prop :=
  ∃ t ∈ statements, t.isRecursive = true ∧ m.takenBy (t.ctes.map Cte.name) = true

theorem TableName.takenBy_append (m : TableName) (ns ks : List String) :
    m.takenBy (ns ++ ks) = (m.takenBy ns || m.takenBy ks) := by
  rw [takenBy, nameIn_append, Bool.and_or_distrib_left]
  rfl

namespace Body.PartOf

/-- What is known of a mention in a part is known of it in the whole. -/
theorem lift {part b : Body} {inner scope : Scope} (h : part.PartOf inner b scope) {m : TableName}
    {extra : List String}
    (hm : m ∈ part.tablesIn inner ∨ m.takenBy extra = true ∨ m.NamesRecursive part.statements) :
    m ∈ b.tablesIn scope ∨ m.takenBy extra = true ∨ m.NamesRecursive b.statements := by
  rcases hm with hm | hm | ⟨t, ht, hm⟩
  · exact .inl (h.tables m hm)
  · exact .inr (.inl hm)
  · exact .inr (.inr ⟨t, h.statements t ht, hm⟩)

end Body.PartOf

/-- **What resolution may ask about is a table of the body.** Where the tables are taken with more
CTEs in scope, those CTEs may be asked about as well, and so may the CTEs of recursive clauses. -/
theorem Body.Asks.mem_tablesIn {seen : List String} {b : Body} {m : TableName} (h : b.Asks seen m) :
    ∀ {extra : List String} {scope : Scope},
      (∀ n, nameIn n scope.names = (nameIn n seen || nameIn n extra)) → b.AllSound False →
      m ∈ b.tablesIn scope ∨ m.takenBy extra = true ∨ m.NamesRecursive b.statements := by
  -- on the way down `extra` grows by the CTEs of recursive clauses that resolution does not see yet
  induction h with
  | @table seen q path name asName hsource hfree =>
    intro extra scope hscope _
    cases htaken : (TableName.mk path name).takenBy extra with
    | true => exact .inr (.inl rfl)
    | false =>
      refine .inl (Body.mem_tablesIn_select.mpr (.inl ⟨_, hsource, ?_⟩))
      unfold TableName.takenBy at *
      rw [hscope, Bool.and_or_distrib_left, hfree, htaken]
      rfl
  | @subquery seen q s asName m hsource _ ih =>
    intro extra scope hscope hsound
    have hs := (Select.allSound_iff.mp hsound).2.2 _ hsource s rfl
    have hmem : s ∈ q.subqueries := List.mem_append_left _ (List.mem_filterMap.mpr ⟨_, hsource, rfl⟩)
    exact (PartOf.subquery hmem scope).lift (ih hscope (Body.allSound_nested.mpr hs))
  | @left seen l r op m _ ih =>
    intro extra scope hscope hsound
    exact (PartOf.left l r op scope).lift (ih hscope (Body.allSound_setOp.mp hsound).1)
  | @cte seen s before after c m hsplit _ ih =>
    intro extra scope hscope hsound
    obtain ⟨⟨hwf, -⟩, hctes, -⟩ := Statement.allSound_iff.mp (Body.allSound_nested.mp hsound)
    have hc : c ∈ s.ctes := by simp [hsplit]
    have hpart := PartOf.cte hc scope
    have hnested := Body.allSound_nested.mpr (hctes c hc)
    cases hrecursive : s.isRecursive with
    | false =>
      have hnames : ∀ n, nameIn n ((scope.enter s).ofCte s.isRecursive c).names
          = (nameIn n ((before.map Cte.name).reverse ++ seen) || nameIn n extra) := by
        intro n
        rw [Scope.names, Scope.entries_ofCte_split hsplit hwf.names_differ hrecursive,
          List.map_append, nameIn_append, nameIn_append, Bool.or_assoc, ← hscope]
        simp [Scope.names, List.map_reverse, Function.comp_def]
      exact hpart.lift (ih hnames hnested)
    | true =>
      -- here the body sees itself and the later ones, which resolution does not
      have hnames : ∀ n, nameIn n ((scope.enter s).ofCte s.isRecursive c).names
          = (nameIn n ((before.map Cte.name).reverse ++ seen)
            || nameIn n ((c :: after).map Cte.name ++ extra)) := by
        intro n
        rw [hrecursive, Scope.ofCte, if_pos rfl, Scope.names_enter, hsplit, List.map_append,
          nameIn_append, nameIn_reverse, nameIn_append, nameIn_append, nameIn_append,
          nameIn_reverse, hscope]
        cases nameIn n (before.map Cte.name) <;> cases nameIn n ((c :: after).map Cte.name) <;>
          cases nameIn n seen <;> rfl
      rcases hpart.lift (ih hnames hnested) with hm | hm | hm
      · exact .inl hm
      · rw [TableName.takenBy_append, Bool.or_eq_true] at hm
        rcases hm with hm | hm
        · refine .inr (.inr ⟨s, ?_, hrecursive, ?_⟩)
          · rw [Body.statements_nested, Statement.statements_eq]
            exact List.mem_cons_self
          · rw [hsplit, List.map_append, TableName.takenBy_append, hm, Bool.or_true]
        · exact .inr (.inl hm)
      · exact .inr (.inr hm)
  | @body seen s m _ ih =>
    intro extra scope hscope hsound
    obtain ⟨-, -, hbody⟩ := Statement.allSound_iff.mp (Body.allSound_nested.mp hsound)
    have hnames : ∀ n, nameIn n (scope.enter s).names
        = (nameIn n ((s.ctes.map Cte.name).reverse ++ seen) || nameIn n extra) := by
      intro n
      rw [Scope.names_enter, nameIn_append, nameIn_append, hscope, Bool.or_assoc]
    exact (PartOf.body s scope).lift (ih hnames hbody)

/-- A statement that stands alone asks about its tables, and about CTEs of recursive clauses. -/
theorem Statement.Asks.mem_tablesIn {s : Statement} {m : TableName} (h : s.Asks m)
    (hsound : s.AllSound False) :
    m ∈ s.tablesIn .empty ∨ m.NamesRecursive s.statements := by
  have hnames : ∀ n, nameIn n Scope.empty.names = (nameIn n [] || nameIn n []) := fun _ => rfl
  have hmem := Body.Asks.mem_tablesIn h hnames (Body.allSound_nested.mpr hsound)
  rw [Body.tablesIn_nested, Body.statements_nested] at hmem
  rcases hmem with hm | hm | hm
  · exact .inl hm
  · simp [TableName.takenBy, nameIn] at hm
  · exact .inr hm

/-! ## Lookups that agree on the tables -/

/-- The lookup does not distinguish names by case. -/
def Lookup.IgnoresCase (ask : Lookup) : Prop := ∀ a b, sameName a b = true → ask a = ask b

/-- The two lookups give the same answers on the qualified and on the bare name of a table. -/
def AgreeOn (ask ask' : Lookup) (m : TableName) : Prop :=
  ask m.qualified = ask' m.qualified ∧ ask m.name = ask' m.name

theorem AgreeOn.answeredAlike {ask ask' : Lookup} {m : TableName} (h : AgreeOn ask ask' m) :
    AnsweredAlike (some ask) (some ask') m := by
  unfold AnsweredAlike lookupColumns
  dsimp only
  rw [h.1, h.2]

/-- Agreement on a name extends to the other cases of its letters. -/
theorem eq_of_ignoresCase {ask ask' : Lookup} (hcase : ask.IgnoresCase) (hcase' : ask'.IgnoresCase)
    {n k : String} (hname : sameName n k = true) (h : ask k = ask' k) : ask n = ask' n := by
  rw [hcase n k hname, hcase' n k hname, h]

/-- **Column resolution asks about the tables of a statement.** Two lookups that agree on the names
of the tables lead to the same columns, if they agree on two more kinds of bare names: those of
tables whose qualified name, written without quotes, is that of another table; and those by which a
CTE of a recursive clause calls itself or a later one. -/
theorem columns_eq_of_tables {text : String} {s : Statement} (hread : parse text = .ok s)
    {ask ask' : Lookup} (hcase : ask.IgnoresCase) (hcase' : ask'.IgnoresCase)
    (htables : ∀ m ∈ s.tables, AgreeOn ask ask' m)
    (hrepeated : ∀ m ∈ s.tablesIn .empty,
      (∀ k ∈ s.tables, sameName m.name k.name = false) → ask m.name = ask' m.name)
    (hahead : ∀ m, s.Asks m → m ∉ s.tablesIn .empty → ask m.name = ask' m.name) :
    selectable (some ask) s = selectable (some ask') s
      ∧ outputColumns (some ask) .empty s = outputColumns (some ask') .empty s
      ∧ ∀ m, s.Asks m → m ∉ s.tablesIn .empty → m.NamesRecursive s.statements := by
  have hsound : s.AllSound False := Statement.allSound_of_wf s (wf_of_parse hread)
  have halike : ∀ m, s.Asks m → AnsweredAlike (some ask) (some ask') m := by
    intro m hm
    apply AgreeOn.answeredAlike
    by_cases htable : m ∈ s.tablesIn .empty
    · -- a table of its qualified name is reported, though perhaps not this one
      obtain ⟨k, hk, hqualified⟩ := exists_mem_firstByName TableName.qualified htable
      refine ⟨eq_of_ignoresCase hcase hcase' (sameName_symm hqualified) (htables k hk).1, ?_⟩
      by_cases hbare : ∀ k ∈ s.tables, sameName m.name k.name = false
      · exact hrepeated m htable hbare
      · simp only [not_forall, Bool.not_eq_false] at hbare
        obtain ⟨k, hk, hname⟩ := hbare
        exact eq_of_ignoresCase hcase hcase' hname (htables k hk).2
    · -- the name of a CTE is bare
      obtain ⟨t, -, -, htaken⟩ := (hm.mem_tablesIn hsound).resolve_left htable
      obtain ⟨path, name⟩ := m
      have hpath : path = [] := by
        rw [TableName.takenBy, Bool.and_eq_true] at htaken
        exact List.isEmpty_iff.mp htaken.1
      subst hpath
      have hname := hahead _ hm htable
      exact ⟨by simpa [TableName.qualified, dotted] using hname, hname⟩
  exact ⟨selectable_congr halike, outputColumns_congr s ⟨halike, trivial⟩,
    fun m hm htable => (hm.mem_tablesIn hsound).resolve_left htable⟩

/-! ## Catalogs -/

theorem Catalog.lookup_ignoresCase (c : Catalog) : c.lookup.IgnoresCase := by
  intro a b h
  show Except.ok (c.columns? a) = Except.ok (c.columns? b)
  unfold columns?
  rw [sameName_iff.mp h]

/-- The recursive CTE `r` reads the table `t` and itself. The second schema also knows a table `c`,
but `c` is a CTE. -/
theorem columns_eq_of_tables_catalogs : ∃ s,
    parse "with c as (with recursive r as (select * from t, r) select * from r) select * from c"
        = .ok s
      ∧ selectable (some (Catalog.lookup ⟨[("t", ["x"])]⟩)) s
        = selectable (some (Catalog.lookup ⟨[("t", ["x"]), ("c", ["z"])]⟩)) s
      ∧ outputColumns (some (Catalog.lookup ⟨[("t", ["x"])]⟩)) .empty s
        = outputColumns (some (Catalog.lookup ⟨[("t", ["x"]), ("c", ["z"])]⟩)) .empty s := by
  obtain ⟨s, hs, h⟩ := exists_ok_of_any
    (show (parse
        "with c as (with recursive r as (select * from t, r) select * from r) select * from c").toOption.any
      (fun s => decide (s.tablesIn .empty = [⟨[], "t"⟩] ∧ s.tables = [⟨[], "t"⟩]
        ∧ ∀ t ∈ s.statements, t.isRecursive = true → t.ctes.map Cte.name = ["r"])) = true
      by decide +kernel)
  obtain ⟨hmentions, htables, hrecursive⟩ := of_decide_eq_true h
  have hcase := Catalog.lookup_ignoresCase ⟨[("t", ["x"])]⟩
  have hcase' := Catalog.lookup_ignoresCase ⟨[("t", ["x"]), ("c", ["z"])]⟩
  have hsound : s.AllSound False := Statement.allSound_of_wf s (wf_of_parse hs)
  have hcolumns := columns_eq_of_tables hs hcase hcase'
    (by
      rw [htables]
      exact List.forall_mem_singleton.mpr ⟨rfl, rfl⟩)
    (by
      intro m hm hbare
      rw [hmentions, ← htables] at hm
      have hself := hbare m hm
      simp at hself)
    (by
      intro m hm htable
      obtain ⟨t, ht, hrec, htaken⟩ := (hm.mem_tablesIn hsound).resolve_left htable
      rw [hrecursive t ht hrec, TableName.takenBy, Bool.and_eq_true] at htaken
      have hname : sameName m.name "r" = true := by simpa [nameIn] using htaken.2
      exact eq_of_ignoresCase hcase hcase' hname rfl)
  exact ⟨s, hs, hcolumns.1, hcolumns.2.1⟩

/-- **The tables of a statement do not settle its columns.** In the first statement the recursive
CTE `a` reads the CTE `b`, which is defined after it, and the schema is asked about a table `b`. In
the second the tables `"a.b"` and `a.b` have one qualified name, so one of them is reported, and the
schema is asked about `b`. -/
theorem columns_ne_of_tables :
    (∃ s, parse "with recursive a as (select * from b), b as (select 1 as x) select * from a"
          = .ok s
      ∧ s.tables = []
      ∧ outputColumns (some (Catalog.lookup ⟨[]⟩)) .empty s
        ≠ outputColumns (some (Catalog.lookup ⟨[("b", ["y"])]⟩)) .empty s)
    ∧ ∃ s, parse "select * from \"a.b\", a.b" = .ok s ∧ s.tables = [⟨[], "a.b"⟩]
      ∧ AgreeOn (Catalog.lookup ⟨[("b", ["x"])]⟩) (Catalog.lookup ⟨[("b", ["y"])]⟩) ⟨[], "a.b"⟩
      ∧ outputColumns (some (Catalog.lookup ⟨[("b", ["x"])]⟩)) .empty s
        ≠ outputColumns (some (Catalog.lookup ⟨[("b", ["y"])]⟩)) .empty s := by
  have hne : ∀ {r r' : Except Error OutputColumns},
      r.toOption.map OutputColumns.names ≠ r'.toOption.map OutputColumns.names → r ≠ r' := by
    rintro r _ h rfl
    exact h rfl
  constructor
  · obtain ⟨s, hs, h⟩ := exists_ok_of_any
      (show (parse
          "with recursive a as (select * from b), b as (select 1 as x) select * from a").toOption.any
        (fun s => decide (s.tables = []
          ∧ (outputColumns (some (Catalog.lookup ⟨[]⟩)) .empty s).toOption.map OutputColumns.names
            ≠ (outputColumns (some (Catalog.lookup ⟨[("b", ["y"])]⟩)) .empty s).toOption.map
              OutputColumns.names)) = true by decide +kernel)
    obtain ⟨htables, hcolumns⟩ := of_decide_eq_true h
    exact ⟨s, hs, htables, hne hcolumns⟩
  · obtain ⟨s, hs, h⟩ := exists_ok_of_any
      (show (parse "select * from \"a.b\", a.b").toOption.any
        (fun s => decide (s.tables = [⟨[], "a.b"⟩]
          ∧ (outputColumns (some (Catalog.lookup ⟨[("b", ["x"])]⟩)) .empty s).toOption.map
              OutputColumns.names
            ≠ (outputColumns (some (Catalog.lookup ⟨[("b", ["y"])]⟩)) .empty s).toOption.map
              OutputColumns.names)) = true by decide +kernel)
    obtain ⟨htables, hcolumns⟩ := of_decide_eq_true h
    exact ⟨s, hs, htables, ⟨rfl, rfl⟩, hne hcolumns⟩

end Sql
