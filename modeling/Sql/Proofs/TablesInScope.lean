import Sql.Collect.Tables
import Sql.Proofs.ColumnNames
import Sql.Proofs.Sound
import Sql.Proofs.StageNames

/-!
# Tables under more CTEs

Which mentions of a statement are mentions of tables depends on the names of the CTEs in scope, and
on nothing else of the scope.

* `Scope.SeesAlso` compares two scopes by the names that can be used in them.
* `Body.mem_tablesIn_select` and `Body.PartOf`: the mentions in a body are those in its parts.
* `Statement.tablesIn_seesAlso`: under more names the statement mentions the same tables, but for
  those that the names take. A qualified name is never taken (`TableName.takenBy`).
* `Scope.entries_ofCte_split`, `Scope.Shows.ofCte`: what the body of a CTE sees, by its place in the
  WITH clause.
-/

namespace Sql

/-! ## Names in scope -/

/-- The names of the CTEs in scope, innermost first. -/
def Scope.names (scope : Scope) : List String := scope.entries.map fun e => e.cte.name

/-- The second scope sees the CTEs of the first, and CTEs of the given names as well. -/
def Scope.SeesAlso (names : List String) (a b : Scope) : Prop :=
  ∀ n, nameIn n b.names = (nameIn n a.names || nameIn n names)

/-- A bare name is taken by a CTE of that name. -/
def TableName.takenBy (t : TableName) (names : List String) : Bool :=
  t.path.isEmpty && nameIn t.name names

theorem nameIn_append {n : String} (ns ks : List String) :
    nameIn n (ns ++ ks) = (nameIn n ns || nameIn n ks) := by
  rw [nameIn, List.any_append]
  rfl

theorem nameIn_reverse {n : String} (ns : List String) : nameIn n ns.reverse = nameIn n ns := by
  rw [nameIn, List.any_reverse]
  rfl

theorem isSome_findEntry (n : String) (es : List CteEntry) :
    (findEntry n es).isSome = nameIn n (es.map fun e => e.cte.name) := by
  induction es with
  | nil => rfl
  | cons e es ih =>
    have hcons : nameIn n ((e :: es).map fun e => e.cte.name)
        = (sameName n e.cte.name || nameIn n (es.map fun e => e.cte.name)) := rfl
    rw [findEntry, hcons, sameName_comm n, ← ih]
    cases sameName e.cte.name n <;> rfl

theorem Scope.isSome_find? (scope : Scope) (n : String) :
    (scope.find? n).isSome = nameIn n scope.names := by
  rw [find?, Option.isSome_map, isSome_findEntry]
  rfl

/-- A source names a CTE if one in scope takes its name. -/
theorem Scope.isSome_resolve? (scope : Scope) (path : List String) (name : String)
    (asName : Option String) :
    (scope.resolve? (.table path name asName)).isSome
      = (TableName.mk path name).takenBy scope.names := by
  cases path with
  | nil => exact scope.isSome_find? name
  | cons p ps => rfl

/-- A source is a mention of a table unless it is a subquery or a CTE takes its name. -/
theorem Source.tablesIn_table (scope : Scope) (path : List String) (name : String)
    (asName : Option String) :
    (Source.table path name asName).tablesIn scope
      = if (TableName.mk path name).takenBy scope.names then [] else [⟨path, name⟩] := by
  show (scope.table? (.table path name asName)).toList = _
  rw [Scope.table?, Scope.isSome_resolve?]
  cases (TableName.mk path name).takenBy scope.names <;> rfl

/-! ## Scopes inside a statement -/

theorem Scope.names_enter (scope : Scope) (s : Statement) :
    (scope.enter s).names = (s.ctes.map Cte.name).reverse ++ scope.names := by
  simp [names, enter, List.map_reverse]

theorem Scope.names_root (s : Statement) :
    (Scope.root s).names = (s.ctes.map Cte.name).reverse := by
  show (Scope.empty.enter s).names = _
  rw [Scope.names_enter]
  exact List.append_nil _

theorem Scope.SeesAlso.enter {names : List String} {a b : Scope} (h : a.SeesAlso names b)
    (s : Statement) : (a.enter s).SeesAlso names (b.enter s) := by
  intro n
  rw [Scope.names_enter, Scope.names_enter, nameIn_append, nameIn_append, h n, Bool.or_assoc]

/-- A name that is found among the first entries is found there, whatever stands behind them. -/
theorem findEntry_append {n : String} {e : CteEntry} {own before : List CteEntry}
    (h : findEntry n own = some (e, before)) (outer : List CteEntry) :
    findEntry n (own ++ outer) = some (e, before ++ outer) := by
  induction own with
  | nil => simp [findEntry] at h
  | cons x own ih =>
    rw [findEntry] at h
    rw [List.cons_append, findEntry]
    by_cases hx : sameName x.cte.name n = true
    · rw [if_pos hx] at h
      obtain ⟨rfl, rfl⟩ := Prod.mk.inj (Option.some.inj h)
      rw [if_pos hx]
    · rw [if_neg hx] at h
      rw [if_neg hx]
      exact ih h

/-- The body of a CTE sees some CTEs of its own WITH clause, and all that stand outside. -/
theorem Scope.entries_ofCte {s : Statement} {c : Cte} (hc : c ∈ s.ctes) :
    ∃ own : List CteEntry, ∀ scope : Scope,
      ((scope.enter s).ofCte s.isRecursive c).entries = own ++ scope.entries := by
  cases hrecursive : s.isRecursive with
  | true =>
    refine ⟨(s.ctes.map fun c => ⟨c, s.isRecursive⟩).reverse, fun scope => ?_⟩
    rw [ofCte, if_pos rfl]
    rfl
  | false =>
    -- the clause defines the name, so it is found before anything outside is looked at
    have hfound : (findEntry c.name (s.ctes.map fun c => ⟨c, s.isRecursive⟩).reverse).isSome := by
      rw [isSome_findEntry, List.map_reverse, nameIn_reverse]
      refine nameIn_iff.mpr ⟨c.name, ?_, sameName_refl _⟩
      exact List.mem_map.mpr ⟨⟨c, _⟩, List.mem_map_of_mem hc, rfl⟩
    obtain ⟨⟨e, before⟩, hfound⟩ := Option.isSome_iff_exists.mp hfound
    refine ⟨before, fun scope => ?_⟩
    have hentries : (scope.enter s).entries
        = (s.ctes.map fun c => ⟨c, s.isRecursive⟩).reverse ++ scope.entries := rfl
    rw [ofCte, if_neg Bool.false_ne_true, find?, hentries, findEntry_append hfound]
    rfl

theorem Scope.SeesAlso.ofCte {names : List String} {a b : Scope} (h : a.SeesAlso names b)
    {s : Statement} {c : Cte} (hc : c ∈ s.ctes) :
    ((a.enter s).ofCte s.isRecursive c).SeesAlso names ((b.enter s).ofCte s.isRecursive c) := by
  obtain ⟨own, hown⟩ := Scope.entries_ofCte hc
  have hnames : ∀ scope : Scope, ((scope.enter s).ofCte s.isRecursive c).names
      = (own.map fun e => e.cte.name) ++ scope.names := by
    intro scope
    rw [Scope.names, hown scope, List.map_append]
    rfl
  intro n
  rw [hnames, hnames, nameIn_append, nameIn_append, h n, Bool.or_assoc]

/-! ## Tables by their names -/

/-- A statement reads a table of that name if it mentions one. -/
theorem Statement.nameIn_tables {s : Statement} {n : String} :
    nameIn n (s.tables.map TableName.qualified) = true
      ↔ ∃ m ∈ s.tablesIn Scope.empty, sameName n m.qualified = true := by
  rw [nameIn_iff]
  constructor
  · rintro ⟨k, hk, hsame⟩
    obtain ⟨m, hm, rfl⟩ := List.mem_map.mp hk
    exact ⟨m, mem_of_mem_firstByName hm, hsame⟩
  · rintro ⟨m, hm, hsame⟩
    obtain ⟨k, hk, hname⟩ := exists_mem_firstByName TableName.qualified hm
    exact ⟨k.qualified, List.mem_map_of_mem hk, sameName_trans hsame (sameName_symm hname)⟩

theorem namesDiffer_firstByName {α : Type} (name : α → String) (xs : List α) :
    NamesDiffer ((firstByName name xs).map name) := by
  induction xs with
  | nil => exact List.Pairwise.nil
  | cons x xs ih =>
    rw [firstByName, List.map_cons]
    refine List.pairwise_cons.mpr ⟨?_, ih.sublist (List.filter_sublist.map name)⟩
    intro n hn
    obtain ⟨y, hy, rfl⟩ := List.mem_map.mp hn
    simpa using (List.mem_filter.mp hy).2

/-! ## Parts of a body -/

/-- A select mentions the tables that its FROM clause names, and those that the statements nested in
it mention. -/
theorem Body.mem_tablesIn_select {q : Select} {scope : Scope} {m : TableName} :
    m ∈ (Body.select q).tablesIn scope
      ↔ (∃ a, .table m.path m.name a ∈ q.sources ∧ m.takenBy scope.names = false)
        ∨ ∃ s ∈ q.subqueries, m ∈ s.tablesIn scope := by
  rw [tablesIn_select, List.mem_append, List.mem_flatMap, List.mem_flatMap]
  simp only [Select.subqueries, List.mem_append]
  constructor
  · rintro (⟨t, ht, hm⟩ | ⟨s, hs, hm⟩)
    · cases t with
      | table path name a =>
        rw [Source.tablesIn_table] at hm
        split at hm
        · simp at hm
        · next hfree =>
          obtain rfl := List.mem_singleton.mp hm
          exact .inl ⟨a, ht, Bool.eq_false_iff.mpr hfree⟩
      | subquery s a => exact .inr ⟨s, .inl (List.mem_filterMap.mpr ⟨_, ht, rfl⟩), hm⟩
    · exact .inr ⟨s, .inr hs, hm⟩
  · rintro (⟨a, ht, hfree⟩ | ⟨s, hs | hs, hm⟩)
    · refine .inl ⟨_, ht, ?_⟩
      rw [Source.tablesIn_table, hfree]
      exact List.mem_singleton_self _
    · obtain ⟨t, ht, hs⟩ := List.mem_filterMap.mp hs
      refine .inl ⟨t, ht, ?_⟩
      rw [Source.tablesIn, hs]
      exact hm
    · exact .inr ⟨s, hs, hm⟩

/-- A body in a scope is a part of another body: what it mentions and the statements in it are also
mentioned by the other and in the other. -/
structure Body.PartOf (part : Body) (inner : Scope) (b : Body) (scope : Scope) : Prop where
  tables : ∀ m ∈ part.tablesIn inner, m ∈ b.tablesIn scope
  statements : ∀ t ∈ part.statements, t ∈ b.statements

namespace Body.PartOf

theorem subquery {q : Select} {s : Statement} (h : s ∈ q.subqueries) (scope : Scope) :
    (Body.nested s).PartOf scope (.select q) scope := by
  constructor
  · intro m hm
    rw [Body.tablesIn_nested] at hm
    exact Body.mem_tablesIn_select.mpr (.inr ⟨s, h, hm⟩)
  · intro t ht
    rw [Body.statements_nested] at ht
    rw [Body.statements_select]
    exact List.mem_flatMap.mpr ⟨s, h, ht⟩

theorem left (l r : Body) (op : SetOperator) (scope : Scope) :
    l.PartOf scope (.setOp l op r) scope := by
  constructor
  · intro m hm
    rw [Body.tablesIn_setOp]
    exact List.mem_append_left _ hm
  · intro t ht
    rw [Body.statements_setOp]
    exact List.mem_append_left _ ht

theorem right (l r : Body) (op : SetOperator) (scope : Scope) :
    r.PartOf scope (.setOp l op r) scope := by
  constructor
  · intro m hm
    rw [Body.tablesIn_setOp]
    exact List.mem_append_right _ hm
  · intro t ht
    rw [Body.statements_setOp]
    exact List.mem_append_right _ ht

theorem cte {s : Statement} {c : Cte} (hc : c ∈ s.ctes) (scope : Scope) :
    (Body.nested c.statement).PartOf ((scope.enter s).ofCte s.isRecursive c) (.nested s) scope := by
  constructor
  · intro m hm
    rw [Body.tablesIn_nested] at hm ⊢
    rw [Statement.tablesIn_eq]
    exact List.mem_append_left _ (List.mem_flatMap.mpr ⟨c, hc, hm⟩)
  · intro t ht
    rw [Body.statements_nested] at ht ⊢
    rw [Statement.statements_eq]
    exact List.mem_cons_of_mem _ (List.mem_append_left _ (List.mem_flatMap.mpr ⟨c, hc, ht⟩))

theorem body (s : Statement) (scope : Scope) :
    s.body.PartOf (scope.enter s) (.nested s) scope := by
  constructor
  · intro m hm
    rw [Body.tablesIn_nested, Statement.tablesIn_eq]
    exact List.mem_append_right _ hm
  · intro t ht
    rw [Body.statements_nested, Statement.statements_eq]
    exact List.mem_cons_of_mem _ (List.mem_append_right _ ht)

end Body.PartOf

/-! ## Mentions of tables -/

/-- The mentions that no CTE of the names takes. -/
def untaken (names : List String) (ts : List TableName) : List TableName :=
  ts.filter fun t => !t.takenBy names

theorem mem_untaken {names : List String} {m : TableName} {ts : List TableName} :
    m ∈ untaken names ts ↔ m ∈ ts ∧ m.takenBy names = false := by
  rw [untaken, List.mem_filter, Bool.not_eq_true']

theorem untaken_append (names : List String) (ts us : List TableName) :
    untaken names (ts ++ us) = untaken names ts ++ untaken names us :=
  List.filter_append ts us

/-- What filters the mentions of each part filters all mentions. -/
theorem flatMap_untaken {α : Type} {names : List String} {f g : α → List TableName} {xs : List α}
    (h : ∀ x ∈ xs, f x = untaken names (g x)) : xs.flatMap f = untaken names (xs.flatMap g) := by
  induction xs with
  | nil => rfl
  | cons x xs ih =>
    obtain ⟨hx, hxs⟩ := List.forall_mem_cons.mp h
    rw [List.flatMap_cons, List.flatMap_cons, untaken_append, hx, ih hxs]

variable {names : List String}

mutual

/-- **Under more CTEs a statement mentions the same tables, but for those that the CTEs take.** -/
theorem Statement.tablesIn_seesAlso {a b : Scope} (h : a.SeesAlso names b) (s : Statement) :
    s.tablesIn b = untaken names (s.tablesIn a) := by
  have hctes : s.ctes.flatMap (fun c => c.statement.tablesIn ((b.enter s).ofCte s.isRecursive c))
      = untaken names
        (s.ctes.flatMap fun c => c.statement.tablesIn ((a.enter s).ofCte s.isRecursive c)) :=
    flatMap_untaken fun c hc => Statement.tablesIn_seesAlso (h.ofCte hc) c.statement
  rw [Statement.tablesIn_eq, Statement.tablesIn_eq, untaken_append, hctes,
    Body.tablesIn_seesAlso (h.enter s) s.body]
termination_by sizeOf s
decreasing_by
  · exact Statement.sizeOf_lt_of_mem_ctes hc
  · exact s.sizeOf_body_lt

/-- The same for a body. -/
theorem Body.tablesIn_seesAlso {a b : Scope} (h : a.SeesAlso names b) (body : Body) :
    body.tablesIn b = untaken names (body.tablesIn a) := by
  match body with
  | .select q =>
    have hsources : q.sources.flatMap (Source.tablesIn b)
        = untaken names (q.sources.flatMap (Source.tablesIn a)) := by
      refine flatMap_untaken fun t ht => ?_
      match t with
      | .subquery s _ => exact Statement.tablesIn_seesAlso h s
      | .table path name _ =>
        have htaken : (TableName.mk path name).takenBy b.names
            = ((TableName.mk path name).takenBy a.names
              || (TableName.mk path name).takenBy names) := by
          simp only [TableName.takenBy, h name, Bool.and_or_distrib_left]
        rw [Source.tablesIn_table, Source.tablesIn_table, htaken]
        cases (TableName.mk path name).takenBy a.names <;>
          cases hnames : (TableName.mk path name).takenBy names <;> simp [untaken, hnames]
    have hnested : ((q.exprs.flatMap Expr.nodes).filterMap Expr.statement?).flatMap
          (Statement.tablesIn b)
        = untaken names (((q.exprs.flatMap Expr.nodes).filterMap Expr.statement?).flatMap
          (Statement.tablesIn a)) :=
      flatMap_untaken fun s hs => Statement.tablesIn_seesAlso h s
    rw [Body.tablesIn_select, Body.tablesIn_select, untaken_append, hsources, hnested]
  | .setOp left op right =>
    rw [Body.tablesIn_setOp, Body.tablesIn_setOp, untaken_append, Body.tablesIn_seesAlso h left,
      Body.tablesIn_seesAlso h right]
  | .nested s => rw [Body.tablesIn_nested, Body.tablesIn_nested, Statement.tablesIn_seesAlso h s]
termination_by sizeOf body
decreasing_by
  · have := Select.sizeOf_lt_of_mem_sources ht
    simp only [Source.subquery.sizeOf_spec, Body.select.sizeOf_spec] at *
    omega
  · have := Select.sizeOf_lt_of_mem_subqueries (q := q) (List.mem_append_right _ hs)
    simp only [Body.select.sizeOf_spec]
    omega
  all_goals simp +arith

end

/-! ## The place of a CTE in its clause -/

/-- The first entry of a name, where those before it have other names. -/
theorem findEntry_append_of_names {n : String} {e : CteEntry} {after before : List CteEntry}
    (hafter : ∀ x ∈ after, sameName x.cte.name n = false) (he : sameName e.cte.name n = true) :
    findEntry n (after ++ e :: before) = some (e, before) := by
  induction after with
  | nil => rw [List.nil_append, findEntry, if_pos he]
  | cons x after ih =>
    obtain ⟨hx, hafter⟩ := List.forall_mem_cons.mp hafter
    rw [List.cons_append, findEntry, if_neg (by simp [hx])]
    exact ih hafter

/-- Without RECURSIVE, the body of a CTE sees the CTEs before it in the clause, and what stands
outside. -/
theorem Scope.entries_ofCte_split {s : Statement} {before after : List Cte} {c : Cte}
    (hsplit : s.ctes = before ++ c :: after) (hdiffer : NamesDiffer (s.ctes.map Cte.name))
    (hrecursive : s.isRecursive = false) (scope : Scope) :
    ((scope.enter s).ofCte s.isRecursive c).entries
      = (before.map fun c => ⟨c, false⟩).reverse ++ scope.entries := by
  have hafter : ∀ x ∈ (after.map fun c => (⟨c, false⟩ : CteEntry)).reverse,
      sameName x.cte.name c.name = false := by
    intro x hx
    obtain ⟨d, hd, rfl⟩ := List.mem_map.mp (List.mem_reverse.mp hx)
    rw [hsplit, List.map_append, List.map_cons] at hdiffer
    have hcons := (List.pairwise_append.mp hdiffer).2.1
    have hne := (List.pairwise_cons.mp hcons).1 d.name (List.mem_map_of_mem hd)
    exact (sameName_comm _ _).trans hne
  have hentries : (scope.enter s).entries
      = (after.map fun c => ⟨c, false⟩).reverse
        ++ ⟨c, false⟩ :: ((before.map fun c => ⟨c, false⟩).reverse ++ scope.entries) := by
    simp [enter, hsplit, hrecursive]
  have hfind : findEntry c.name ((scope.enter s).entries)
      = some (⟨c, false⟩, (before.map fun c => ⟨c, false⟩).reverse ++ scope.entries) := by
    rw [hentries]
    exact findEntry_append_of_names hafter (sameName_refl _)
  rw [hrecursive, ofCte, if_neg Bool.false_ne_true, find?, hfind]
  rfl

/-- The names of the CTEs in scope are those of the list, in any order. -/
def Scope.Shows (seen : List String) (scope : Scope) : Prop :=
  ∀ n, nameIn n scope.names = nameIn n seen

theorem Scope.shows_empty : Scope.empty.Shows [] := fun _ => rfl

theorem Scope.Shows.takenBy {seen : List String} {scope : Scope} (h : scope.Shows seen)
    (m : TableName) : m.takenBy scope.names = m.takenBy seen := by
  rw [TableName.takenBy, TableName.takenBy, h]

theorem Scope.Shows.enter {seen : List String} {scope : Scope} (h : scope.Shows seen)
    (s : Statement) : (scope.enter s).Shows (s.ctes.map Cte.name ++ seen) := by
  intro n
  rw [Scope.names_enter, nameIn_append, nameIn_append, nameIn_reverse, h n]

/-- The body of a CTE sees all CTEs of a recursive clause, else those before it. -/
theorem Scope.Shows.ofCte {seen : List String} {scope : Scope} (h : scope.Shows seen)
    {s : Statement} {before after : List Cte} {c : Cte} (hsplit : s.ctes = before ++ c :: after)
    (hdiffer : NamesDiffer (s.ctes.map Cte.name)) :
    ((scope.enter s).ofCte s.isRecursive c).Shows
      ((if s.isRecursive then s.ctes else before).map Cte.name ++ seen) := by
  cases hrecursive : s.isRecursive with
  | true => exact h.enter s
  | false =>
    intro n
    -- the scope lists the last definition first, and what a body sees stands behind its own
    have hentries := Scope.entries_ofCte_split hsplit hdiffer hrecursive scope
    rw [hrecursive] at hentries
    rw [Scope.names, hentries, List.map_append, nameIn_append, List.map_reverse, nameIn_reverse,
      List.map_map, if_neg Bool.false_ne_true, nameIn_append, ← h n]
    rfl

end Sql
