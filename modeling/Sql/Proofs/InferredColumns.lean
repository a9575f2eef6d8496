import Sql.Proofs.ResolutionCalls
import Sql.Proofs.SoundEdits
import Sql.Proofs.TablesInScope

/-!
# Columns that only the text gives

A table that no schema knows has the columns that the text gives it: those that are named with the
table's name before them, those that joins share by name, and, where there is no join, those that
are named without a qualifier.

* `outputColumns_error` and its neighbours: with a lookup that never fails, the depth limit is the
  only reason for columns not to be resolved.
* `nameIn_inferColumns`: what the text gives to an unknown table.
* `columnsOf_cases`: the columns of every other source do not depend on the select around it.
* `isSome_findColumn?_selectable`: what a select can name.
-/

namespace Sql

/-! ## Lookups that never fail -/

/-- The lookup, when there is one, has an answer to every question. -/
def Lookup.Answers (lookup : Option Lookup) : Prop :=
  ∀ ask ∈ lookup, ∀ name, ∃ found, ask name = .ok found

variable {lookup : Option Lookup}

theorem Lookup.Answers.lookupColumns (h : Lookup.Answers lookup) (qualified name : String) :
    ∃ found, lookupColumns lookup qualified name = .ok found := by
  cases lookup with
  | none => exact ⟨none, rfl⟩
  | some ask =>
    obtain ⟨found, hfound⟩ := h ask rfl qualified
    obtain ⟨again, hagain⟩ := h ask rfl name
    rw [Sql.lookupColumns, hfound]
    cases found with
    | some columns => exact ⟨some columns, rfl⟩
    | none =>
      dsimp only
      split
      · exact ⟨none, rfl⟩
      · exact ⟨again, by rw [hagain]⟩

mutual

/-- **A lookup that never fails leaves one error,** that of the depth limit. -/
theorem outputColumns_error (hlookup : Lookup.Answers lookup) {scope : Scope} (s : Statement)
    {e : Error} (h : outputColumns lookup scope s = .error e) : e = Call.tooDeep := by
  have hlt := s.body.leftmostIn_weight_lt (scope.enter s)
  have hle := scope.weight_enter_le s
  rw [outputColumns] at h
  split at h
  · exact (Except.error.inj h).symm
  · split at h
    next q inner hq =>
    rw [hq] at hlt
    have hsmaller : sizeOf q + inner.weight < sizeOf s + scope.weight := by
      dsimp only at hlt
      omega
    split at h
    · rcases error_of_bind h with h | ⟨sources, -, h⟩
      · exact sourceColumns_error hlookup q h
      · simp [pure, Except.pure] at h
    · simp [pure, Except.pure] at h
termination_by sizeOf s + scope.weight
decreasing_by exact hsmaller

theorem sourceColumns_error (hlookup : Lookup.Answers lookup) {scope : Scope} (q : Select)
    {e : Error} (h : sourceColumns lookup scope q = .error e) : e = Call.tooDeep := by
  rw [sourceColumns_eq] at h
  obtain ⟨i, t, ht, h⟩ := exists_error_of_mapM h
  exact columnsOf_error hlookup q t h
termination_by sizeOf q + scope.weight
decreasing_by
  have := Select.sizeOf_lt_of_mem_sources (List.mem_of_getElem? ht)
  omega

theorem columnsOf_error (hlookup : Lookup.Answers lookup) {scope : Scope} (q : Select) (t : Source)
    {e : Error} (h : columnsOf lookup scope q t = .error e) : e = Call.tooDeep := by
  match t with
  | .subquery s asName =>
    rw [columnsOf] at h
    rcases error_of_bind h with h | ⟨out, -, h⟩
    · exact outputColumns_error hlookup s h
    · simp [pure, Except.pure] at h
  | .table path name asName =>
    rw [columnsOf] at h
    split at h
    · next entry before hresolve =>
      have hlt := Scope.resolve?_weight_lt hresolve
      split at h
      · rcases error_of_bind h with h | ⟨out, -, h⟩
        · exact outputColumns_error hlookup entry.cte.statement h
        · simp [pure, Except.pure] at h
      · simp [pure, Except.pure] at h
    · obtain ⟨found, hfound⟩ := hlookup.lookupColumns (dotted (path ++ [name])) name
      rw [hfound] at h
      cases found <;> simp [pure, Except.pure, bind, Except.bind] at h
termination_by sizeOf t + scope.weight
decreasing_by
  · simp +arith
  · omega

end

/-! ## Mentions of columns -/

/-- The expression names a column of that name, qualified by the name of a source. -/
def Expr.Mentions (e : Expr) (source column : String) : Prop :=
  ∃ c, .column c ∈ e.nodes ∧ (∃ k ∈ c.qualifier, sameName k source = true)
    ∧ sameName column c.name = true

/-- The expression names a column of that name without a qualifier, other than by an alias. -/
def Expr.MentionsBare (e : Expr) (aliases : List String) (column : String) : Prop :=
  ∃ c, .column c ∈ e.nodes ∧ c.qualifier = none ∧ nameIn c.name aliases = false
    ∧ sameName column c.name = true

/-- An expression of the select names the column, qualified by the name of a source. -/
def Select.Mentions (q : Select) (source column : String) : Prop :=
  ∃ e ∈ q.exprs, e.Mentions source column

/-- An expression of the select names the column without a qualifier. -/
def Select.MentionsBare (q : Select) (column : String) : Prop :=
  ∃ e ∈ q.exprs, e.MentionsBare (q.items.filterMap SelectItem.asName) column

theorem Expr.mentions_iff {e : Expr} {source column : String} :
    e.Mentions source column
      ↔ (∃ c, e.column? = some c ∧ (∃ k ∈ c.qualifier, sameName k source = true)
          ∧ sameName column c.name = true)
        ∨ ∃ x ∈ e.children, x.Mentions source column := by
  have hcolumn : ∀ c, Expr.column c = e ↔ e.column? = some c := by
    intro c
    cases e <;> simp [Expr.column?, eq_comm]
  unfold Expr.Mentions
  rw [Expr.nodes_eq]
  simp only [List.mem_cons, List.mem_flatMap, or_and_right, exists_or, hcolumn]
  refine or_congr_right ⟨?_, ?_⟩
  · rintro ⟨c, ⟨x, hx, hc⟩, h⟩
    exact ⟨x, hx, c, hc, h⟩
  · rintro ⟨x, hx, c, hc, h⟩
    exact ⟨c, ⟨x, hx, hc⟩, h⟩

theorem Expr.mentions_qualified {table n source column : String} :
    (Expr.qualified table n).Mentions source column
      ↔ sameName table source = true ∧ sameName column n = true := by
  rw [Expr.mentions_iff]
  simp [Expr.qualified, Expr.column?, Expr.children, ColumnRef.qualifier]

theorem Expr.mentions_binary {l r : Expr} {op : BinaryOp} {source column : String} :
    (Expr.binary l op r).Mentions source column
      ↔ l.Mentions source column ∨ r.Mentions source column := by
  rw [Expr.mentions_iff]
  simp [Expr.column?, Expr.children]

/-- The condition of a join names its columns, each qualified by both sources. -/
theorem JoinRequest.mentions_condition {source asName : String} {columns : List String} {e : Expr}
    (h : JoinRequest.condition? source asName columns = some e) {k n : String} :
    e.Mentions k n
      ↔ nameIn n columns = true ∧ (sameName source k = true ∨ sameName asName k = true) := by
  have hequal : ∀ c, (Expr.binary (.qualified source c) .eq (.qualified asName c)).Mentions k n
      ↔ sameName n c = true ∧ (sameName source k = true ∨ sameName asName k = true) := by
    intro c
    rw [Expr.mentions_binary, Expr.mentions_qualified, Expr.mentions_qualified, ← or_and_right,
      and_comm]
  have hfold : ∀ (cs : List String) (e : Expr),
      (cs.foldl (fun e c => .and e (.binary (.qualified source c) .eq (.qualified asName c)))
        e).Mentions k n ↔ e.Mentions k n
          ∨ nameIn n cs = true ∧ (sameName source k = true ∨ sameName asName k = true) := by
    intro cs
    induction cs with
    | nil => simp [nameIn]
    | cons c cs ih =>
      intro e
      have hcons : nameIn n (c :: cs) = (sameName n c || nameIn n cs) := rfl
      rw [List.foldl_cons, ih, Expr.and, Expr.mentions_binary, hequal, hcons, Bool.or_eq_true,
        or_and_right, or_assoc]
  cases columns with
  | nil => simp [JoinRequest.condition?] at h
  | cons c cs =>
    have hcons : nameIn n (c :: cs) = (sameName n c || nameIn n cs) := rfl
    obtain rfl := Option.some.inj h
    rw [hfold, hequal, hcons, Bool.or_eq_true, ← or_and_right]

/-! ## What the text says of an unknown table -/

theorem nameIn_distinctNames {n : String} {ns : List String} :
    nameIn n (distinctNames ns) = nameIn n ns := by
  rw [Bool.eq_iff_iff, nameIn_iff, nameIn_iff]
  constructor
  · rintro ⟨k, hk, hsame⟩
    exact ⟨k, mem_of_mem_firstByName hk, hsame⟩
  · rintro ⟨k, hk, hsame⟩
    obtain ⟨k', hk', hsame'⟩ := exists_mem_firstByName id hk
    exact ⟨k', hk', sameName_trans hsame (sameName_symm hsame')⟩

/-- **What the text says of a table:** the columns that it names with the table's name before them,
those that it names without a qualifier if there is no join, and those that joins share by name. -/
theorem nameIn_inferColumns {q : Select} {t : Source} {n : String} :
    nameIn n (inferColumns q t) = true
      ↔ q.Mentions t.effectiveName n ∨ (q.joins = [] ∧ q.MentionsBare n)
        ∨ ∃ j ∈ q.joins, nameIn n j.constraint.sharedColumns = true := by
  -- the column that a single node of the tree speaks for
  have hreferenced : ∀ x k,
      referencedColumn? t.effectiveName q.joins.isEmpty (q.items.filterMap SelectItem.asName) x
          = some k
        ↔ ∃ c, x = .column c ∧ c.name = k
          ∧ ((∃ p ∈ c.qualifier, sameName p t.effectiveName = true)
            ∨ q.joins = [] ∧ c.qualifier = none
              ∧ nameIn c.name (q.items.filterMap SelectItem.asName) = false) := by
    intro x k
    cases x with
    | column c =>
      rw [referencedColumn?]
      cases hqualifier : c.qualifier with
      | some p => simp [hqualifier, and_comm]
      | none => simp [hqualifier, and_comm]
    | _ => simp [referencedColumn?]
  rw [inferColumns, nameIn_distinctNames, nameIn_append, Bool.or_eq_true]
  refine (or_congr (nameIn_iff.trans ⟨?_, ?_⟩) (nameIn_iff.trans ⟨?_, ?_⟩)).trans or_assoc
  · rintro ⟨k, hk, hsame⟩
    obtain ⟨x, hx, hk⟩ := List.mem_filterMap.mp hk
    obtain ⟨e, he, hx⟩ := List.mem_flatMap.mp hx
    obtain ⟨c, rfl, rfl, hc⟩ := (hreferenced x k).mp hk
    rcases hc with hqualified | ⟨hjoins, hnone, halias⟩
    · exact .inl ⟨e, he, c, hx, hqualified, hsame⟩
    · exact .inr ⟨hjoins, e, he, c, hx, hnone, halias, hsame⟩
  · rintro (⟨e, he, c, hc, hqualified, hsame⟩ | ⟨hjoins, e, he, c, hc, hnone, halias, hsame⟩)
    · have hmem := List.mem_flatMap.mpr ⟨e, he, hc⟩
      refine ⟨c.name, List.mem_filterMap.mpr ⟨.column c, hmem, ?_⟩, hsame⟩
      exact (hreferenced _ _).mpr ⟨c, rfl, rfl, .inl hqualified⟩
    · have hmem := List.mem_flatMap.mpr ⟨e, he, hc⟩
      refine ⟨c.name, List.mem_filterMap.mpr ⟨.column c, hmem, ?_⟩, hsame⟩
      exact (hreferenced _ _).mpr ⟨c, rfl, rfl, .inr ⟨hjoins, hnone, halias⟩⟩
  · rintro ⟨k, hk, hsame⟩
    obtain ⟨j, hj, hk⟩ := List.mem_flatMap.mp hk
    exact ⟨j, hj, nameIn_iff.mpr ⟨k, hk, hsame⟩⟩
  · rintro ⟨j, hj, hn⟩
    obtain ⟨k, hk, hsame⟩ := nameIn_iff.mp hn
    exact ⟨k, List.mem_flatMap.mpr ⟨j, hj, hk⟩, hsame⟩

/-! ## Columns of one source -/

/-- Only the text says which columns the source has. -/
def Source.IsUnknown (lookup : Option Lookup) (scope : Scope) (t : Source) : Prop :=
  ∃ path name asName, t = .table path name asName ∧ scope.resolve? t = none
    ∧ Sql.lookupColumns lookup (dotted (path ++ [name])) name = .ok none

/-- The same of a source with these columns. -/
theorem exposes_inferred {q : Select} {t : Source} {source n : String} {inferred : Bool} :
    SourceColumns.exposes ⟨source, inferColumns q t, inferred⟩ n = true
      ↔ q.Mentions t.effectiveName n ∨ (q.joins = [] ∧ q.MentionsBare n)
        ∨ ∃ j ∈ q.joins, nameIn n j.constraint.sharedColumns = true :=
  nameIn_inferColumns

theorem columnsOf_table {scope : Scope} {path : List String} {name : String}
    {asName : Option String} (hresolve : scope.resolve? (.table path name asName) = none)
    {found : Option (List String)}
    (hfound : lookupColumns lookup (dotted (path ++ [name])) name = .ok found) (q : Select) :
    columnsOf lookup scope q (.table path name asName) = .ok (found.elim
      ⟨asName.getD name, inferColumns q (.table path name asName), true⟩
      fun columns => ⟨asName.getD name, columns, false⟩) := by
  rw [columnsOf]
  split
  · next hsome =>
    rw [hresolve] at hsome
    cases hsome
  · rw [hfound]
    cases found <;> rfl

/-- The columns of a source are taken from the text of the select, or the select has no part in
them. -/
theorem columnsOf_cases {scope : Scope} {q : Select} {t : Source} {c : SourceColumns}
    (h : columnsOf lookup scope q t = .ok c) :
    (t.IsUnknown lookup scope
        ∧ ∀ q', columnsOf lookup scope q' t = .ok ⟨t.effectiveName, inferColumns q' t, true⟩)
      ∨ ∀ q', columnsOf lookup scope q' t = .ok c := by
  cases t with
  | subquery s asName =>
    right
    intro q'
    rw [columnsOf] at h ⊢
    exact h
  | table path name asName =>
    cases hresolve : scope.resolve? (.table path name asName) with
    | some found =>
      right
      intro q'
      obtain ⟨entry, before⟩ := found
      rw [columnsOf] at h ⊢
      split at h
      · exact h
      · next hnone => cases hresolve.symm.trans hnone
    | none =>
      have hfound : ∃ found, lookupColumns lookup (dotted (path ++ [name])) name = .ok found := by
        rw [columnsOf] at h
        split at h
        · next hsome => cases hresolve.symm.trans hsome
        · obtain ⟨found, hfound, -⟩ := ok_of_bind h
          exact ⟨found, hfound⟩
      obtain ⟨found, hfound⟩ := hfound
      have hall := columnsOf_table hresolve hfound
      cases found with
      | some columns =>
        right
        intro q'
        rw [hall q', ← h, hall q]
        rfl
      | none => exact .inl ⟨⟨path, name, asName, rfl, hresolve, hfound⟩, hall⟩

theorem source_of_columnsOf {scope : Scope} {q : Select} {t : Source} {c : SourceColumns}
    (h : columnsOf lookup scope q t = .ok c) : c.source = t.effectiveName := by
  cases t with
  | subquery s asName =>
    rw [columnsOf] at h
    obtain ⟨out, -, h⟩ := ok_of_bind h
    rw [← Except.ok.inj h]
    rfl
  | table path name asName =>
    rw [columnsOf] at h
    split at h
    · split at h
      · obtain ⟨out, -, h⟩ := ok_of_bind h
        rw [← Except.ok.inj h]
        rfl
      · rw [← Except.ok.inj h]
        rfl
    · obtain ⟨found, -, h⟩ := ok_of_bind h
      cases found <;> rw [← Except.ok.inj h] <;> rfl

/-! ## What a select can name -/

/-- The name is that of an item of the select list. -/
def Select.names (q : Select) (n : String) : Bool :=
  nameIn n (q.items.filterMap SelectItem.outputName)

theorem isSome_findColumn? {columns : List SelectableColumn} {n : String} :
    (findColumn? columns n).isSome = true ↔ nameIn n (columns.map SelectableColumn.name) = true := by
  rw [findColumn?, List.find?_isSome, nameIn_iff]
  simp only [List.mem_map, exists_exists_and_eq_and, sameName_comm n]

/-- A select can name its items and the columns of its sources. -/
theorem isSome_findColumn?_selectable {q : Select} {sources : List SourceColumns} {n : String} :
    (findColumn? (firstByName SelectableColumn.name
        (itemExprs q.items ++ sourceExprs sources)) n).isSome = true
      ↔ q.names n = true ∨ ∃ s ∈ sources, s.exposes n = true := by
  have hitems : (itemExprs q.items).map SelectableColumn.name
      = q.items.filterMap SelectItem.outputName := by
    rw [itemExprs, List.map_filterMap]
    congr 1
    funext i
    cases i.outputName <;> rfl
  have hsources : (sourceExprs sources).map SelectableColumn.name
      = sources.flatMap SourceColumns.columns := by
    rw [sourceExprs, List.map_flatMap]
    congr 1
    funext s
    rw [List.map_map]
    exact List.map_id _
  have hfirst : ∀ cs : List SelectableColumn, nameIn n ((firstByName SelectableColumn.name cs).map
      SelectableColumn.name) = true ↔ nameIn n (cs.map SelectableColumn.name) = true := by
    intro cs
    rw [nameIn_iff, nameIn_iff]
    constructor
    · rintro ⟨k, hk, hsame⟩
      obtain ⟨c, hc, rfl⟩ := List.mem_map.mp hk
      exact ⟨_, List.mem_map_of_mem (mem_of_mem_firstByName hc), hsame⟩
    · rintro ⟨k, hk, hsame⟩
      obtain ⟨c, hc, rfl⟩ := List.mem_map.mp hk
      obtain ⟨d, hd, hsame'⟩ := exists_mem_firstByName SelectableColumn.name hc
      exact ⟨_, List.mem_map_of_mem hd, sameName_trans hsame (sameName_symm hsame')⟩
  rw [isSome_findColumn?, hfirst, List.map_append, hitems, hsources, nameIn_append, Bool.or_eq_true]
  refine or_congr_right ⟨fun h => ?_, fun h => ?_⟩
  · obtain ⟨k, hk, hsame⟩ := nameIn_iff.mp h
    obtain ⟨s, hs, hk⟩ := List.mem_flatMap.mp hk
    exact ⟨s, hs, nameIn_iff.mpr ⟨k, hk, hsame⟩⟩
  · obtain ⟨s, hs, hn⟩ := h
    obtain ⟨k, hk, hsame⟩ := nameIn_iff.mp hn
    exact nameIn_iff.mpr ⟨k, List.mem_flatMap.mpr ⟨s, hs, hk⟩, hsame⟩

end Sql
