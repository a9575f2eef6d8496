import Sql.Collect.Projection
import Sql.Proofs.CallNames
import Sql.Proofs.TablesInScope

/-!
# The two lists of a projection

The columns of a select list are told twice: as the names that the statement has
(`outputColumns`), and as names with texts (`Statement.projection`). Both write a star out as the
columns of its sources. The first leaves out what a star repeats: a column of a star is skipped if
its name is already there, while a named item is added in any case. The second repeats everything.

* `Statement.listed`: the columns of the select list with everything that it repeats.
* `ListedColumn.addTo`: what the names that a statement has leave out of it.
* `Statement.projection_names`: both lists come from this one, so they agree exactly when no star
  repeats a name that stands before it.
-/

namespace Sql

/-! ## Select lists written out -/

/-- A column of a select list. Only an item can be without a name. -/
structure ListedColumn where
  name : Option String
  /-- The column is one of those that a star stands for. -/
  starred : Bool
deriving DecidableEq, Repr

/-- The name under which the column is reported. -/
def ListedColumn.reported (c : ListedColumn) : String := c.name.getD unnamedColumn

/-- The columns that an item stands for. -/
def SelectItem.listed (sources : List SourceColumns) (i : SelectItem) : List ListedColumn :=
  match i.expr with
  | .star qualifier =>
    ((starSources qualifier sources).flatMap SourceColumns.columns).map fun c => ⟨some c, true⟩
  | _ => [⟨i.derivedName, false⟩]

/-- The columns of the sources of a statement's leftmost select, if a star asks for them. -/
def Statement.starColumns (lookup : Option Lookup) (s : Statement) :
    Except Error (List SourceColumns) :=
  if s.body.leftmost.items.any fun i => i.expr.isStar then
    sourceColumns lookup (s.body.leftmostIn (Scope.root s)).2 s.body.leftmost
  else .ok []

/-- The columns of a statement's leftmost select. -/
def Statement.listed (lookup : Option Lookup) (s : Statement) :
    Except Error (List ListedColumn) :=
  (s.starColumns lookup).map fun sources =>
    s.body.leftmost.items.flatMap (SelectItem.listed sources)

/-! ## What is left out -/

/-- Add the name of a column, unless a star repeats it. -/
def ListedColumn.addTo (names : List String) (c : ListedColumn) : List String :=
  match c.name with
  | none => names
  | some n => if c.starred && nameIn n names then names else names ++ [n]

/-- A column behind this one is not left out because of it. -/
def ListedColumn.Admits (c behind : ListedColumn) : Prop :=
  behind.starred = true → ∀ n ∈ behind.name, ∀ k ∈ c.name, sameName n k = false

variable (cs : List ListedColumn) (names : List String)

theorem foldl_addTo_sublist :
    (cs.foldl ListedColumn.addTo names).Sublist (names ++ cs.filterMap ListedColumn.name) := by
  induction cs generalizing names with
  | nil => simp
  | cons c cs ih =>
    rw [List.foldl_cons, List.filterMap_cons, ListedColumn.addTo]
    cases c.name with
    | none => exact ih names
    | some n =>
      dsimp only
      split
      · exact (ih names).trans ((List.sublist_cons_self n _).append_left names)
      · have h := ih (names ++ [n])
        rwa [List.append_assoc, List.singleton_append] at h

/-- No name is lost: a column is left out only where its name stands. -/
theorem nameIn_foldl_addTo {n : String} : nameIn n (cs.foldl ListedColumn.addTo names)
    = (nameIn n names || nameIn n (cs.filterMap ListedColumn.name)) := by
  induction cs generalizing names with
  | nil => simp [nameIn]
  | cons c cs ih =>
    rw [List.foldl_cons, ih, List.filterMap_cons, ListedColumn.addTo]
    cases c.name with
    | none => rfl
    | some k =>
      have hcons : nameIn n (k :: cs.filterMap ListedColumn.name)
          = (sameName n k || nameIn n (cs.filterMap ListedColumn.name)) := rfl
      dsimp only
      rw [hcons]
      split
      · next hrepeats =>
        obtain ⟨-, hk⟩ := (Bool.and_eq_true _ _).mp hrepeats
        cases hsame : sameName n k with
        | true => simp [nameIn_congr (sameName_iff.mp hsame), hk]
        | false => rw [Bool.false_or]
      · rw [nameIn_append, Bool.or_assoc]
        simp [nameIn]

/-- **Nothing is left out** exactly when no star repeats a name that is there before it. -/
theorem foldl_addTo_eq_iff :
    cs.foldl ListedColumn.addTo names = names ++ cs.filterMap ListedColumn.name
      ↔ (∀ c ∈ cs, c.starred = true → ∀ n ∈ c.name, nameIn n names = false)
        ∧ cs.Pairwise ListedColumn.Admits := by
  induction cs generalizing names with
  | nil => simp
  | cons c cs ih =>
    rw [List.foldl_cons, List.filterMap_cons, ListedColumn.addTo, List.forall_mem_cons,
      List.pairwise_cons]
    cases hname : c.name with
    | none =>
      have hadmits : ∀ d ∈ cs, c.Admits d := fun d _ _ n _ k hk => by simp [hname] at hk
      simp only [ih, reduceCtorEq, Option.mem_def, false_implies, implies_true, true_and,
        iff_true_intro hadmits]
    | some n =>
      dsimp only
      by_cases hrepeats : (c.starred && nameIn n names) = true
      · -- one name is left out, and what follows cannot make up for it
        rw [if_pos hrepeats]
        obtain ⟨hstarred, hn⟩ := (Bool.and_eq_true _ _).mp hrepeats
        refine iff_of_false (fun heq => ?_) fun h => ?_
        · have hlength := (foldl_addTo_sublist cs names).length_le
          rw [heq, List.length_append, List.length_append, List.length_cons] at hlength
          omega
        · simp [h.1.1 hstarred n rfl] at hn
      · -- what follows is compared with the names there and with this one
        rw [if_neg hrepeats, List.append_cons names n (cs.filterMap _), ih]
        have hfirst : c.starred = true → ∀ k ∈ some n, nameIn k names = false := by
          rintro hstarred k ⟨⟩
          simpa [hstarred] using hrepeats
        have hbehind : ∀ d : ListedColumn,
            (d.starred = true → ∀ k ∈ d.name, nameIn k (names ++ [n]) = false)
              ↔ (d.starred = true → ∀ k ∈ d.name, nameIn k names = false) ∧ c.Admits d := by
          intro d
          simp only [ListedColumn.Admits, hname, nameIn_append, Bool.or_eq_false_iff, Option.mem_def,
            Option.some.injEq, forall_eq', imp_and, forall_and]
          simp [nameIn]
        simp only [hbehind, imp_and, forall_and, iff_true_intro hfirst, true_and, and_assoc]

/-! ## The names of a statement -/

/-- The item is no star, or a star for columns that are known. -/
def SelectItem.isKnown (sources : List SourceColumns) (i : SelectItem) : Bool :=
  match i.expr with
  | .star qualifier =>
    let matching := starSources qualifier sources
    !matching.isEmpty && !matching.any SourceColumns.inferred
  | _ => true

theorem OutputColumns.addItem_eq (sources : List SourceColumns) (out : OutputColumns)
    (i : SelectItem) : out.addItem sources i
      = ⟨(i.listed sources).foldl ListedColumn.addTo out.names,
        out.complete && i.isKnown sources⟩ := by
  obtain ⟨e, asName⟩ := i
  cases e with
  | star qualifier =>
    simp only [addItem, SelectItem.listed, SelectItem.isKnown, addNames, List.foldl_map,
      ListedColumn.addTo, Bool.true_and, Bool.and_assoc]
  | _ =>
    simp only [addItem, SelectItem.listed, SelectItem.isKnown, List.foldl_cons, List.foldl_nil,
      ListedColumn.addTo, Bool.and_true, Bool.false_and, Bool.false_eq_true, if_false]
    split <;> simp [*]

/-- The names of a select list are what is not left out of its columns. -/
theorem listColumns_eq (sources : List SourceColumns) (items : List SelectItem) :
    listColumns sources items
      = ⟨(items.flatMap (SelectItem.listed sources)).foldl ListedColumn.addTo [],
        items.all (SelectItem.isKnown sources)⟩ := by
  have hfrom : ∀ out : OutputColumns, items.foldl (OutputColumns.addItem sources) out
      = ⟨(items.flatMap (SelectItem.listed sources)).foldl ListedColumn.addTo out.names,
        out.complete && items.all (SelectItem.isKnown sources)⟩ := by
    induction items with
    | nil => simp
    | cons i items ih =>
      intro out
      rw [List.foldl_cons, ih, OutputColumns.addItem_eq, List.flatMap_cons, List.foldl_append,
        List.all_cons, Bool.and_assoc]
  exact hfrom ⟨[], true⟩

theorem outputColumns_eq (lookup : Option Lookup) (s : Statement) :
    outputColumns lookup .empty s
      = (s.starColumns lookup).map fun sources => listColumns sources s.body.leftmost.items := by
  have hdepth : ¬ Scope.empty.depth > maxCteDepth := by decide
  unfold Statement.starColumns
  rw [outputColumns, if_neg hdepth, ← Body.leftmostIn_fst s.body (Scope.root s)]
  split
  next q inner hq =>
  rw [show s.body.leftmostIn (Scope.root s) = (q, inner) from hq]
  split
  · cases sourceColumns lookup inner q <;> rfl
  · rfl

/-- The names of a statement come from the columns of its leftmost select. -/
theorem outputColumns_listed {lookup : Option Lookup} {s : Statement} {out : OutputColumns}
    (h : outputColumns lookup .empty s = .ok out) :
    ∃ sources, s.starColumns lookup = .ok sources
      ∧ s.listed lookup = .ok (s.body.leftmost.items.flatMap (SelectItem.listed sources))
      ∧ out = listColumns sources s.body.leftmost.items := by
  rw [outputColumns_eq] at h
  unfold Statement.listed
  cases hsources : s.starColumns lookup with
  | error e =>
    rw [hsources] at h
    cases h
  | ok sources =>
    rw [hsources] at h
    exact ⟨sources, rfl, rfl, (Except.ok.inj h).symm⟩

/-! ## Names with texts -/

variable {config : DialectConfig}

/-- An expression that was read has a text if and only if its parameters have names. -/
theorem Expr.exists_format_iff (hconfig : config.Readable) {strict bounded : Prop} {n : Nat}
    {e : Expr} (h : e.Wf strict bounded n) :
    (∃ text, e.format config = .ok text) ↔ ∀ p ∈ e.params, p.name ≠ none := by
  constructor
  · rintro ⟨text, htext⟩
    have hjoins : ∀ q ∈ e.selects, q.JoinsPrinted :=
      fun q hq => ((Expr.allSound_of_wf e h).2.1 q hq).1.joinsPrinted
    cases hformat : formatFragments config (e.fragments 0 false) with
    | error fault =>
      rw [Expr.format, hformat] at htext
      cases htext
    | ok out =>
      rw [← Expr.printsParams e hjoins 0 false]
      exact named_of_formatFragments hformat
  · intro hnamed
    obtain ⟨out, hout⟩ := Expr.format_of_wf h hnamed hconfig
    exact ⟨out.sql, by rw [Expr.format, hout]; rfl⟩

/-- A column of a source always has a text. -/
theorem exists_projectColumn (hconfig : config.Readable) (qualify : Bool) (source column : String) :
    ∃ text, projectColumn config qualify source column = .ok ⟨column, text⟩ := by
  have hformat : ∀ c : ColumnRef, ∃ text, (Expr.column c).format config = .ok text := by
    intro c
    have hunbound : Unbound ((Expr.column c).fragments 0 false) := by
      rw [Expr.fragments]
      exact unbound_of_params (Fragment.params_dottedName c.path c.name)
    obtain ⟨out, hout⟩ := hunbound.format hconfig
    exact ⟨out.sql, by rw [Expr.format, hout]; rfl⟩
  unfold projectColumn
  cases qualify with
  | true =>
    obtain ⟨text, htext⟩ := hformat ⟨[source], column⟩
    exact ⟨text, by simp [Expr.qualified, htext, bind, Except.bind, pure, Except.pure]⟩
  | false =>
    obtain ⟨text, htext⟩ := hformat ⟨[], column⟩
    exact ⟨text, by simp [Expr.name, htext, bind, Except.bind, pure, Except.pure]⟩

/-- A star for columns that are known is written out as all of them. -/
theorem exists_expandStar (hconfig : config.Readable) {lookup : Option Lookup} {scope : Scope}
    {q : Select} {qualifier : Option String} {sources : List SourceColumns}
    (hsources : sourceColumns lookup scope q = .ok sources)
    (hknown : (starSources qualifier sources).isEmpty = false
      ∧ (starSources qualifier sources).any SourceColumns.inferred = false) :
    ∃ columns, expandStar lookup config scope q qualifier = .ok (some columns)
      ∧ columns.map ProjectedColumn.name
        = (starSources qualifier sources).flatMap SourceColumns.columns := by
  have hcolumn := fun qualify (s : SourceColumns) => exists_projectColumn hconfig qualify s.source
  have hsource : ∀ qualify (s : SourceColumns), ∃ columns,
      s.columns.mapM (projectColumn config qualify s.source) = .ok columns := fun qualify s =>
    exists_mapM fun c _ => (hcolumn qualify s c).imp' _ fun _ h => h
  obtain ⟨lists, hlists⟩ : ∃ lists, (starSources qualifier sources).mapM (fun s =>
      s.columns.mapM (projectColumn config (qualifier.isSome || sources.length > 1) s.source))
        = .ok lists :=
    exists_mapM fun s _ => hsource _ s
  refine ⟨lists.flatten, ?_, ?_⟩
  · unfold expandStar
    rw [hsources]
    simp only [bind, Except.bind, hknown.1, hknown.2, Bool.or_false, Bool.false_eq_true, if_false]
    rw [hlists]
    rfl
  · rw [List.map_flatten, List.flatMap_def]
    refine congrArg _ (map_of_mapM hlists fun s _ columns hcolumns => ?_)
    rw [map_of_mapM hcolumns (h := id), List.map_id]
    intro c _ column hc
    obtain ⟨text, htext⟩ := hcolumn _ s c
    rw [← Except.ok.inj (htext.symm.trans hc)]
    rfl

/-- An item stands for the same columns in both lists. -/
theorem projectedColumns_iff (hconfig : config.Readable) {ask : Lookup} {scope : Scope}
    {q : Select} {i : SelectItem} {strict bounded : Prop} {n : Nat}
    (hi : i.expr.Wf strict bounded n) {sources : List SourceColumns}
    (hsources : i.expr.isStar = true → sourceColumns (some ask) scope q = .ok sources)
    (hknown : i.isKnown sources = true) :
    ((∃ columns, projectedColumns (some ask) config scope q i = .ok columns)
        ↔ ∀ p ∈ i.expr.params, p.name ≠ none)
      ∧ ∀ columns, projectedColumns (some ask) config scope q i = .ok columns →
        columns.map ProjectedColumn.name = (i.listed sources).map ListedColumn.reported := by
  obtain ⟨e, asName⟩ := i
  cases hstar : e.isStar with
  | true =>
    -- a star has no parameter, and its columns always have a text
    obtain ⟨qualifier, rfl⟩ : ∃ qualifier, e = .star qualifier := by
      cases e <;> first | exact ⟨_, rfl⟩ | cases hstar
    simp only [SelectItem.isKnown, Bool.and_eq_true, Bool.not_eq_true'] at hknown
    obtain ⟨columns, hexpand, hnames⟩ := exists_expandStar hconfig (hsources rfl) hknown
    have hrun : projectedColumns (some ask) config scope q ⟨.star qualifier, asName⟩
        = .ok columns := by
      simp [projectedColumns, hexpand, bind, Except.bind, pure, Except.pure]
    have hparams : (Expr.star qualifier).params = [] := by
      simp [Expr.params_eq, Expr.param?, Expr.children, Expr.statement?]
    rw [hrun]
    refine ⟨iff_of_true ⟨columns, rfl⟩ (by simp [hparams]), ?_⟩
    rintro _ ⟨⟩
    rw [hnames]
    simp [SelectItem.listed, ListedColumn.reported, Function.comp_def]
  | false =>
    have hrun : projectedColumns (some ask) config scope q ⟨e, asName⟩
        = (e.format config).map fun text =>
          [⟨(SelectItem.mk e asName).derivedName.getD unnamedColumn, text⟩] := by
      unfold projectedColumns projectItem
      cases e.format config <;> cases e <;> first | rfl | cases hstar
    have hlisted : (SelectItem.mk e asName).listed sources
        = [⟨(SelectItem.mk e asName).derivedName, false⟩] := by
      unfold SelectItem.listed
      cases e <;> first | rfl | cases hstar
    rw [hrun, hlisted, ← Expr.exists_format_iff hconfig hi]
    cases e.format config with
    | error fault => simp [Except.map]
    | ok text => simp [Except.map, ListedColumn.reported]

/-! ## Both lists -/

theorem Body.wf_leftmost {strict bounded : Prop} {n : Nat} {b : Body} (h : b.Wf strict bounded n) :
    ∃ m, b.leftmost.Wf strict bounded m := by
  induction b using Body.leftmost.induct generalizing n with
  | case1 q =>
    rw [Body.Wf] at h
    exact ⟨n, h⟩
  | case2 left op right ih =>
    rw [Body.Wf] at h
    exact ih h.1
  | case3 w body ih =>
    rw [Body.Wf] at h
    exact ih (Statement.parts_of_wf h.2).2.2

/-- **The two lists of a projection agree exactly when no star repeats a name before it.** If all
stars stand for columns that are known, the second list is there unless an item has an anonymous
parameter, and tells every column. The first list leaves out the names that stars repeat. -/
theorem Statement.projection_names {text : String} {s : Statement} (hread : parse text = .ok s)
    {ask : Lookup} {out : OutputColumns} (hout : outputColumns (some ask) .empty s = .ok out)
    (hcomplete : out.complete = true) {config : DialectConfig} (hconfig : config.Readable) :
    ∃ listed, s.listed (some ask) = .ok listed
      ∧ ((∃ columns, s.projection (some ask) config = .ok columns)
        ↔ ∀ i ∈ s.body.leftmost.items, ∀ p ∈ i.expr.params, p.name ≠ none)
      ∧ (∀ columns, s.projection (some ask) config = .ok columns →
        columns.map ProjectedColumn.name = listed.map ListedColumn.reported)
      ∧ out.names = listed.foldl ListedColumn.addTo []
      ∧ (out.names = listed.filterMap ListedColumn.name
        ↔ listed.Pairwise ListedColumn.Admits) := by
  obtain ⟨sources, hsources, hlisted, rfl⟩ := outputColumns_listed hout
  rw [listColumns_eq] at hcomplete
  obtain ⟨m, hwf⟩ := Body.wf_leftmost (Statement.parts_of_wf (wf_of_parse hread)).2.2
  let project := projectedColumns (some ask) config (s.body.leftmostIn (Scope.root s)).2
    s.body.leftmost
  have hrun : s.projection (some ask) config
      = (s.body.leftmost.items.mapM project >>= fun lists => .ok lists.flatten) := by
    unfold project
    rw [← Body.leftmostIn_fst s.body (Scope.root s)]
    rfl
  have hitem : ∀ i ∈ s.body.leftmost.items,
      ((∃ columns, project i = .ok columns) ↔ ∀ p ∈ i.expr.params, p.name ≠ none)
        ∧ ∀ columns, project i = .ok columns →
          columns.map ProjectedColumn.name = (i.listed sources).map ListedColumn.reported := by
    intro i hi
    obtain ⟨k, hk⟩ := (Select.parts_of_wf hwf).2.1 i.expr
      (by simp [Select.exprs_eq, List.mem_map_of_mem hi])
    refine projectedColumns_iff hconfig hk (fun hstar => ?_) (List.all_eq_true.mp hcomplete i hi)
    rwa [Statement.starColumns, if_pos (List.any_eq_true.mpr ⟨i, hi, hstar⟩)] at hsources
  refine ⟨_, hlisted, ⟨?_, fun hnamed => ?_⟩, fun columns hcolumns => ?_,
    by rw [listColumns_eq], ?_⟩
  · rintro ⟨columns, hcolumns⟩ i hi
    obtain ⟨lists, hlists, -⟩ := ok_of_bind (hrun ▸ hcolumns)
    obtain ⟨list, -, hlist⟩ := exists_of_mapM hlists i hi
    exact (hitem i hi).1.mp ⟨list, hlist⟩
  · obtain ⟨lists, hlists⟩ := exists_mapM fun i hi => (hitem i hi).1.mpr (hnamed i hi)
    exact ⟨lists.flatten, by rw [hrun, hlists]; rfl⟩
  · obtain ⟨lists, hlists, hflatten⟩ := ok_of_bind (hrun ▸ hcolumns)
    rw [← Except.ok.inj hflatten, List.map_flatten,
      map_of_mapM hlists fun i hi => (hitem i hi).2, List.map_flatMap,
      List.flatMap_def]
  · rw [listColumns_eq]
    exact (foldl_addTo_eq_iff _ []).trans (and_iff_right fun c _ _ n _ => rfl)

/-- The first statement repeats no name by a star. The second has two columns of one name, and only
one of them is among its names. -/
theorem projection_names_stars :
    (∃ s columns, parse "select u.*, t.*, u.key as other, 1 from t, u" = .ok s
      ∧ outputColumns (some (Catalog.lookup ⟨[("t", ["id", "name"]), ("u", ["key"])]⟩)) .empty s
        = .ok ⟨["key", "id", "name", "other"], true⟩
      ∧ s.projection (some (Catalog.lookup ⟨[("t", ["id", "name"]), ("u", ["key"])]⟩))
        Dialect.generic.config = .ok columns
      ∧ columns.map ProjectedColumn.name = ["key", "id", "name", "other", unnamedColumn])
    ∧ ∃ s columns, parse "select id, * from t" = .ok s
      ∧ outputColumns (some (Catalog.lookup ⟨[("t", ["id", "name"])]⟩)) .empty s
        = .ok ⟨["id", "name"], true⟩
      ∧ s.projection (some (Catalog.lookup ⟨[("t", ["id", "name"])]⟩)) Dialect.generic.config
        = .ok columns
      ∧ columns.map ProjectedColumn.name = ["id", "id", "name"] := by
  have hgeneric : Dialect.generic.config.Readable := ⟨.inl rfl, .inl rfl, rfl, rfl⟩
  have hlists : ∀ (text : String) (schema : Catalog) (names reported : List String),
      (parse text).toOption.any (fun s => decide (
        ((outputColumns (some schema.lookup) .empty s).toOption.any
            fun out => decide (out = ⟨names, true⟩)) = true
          ∧ (s.listed (some schema.lookup)).toOption.map (List.map ListedColumn.reported)
            = some reported
          ∧ ∀ i ∈ s.body.leftmost.items, ∀ p ∈ i.expr.params, p.name ≠ none)) = true →
      ∃ s columns, parse text = .ok s
        ∧ outputColumns (some schema.lookup) .empty s = .ok ⟨names, true⟩
        ∧ s.projection (some schema.lookup) Dialect.generic.config = .ok columns
        ∧ columns.map ProjectedColumn.name = reported := by
    intro text schema names reported hcheck
    obtain ⟨s, hs, hcheck⟩ := exists_ok_of_any hcheck
    obtain ⟨hout, hreported, hnamed⟩ := of_decide_eq_true hcheck
    obtain ⟨out, hout, hall⟩ := exists_ok_of_any hout
    obtain rfl := of_decide_eq_true hall
    obtain ⟨listed, hlisted, hprojection, hnames, -⟩ :=
      Statement.projection_names hs hout rfl hgeneric
    obtain ⟨columns, hcolumns⟩ := hprojection.mpr hnamed
    rw [hlisted] at hreported
    exact ⟨s, columns, hs, hout, hcolumns, (hnames columns hcolumns).trans
      (Option.some.inj hreported)⟩
  exact ⟨hlists _ _ _ _ (by decide +kernel), hlists _ _ _ _ (by decide +kernel)⟩

end Sql
