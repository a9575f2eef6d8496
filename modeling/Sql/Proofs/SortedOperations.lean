import Mathlib.Data.List.Forall2
import Sql.Edit.Sort
import Sql.Proofs.InferredColumns
import Sql.Proofs.ListedColumns

/-!
# Sorted set operations

A set operation is sorted on its last select, by names. The names are looked up among all that the
leftmost select can name: its items, but also the columns of its sources. So the name of a column
that the leftmost select reads and does not hand out is accepted, though the set operation has no
column of that name.

* `pickColumns_cases`: what a list of names is resolved to.
* `Statement.SortAppended`: what changes when a set operation is sorted.
* `Statement.addSort_setOp`: by which names it is sorted, and which names are refused.
-/

namespace Sql

/-! ## Names that are resolved together -/

/-- All names are found, or those that are not are reported. -/
theorem pickColumns_cases (columns : List SelectableColumn) (names : List String) (label : String) :
    (∃ found, pickColumns columns names label = .ok found
        ∧ (∀ n ∈ names, findColumn? columns n ≠ none)
        ∧ List.Forall₂ (fun n c => findColumn? columns n = some c) names found)
      ∨ ∃ missing n, n ∈ missing
        ∧ pickColumns columns names label = .error (.unresolvedColumns missing label)
        ∧ ∀ k, k ∈ missing ↔ k ∈ names ∧ findColumn? columns k = none := by
  have hfound : ∀ ns : List String, (∀ n ∈ ns, findColumn? columns n ≠ none) →
      List.Forall₂ (fun n c => findColumn? columns n = some c) ns
        (ns.filterMap (findColumn? columns)) := by
    intro ns
    induction ns with
    | nil => exact fun _ => .nil
    | cons n ns ih =>
      intro h
      obtain ⟨hn, hns⟩ := List.forall_mem_cons.mp h
      obtain ⟨c, hc⟩ := Option.ne_none_iff_exists'.mp hn
      rw [List.filterMap_cons_some hc]
      exact .cons hc (ih hns)
  have hmissing : ∀ k, k ∈ names.filter (fun n => (findColumn? columns n).isNone)
      ↔ k ∈ names ∧ findColumn? columns k = none := by
    intro k
    rw [List.mem_filter, Option.isNone_iff_eq_none]
  unfold pickColumns
  dsimp only
  -- either nothing is missing, or the first of what is missing is a witness
  split
  · next hnone =>
    have hall : ∀ n ∈ names, findColumn? columns n ≠ none := by
      intro n hn hmiss
      have hmem := (hmissing n).mpr ⟨hn, hmiss⟩
      rw [List.isEmpty_iff.mp hnone] at hmem
      cases hmem
    exact .inl ⟨_, rfl, hall, hfound names hall⟩
  · next hsome =>
    obtain ⟨n, hn⟩ := List.exists_mem_of_ne_nil _ fun h => hsome (List.isEmpty_iff.mpr h)
    exact .inr ⟨_, n, hn, rfl, hmissing⟩

/-! ## The last select -/

theorem Body.leaves_updateRightmost {b : Body} {last : Select} (h : b.rightmost? = some last) :
    ∃ before, b.leaves = before ++ [last]
      ∧ ∀ f, (b.updateRightmost f).leaves = before ++ [f last] := by
  induction b using Body.rightmost?.induct with
  | case1 q =>
    obtain rfl := Option.some.inj h
    exact ⟨[], rfl, fun f => rfl⟩
  | case2 left op right ih =>
    obtain ⟨before, hleaves, hupdated⟩ := ih h
    refine ⟨left.leaves ++ before, ?_, fun f => ?_⟩
    · rw [leaves, hleaves, List.append_assoc]
    · rw [updateRightmost, leaves, hupdated, List.append_assoc]
  | case3 s => cases h

/-- The statement is the other one with sort keys appended to its last select. -/
structure Statement.SortAppended (s : Statement) (last : Select) (items : List OrderItem)
    (t : Statement) : Prop where
  withClause : t.withClause = s.withClause
  rightmost : s.body.rightmost? = some last
  body : t.body = s.body.updateRightmost fun q => { q with orderBy := q.orderBy ++ items }
  leaves : ∃ before, s.body.leaves = before ++ [last]
    ∧ t.body.leaves = before ++ [{ last with orderBy := last.orderBy ++ items }]

/-! ## What is sorted by -/

variable {lookup : Option Lookup}

/-- The select can name the column: it is an item, or a column of a source. -/
def Select.CanName (q : Select) (sources : List SourceColumns) (n : String) : Prop :=
  q.names n = true ∨ ∃ c ∈ sources, c.exposes n = true

/-- An item with a name stands for one column of that name. -/
theorem SelectItem.listed_of_outputName {i : SelectItem}
    (hbare : i.expr.isStar = true → i.asName = none) {n : String} (h : i.outputName = some n)
    (sources : List SourceColumns) : i.listed sources = [⟨some n, false⟩] := by
  obtain ⟨e, asName⟩ := i
  cases asName with
  | some a =>
    obtain rfl : a = n := Option.some.inj h
    cases e <;> first | rfl | cases hbare rfl
  | none =>
    obtain ⟨c, hc, rfl⟩ := Option.map_eq_some_iff.mp h
    cases e <;> cases hc
    rfl

/-- The names of items are names of the statement. -/
theorem nameIn_names_of_item {s : Statement} {out : OutputColumns}
    (hout : outputColumns lookup .empty s = .ok out) (hwell : s.body.leftmost.WellFormed)
    {n : String} (hn : s.body.leftmost.names n = true) : nameIn n out.names = true := by
  obtain ⟨sources, -, -, rfl⟩ := outputColumns_listed hout
  obtain ⟨k, hk, hsame⟩ := nameIn_iff.mp hn
  obtain ⟨i, hi, hname⟩ := List.mem_filterMap.mp hk
  have hlisted : ⟨some k, false⟩ ∈ i.listed sources := by
    rw [i.listed_of_outputName (hwell.star_bare i hi) hname]
    exact List.mem_singleton_self _
  rw [listColumns_eq, nameIn_foldl_addTo, Bool.or_eq_true]
  refine .inr (nameIn_iff.mpr ⟨k, ?_, hsame⟩)
  exact List.mem_filterMap.mpr ⟨⟨some k, false⟩, List.mem_flatMap.mpr ⟨i, hi, hlisted⟩, rfl⟩

/-- Where the columns of the sources are known, so are those of the statement. -/
theorem exists_outputColumns {s : Statement} {sources : List SourceColumns}
    (hsources : sourceColumns lookup (s.body.leftmostIn (Scope.root s)).2 s.body.leftmost
      = .ok sources) : ∃ out, outputColumns lookup .empty s = .ok out := by
  rw [outputColumns_eq, Statement.starColumns]
  split
  · exact ⟨_, by rw [hsources]; rfl⟩
  · exact ⟨_, rfl⟩

/-- The names are looked up among all that the leftmost select can name. -/
theorem requireColumns_eq {s : Statement} {sources : List SourceColumns}
    (hsources : sourceColumns lookup (s.body.leftmostIn (Scope.root s)).2 s.body.leftmost
      = .ok sources) (names : List String) :
    requireColumns lookup s names
      = pickColumns (firstByName SelectableColumn.name
          (itemExprs s.body.leftmost.items ++ sourceExprs sources)) names s.body.leftmost.label := by
  have hselectable : selectable lookup s = .ok (firstByName SelectableColumn.name
      (itemExprs s.body.leftmost.items ++ sourceExprs sources)) := by
    rw [← Body.leftmostIn_fst s.body (Scope.root s)] at hsources ⊢
    unfold selectable selectableIn
    dsimp only
    rw [hsources]
    rfl
  rw [requireColumns, hselectable]
  rfl

/-- What is found under a name has that name, and the select can name it. -/
theorem canName_of_findColumn? {q : Select} {sources : List SourceColumns} {n : String}
    {c : SelectableColumn} (h : findColumn? (firstByName SelectableColumn.name
      (itemExprs q.items ++ sourceExprs sources)) n = some c) :
    sameName c.name n = true ∧ q.CanName sources c.name := by
  have hsame : sameName c.name n = true := by simpa using List.find?_some h
  refine ⟨hsame, isSome_findColumn?_selectable.mp ?_⟩
  rw [findColumn?, List.find?_isSome]
  exact ⟨c, List.mem_of_find?_eq_some h, sameName_refl _⟩

theorem canName_iff {q : Select} {sources : List SourceColumns} {n : String} :
    q.CanName sources n ↔ findColumn? (firstByName SelectableColumn.name
      (itemExprs q.items ++ sourceExprs sources)) n ≠ none := by
  rw [Option.ne_none_iff_isSome, isSome_findColumn?_selectable, Select.CanName]

/-! ## The whole sort -/

/-- A resolved sort of a set operation. -/
theorem Statement.addSort_eq {s : Statement} {l r : Body} {op : SetOperator}
    (hbody : s.body = .setOp l op r) {specs : List SortSpec} (hspecs : specs ≠ []) :
    s.addSort specs lookup
      = requireColumns lookup s (specs.map SortSpec.column) >>= fun columns =>
        if s.body.rightmost?.isNone then .error (.invalidArgument
          "cannot order a set operation whose last operand is parenthesised")
        else .ok { s with body := s.body.updateRightmost fun q => { q with
          orderBy := q.orderBy
            ++ specs.zipWith (fun spec c => spec.orderItem (.name c.name)) columns } } := by
  have hsort : s.body.sortExpr = fun c => .name c.name := by
    rw [hbody]
    rfl
  unfold addSort
  rw [if_neg (by simpa using hspecs)]
  simp only [hsort]
  rfl

theorem forall₂_zipWith {α β γ : Type} {R : α → β → Prop} {f : α → β → γ} {xs : List α}
    {ys : List β} (h : List.Forall₂ R xs ys) :
    List.Forall₂ (fun x z => ∃ y, R x y ∧ z = f x y) xs (xs.zipWith f ys) := by
  induction h with
  | nil => exact .nil
  | cons h _ ih => exact .cons ⟨_, h, rfl⟩ ih

theorem forall_mem_iff_of_forall₂ {α β : Type} {P : α → Prop} {Q : β → Prop} {xs : List α}
    {ys : List β} (h : List.Forall₂ (fun x y => P x ↔ Q y) xs ys) :
    (∀ y ∈ ys, Q y) ↔ ∀ x ∈ xs, P x := by
  induction h with
  | nil => simp
  | cons h _ ih => rw [List.forall_mem_cons, List.forall_mem_cons, h, ih]

theorem sources_of_requireColumns {s : Statement} {names : List String}
    {columns : List SelectableColumn} (h : requireColumns lookup s names = .ok columns) :
    ∃ sources, sourceColumns lookup (s.body.leftmostIn (Scope.root s)).2 s.body.leftmost
      = .ok sources := by
  obtain ⟨all, hall, -⟩ := ok_of_bind h
  obtain ⟨sources, hsources, -⟩ := ok_of_bind hall
  rw [← Body.leftmostIn_fst s.body (Scope.root s)]
  exact ⟨sources, hsources⟩

/-- The sort keys of a set operation that was sorted, and what else changed. -/
theorem Statement.sortAppended_of_addSort {s t : Statement} (hwell : s.body.leftmost.WellFormed)
    {l r : Body} {op : SetOperator} (hbody : s.body = .setOp l op r) {specs : List SortSpec}
    (hspecs : specs ≠ []) (h : s.addSort specs lookup = .ok t) :
    ∃ out sources last items, outputColumns lookup .empty s = .ok out
      ∧ sourceColumns lookup (s.body.leftmostIn (Scope.root s)).2 s.body.leftmost = .ok sources
      ∧ s.SortAppended last items t
      ∧ List.Forall₂ (fun spec i => ∃ n, i = spec.orderItem (.name n)
          ∧ sameName n spec.column = true
          ∧ (nameIn n out.names = true ∨ ∃ c ∈ sources, c.exposes n = true)) specs items := by
  rw [Statement.addSort_eq hbody hspecs] at h
  obtain ⟨columns, hcolumns, h⟩ := ok_of_bind h
  obtain ⟨sources, hsources⟩ := sources_of_requireColumns hcolumns
  obtain ⟨out, hout⟩ := exists_outputColumns hsources
  rw [requireColumns_eq hsources] at hcolumns
  cases hlast : s.body.rightmost? with
  | none => simp [hlast] at h
  | some last =>
    rw [hlast] at h
    obtain ⟨before, hleaves, hupdated⟩ := Body.leaves_updateRightmost hlast
    obtain rfl := Except.ok.inj h
    refine ⟨out, sources, last, _, hout, hsources,
      ⟨rfl, hlast, rfl, before, hleaves, hupdated _⟩, ?_⟩
    rcases pickColumns_cases _ (specs.map SortSpec.column) s.body.leftmost.label
      with ⟨found, hfound, -, hall⟩ | ⟨missing, n, -, hmissing, -⟩
    · -- each key is the name of what was found, in its own spelling
      obtain rfl := Except.ok.inj (hfound.symm.trans hcolumns)
      refine (forall₂_zipWith (List.forall₂_map_left_iff.mp hall)).imp ?_
      rintro spec i ⟨c, hc, rfl⟩
      obtain ⟨hsame, hname⟩ := canName_of_findColumn? hc
      exact ⟨c.name, rfl, hsame, hname.imp_left (nameIn_names_of_item hout hwell)⟩
    · cases hmissing.symm.trans hcolumns

/-- What a set operation can be sorted by. -/
theorem Statement.addSort_iff {s : Statement} {l r : Body} {op : SetOperator}
    (hbody : s.body = .setOp l op r) {sources : List SourceColumns}
    (hsources : sourceColumns lookup (s.body.leftmostIn (Scope.root s)).2 s.body.leftmost
      = .ok sources) {specs : List SortSpec} (hspecs : specs ≠ []) :
    ((∃ t, s.addSort specs lookup = .ok t)
        ↔ (∀ spec ∈ specs, s.body.leftmost.CanName sources spec.column)
          ∧ s.body.rightmost?.isSome = true)
      ∧ ((∃ spec ∈ specs, ¬ s.body.leftmost.CanName sources spec.column) →
        ∃ missing, s.addSort specs lookup
            = .error (.unresolvedColumns missing s.body.leftmost.label)
          ∧ ∀ n, n ∈ missing ↔ n ∈ specs.map SortSpec.column
            ∧ ¬ s.body.leftmost.CanName sources n) := by
  have hforall : ∀ P : String → Prop,
      (∀ spec ∈ specs, P spec.column) ↔ ∀ n ∈ specs.map SortSpec.column, P n := by
    simp
  rw [Statement.addSort_eq hbody hspecs, requireColumns_eq hsources,
    hforall fun n => s.body.leftmost.CanName sources n]
  simp only [canName_iff, not_not]
  rcases pickColumns_cases (firstByName SelectableColumn.name
      (itemExprs s.body.leftmost.items ++ sourceExprs sources)) (specs.map SortSpec.column)
      s.body.leftmost.label
    with ⟨found, hfound, hall, -⟩ | ⟨missing, n, hn, hmissing, hreported⟩
  · -- all names are found, so only parentheses around the last operand are in the way
    rw [hfound]
    refine ⟨?_, ?_⟩
    · rw [iff_true_intro hall, true_and]
      cases s.body.rightmost? with
      | none => simp [bind, Except.bind]
      | some last => simp [bind, Except.bind]
    · rintro ⟨spec, hspec, hnone⟩
      exact absurd hnone (hall _ (List.mem_map_of_mem hspec))
  · rw [hmissing]
    obtain ⟨hname, hnone⟩ := (hreported n).mp hn
    refine ⟨iff_of_false ?_ fun h => h.1 n hname hnone, fun _ => ⟨missing, rfl, hreported⟩⟩
    rintro ⟨t, ht⟩
    cases ht

/-- **A set operation is sorted by names that the leftmost select can name.** What changes is the
ORDER BY clause of the last select, and a name that the leftmost select cannot name is refused. The
names are columns of the statement exactly when the names that are asked for are; the others are
columns of sources of the leftmost select. -/
theorem Statement.addSort_setOp {text : String} {s : Statement} (hread : parse text = .ok s)
    {l r : Body} {op : SetOperator} (hbody : s.body = .setOp l op r) (specs : List SortSpec) :
    (∀ t, s.addSort specs lookup = .ok t → specs = [] ∧ t = s
      ∨ ∃ out sources last items, outputColumns lookup .empty s = .ok out
        ∧ sourceColumns lookup (s.body.leftmostIn (Scope.root s)).2 s.body.leftmost = .ok sources
        ∧ s.SortAppended last items t
        ∧ List.Forall₂ (fun spec i => ∃ n, i = spec.orderItem (.name n)
            ∧ sameName n spec.column = true
            ∧ (nameIn n out.names = true ∨ ∃ c ∈ sources, c.exposes n = true)) specs items
        ∧ ((∀ i ∈ items, ∃ n, i.expr = .name n ∧ nameIn n out.names = true)
          ↔ ∀ spec ∈ specs, nameIn spec.column out.names = true))
    ∧ ∀ sources,
      sourceColumns lookup (s.body.leftmostIn (Scope.root s)).2 s.body.leftmost = .ok sources →
      (specs ≠ [] → ((∃ t, s.addSort specs lookup = .ok t)
        ↔ (∀ spec ∈ specs, s.body.leftmost.CanName sources spec.column)
          ∧ s.body.rightmost?.isSome = true))
      ∧ ((∃ spec ∈ specs, ¬ s.body.leftmost.CanName sources spec.column) →
        ∃ missing, s.addSort specs lookup
            = .error (.unresolvedColumns missing s.body.leftmost.label)
          ∧ ∀ n, n ∈ missing ↔ n ∈ specs.map SortSpec.column
            ∧ ¬ s.body.leftmost.CanName sources n) := by
  obtain ⟨m, hwf⟩ := Body.wf_leftmost (Statement.parts_of_wf (wf_of_parse hread)).2.2
  have hwell := (Select.parts_of_wf hwf).1.1
  refine ⟨fun t h => ?_, fun sources hsources => ⟨fun hspecs =>
    (Statement.addSort_iff hbody hsources hspecs).1, fun hmissing => ?_⟩⟩
  · by_cases hspecs : specs = []
    · subst hspecs
      exact .inl ⟨rfl, (Except.ok.inj h).symm⟩
    obtain ⟨out, sources, last, items, hout, hsources, happended, hitems⟩ :=
      Statement.sortAppended_of_addSort hwell hbody hspecs h
    refine .inr ⟨out, sources, last, items, hout, hsources, happended, hitems,
      forall_mem_iff_of_forall₂ (hitems.imp ?_)⟩
    rintro spec i ⟨n, rfl, hsame, -⟩
    rw [← nameIn_congr (sameName_iff.mp hsame)]
    exact ⟨fun hn => ⟨n, rfl, hn⟩, fun ⟨k, hk, hn⟩ => by cases hk; exact hn⟩
  · obtain ⟨spec, hspec, -⟩ := id hmissing
    exact (Statement.addSort_iff hbody hsources (List.ne_nil_of_mem hspec)).2 hmissing

/-- A set operation with one column is sorted by that column, and also by a column that its first
select only reads. A name that this select does not have is refused. -/
theorem addSort_setOp_hidden :
    ∃ s out, parse "select id from t where z > 1 union select id from u" = .ok s
      ∧ outputColumns none .empty s = .ok out ∧ out.names = ["id"]
      ∧ (∃ last items t, s.addSort [⟨"ID", .desc, none⟩] none = .ok t ∧ s.SortAppended last items t
        ∧ ∀ i ∈ items, ∃ n, i.expr = .name n ∧ nameIn n out.names = true)
      ∧ (∃ last items t, s.addSort [⟨"z", .asc, some .last⟩] none = .ok t
        ∧ s.SortAppended last items t
        ∧ ¬ ∀ i ∈ items, ∃ n, i.expr = .name n ∧ nameIn n out.names = true)
      ∧ ∃ missing, s.addSort [⟨"id", .asc, none⟩, ⟨"name", .asc, none⟩] none
          = .error (.unresolvedColumns missing "select from t")
        ∧ "name" ∈ missing := by
  obtain ⟨s, hs, h⟩ := exists_ok_of_any
    (show (parse "select id from t where z > 1 union select id from u").toOption.any (fun s =>
      !s.body.isTerm
      && ((outputColumns none .empty s).toOption.any fun out => decide (out.names = ["id"]))
      && ((s.addSort [⟨"ID", .desc, none⟩] none).toOption.any fun _ => true)
      && ((s.addSort [⟨"z", .asc, some .last⟩] none).toOption.any fun _ => true)
      && ((sourceColumns none (s.body.leftmostIn (Scope.root s)).2 s.body.leftmost).toOption.any
        fun sources => decide (s.body.leftmost.label = "select from t"
          ∧ s.body.leftmost.names "name" = false
          ∧ ∀ c ∈ sources, c.exposes "name" = false))) = true by decide +kernel)
  simp only [Bool.and_eq_true] at h
  obtain ⟨⟨⟨⟨hbody, hout⟩, hown⟩, hread⟩, hsources⟩ := h
  obtain ⟨l, op, r, hbody⟩ : ∃ l op r, s.body = .setOp l op r := by
    cases hb : s.body with
    | setOp l op r => exact ⟨l, op, r, rfl⟩
    | _ => simp [hb, Body.isTerm] at hbody
  obtain ⟨out, hout, hnames⟩ := exists_ok_of_any hout
  replace hnames := of_decide_eq_true hnames
  obtain ⟨t, ht, -⟩ := exists_ok_of_any hown
  obtain ⟨u, hu, -⟩ := exists_ok_of_any hread
  have hkeys : ∀ specs t, specs ≠ [] → s.addSort specs none = .ok t →
      ∃ last items, s.SortAppended last items t
        ∧ ((∀ i ∈ items, ∃ n, i.expr = .name n ∧ nameIn n out.names = true)
          ↔ ∀ spec ∈ specs, nameIn spec.column ["id"] = true) := by
    intro specs t hspecs ht
    rcases (Statement.addSort_setOp hs hbody specs).1 t ht with ⟨hnil, -⟩ | h
    · exact absurd hnil hspecs
    · obtain ⟨out', sources, last, items, hout', -, happended, -, hiff⟩ := h
      obtain rfl := Except.ok.inj (hout'.symm.trans hout)
      exact ⟨last, items, happended, hnames ▸ hiff⟩
  obtain ⟨last, items, happended, hiff⟩ := hkeys _ t (by simp) ht
  obtain ⟨last', items', happended', hiff'⟩ := hkeys _ u (by simp) hu
  obtain ⟨sources, hsources, hmissing⟩ := exists_ok_of_any hsources
  obtain ⟨hlabel, hunnamed, hunread⟩ := of_decide_eq_true hmissing
  have hunknown : ¬ s.body.leftmost.CanName sources "name" := by
    rintro (h | ⟨c, hc, h⟩)
    · simp [hunnamed] at h
    · simp [hunread c hc] at h
  obtain ⟨missing, herror, hreported⟩ :=
    ((Statement.addSort_setOp hs hbody [⟨"id", .asc, none⟩, ⟨"name", .asc, none⟩]).2 sources
      hsources).2 ⟨⟨"name", .asc, none⟩, by simp, hunknown⟩
  refine ⟨s, out, hs, hout, hnames, ⟨last, items, t, ht, happended, hiff.mpr (by decide)⟩,
    ⟨last', items', u, hu, happended', fun h => absurd (hiff'.mp h) (by decide)⟩, missing,
    hlabel ▸ herror, (hreported "name").mpr ⟨by simp, hunknown⟩⟩

end Sql
