import Sql.Proofs.Sound
import Sql.Scope.Columns

/-!
# The names of columns in scope

Every column that a sound statement has, or that a select in it can name, has a name that is not
empty, provided the schema gives no empty ones (`Lookup.Named`). The columns of a scope come from
select items, from column lists of CTEs, from the schema and from the text, and in a sound tree
none of these is empty.

* `outputColumns_named`, `sourceColumns_named`: the names of columns.
* `selectableIn_sound`: what a select can name stands for sound expressions.
-/

namespace Sql

/-- The schema gives no column an empty name. -/
def Lookup.Named (lookup : Option Lookup) : Prop :=
  ∀ ask ∈ lookup, ∀ table columns, ask table = .ok (some columns) → AreNames columns

theorem lookupColumns_named {lookup : Option Lookup} (hlookup : Lookup.Named lookup)
    {qualified name : String} {columns : List String}
    (h : lookupColumns lookup qualified name = .ok (some columns)) : AreNames columns := by
  unfold lookupColumns at h
  split at h
  · simp at h
  · next ask =>
    split at h
    · simp at h
    · next found hask =>
      simp only [Except.ok.injEq, Option.some.injEq] at h
      subst h
      exact hlookup ask rfl _ _ hask
    · split at h
      · simp at h
      · split at h
        · simp at h
        · next hask =>
          rw [Except.ok.inj h] at hask
          exact hlookup ask rfl _ _ hask

/-! ## Lists of names -/

theorem mem_of_mem_firstByName {α : Type} {name : α → String} {x : α} {xs : List α}
    (h : x ∈ firstByName name xs) : x ∈ xs := by
  induction xs with
  | nil => simp [firstByName] at h
  | cons y ys ih =>
    rw [firstByName, List.mem_cons, List.mem_filter] at h
    rcases h with rfl | ⟨h, -⟩
    · exact List.mem_cons_self
    · exact List.mem_cons_of_mem _ (ih h)

theorem AreNames.append {as bs : List String} (ha : AreNames as) (hb : AreNames bs) :
    AreNames (as ++ bs) :=
  List.forall_mem_append.mpr ⟨ha, hb⟩

theorem AreNames.addNames {names columns : List String} (hnames : AreNames names)
    (hcolumns : AreNames columns) : AreNames (addNames names columns) := by
  unfold Sql.addNames
  induction columns generalizing names with
  | nil => exact hnames
  | cons c cs ih =>
    obtain ⟨hc, hcs⟩ := List.forall_mem_cons.mp hcolumns
    refine ih ?_ hcs
    dsimp only
    split
    · exact hnames
    · exact hnames.append (by simpa [AreNames] using hc)

/-! ## Names of select items -/

/-- The last part of a dotted name, if the name does not end in a dot, is not empty. -/
theorem lastPart_ne {name : String} {init : List Char} {c : Char}
    (h : name.toList = init ++ [c]) (hc : c ≠ '.') : lastPart name ≠ "" := by
  rw [lastPart, h, List.reverse_append, List.reverse_singleton, List.singleton_append,
    List.takeWhile_cons_of_pos (by simpa using hc), Ne, ← String.toList_inj, String.toList_ofList]
  simp

/-- The part of a name of a function ends in a character other than a dot. -/
theorem writtenChars_concat {part : String} (h : part ≠ "") :
    ∃ init c, writtenChars part = init ++ [c] ∧ c ≠ '.' := by
  cases hsimple : isSimpleName part with
  | true =>
    rw [writtenChars_simple hsimple]
    have hne : part.toList ≠ [] := fun hnil => h (String.toList_inj.mp hnil)
    refine ⟨part.toList.dropLast, part.toList.getLast hne,
      (List.dropLast_concat_getLast hne).symm, ?_⟩
    exact (simple_plain hsimple _ (List.getLast_mem hne)).1
  | false =>
    rw [writtenChars_quoted hsimple]
    exact ⟨'\x22' :: doubled ['\x22'] 0 part.toList, '\x22', rfl, by decide⟩

theorem IsFunctionName.lastPart_ne {strict : Prop} {f : String} (h : IsFunctionName strict f) :
    lastPart f ≠ "" := by
  obtain ⟨parts, hne, hparts, rfl, -⟩ := h
  -- the name ends as its last part does
  have hends : ∃ init c, (dotted (parts.map writtenPart)).toList = init ++ [c] ∧ c ≠ '.' := by
    rw [← List.dropLast_concat_getLast hne, List.map_append, List.map_singleton, dotted,
      String.toList_intercalate, List.map_append, List.map_singleton]
    obtain ⟨init, c, hlast, hc⟩ := writtenChars_concat (hparts _ (List.getLast_mem hne))
    generalize (List.map String.toList (List.map writtenPart parts.dropLast)) = before
    rw [show (writtenPart (parts.getLast hne)).toList = init ++ [c] from hlast]
    induction before with
    | nil => exact ⟨init, c, by simp, hc⟩
    | cons w ws ih =>
      obtain ⟨init', c', h', hc'⟩ := ih
      refine ⟨w ++ ".".toList ++ init', c', ?_, hc'⟩
      cases ws with
      | nil => simp_all [List.intercalate_cons_cons]
      | cons v vs =>
        rw [List.cons_append, List.cons_append, List.intercalate_cons_cons, ← List.cons_append, h']
        simp
  obtain ⟨init, c, hlast, hc⟩ := hends
  exact Sql.lastPart_ne hlast hc

theorem Expr.implicitName_named (e : Expr) (h : e.AllSound True) : ∀ n ∈ e.implicitName, n ≠ "" := by
  obtain ⟨⟨-, hspelled⟩, hchildren, -⟩ := Expr.allSound_iff.mp h
  have hspelled := hspelled trivial
  intro n hn
  fun_cases implicitName e with
  | case1 c =>
    obtain rfl : c.name = n := Option.some.inj hn
    exact hspelled _ (by simp)
  | case2 f =>
    obtain rfl : lastPart f = n := Option.some.inj hn
    exact hspelled.1.lastPart_ne
  | case3 e => exact Expr.implicitName_named e (hchildren e (by simp [children])) n hn
  | case4 e => exact Expr.implicitName_named e (hchildren e (by simp [children])) n hn
  | case5 => simp_all [implicitName]

theorem Select.item_mem_exprs {q : Select} {i : SelectItem} (h : i ∈ q.items) :
    i.expr ∈ q.exprs := by
  simp only [Select.exprs, List.append_assoc]
  exact List.mem_append_left _ (List.mem_map_of_mem h)

theorem SelectItem.derivedName_named {q : Select} (h : (Body.select q).AllSound True)
    {i : SelectItem} (hi : i ∈ q.items) : ∀ n ∈ i.derivedName, n ≠ "" := by
  obtain ⟨⟨-, hspelled⟩, hexprs, -⟩ := Select.allSound_iff.mp h
  unfold SelectItem.derivedName
  cases ha : i.asName with
  | some a =>
    have halias := (hspelled trivial).items i hi
    rw [ha] at halias
    exact halias
  | none => exact Expr.implicitName_named i.expr (hexprs _ (q.item_mem_exprs hi))

/-- The columns of a source, and its name, are not empty. -/
def SourceColumns.Named (s : SourceColumns) : Prop := s.source ≠ "" ∧ AreNames s.columns

theorem OutputColumns.addItem_named {sources : List SourceColumns} (hsources : ∀ s ∈ sources, s.Named)
    {out : OutputColumns} (hout : AreNames out.names) {i : SelectItem}
    (hi : ∀ n ∈ i.derivedName, n ≠ "") : AreNames (out.addItem sources i).names := by
  unfold OutputColumns.addItem
  split
  · next qualifier _ =>
    refine hout.addNames (List.forall_mem_flatMap.mpr fun s hs => ?_)
    have hmem : s ∈ sources := by
      cases qualifier with
      | none => exact hs
      | some q => exact (List.mem_filter.mp hs).1
    exact (hsources s hmem).2
  · split
    · next n hn => exact hout.append (by simpa [AreNames] using hi n hn)
    · exact hout

theorem listColumns_named {sources : List SourceColumns} (hsources : ∀ s ∈ sources, s.Named)
    {items : List SelectItem} (hitems : ∀ i ∈ items, ∀ n ∈ i.derivedName, n ≠ "") :
    AreNames (listColumns sources items).names := by
  have hfold : ∀ out : OutputColumns, AreNames out.names →
      AreNames (items.foldl (OutputColumns.addItem sources) out).names := by
    induction items with
    | nil => exact fun out hout => hout
    | cons i items ih =>
      obtain ⟨hi, hitems⟩ := List.forall_mem_cons.mp hitems
      exact fun out hout => ih hitems _ (OutputColumns.addItem_named hsources hout hi)
  exact hfold _ (by simp [AreNames])

/-! ## Names in the text -/

theorem Expr.spelled_of_mem_nodes (e : Expr) (h : e.AllSound True) :
    ∀ x ∈ e.nodes, x.Spelled := by
  obtain ⟨hsound, hchildren, -⟩ := Expr.allSound_iff.mp h
  rw [Expr.nodes_eq, List.forall_mem_cons, List.forall_mem_flatMap]
  exact ⟨hsound.2 trivial, fun c hc => Expr.spelled_of_mem_nodes c (hchildren c hc)⟩
termination_by sizeOf e
decreasing_by exact Expr.sizeOf_lt_of_mem_children hc

theorem inferColumns_named {q : Select} (h : (Body.select q).AllSound True) (t : Source) :
    AreNames (inferColumns q t) := by
  obtain ⟨⟨-, hspelled⟩, hexprs, -⟩ := Select.allSound_iff.mp h
  intro n hn
  have hmem := mem_of_mem_firstByName hn
  rw [List.mem_append, List.mem_filterMap, List.mem_flatMap] at hmem
  rcases hmem with ⟨x, hx, hcolumn⟩ | ⟨j, hj, hshared⟩
  · obtain ⟨e, he, hx⟩ := List.mem_flatMap.mp hx
    have hnode := Expr.spelled_of_mem_nodes e (hexprs e he) x hx
    unfold referencedColumn? at hcolumn
    cases x with
    | column c =>
      have hname : c.name = n := by
        dsimp only at hcolumn
        split at hcolumn <;> split at hcolumn <;> simp_all
      exact hnode n (by simp [hname])
    | _ => simp at hcolumn
  · exact (hspelled trivial).shared j hj n hshared

/-! ## Scopes -/

section

variable {spelled : Prop}

/-- The CTEs in scope are sound, and so are their names. -/
def Scope.AllSound (spelled : Prop) (scope : Scope) : Prop :=
  ∀ e ∈ scope.entries, e.cte.statement.AllSound spelled ∧ (spelled → AreNames e.cte.columns)

theorem Scope.allSound_empty : Scope.empty.AllSound spelled := by
  simp [Scope.AllSound, Scope.empty]

theorem Scope.AllSound.enter {scope : Scope} (hscope : scope.AllSound spelled) {s : Statement}
    (hs : s.AllSound spelled) : (scope.enter s).AllSound spelled := by
  obtain ⟨⟨-, hspelled⟩, hctes, -⟩ := Statement.allSound_iff.mp hs
  intro e he
  rw [Scope.enter, List.mem_append, List.mem_reverse, List.mem_map] at he
  rcases he with ⟨c, hc, rfl⟩ | he
  · exact ⟨hctes c hc, fun h => (hspelled h c hc).2⟩
  · exact hscope e he

theorem Scope.AllSound.resolve? {scope before : Scope} (hscope : scope.AllSound spelled)
    {t : Source} {e : CteEntry} (h : scope.resolve? t = some (e, before)) :
    (e.cte.statement.AllSound spelled ∧ (spelled → AreNames e.cte.columns))
      ∧ before.AllSound spelled := by
  have hfind : ∀ (name : String) (entries rest : List CteEntry),
      findEntry name entries = some (e, rest) → e ∈ entries ∧ ∀ x ∈ rest, x ∈ entries := by
    intro name entries rest
    induction entries with
    | nil => simp [findEntry]
    | cons x xs ih =>
      rw [findEntry]
      split
      · intro hx
        simp only [Option.some.injEq, Prod.mk.injEq] at hx
        obtain ⟨rfl, rfl⟩ := hx
        exact ⟨List.mem_cons_self, fun y hy => List.mem_cons_of_mem _ hy⟩
      · intro hx
        obtain ⟨he, hrest⟩ := ih hx
        exact ⟨List.mem_cons_of_mem _ he, fun y hy => List.mem_cons_of_mem _ (hrest y hy)⟩
  unfold Scope.resolve? Scope.find? at h
  split at h
  · next name _ =>
    simp only [Option.map_eq_some_iff, Prod.exists, Prod.mk.injEq] at h
    obtain ⟨e', rest, h, rfl, rfl⟩ := h
    obtain ⟨he, hrest⟩ := hfind name _ _ h
    exact ⟨hscope _ he, fun x hx => hscope x (hrest x hx)⟩
  · simp at h

theorem Body.allSound_leftmostIn {b : Body} (hb : b.AllSound spelled) {scope : Scope}
    (hscope : scope.AllSound spelled) :
    (Body.select (b.leftmostIn scope).1).AllSound spelled
      ∧ (b.leftmostIn scope).2.AllSound spelled := by
  fun_induction leftmostIn b scope with
  | case1 q scope => exact ⟨hb, hscope⟩
  | case2 l op r scope ih => exact ih (Body.allSound_setOp.mp hb).1 hscope
  | case3 w body scope ih =>
    have hs := Body.allSound_nested.mp hb
    exact ih (Statement.allSound_iff.mp hs).2.2 (hscope.enter hs)

end

/-! ## Columns of statements and sources -/

section

variable {lookup : Option Lookup}

mutual

/-- **The columns of a sound statement have names.** -/
theorem outputColumns_named (hlookup : Lookup.Named lookup) {scope : Scope}
    (hscope : scope.AllSound True) (s : Statement) (hs : s.AllSound True) {out : OutputColumns}
    (h : outputColumns lookup scope s = .ok out) :
    AreNames out.names := by
  have hleft := Body.allSound_leftmostIn (Statement.allSound_iff.mp hs).2.2 (hscope.enter hs)
  have hlt := s.body.leftmostIn_weight_lt (scope.enter s)
  have hle := scope.weight_enter_le s
  have hitems : ∀ i ∈ (s.body.leftmostIn (scope.enter s)).1.items, ∀ n ∈ i.derivedName, n ≠ "" :=
    fun i hi => SelectItem.derivedName_named hleft.1 hi
  rw [outputColumns] at h
  split at h
  · simp at h
  · split at h
    · next q inner hq =>
      rw [hq] at hleft hlt hitems
      have hsmaller : sizeOf q + inner.weight < sizeOf s + scope.weight := by
        dsimp only at hlt
        omega
      split at h
      · obtain ⟨sources, hsources, h⟩ := ok_of_bind h
        rw [← Except.ok.inj h]
        exact listColumns_named (sourceColumns_named hlookup hleft.2 q hleft.1 hsources) hitems
      · rw [← Except.ok.inj h]
        exact listColumns_named (by simp) hitems
termination_by sizeOf s + scope.weight
decreasing_by exact hsmaller

theorem sourceColumns_named (hlookup : Lookup.Named lookup) {scope : Scope}
    (hscope : scope.AllSound True) (q : Select)
    (hq : (Body.select q).AllSound True) {sources : List SourceColumns}
    (h : sourceColumns lookup scope q = .ok sources) : ∀ s ∈ sources, s.Named := by
  rw [sourceColumns_eq] at h
  intro s hs
  obtain ⟨t, ht, hcolumns⟩ := mem_of_mapM h s hs
  exact columnsOf_named hlookup hscope q hq t ht hcolumns
termination_by sizeOf q + scope.weight
decreasing_by
  have := Select.sizeOf_lt_of_mem_sources ht
  omega

theorem columnsOf_named (hlookup : Lookup.Named lookup) {scope : Scope}
    (hscope : scope.AllSound True) (q : Select)
    (hq : (Body.select q).AllSound True) (t : Source) (ht : t ∈ q.sources) {columns : SourceColumns}
    (h : columnsOf lookup scope q t = .ok columns) : columns.Named := by
  obtain ⟨⟨-, hspelled⟩, -, hsources⟩ := Select.allSound_iff.mp hq
  have hname := (hspelled trivial).sources t ht
  match t with
  | .subquery s asName =>
    rw [columnsOf] at h
    obtain ⟨out, hout, h⟩ := ok_of_bind h
    rw [← Except.ok.inj h]
    exact ⟨hname, outputColumns_named hlookup hscope s (hsources _ ht s rfl) hout⟩
  | .table path name asName =>
    have heffective : asName.getD name ≠ "" := by
      cases asName with
      | none => exact hname.1 name (by simp)
      | some a => exact hname.2 a rfl
    rw [columnsOf] at h
    split at h
    · next entry before hresolve =>
      obtain ⟨⟨hstatement, hcolumns⟩, hbefore⟩ := hscope.resolve? hresolve
      have hlt := Scope.resolve?_weight_lt hresolve
      split at h
      · obtain ⟨out, hout, h⟩ := ok_of_bind h
        rw [← Except.ok.inj h]
        exact ⟨heffective, outputColumns_named hlookup hbefore _ hstatement hout⟩
      · rw [← Except.ok.inj h]
        exact ⟨heffective, hcolumns trivial⟩
    · obtain ⟨found, hfound, h⟩ := ok_of_bind h
      split at h
      · rw [← Except.ok.inj h]
        exact ⟨heffective, lookupColumns_named hlookup hfound⟩
      · rw [← Except.ok.inj h]
        exact ⟨heffective, inferColumns_named hq _⟩
termination_by sizeOf t + scope.weight
decreasing_by
  · simp +arith
  · omega

end

end

/-! ## What a select can name -/

section

variable {spelled : Prop} {lookup : Option Lookup}

theorem sourceExprs_sound {sources : List SourceColumns}
    (hsources : spelled → ∀ s ∈ sources, s.Named) :
    ∀ c ∈ sourceExprs sources, c.expr.AllSound spelled ∧ (spelled → c.name ≠ "") := by
  intro c hc
  obtain ⟨s, hs, hc⟩ := List.mem_flatMap.mp hc
  obtain ⟨n, hn, rfl⟩ := List.mem_map.mp hc
  refine ⟨?_, fun h => (hsources h s hs).2 n hn⟩
  dsimp only
  split
  · refine Expr.allSound_column.mpr fun h => ?_
    have hnamed := hsources h s hs
    simpa [AreNames] using ⟨hnamed.1, hnamed.2 n hn⟩
  · exact Expr.allSound_column.mpr fun h => by simpa [AreNames] using (hsources h s hs).2 n hn

theorem itemExprs_sound {q : Select} (hq : (Body.select q).AllSound spelled) :
    ∀ c ∈ itemExprs q.items, c.expr.AllSound spelled ∧ (spelled → c.name ≠ "") := by
  obtain ⟨⟨-, hspelled⟩, hexprs, -⟩ := Select.allSound_iff.mp hq
  intro c hc
  obtain ⟨i, hi, hc⟩ := List.mem_filterMap.mp hc
  obtain ⟨n, hn, rfl⟩ := Option.map_eq_some_iff.mp hc
  have he := hexprs _ (Select.item_mem_exprs hi)
  refine ⟨he, fun h => ?_⟩
  unfold SelectItem.outputName at hn
  split at hn
  · next a ha =>
    obtain rfl := Option.some.inj hn
    exact (hspelled h).items i hi _ ha
  · unfold Expr.column? at hn
    split at hn
    · next column hcolumn =>
      obtain rfl := Option.some.inj hn
      rw [hcolumn, Expr.allSound_column] at he
      exact he h _ (by simp)
    · simp at hn

/-- **What a select can name has a name and stands for a sound expression.** -/
theorem selectableIn_sound (hlookup : spelled → Lookup.Named lookup) {scope : Scope}
    (hscope : scope.AllSound spelled) {q : Select} (hq : (Body.select q).AllSound spelled)
    {columns : List SelectableColumn} (h : selectableIn lookup scope q = .ok columns) :
    ∀ c ∈ columns, c.expr.AllSound spelled ∧ (spelled → c.name ≠ "") := by
  obtain ⟨sources, hsources, h⟩ := ok_of_bind h
  rw [← Except.ok.inj h]
  intro c hc
  rcases List.mem_append.mp (mem_of_mem_firstByName hc) with hc | hc
  · exact itemExprs_sound hq c hc
  · refine sourceExprs_sound (fun hspelled => ?_) c hc
    obtain rfl : spelled = True := eq_true hspelled
    exact sourceColumns_named (hlookup trivial) hscope q hq hsources

theorem requireColumns_sound (hlookup : spelled → Lookup.Named lookup) {s : Statement}
    (hs : s.AllSound spelled) {names : List String} {columns : List SelectableColumn}
    (h : requireColumns lookup s names = .ok columns) :
    ∀ c ∈ columns, c.expr.AllSound spelled ∧ (spelled → c.name ≠ "") := by
  obtain ⟨found, hfound, h⟩ := ok_of_bind h
  have hleft := Body.allSound_leftmostIn (Statement.allSound_iff.mp hs).2.2
    (Scope.allSound_empty.enter hs)
  have hsound := selectableIn_sound hlookup hleft.2 hleft.1 hfound
  unfold pickColumns at h
  dsimp only at h
  split at h
  · rw [← Except.ok.inj h]
    intro c hc
    obtain ⟨n, -, hc⟩ := List.mem_filterMap.mp hc
    exact hsound c (List.mem_of_find?_eq_some hc)
  · simp at h

end

end Sql
