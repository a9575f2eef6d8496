import Sql.Proofs.StageNames

/-!
# What stages read and give

* `Select.ReadsOnce` says of a select that it reads one table, and that each column that it names is
  exactly one of the table's.
* `StagesLead` says of stages that each reads the one before it in this way.
* The expressions that stages are made of name the columns that they are made from
  (`namesIn_buildObject`, `namesIn_guardedObject`, `namesIn_collectedObjects`), and so does the final
  select (`documentSelect_readsOnce`).
-/

namespace Sql

/-! ## What a stage reads and gives -/

/-- The columns that an expression names. -/
def Expr.columnRefs (e : Expr) : List ColumnRef := e.nodes.filterMap Expr.column?

/-- Each column that the expression names has no qualifier and is exactly one of the names. -/
def Expr.NamesIn (e : Expr) (names : List String) : Prop :=
  ∀ r ∈ e.columnRefs, r.path = [] ∧ IsOneOf r.name names

/-- A select reads a single table, and each column that it names is exactly one of the table's. -/
structure Select.ReadsOnce (q : Select) (input : String) (columns : List String) : Prop where
  source : q.sources = [.table [] input none]
  once : ∀ e ∈ q.exprs, e.NamesIn columns

/-- The columns that a select gives over those of its source: a star stands for all of these. -/
def Select.gives (q : Select) (input : List String) : List String :=
  q.items.flatMap fun i => if i.expr.isStar then input else i.outputName.toList

/-- Stages lead from a table with its columns to the last of them with the columns that it gives;
each stage reads the one before it, and has a name of its own. -/
inductive StagesLead (input : String) (columns : List String) :
    List Cte → String → List String → Prop
  | none : StagesLead input columns [] input columns
  | next {stages : List Cte} {name name' : String} {given : List String} {q : Select} :
      StagesLead input columns stages name given → q.ReadsOnce name given →
        nameIn name' (input :: stages.map Cte.name) = false →
          StagesLead input columns (stages ++ [⟨name', [], .ofSelect q⟩]) name' (q.gives given)

/-! ## Columns of generated expressions -/

theorem Expr.columnRefs_eq (e : Expr) :
    e.columnRefs = e.column?.toList ++ e.children.flatMap Expr.columnRefs := by
  unfold Expr.columnRefs
  rw [Expr.nodes_eq, List.filterMap_cons, List.filterMap_flatMap]
  cases e.column? <;> rfl

variable {names : List String}

/-- An expression other than a column names what its parts name. -/
theorem Expr.namesIn_of_children {e : Expr} (h : e.column? = none)
    (hchildren : ∀ c ∈ e.children, c.NamesIn names) : e.NamesIn names := by
  intro r hr
  rw [Expr.columnRefs_eq, h] at hr
  obtain ⟨c, hc, hr⟩ := List.mem_flatMap.mp hr
  exact hchildren c hc r hr

theorem Expr.namesIn_name {n : String} (h : IsOneOf n names) : (Expr.name n).NamesIn names := by
  intro r hr
  rw [Expr.columnRefs_eq] at hr
  obtain rfl : r = ⟨[], n⟩ := by simpa [Expr.name, Expr.column?, Expr.children] using hr
  exact ⟨rfl, h⟩

theorem Expr.namesIn_literal (l : Literal) : (Expr.literal l).NamesIn names :=
  Expr.namesIn_of_children rfl (by simp [Expr.children])

theorem Expr.namesIn_star (qualifier : Option String) : (Expr.star qualifier).NamesIn names :=
  Expr.namesIn_of_children rfl (by simp [Expr.children])

theorem Expr.namesIn_isNull {e : Expr} {negated : Bool} (h : e.NamesIn names) :
    (Expr.isNull e negated).NamesIn names :=
  Expr.namesIn_of_children rfl (by simpa [Expr.children] using h)

theorem Expr.namesIn_and {a b : Expr} (ha : a.NamesIn names) (hb : b.NamesIn names) :
    (Expr.and a b).NamesIn names :=
  Expr.namesIn_of_children rfl (by simpa [Expr.and, Expr.children] using ⟨ha, hb⟩)

theorem Expr.namesIn_apply {f : String} {args : List Expr} (h : ∀ a ∈ args, a.NamesIn names) :
    (Expr.apply f args).NamesIn names :=
  Expr.namesIn_of_children rfl (by simpa [Expr.apply, Expr.children] using h)

variable {resolved : ResolvedColumns}

/-- The columns that an object is built from are there. -/
theorem namesIn_buildObject {columns : ColumnMap} {children : List NestedEntity}
    (hcolumns : ∀ c ∈ columns.map Prod.snd, IsOneOf (resolvedName resolved c) names)
    (hchildren : ∀ x ∈ children, IsOneOf x.memberColumn names) :
    (buildObject resolved columns children).NamesIn names := by
  refine Expr.namesIn_apply fun a ha => ?_
  rcases List.mem_append.mp ha with ha | ha
  · obtain ⟨⟨key, c⟩, hc, ha⟩ := List.mem_flatMap.mp ha
    rcases List.mem_pair.mp ha with rfl | rfl
    · exact Expr.namesIn_literal _
    · exact Expr.namesIn_name (hcolumns c (List.mem_map.mpr ⟨_, hc, rfl⟩))
  · obtain ⟨x, hx, ha⟩ := List.mem_flatMap.mp ha
    rcases List.mem_pair.mp ha with rfl | rfl
    · exact Expr.namesIn_literal _
    · exact Expr.namesIn_name (hchildren x hx)

theorem namesIn_foldl_and {f : String → Expr} {cs : List String} (h : ∀ c ∈ cs, (f c).NamesIn names)
    {e : Expr} (he : e.NamesIn names) :
    (cs.foldl (fun e c => .and e (f c)) e).NamesIn names := by
  induction cs generalizing e with
  | nil => exact he
  | cons c cs ih =>
    obtain ⟨hc, hcs⟩ := List.forall_mem_cons.mp h
    exact ih hcs (Expr.namesIn_and he hc)

theorem namesIn_allNull? {columns : List String}
    (h : ∀ c ∈ columns, IsOneOf (resolvedName resolved c) names) {e : Expr}
    (he : allNull? resolved columns = some e) : e.NamesIn names := by
  have hnull : ∀ c ∈ columns,
      (Expr.isNull (.name (resolvedName resolved c)) false).NamesIn names :=
    fun c hc => Expr.namesIn_isNull (Expr.namesIn_name (h c hc))
  cases columns with
  | nil => simp [allNull?] at he
  | cons c cs =>
    obtain ⟨hc, hcs⟩ := List.forall_mem_cons.mp hnull
    obtain rfl := Option.some.inj he
    exact namesIn_foldl_and hcs hc

theorem namesIn_guardedObject {e : NestedEntity} {children : List NestedEntity}
    (hcolumns : ∀ c ∈ e.columns.map Prod.snd, IsOneOf (resolvedName resolved c) names)
    (hchildren : ∀ x ∈ children, IsOneOf x.memberColumn names) :
    (guardedObject resolved e children).NamesIn names := by
  have hobject := namesIn_buildObject hcolumns hchildren
  unfold guardedObject
  dsimp only
  split
  · next isNull hnull =>
    refine Expr.namesIn_of_children rfl ?_
    have hnull := namesIn_allNull? hcolumns hnull
    simpa [Expr.children, Expr.null] using ⟨hnull, Expr.namesIn_literal _, hobject⟩
  · exact hobject

theorem namesIn_orEmptyArray {e : Expr} (h : e.NamesIn names) : (orEmptyArray e).NamesIn names := by
  refine Expr.namesIn_apply fun a ha => ?_
  rcases List.mem_pair.mp ha with rfl | rfl
  · exact h
  · exact Expr.namesIn_of_children rfl (List.forall_mem_singleton.mpr (Expr.namesIn_literal _))

theorem namesIn_collectedObjects {e : NestedEntity} (h : IsOneOf (objectColumn e.id) names) :
    (collectedObjects e).NamesIn names := by
  have hname := Expr.namesIn_name h
  refine namesIn_orEmptyArray (Expr.namesIn_of_children rfl ?_)
  simpa [Expr.children] using ⟨hname, Expr.namesIn_isNull hname⟩

/-! ## Selects of stages -/

/-- The root stage gives one column, which is all that the final select names. -/
theorem documentSelect_readsOnce (m : Mapping) :
    (documentSelect m).ReadsOnce (rootStage m.rootName) [m.rootName] := by
  have hname : (Expr.name m.rootName).NamesIn [m.rootName] :=
    Expr.namesIn_name (IsOneOf.singleton m.rootName)
  unfold documentSelect
  dsimp only
  split
  · refine ⟨rfl, fun e he => ?_⟩
    obtain rfl : e = orEmptyArray (.apply "jsonb_agg" [.name m.rootName]) := by
      simpa [Select.exprs, Select.simple] using he
    exact namesIn_orEmptyArray (Expr.namesIn_apply (List.forall_mem_singleton.mpr hname))
  · refine ⟨rfl, fun e he => ?_⟩
    have hcases : e = .name m.rootName ∨ e = .literal (.number "1") := by
      simpa [Select.exprs, Select.simple, SelectItem.bare] using he
    rcases hcases with rfl | rfl
    · exact hname
    · exact Expr.namesIn_literal _

/-- One more stage, whose items and groups name columns that are there. -/
theorem StagesLead.stage {input name name' : String} {columns given given' : List String}
    {stages : List Cte} (h : StagesLead input columns stages name given)
    {items : List SelectItem} {groupBy : List Expr} (hitems : ∀ i ∈ items, i.expr.NamesIn given)
    (hgroups : ∀ e ∈ groupBy, e.NamesIn given)
    (hgives : (items.flatMap fun i => if i.expr.isStar then given else i.outputName.toList) = given')
    (hname : nameIn name' (input :: stages.map Cte.name) = false) :
    StagesLead input columns (stages ++ [Sql.stage name' items name groupBy]) name' given' := by
  subst hgives
  refine .next h ⟨rfl, fun e he => ?_⟩ hname
  have hmem : e ∈ items.map SelectItem.expr ∨ e ∈ groupBy := by
    simpa [Select.exprs, Select.simple] using he
  rcases hmem with hmem | hmem
  · obtain ⟨i, hi, rfl⟩ := List.mem_map.mp hmem
    exact hitems i hi
  · exact hgroups e hmem

/-- Named items that are no stars give their names. -/
theorem flatMap_gives {α : Type} {f : α → SelectItem} {n : α → String}
    (hstar : ∀ a, (f a).expr.isStar = false) (hname : ∀ a, (f a).outputName = some (n a))
    (input : List String) (as : List α) :
    (as.map f).flatMap (fun i => if i.expr.isStar then input else i.outputName.toList)
      = as.map n := by
  induction as with
  | nil => rfl
  | cons a as ih => simp [hstar, hname, ih]

theorem isStar_guardedObject (e : NestedEntity) (children : List NestedEntity) :
    (guardedObject resolved e children).isStar = false := by
  unfold guardedObject
  dsimp only
  split <;> rfl

end Sql
