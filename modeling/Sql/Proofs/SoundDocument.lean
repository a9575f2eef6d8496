import Sql.Proofs.ColumnNames
import Sql.Proofs.ReadBack
import Sql.Proofs.SoundEdits
import Sql.Proofs.StagedColumns

/-!
# Staged documents are sound

The stages of a document are made from names alone: those of columns that the statement has, and
those that are generated from ids. `Statement.staged_sound` says that the staged statement is sound
if the statement is, if the columns have names, and if the names of its CTEs differ; it is then
printed and read back like any other.
-/

namespace Sql

variable {spelled : Prop}

/-! ## Generated expressions -/

theorem Expr.allSound_name {n : String} (h : spelled → n ≠ "") :
    (Expr.name n).AllSound spelled :=
  Expr.allSound_column.mpr fun hs => by simpa [AreNames] using h hs

theorem Expr.allSound_star : (Expr.star none).AllSound spelled := by
  rw [Expr.allSound_iff]
  simp [children, statement?, Expr.Sound, Filled, Expr.Spelled, IsAlias]

theorem Expr.allSound_literal {l : Literal} (h : l.Wf) : (Expr.literal l).AllSound spelled := by
  rw [Expr.allSound_iff]
  simp [children, statement?, Expr.Sound, Filled, Expr.Spelled, h]

theorem Expr.allSound_apply {f : String} {args : List Expr}
    (hf : isSimpleName f = true ∧ isStopWord f = false) (hargs : ∀ a ∈ args, a.AllSound spelled) :
    (Expr.apply f args).AllSound spelled := by
  have hname : IsFunctionName True f := @isFunctionName_dotted [f] (by simp) (by simpa using hf)
  rw [Expr.allSound_iff]
  simpa [Expr.apply, children, statement?, Expr.Sound, Filled, Expr.Spelled, hname] using hargs

variable {resolved : ResolvedColumns}

theorem NestedEntity.memberColumn_ne (e : NestedEntity) : e.memberColumn ≠ "" := by
  unfold memberColumn
  split
  · simp [objectColumn]
  · simp [arrayColumn]

theorem buildObject_sound {columns : ColumnMap} (children : List NestedEntity)
    (hcolumns : spelled → ∀ c ∈ columns.map Prod.snd, resolvedName resolved c ≠ "") :
    (buildObject resolved columns children).AllSound spelled := by
  refine Expr.allSound_apply (by decide +kernel) fun a ha => ?_
  rcases List.mem_append.mp ha with ha | ha
  · obtain ⟨⟨key, c⟩, hc, ha⟩ := List.mem_flatMap.mp ha
    rcases List.mem_pair.mp ha with rfl | rfl
    · exact Expr.allSound_literal trivial
    · exact Expr.allSound_name fun hs => hcolumns hs c (List.mem_map.mpr ⟨_, hc, rfl⟩)
  · obtain ⟨x, -, ha⟩ := List.mem_flatMap.mp ha
    rcases List.mem_pair.mp ha with rfl | rfl
    · exact Expr.allSound_literal trivial
    · exact Expr.allSound_name fun _ => x.memberColumn_ne

theorem allNull?_sound {columns : List String}
    (hcolumns : spelled → ∀ c ∈ columns, resolvedName resolved c ≠ "") {e : Expr}
    (he : allNull? resolved columns = some e) : e.AllSound spelled := by
  have hnull : ∀ c ∈ columns,
      (Expr.isNull (.name (resolvedName resolved c)) false).AllSound spelled :=
    fun c hc => Expr.allSound_isNull.mpr (Expr.allSound_name fun hs => hcolumns hs c hc)
  cases columns with
  | nil => simp [allNull?] at he
  | cons c cs =>
    obtain ⟨hc, hcs⟩ := List.forall_mem_cons.mp hnull
    obtain rfl := Option.some.inj he
    exact foldl_and_sound hc hcs

theorem guardedObject_sound {e : NestedEntity} (children : List NestedEntity)
    (hcolumns : spelled → ∀ c ∈ e.columns.map Prod.snd, resolvedName resolved c ≠ "") :
    (guardedObject resolved e children).AllSound spelled := by
  have hobject := buildObject_sound children hcolumns
  unfold guardedObject
  dsimp only
  split
  · next isNull hnull =>
    have hisNull := allNull?_sound hcolumns hnull
    have hnone : Expr.null.AllSound spelled := Expr.allSound_literal trivial
    rw [Expr.allSound_iff]
    simpa [Expr.children, Expr.statement?, Expr.Sound, Expr.Filled, Expr.Spelled]
      using ⟨hisNull, hnone, hobject⟩
  · exact hobject

theorem isTypeName_jsonb : IsTypeName "jsonb" :=
  ⟨⟨.bare "jsonb", [], [], []⟩,
    ⟨isWord_of_isSimpleName (by decide +kernel), by simp, by simp, by simp⟩, by decide +kernel⟩

theorem orEmptyArray_sound {e : Expr} (h : e.AllSound spelled) :
    (orEmptyArray e).AllSound spelled := by
  have hempty : (Expr.cast (.string "[]") "jsonb" true).AllSound spelled := by
    have hstring : (Expr.string "[]").AllSound spelled := Expr.allSound_literal trivial
    rw [Expr.allSound_iff]
    simpa [Expr.children, Expr.statement?, Expr.Sound, Expr.Filled, Expr.Spelled,
      isTypeName_jsonb] using hstring
  refine Expr.allSound_apply (by decide +kernel) fun a ha => ?_
  rcases List.mem_pair.mp ha with rfl | rfl
  · exact h
  · exact hempty

theorem collectedObjects_sound (e : NestedEntity) : (collectedObjects e).AllSound spelled := by
  have hobject : (Expr.name (objectColumn e.id)).AllSound spelled :=
    Expr.allSound_name fun _ => by simp [objectColumn]
  have hname : IsFunctionName True "jsonb_agg" :=
    @isFunctionName_dotted ["jsonb_agg"] (by simp) (by decide +kernel)
  refine orEmptyArray_sound ?_
  rw [Expr.allSound_iff]
  simpa [Expr.children, Expr.statement?, Expr.Sound, Expr.Filled, Expr.Spelled, hname]
    using ⟨hobject, Expr.allSound_isNull.mpr hobject⟩

/-! ## Selects over one table -/

/-- An item of a select list is sound, a star has no alias, and no alias is empty. -/
structure SelectItem.Sound (spelled : Prop) (i : SelectItem) : Prop where
  expr : i.expr.AllSound spelled
  star_bare : i.expr.isStar = true → i.asName = none
  named : IsAlias i.asName

theorem SelectItem.Sound.bare {e : Expr} (h : e.AllSound spelled) :
    (SelectItem.bare e).Sound spelled :=
  ⟨h, fun _ => rfl, by simp [SelectItem.bare, IsAlias]⟩

theorem SelectItem.Sound.named_as {e : Expr} (h : e.AllSound spelled) (hstar : e.isStar = false)
    {n : String} (hn : n ≠ "") : SelectItem.Sound spelled ⟨e, some n⟩ :=
  ⟨h, fun hs => by simp [hstar] at hs, by simpa [IsAlias] using hn⟩

theorem Select.allSound_of_table {q : Select} {input : String}
    (hsource : q.source = some (.table [] input none)) (hjoins : q.joins = [])
    (hinput : input ≠ "") (hne : q.items ≠ []) (hitems : ∀ i ∈ q.items, i.Sound spelled)
    (htail : ∀ e ∈ q.tailExprs, e.AllSound spelled) : (Body.select q).AllSound spelled := by
  have hsources : q.sources = [.table [] input none] := by simp [sources, hsource, hjoins]
  refine Select.allSound_iff.mpr ⟨⟨?_, fun _ => ?_⟩, ?_, ?_⟩
  · exact ⟨hne, fun i hi => (hitems i hi).star_bare, fun _ => hjoins,
      by simp [hsources, NamesDiffer], by simp [hjoins]⟩
  · refine ⟨fun i hi => (hitems i hi).named, ?_, by simp [hjoins]⟩
    simpa [hsources, Source.Spelled, AreNames, IsAlias] using hinput
  · rw [exprs_eq, hjoins, List.filterMap_nil, List.append_nil, List.forall_mem_append,
      List.forall_mem_map]
    exact ⟨fun i hi => (hitems i hi).expr, htail⟩
  · simp [hsources, Source.AllSound, Source.statement?]

theorem Statement.allSound_ofSelect {q : Select} (h : (Body.select q).AllSound spelled) :
    (Statement.ofSelect q).AllSound spelled := by
  refine Statement.allSound_iff.mpr ⟨⟨⟨?_, ?_, trivial⟩, fun _ => ?_⟩, ?_, h⟩
  · simp [Statement.ofSelect]
  · simp [Statement.ofSelect, Statement.ctes, NamesDiffer]
  · simp [Statement.ofSelect, Statement.ctes, Statement.Spelled]
  · simp [Statement.ofSelect, Statement.ctes]

/-! ## Stages -/

/-- The CTE is sound, and it has a name and no column list. -/
structure Cte.Sound (spelled : Prop) (c : Cte) : Prop where
  statement : c.statement.AllSound spelled
  name_ne : c.name ≠ ""
  columns_nil : c.columns = []

theorem stage_sound {name input : String} {items : List SelectItem} {groupBy : List Expr}
    (hname : name ≠ "") (hinput : input ≠ "") (hne : items ≠ [])
    (hitems : ∀ i ∈ items, i.Sound spelled) (hgroups : ∀ e ∈ groupBy, e.AllSound spelled) :
    (stage name items input groupBy).Sound spelled := by
  refine ⟨Statement.allSound_ofSelect (Select.allSound_of_table rfl rfl hinput hne hitems ?_),
    hname, rfl⟩
  simpa [Select.tailExprs, Select.simple] using hgroups

theorem objectStage_ne (depth : Nat) : objectStage depth ≠ "" := by
  show "cte_object_depth_" ++ toString depth ≠ ""
  simp

theorem documentSelect_sound (m : Mapping) (hroot : m.rootName ≠ "") :
    (Body.select (documentSelect m)).AllSound spelled := by
  have hname : (Expr.name m.rootName).AllSound spelled := Expr.allSound_name fun _ => hroot
  have hinput : rootStage m.rootName ≠ "" := by simp [rootStage]
  unfold documentSelect
  dsimp only
  split
  · refine Select.allSound_of_table rfl rfl hinput (by simp [Select.simple]) ?_
      (by simp [Select.tailExprs, Select.simple])
    have hagg : (Expr.apply "jsonb_agg" [.name m.rootName]).AllSound spelled :=
      Expr.allSound_apply (by decide +kernel) (List.forall_mem_singleton.mpr hname)
    exact List.forall_mem_singleton.mpr
      (.named_as (orEmptyArray_sound hagg) rfl (by simp [arrayColumn]))
  · refine Select.allSound_of_table rfl rfl hinput (by simp [Select.simple]) ?_ ?_
    · exact List.forall_mem_singleton.mpr (.bare hname)
    · have hone : IsNumber "1" := ⟨by decide, '1', [], by decide, by decide⟩
      have hnumber : (Expr.literal (.number "1")).AllSound spelled := Expr.allSound_literal hone
      simpa [Select.tailExprs, Select.simple] using hnumber

/-- The stages made so far are sound, and their columns have names. -/
structure Staging.Sound (spelled : Prop) (s : Staging) : Prop where
  stages : ∀ c ∈ s.stages, c.Sound spelled
  current_ne : s.current ≠ ""
  columns : spelled → AreNames s.columns

namespace Staging.Sound

variable {m : Mapping} {s : Staging}

theorem addObjects (h : s.Sound spelled) (depth : Nat) {level : List NestedEntity}
    (hlevel : spelled → ∀ e ∈ level, ∀ c ∈ e.columns.map Prod.snd, resolvedName resolved c ≠ "") :
    (s.addObjects m resolved depth level).Sound spelled := by
  have hstage : (objectStageOf m resolved depth level s.current).Sound spelled := by
    refine stage_sound (objectStage_ne depth) h.current_ne (by simp) ?_ (by simp)
    refine List.forall_mem_cons.mpr
      ⟨.bare Expr.allSound_star, List.forall_mem_map.mpr fun e he => ?_⟩
    exact .named_as (guardedObject_sound _ fun hs => hlevel hs e he) (isStar_guardedObject e _)
      (by simp [objectColumn])
  refine ⟨?_, objectStage_ne depth, fun hs => (h.columns hs).append ?_⟩
  · exact List.forall_mem_append.mpr ⟨h.stages, List.forall_mem_singleton.mpr hstage⟩
  · exact List.forall_mem_map.mpr fun e _ => by simp [objectColumn]

theorem addArray (h : s.Sound spelled) (e : NestedEntity) :
    (s.addArray m resolved e).Sound spelled := by
  have hkeep : spelled →
      AreNames (s.columns.filter fun c => !nameIn c (subtreeColumns m resolved e)) :=
    fun hs c hc => h.columns hs c (List.mem_filter.mp hc).1
  have hstage : (arrayStageOf e (s.columns.filter fun c => !nameIn c (subtreeColumns m resolved e))
      s.current).Sound spelled := by
    have hcollected : (collectedObjects e).AllSound spelled := collectedObjects_sound e
    refine stage_sound (by simp [arrayStage]) h.current_ne (by simp) ?_ ?_
    · refine List.forall_mem_append.mpr ⟨List.forall_mem_map.mpr fun c hc => ?_, ?_⟩
      · exact .bare (Expr.allSound_name fun hs => hkeep hs c hc)
      · exact List.forall_mem_singleton.mpr (.named_as hcollected rfl (by simp [arrayColumn]))
    · exact List.forall_mem_map.mpr fun c hc => Expr.allSound_name fun hs => hkeep hs c hc
  refine ⟨?_, by simp [Staging.addArray, arrayStage], fun hs => (hkeep hs).append ?_⟩
  · exact List.forall_mem_append.mpr ⟨h.stages, List.forall_mem_singleton.mpr hstage⟩
  · simp [AreNames, arrayColumn]

theorem foldl_addArray (h : s.Sound spelled) (es : List NestedEntity) :
    (es.foldl (Staging.addArray m resolved) s).Sound spelled := by
  induction es generalizing s with
  | nil => exact h
  | cons e es ih => exact ih (h.addArray e)

theorem addLevel (h : s.Sound spelled) (depth : Nat)
    (hcolumns : spelled → ∀ e ∈ m.nested, ∀ c ∈ e.columns.map Prod.snd,
      resolvedName resolved c ≠ "") :
    (s.addLevel m resolved depth).Sound spelled := by
  unfold Staging.addLevel
  dsimp only
  split
  · exact h
  · apply Staging.Sound.foldl_addArray
    exact h.addObjects depth fun hs e he => hcolumns hs e (List.mem_filter.mp he).1

theorem foldl_addLevel (h : s.Sound spelled) (depths : List Nat)
    (hcolumns : spelled → ∀ e ∈ m.nested, ∀ c ∈ e.columns.map Prod.snd,
      resolvedName resolved c ≠ "") :
    (depths.foldl (Staging.addLevel m resolved) s).Sound spelled := by
  induction depths generalizing s with
  | nil => exact h
  | cons depth depths ih => exact ih (h.addLevel depth hcolumns)

end Staging.Sound

/-! ## The whole statement -/

/-- **A staged document is sound** if the statement is, and the names of its CTEs differ. -/
theorem Statement.staged_sound {s : Statement} (hs : s.AllSound spelled) {m : Mapping}
    {origin : List String} (hroot : m.rootName ≠ "") (horigin : spelled → AreNames origin)
    (hresolve : resolveColumns origin m.columns = .ok resolved)
    (hdiffer : NamesDiffer ((s.staged m resolved origin).ctes.map Cte.name)) :
    (s.staged m resolved origin).AllSound spelled := by
  obtain ⟨⟨⟨-, -, hgroups⟩, hspelled⟩, hctes, hbody⟩ := Statement.allSound_iff.mp hs
  have hnamed : spelled → ∀ depth, ∀ c ∈ m.neededAt depth, resolvedName resolved c ≠ "" :=
    fun hs _ c hc => horigin hs _ (Mapping.resolves_of_resolveColumns hresolve hc).1
  have hstaging : (stagesOf m resolved origin).Sound spelled := by
    refine Staging.Sound.foldl_addLevel ⟨by simp, by simp [originStage], horigin⟩ _ ?_
    exact fun hs e he c hc => hnamed hs _ c (Mapping.mem_neededAt_of_nested he hc)
  have hfirst : Cte.Sound spelled ⟨originStage, [], ⟨none, s.body⟩⟩ := by
    refine ⟨Statement.allSound_iff.mpr ⟨⟨⟨by simp, ?_, hgroups⟩, fun _ => ?_⟩, ?_, hbody⟩,
      by simp [originStage], rfl⟩
    · simp [ctes, NamesDiffer]
    · simp [ctes, Statement.Spelled]
    · simp [ctes]
  have hlast : (rootStageOf m resolved (stagesOf m resolved origin).current).Sound spelled := by
    refine stage_sound (by simp [rootStage]) hstaging.current_ne (by simp) ?_ (by simp)
    refine List.forall_mem_singleton.mpr
      (.named_as (buildObject_sound _ fun hs c hc => ?_) rfl hroot)
    exact hnamed hs 0 c (Mapping.mem_neededAt.mpr (.inl hc))
  -- the clause of the result: the CTEs of the statement, its body as the first stage, the others
  have hmade : ∀ c ∈ ⟨originStage, [], ⟨none, s.body⟩⟩ :: (stagesOf m resolved origin).stages
      ++ [rootStageOf m resolved (stagesOf m resolved origin).current], c.Sound spelled :=
    List.forall_mem_append.mpr ⟨List.forall_mem_cons.mpr ⟨hfirst, hstaging.stages⟩,
      List.forall_mem_singleton.mpr hlast⟩
  have hall : (s.staged m resolved origin).ctes = s.ctes
      ++ (⟨originStage, [], ⟨none, s.body⟩⟩ :: (stagesOf m resolved origin).stages
        ++ [rootStageOf m resolved (stagesOf m resolved origin).current]) := by
    simp [staged, ctes]
  refine Statement.allSound_iff.mpr ⟨⟨⟨?_, hdiffer, trivial⟩, fun h => ?_⟩, ?_,
    documentSelect_sound m hroot⟩
  · simp [staged]
  · unfold Statement.Spelled
    rw [hall, List.forall_mem_append]
    refine ⟨hspelled h, fun c hc => ⟨(hmade c hc).name_ne, ?_⟩⟩
    simp [AreNames, (hmade c hc).columns_nil]
  · rw [hall, List.forall_mem_append]
    exact ⟨hctes, fun c hc => (hmade c hc).statement⟩

end Sql
