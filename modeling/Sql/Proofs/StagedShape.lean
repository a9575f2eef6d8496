import Sql.Proofs.DocumentCtes

/-!
# The shape of a staged document

* `Mapping.IsLevel` says what the stages of one depth are: an object stage with one item for every
  entity of the depth, then an array stage for every array among them. No depth between the first
  and the deepest one is empty (`Mapping.exists_at_depth`), so each has its stages.
* `ReadInTurn` says of stages that each reads the one before it and nothing else.
* `stagesOf_shape` puts both together over all depths.
-/

namespace Sql

/-! ## Stages that read one table -/

/-- Neither a statement nor a parameter stands in the expression. -/
def Expr.Closed (e : Expr) : Prop := ∀ x ∈ e.nodes, x.statement? = none ∧ x.param? = none

/-- A select reads a single table, and nothing in its expressions. -/
structure Select.ReadsOnly (q : Select) (input : String) : Prop where
  source : q.source = some (.table [] input none)
  joins : q.joins = []
  closed : ∀ e ∈ q.exprs, e.Closed

/-- A stage is one select, which reads a single table. -/
def Cte.ReadsOnly (c : Cte) (input : String) : Prop :=
  c.columns = [] ∧ ∃ q, c.statement = .ofSelect q ∧ q.ReadsOnly input

/-- Each stage reads the one before it: the first the input, and the output names the last. -/
inductive ReadInTurn : String → List Cte → String → Prop
  | nil (input : String) : ReadInTurn input [] input
  | cons {input output : String} {c : Cte} {cs : List Cte} :
      c.ReadsOnly input → ReadInTurn c.name cs output → ReadInTurn input (c :: cs) output

theorem ReadInTurn.append {a b c : String} {cs ds : List Cte} (h : ReadInTurn a cs b)
    (h' : ReadInTurn b ds c) : ReadInTurn a (cs ++ ds) c := by
  induction h with
  | nil _ => exact h'
  | cons hc _ ih => exact .cons hc (ih h')

theorem ReadInTurn.single {input : String} {c : Cte} (h : c.ReadsOnly input) :
    ReadInTurn input [c] c.name :=
  .cons h (.nil _)

/-! ## Generated expressions are closed -/

theorem Expr.closed_of_children {e : Expr} (hs : e.statement? = none) (hp : e.param? = none)
    (hchildren : ∀ c ∈ e.children, c.Closed) : e.Closed := by
  intro x hx
  rw [Expr.nodes_eq, List.mem_cons] at hx
  rcases hx with rfl | hx
  · exact ⟨hs, hp⟩
  · obtain ⟨c, hc, hx⟩ := List.mem_flatMap.mp hx
    exact hchildren c hc x hx

theorem Expr.closed_name (n : String) : (Expr.name n).Closed :=
  Expr.closed_of_children rfl rfl (by simp [Expr.name, Expr.children])

theorem Expr.closed_literal (l : Literal) : (Expr.literal l).Closed :=
  Expr.closed_of_children rfl rfl (by simp [Expr.children])

theorem Expr.closed_apply {f : String} {args : List Expr} (h : ∀ a ∈ args, a.Closed) :
    (Expr.apply f args).Closed :=
  Expr.closed_of_children rfl rfl (by simpa [Expr.apply, Expr.children] using h)

theorem Expr.closed_isNull {e : Expr} {negated : Bool} (h : e.Closed) :
    (Expr.isNull e negated).Closed :=
  Expr.closed_of_children rfl rfl (by simpa [Expr.children] using h)

variable {m : Mapping} {resolved : ResolvedColumns}

theorem closed_buildObject (columns : ColumnMap) (children : List NestedEntity) :
    (buildObject resolved columns children).Closed := by
  refine Expr.closed_apply fun a ha => ?_
  rcases List.mem_append.mp ha with ha | ha
  · obtain ⟨⟨key, c⟩, -, ha⟩ := List.mem_flatMap.mp ha
    rcases List.mem_pair.mp ha with rfl | rfl
    · exact Expr.closed_literal _
    · exact Expr.closed_name _
  · obtain ⟨x, -, ha⟩ := List.mem_flatMap.mp ha
    rcases List.mem_pair.mp ha with rfl | rfl
    · exact Expr.closed_literal _
    · exact Expr.closed_name _

theorem closed_allNull? {columns : List String} {e : Expr}
    (he : allNull? resolved columns = some e) : e.Closed := by
  have hnull : ∀ c, (Expr.isNull (.name (resolvedName resolved c)) false).Closed :=
    fun c => Expr.closed_isNull (Expr.closed_name _)
  have hfold : ∀ (cs : List String) (e : Expr), e.Closed →
      (cs.foldl (fun e c => .and e (.isNull (.name (resolvedName resolved c)) false))
        e).Closed := by
    intro cs
    induction cs with
    | nil => exact fun e he => he
    | cons c cs ih =>
      intro e he
      refine ih _ (Expr.closed_of_children rfl rfl ?_)
      simpa [Expr.and, Expr.children] using ⟨he, hnull c⟩
  cases columns with
  | nil => simp [allNull?] at he
  | cons c cs =>
    obtain rfl := Option.some.inj he
    exact hfold cs _ (hnull c)

theorem closed_guardedObject (e : NestedEntity) (children : List NestedEntity) :
    (guardedObject resolved e children).Closed := by
  have hobject : (buildObject resolved e.columns children).Closed :=
    closed_buildObject e.columns children
  unfold guardedObject
  dsimp only
  split
  · next isNull hnull =>
    refine Expr.closed_of_children rfl rfl ?_
    have hisNull := closed_allNull? hnull
    simpa [Expr.children, Expr.null] using ⟨hisNull, Expr.closed_literal _, hobject⟩
  · exact hobject

theorem closed_orEmptyArray {e : Expr} (h : e.Closed) : (orEmptyArray e).Closed := by
  refine Expr.closed_apply fun a ha => ?_
  rcases List.mem_pair.mp ha with rfl | rfl
  · exact h
  · exact Expr.closed_of_children rfl rfl (List.forall_mem_singleton.mpr (Expr.closed_literal _))

theorem closed_collectedObjects (e : NestedEntity) : (collectedObjects e).Closed := by
  have hname := Expr.closed_name (objectColumn e.id)
  refine closed_orEmptyArray (Expr.closed_of_children rfl rfl ?_)
  simpa [Expr.children] using ⟨hname, Expr.closed_isNull hname⟩

/-! ## What each stage reads -/

theorem stage_readsOnly {name input : String} {items : List SelectItem} {groupBy : List Expr}
    (hitems : ∀ i ∈ items, i.expr.Closed) (hgroups : ∀ e ∈ groupBy, e.Closed) :
    (stage name items input groupBy).ReadsOnly input := by
  refine ⟨rfl, _, rfl, rfl, rfl, ?_⟩
  simpa [Select.exprs, Select.simple, or_imp, forall_and] using ⟨hitems, hgroups⟩

theorem objectStageOf_readsOnly (depth : Nat) (level : List NestedEntity) (input : String) :
    (objectStageOf m resolved depth level input).ReadsOnly input := by
  refine stage_readsOnly (List.forall_mem_cons.mpr ⟨?_, List.forall_mem_map.mpr fun e _ => ?_⟩)
    (List.forall_mem_nil _)
  · exact Expr.closed_of_children rfl rfl (List.forall_mem_nil _)
  · exact closed_guardedObject e _

theorem arrayStageOf_readsOnly (e : NestedEntity) (keep : List String) (input : String) :
    (arrayStageOf e keep input).ReadsOnly input := by
  have hkeep : ∀ c ∈ keep, (Expr.name c).Closed := fun c _ => Expr.closed_name c
  refine stage_readsOnly (List.forall_mem_append.mpr ⟨List.forall_mem_map.mpr hkeep, ?_⟩)
    (List.forall_mem_map.mpr hkeep)
  exact List.forall_mem_singleton.mpr (closed_collectedObjects e)

theorem rootStageOf_readsOnly (input : String) : (rootStageOf m resolved input).ReadsOnly input :=
  stage_readsOnly (List.forall_mem_singleton.mpr (closed_buildObject _ _)) (List.forall_mem_nil _)

theorem documentSelect_readsOnly (m : Mapping) :
    (documentSelect m).ReadsOnly (rootStage m.rootName) := by
  have hname : (Expr.name m.rootName).Closed := Expr.closed_name _
  unfold documentSelect
  dsimp only
  split
  · refine ⟨rfl, rfl, fun e he => ?_⟩
    obtain rfl : e = orEmptyArray (.apply "jsonb_agg" [.name m.rootName]) := by
      simpa [Select.exprs, Select.simple] using he
    exact closed_orEmptyArray (Expr.closed_apply (List.forall_mem_singleton.mpr hname))
  · refine ⟨rfl, rfl, fun e he => ?_⟩
    have hcases : e = .name m.rootName ∨ e = .literal (.number "1") := by
      simpa [Select.exprs, Select.simple, SelectItem.bare] using he
    rcases hcases with rfl | rfl
    · exact hname
    · exact Expr.closed_literal _

/-! ## The stages of one depth -/

/-- An object stage keeps what it reads and adds one item for each entity of its depth. -/
def Mapping.IsObjectStage (m : Mapping) (depth : Nat) (c : Cte) : Prop :=
  c.name = objectStage depth ∧ ∃ q objects, c.statement = .ofSelect q ∧ q.groupBy = []
    ∧ q.items = .bare (.star none) :: objects
    ∧ objects.map SelectItem.asName = (m.levelAt depth).map fun e => some (objectColumn e.id)

/-- An array stage has one aggregated item, and groups by the items that are not aggregated. -/
def IsArrayStage (e : NestedEntity) (c : Cte) : Prop :=
  c.name = arrayStage e.id ∧ ∃ q kept objects, c.statement = .ofSelect q
    ∧ q.items = kept ++ [⟨objects, some (arrayColumn e.id)⟩] ∧ objects.containsAggregate = true
    ∧ q.groupBy
      = (q.items.filter fun i => !i.expr.containsAggregate).map SelectItem.expr
    ∧ q.groupBy = kept.map SelectItem.expr

/-- The root stage has one item, the root object. -/
def Mapping.IsRootStage (m : Mapping) (c : Cte) : Prop :=
  c.name = rootStage m.rootName ∧ ∃ q object, c.statement = .ofSelect q ∧ q.groupBy = []
    ∧ q.items = [⟨object, some m.rootName⟩]

/-- The stages of a depth: one for the objects of its entities, then one for each array. -/
def Mapping.IsLevel (m : Mapping) (depth : Nat) (stages : List Cte) : Prop :=
  ∃ objects arrays, stages = objects :: arrays ∧ m.IsObjectStage depth objects
    ∧ List.Forall₂ IsArrayStage (m.arraysAt depth) arrays

theorem objectStageOf_isObjectStage (depth : Nat) (input : String) :
    m.IsObjectStage depth (objectStageOf m resolved depth (m.levelAt depth) input) := by
  refine ⟨rfl, _, _, rfl, rfl, rfl, ?_⟩
  rw [List.map_map]
  rfl

theorem containsAggregate_name (n : String) : (Expr.name n).containsAggregate = false := by
  rw [Expr.containsAggregate, Expr.nodes_eq]
  rfl

/-- The objects are collected by `jsonb_agg`, without a window. -/
theorem containsAggregate_collectedObjects (e : NestedEntity) :
    (collectedObjects e).containsAggregate = true := by
  have hagg : isAggregateFunction "jsonb_agg" = true := by decide +kernel
  rw [Expr.containsAggregate, List.any_eq_true]
  refine ⟨.call "jsonb_agg" [.name (objectColumn e.id)] false
    (some (.isNull (.name (objectColumn e.id)) true)) none, ?_, hagg⟩
  rw [collectedObjects, orEmptyArray, Expr.nodes_eq]
  refine List.mem_cons_of_mem _ (List.mem_flatMap.mpr ⟨_, List.mem_cons_self, ?_⟩)
  rw [Expr.nodes_eq]
  exact List.mem_cons_self

theorem arrayStageOf_isArrayStage (e : NestedEntity) (keep : List String) (input : String) :
    IsArrayStage e (arrayStageOf e keep input) := by
  refine ⟨rfl, _, keep.map fun c => .bare (.name c), _, rfl, rfl,
    containsAggregate_collectedObjects e, ?_, ?_⟩
  · show keep.map Expr.name = _
    have hkept : (keep.map fun c => SelectItem.bare (.name c)).filter
        (fun i => !i.expr.containsAggregate) = keep.map fun c => .bare (.name c) := by
      refine List.filter_eq_self.mpr (List.forall_mem_map.mpr fun c _ => ?_)
      rw [SelectItem.bare, containsAggregate_name]
      rfl
    rw [Select.simple, List.filter_append, hkept, List.filter_cons_of_neg, List.filter_nil,
      List.append_nil, List.map_map]
    · rfl
    · rw [containsAggregate_collectedObjects]
      exact Bool.false_ne_true
  · rw [List.map_map]
    rfl

/-! ## No depth is left out -/

namespace Mapping

/-- Between the root and the deepest entity no depth is empty. -/
theorem exists_at_depth (hm : m.IsTree) {depth : Nat} (h : depth ∈ m.depths) :
    ∃ e, e ∈ m.levelAt depth := by
  obtain ⟨hpos, hle⟩ := mem_depths.mp h
  obtain ⟨e, he, hdepth⟩ := exists_mem_depth hm hpos hle
  exact ⟨e, mem_levelAt.mpr ⟨he, hdepth⟩⟩

end Mapping

/-! ## The stages of all depths -/

namespace Staging

theorem addArray_shape (m : Mapping) (resolved : ResolvedColumns) (s : Staging)
    (e : NestedEntity) :
    ∃ c, (s.addArray m resolved e).stages = s.stages ++ [c] ∧ IsArrayStage e c
      ∧ c.ReadsOnly s.current ∧ c.name = (s.addArray m resolved e).current :=
  ⟨_, rfl, arrayStageOf_isArrayStage e _ s.current, arrayStageOf_readsOnly e _ s.current, rfl⟩

theorem foldl_addArray_shape (m : Mapping) (resolved : ResolvedColumns) (s : Staging)
    (es : List NestedEntity) :
    ∃ arrays, (es.foldl (addArray m resolved) s).stages = s.stages ++ arrays
      ∧ List.Forall₂ IsArrayStage es arrays
      ∧ ReadInTurn s.current arrays (es.foldl (addArray m resolved) s).current := by
  induction es generalizing s with
  | nil => exact ⟨[], (List.append_nil _).symm, .nil, .nil _⟩
  | cons e es ih =>
    obtain ⟨c, hadd, hc, hreads, hname⟩ := addArray_shape m resolved s e
    obtain ⟨arrays, hstages, hshape, hturn⟩ := ih (s.addArray m resolved e)
    refine ⟨c :: arrays, ?_, .cons hc hshape, .cons hreads (hname ▸ hturn)⟩
    rw [List.foldl_cons, hstages, hadd, List.append_assoc, List.singleton_append]

theorem addLevel_shape (resolved : ResolvedColumns) (s : Staging) {depth : Nat}
    (hne : ∃ e, e ∈ m.levelAt depth) :
    ∃ stages, (s.addLevel m resolved depth).stages = s.stages ++ stages
      ∧ m.IsLevel depth stages
      ∧ ReadInTurn s.current stages (s.addLevel m resolved depth).current := by
  have hlevel : s.addLevel m resolved depth = (m.arraysAt depth).foldl (addArray m resolved)
      (s.addObjects m resolved depth (m.levelAt depth)) := by
    have hempty : (m.levelAt depth).isEmpty = false := List.isEmpty_eq_false_iff_exists_mem.mpr hne
    rw [addLevel]
    exact if_neg (by rw [show (m.nested.filter fun e => m.depth e.id == depth) = m.levelAt depth
      from rfl, hempty]; exact Bool.false_ne_true)
  obtain ⟨arrays, hstages, hshape, hturn⟩ :=
    foldl_addArray_shape m resolved (s.addObjects m resolved depth (m.levelAt depth))
      (m.arraysAt depth)
  rw [hlevel]
  refine ⟨objectStageOf m resolved depth (m.levelAt depth) s.current :: arrays, ?_,
    ⟨_, arrays, rfl, objectStageOf_isObjectStage depth s.current, hshape⟩,
    .cons (objectStageOf_readsOnly depth _ _) hturn⟩
  rw [hstages, addObjects, List.append_assoc, List.singleton_append]

theorem foldl_addLevel_shape (s : Staging) {depths : List Nat}
    (hne : ∀ depth ∈ depths, ∃ e, e ∈ m.levelAt depth) :
    ∃ levels, (depths.foldl (addLevel m resolved) s).stages = s.stages ++ levels.flatten
      ∧ List.Forall₂ m.IsLevel depths levels
      ∧ ReadInTurn s.current levels.flatten (depths.foldl (addLevel m resolved) s).current := by
  induction depths generalizing s with
  | nil => exact ⟨[], (List.append_nil _).symm, .nil, .nil _⟩
  | cons depth depths ih =>
    obtain ⟨hdepth, hdepths⟩ := List.forall_mem_cons.mp hne
    obtain ⟨stages, hstages, hlevel, hturn⟩ := addLevel_shape resolved s hdepth
    obtain ⟨levels, hrest, hlevels, hturns⟩ := ih (s.addLevel m resolved depth) hdepths
    refine ⟨stages :: levels, ?_, .cons hlevel hlevels, hturn.append hturns⟩
    rw [List.foldl_cons, hrest, hstages, List.flatten_cons, List.append_assoc]

end Staging

/-- **All stages before the root:** each depth has its stages, and each stage reads the one before
it. -/
theorem stagesOf_shape (hm : m.IsTree) (origin : List String) :
    ∃ levels, (stagesOf m resolved origin).stages = levels.flatten
      ∧ List.Forall₂ m.IsLevel m.depths levels
      ∧ ReadInTurn originStage levels.flatten (stagesOf m resolved origin).current :=
  Staging.foldl_addLevel_shape ⟨[], originStage, origin⟩ fun _ h => Mapping.exists_at_depth hm h

end Sql
