import Sql.Proofs.PrintedParams
import Sql.Proofs.SoundFilter
import Sql.Proofs.Values

/-!
# Parameters of filtered statements

A predicate that is added at a place adds its parameters to those of the whole statement, and nothing
else changes (`Part.params_updateAt`). The parameters of a criterion's predicate are those of its
column, which the statement has already, and those of the criterion (`Predicate.mem_params`). So the
parameters of a filtered statement are known (`Statement.filterBy_mentions`).
-/

namespace Sql

/-! ## Parameters of parts -/

/-- The parameters of a part in printed order. -/
def Part.params : Part → List Param := Sum.elim Statement.params Body.params

theorem Body.mem_params_select {p : Param} {q : Select} :
    p ∈ (Body.select q).params ↔
      (∃ e ∈ q.exprs, p ∈ e.params) ∨ ∃ t ∈ q.sources, ∃ s ∈ t.statement?, p ∈ s.params := by
  simp only [Body.params_select, List.mem_flatMap, Sum.exists, Sum.elim_inl, Sum.elim_inr,
    Select.inl_mem_parts, Select.inr_mem_parts, Source.params_eq, Option.mem_toList,
    Option.mem_def]

theorem Body.mem_params_setOp {p : Param} {l r : Body} {op : SetOperator} :
    p ∈ (Body.setOp l op r).params ↔ p ∈ l.params ∨ p ∈ r.params := by
  rw [Body.params_setOp, List.mem_append]

theorem Statement.mem_params {p : Param} {s : Statement} :
    p ∈ s.params ↔ (∃ c ∈ s.ctes, p ∈ c.statement.params) ∨ p ∈ s.body.params := by
  rw [Statement.params_eq, List.mem_append, List.mem_flatMap]

theorem Expr.mem_params {p : Param} {e : Expr} :
    p ∈ e.params ↔ e.param? = some p ∨ (∃ x ∈ e.children, p ∈ x.params)
      ∨ ∃ s ∈ e.statement?, p ∈ s.params := by
  rw [Expr.params_eq, List.mem_append, List.mem_append, Option.mem_toList, List.mem_flatMap,
    List.mem_flatMap]
  simp

/-- What a step leads to has parameters of the part that it starts from. -/
theorem Part.params_next {n m : Part} {step : Step} (h : n.next step = some m) {p : Param}
    (hp : p ∈ m.params) : p ∈ n.params := by
  unfold next at h
  split at h
  · next s i =>
    obtain ⟨c, hc, rfl⟩ := Option.map_eq_some_iff.mp h
    exact Statement.mem_params.mpr (.inl ⟨c, List.mem_of_getElem? hc, hp⟩)
  · next s =>
    obtain rfl := Option.some.inj h
    exact Statement.mem_params.mpr (.inr hp)
  · next l op r =>
    obtain rfl := Option.some.inj h
    exact Body.mem_params_setOp.mpr (.inl hp)
  · next l op r =>
    obtain rfl := Option.some.inj h
    exact Body.mem_params_setOp.mpr (.inr hp)
  · next s =>
    obtain rfl := Option.some.inj h
    exact (congrArg (p ∈ ·) (Body.params_nested s)).mpr hp
  · next q i =>
    obtain ⟨s, hs, rfl⟩ := Option.map_eq_some_iff.mp h
    obtain ⟨t, ht, hs⟩ := Option.bind_eq_some_iff.mp hs
    exact Body.mem_params_select.mpr (.inr ⟨t, List.mem_of_getElem? ht, s, hs, hp⟩)
  · simp at h

theorem Part.params_follow {path : Path} {n m : Part} (h : n.follow path = some m) {p : Param}
    (hp : p ∈ m.params) : p ∈ n.params := by
  induction path generalizing n with
  | nil =>
    obtain rfl := Option.some.inj h
    exact hp
  | cons step path ih =>
    obtain ⟨k, hk, h⟩ := Option.bind_eq_some_iff.mp h
    exact Part.params_next hk (ih h)

/-! ## Adding a predicate -/

theorem exists_mem_modify {α : Type} {f : α → α} {P : α → Prop} {R : Prop} {xs : List α}
    {i : Nat} {x : α}
    (hx : xs[i]? = some x) (h : P (f x) ↔ P x ∨ R) :
    (∃ y ∈ xs.modify i f, P y) ↔ (∃ y ∈ xs, P y) ∨ R := by
  induction xs generalizing i with
  | nil => simp at hx
  | cons y xs ih =>
    cases i with
    | zero =>
      obtain rfl : y = x := by simpa using hx
      simp only [List.modify_zero_cons, List.exists_mem_cons_iff, h, or_right_comm]
    | succ i =>
      simp only [List.modify_succ_cons, List.exists_mem_cons_iff, ih (by simpa using hx), or_assoc]

variable {f : Select → Select} {R : Param → Prop}

/-- What a change adds to the parameters of one part, it adds to those of the part around it. -/
theorem Part.params_updateAt_cons {n m : Part} {step : Step} (hm : n.next step = some m)
    {path : Path} {p : Param} (h : p ∈ (m.updateAt f path).params ↔ p ∈ m.params ∨ R p) :
    p ∈ (n.updateAt f (step :: path)).params ↔ p ∈ n.params ∨ R p := by
  -- one case for each kind of step; what stands beside the step has its parameters as before
  unfold next at hm
  split at hm
  · next s i =>
    obtain ⟨c, hc, rfl⟩ := Option.map_eq_some_iff.mp hm
    have hbody : (s.updateAt f (.cte i :: path)).body = s.body := rfl
    show p ∈ (s.updateAt f (.cte i :: path)).params ↔ p ∈ s.params ∨ R p
    rw [Statement.mem_params, Statement.mem_params, Statement.ctes_updateAt, hbody,
      exists_mem_modify (P := fun c => p ∈ c.statement.params) hc h, or_right_comm]
  · next s =>
    obtain rfl := Option.some.inj hm
    show p ∈ (s.updateAt f (.body :: path)).params ↔ p ∈ s.params ∨ R p
    rw [Statement.mem_params, Statement.mem_params, or_assoc]
    exact or_congr_right h
  · next l op r =>
    obtain rfl := Option.some.inj hm
    show p ∈ (Body.setOp (l.updateAt f path) op r).params ↔ p ∈ (Body.setOp l op r).params ∨ R p
    rw [Body.mem_params_setOp, Body.mem_params_setOp, or_right_comm]
    exact or_congr_left h
  · next l op r =>
    obtain rfl := Option.some.inj hm
    show p ∈ (Body.setOp l op (r.updateAt f path)).params ↔ p ∈ (Body.setOp l op r).params ∨ R p
    rw [Body.mem_params_setOp, Body.mem_params_setOp, or_assoc]
    exact or_congr_right h
  · next s =>
    obtain rfl := Option.some.inj hm
    show p ∈ (Body.nested (s.updateAt f path)).params ↔ p ∈ (Body.nested s).params ∨ R p
    rw [Body.params_nested, Body.params_nested]
    exact h
  · next q i =>
    obtain ⟨s, hs, rfl⟩ := Option.map_eq_some_iff.mp hm
    obtain ⟨t, ht, hs⟩ := Option.bind_eq_some_iff.mp hs
    show p ∈ (Body.select
        (q.updateSource i (Source.updateStatement (Statement.updateAt f path)))).params
      ↔ p ∈ (Body.select q).params ∨ R p
    have hsource : (∃ s' ∈ (t.updateStatement (Statement.updateAt f path)).statement?,
        p ∈ s'.params) ↔ (∃ s' ∈ t.statement?, p ∈ s'.params) ∨ R p := by
      cases t with
      | table path name asName => simp [Source.statement?] at hs
      | subquery s' asName =>
        obtain rfl := Option.some.inj hs
        have h' : p ∈ (s'.updateAt f path).params ↔ p ∈ s'.params ∨ R p := h
        simpa [Source.updateStatement, Source.statement?] using h'
    rw [Body.mem_params_select, Body.mem_params_select, Select.exprs_updateSource,
      Select.sources_updateSource,
      exists_mem_modify (P := fun t : Source => ∃ s ∈ t.statement?, p ∈ s.params) ht hsource,
      or_assoc]
  · simp at hm

theorem Part.params_updateAt {n : Part} {path : Path} {q : Select}
    (hq : n.follow path = some (.inr (.select q))) {p : Param}
    (h : p ∈ (Body.select (f q)).params ↔ p ∈ (Body.select q).params ∨ R p) :
    p ∈ (n.updateAt f path).params ↔ p ∈ n.params ∨ R p := by
  induction path generalizing n with
  | nil =>
    obtain rfl := Option.some.inj hq
    exact h
  | cons step path ih =>
    obtain ⟨m, hm, hq⟩ := Option.bind_eq_some_iff.mp hq
    exact params_updateAt_cons hm (ih hq)

/-! ## Conditions -/

theorem Expr.mem_params_binary {p : Param} {l r : Expr} {op : BinaryOp} :
    p ∈ (Expr.binary l op r).params ↔ p ∈ l.params ∨ p ∈ r.params := by
  rw [Expr.mem_params]
  simp [Expr.param?, Expr.children, Expr.statement?]

theorem Expr.mem_params_paren {p : Param} {e : Expr} : p ∈ (Expr.paren e).params ↔ p ∈ e.params := by
  rw [Expr.mem_params]
  simp [Expr.param?, Expr.children, Expr.statement?]

theorem mem_params_guardOr {p : Param} {e : Expr} : p ∈ (guardOr e).params ↔ p ∈ e.params := by
  unfold guardOr
  split
  · exact Expr.mem_params_paren
  · rfl

theorem mem_params_guardJunction {p : Param} {e : Expr} :
    p ∈ (guardJunction e).params ↔ p ∈ e.params := by
  unfold guardJunction
  split
  · exact Expr.mem_params_paren
  · exact Expr.mem_params_paren
  · rfl

theorem mem_params_conjoin {p : Param} {existing : Option Expr} {extra : Expr} :
    p ∈ (conjoin existing extra).params ↔ (∃ e ∈ existing, p ∈ e.params) ∨ p ∈ extra.params := by
  cases existing with
  | none => simp [conjoin]
  | some e =>
    rw [conjoin, Expr.and, Expr.mem_params_binary, mem_params_guardOr, mem_params_guardJunction]
    simp

/-- A select whose list and FROM clause stay has the parameters of these and of its other clauses. -/
theorem Select.mem_params_of_from {p : Param} {q r : Select} {R : Prop} (hitems : r.items = q.items)
    (hsource : r.source = q.source) (hjoins : r.joins = q.joins)
    (htail : (∃ e ∈ r.tailExprs, p ∈ e.params) ↔ (∃ e ∈ q.tailExprs, p ∈ e.params) ∨ R) :
    p ∈ (Body.select r).params ↔ p ∈ (Body.select q).params ∨ R := by
  have hsources : r.sources = q.sources := by rw [sources, sources, hsource, hjoins]
  simp only [Body.mem_params_select, Select.exprs_eq, List.mem_append, or_and_right, exists_or,
    hitems, hjoins, hsources, htail]
  exact Iff.of_eq (by ac_rfl)

theorem Select.mem_params_addFilter {p : Param} {q : Select} {e : Expr} :
    p ∈ (Body.select (q.addFilter e)).params ↔ p ∈ (Body.select q).params ∨ p ∈ e.params := by
  refine Select.mem_params_of_from rfl rfl rfl ?_
  simp only [addFilter, tailExprs, Option.toList_some, List.mem_append, List.mem_singleton,
    or_and_right, exists_or, exists_eq_left, mem_params_conjoin, Option.mem_toList, Option.mem_def]
  exact Iff.of_eq (by ac_rfl)

theorem Select.mem_params_addHaving {p : Param} {q : Select} {e : Expr} :
    p ∈ (Body.select (q.addHaving e)).params ↔ p ∈ (Body.select q).params ∨ p ∈ e.params := by
  refine Select.mem_params_of_from rfl rfl rfl ?_
  simp only [addHaving, tailExprs, Option.toList_some, List.mem_append, List.mem_singleton,
    or_and_right, exists_or, exists_eq_left, mem_params_conjoin, Option.mem_toList, Option.mem_def]
  exact Iff.of_eq (by ac_rfl)

/-! ## Placements -/

/-- The placement is meant for a select that is there. -/
def Placement.Hits (pl : Placement) (s : Statement) : Prop := (s.selectAt? pl.place).isSome

/-- **A predicate that is added adds its parameters.** -/
theorem Placement.mem_params_apply {p : Param} {pl : Placement} {s : Statement} (h : pl.Hits s) :
    p ∈ (pl.apply s).params ↔ p ∈ s.params ∨ p ∈ pl.predicate.params := by
  obtain ⟨q, hq⟩ := Option.isSome_iff_exists.mp h
  refine Part.params_updateAt (R := fun p => p ∈ pl.predicate.params)
    (Statement.selectAt?_eq_some.mp hq) ?_
  split
  · exact Select.mem_params_addHaving
  · exact Select.mem_params_addFilter

/-- A predicate that is added leaves every select at its place. -/
theorem Placement.Hits.apply {pl pl' : Placement} {s : Statement} (h : pl.Hits s) :
    pl.Hits (pl'.apply s) := by
  obtain ⟨q, hq⟩ := Option.isSome_iff_exists.mp h
  have hsources : ∀ q : Select, (if pl'.having then q.addHaving pl'.predicate
      else q.addFilter pl'.predicate).sources = q.sources := by
    intro q
    split <;> rfl
  obtain ⟨path, hpath⟩ := Part.follow_updateAt hsources pl'.place (Statement.selectAt?_eq_some.mp hq)
  have hselect : ∃ r, Body.updateAt (fun q => if pl'.having then q.addHaving pl'.predicate
      else q.addFilter pl'.predicate) path (.select q) = .select r := by
    unfold Body.updateAt
    split <;> simp_all
  obtain ⟨r, hr⟩ := hselect
  refine Option.isSome_iff_exists.mpr ⟨r, Statement.selectAt?_eq_some.mpr ?_⟩
  rw [← hr]
  exact hpath

theorem mem_params_foldl_apply {p : Param} {ps : List Placement} {s : Statement}
    (h : ∀ pl ∈ ps, pl.Hits s) : p ∈ (ps.foldl Placement.apply s).params ↔
      p ∈ s.params ∨ ∃ pl ∈ ps, p ∈ pl.predicate.params := by
  induction ps generalizing s with
  | nil => simp
  | cons pl ps ih =>
    obtain ⟨hpl, hps⟩ := List.forall_mem_cons.mp h
    rw [List.foldl_cons, ih fun pl' hpl' => (hps pl' hpl').apply, Placement.mem_params_apply hpl,
      List.exists_mem_cons_iff, or_assoc]

/-! ## Predicates of criteria -/

theorem Expr.mem_params_param {p q : Param} : p ∈ (Expr.param q).params ↔ p = q := by
  rw [Expr.mem_params]
  simp [Expr.param?, Expr.children, Expr.statement?, eq_comm]

/-- **A predicate has the parameters of its column and those of its criterion.** -/
theorem Predicate.mem_params {column e : Expr} {bs : List (String × Value)}
    (h : Predicate column bs e) {p : Param} :
    p ∈ e.params ↔ p ∈ column.params ∨ ∃ b ∈ bs, p = bindingParam b := by
  cases h with
  | missing =>
    rw [Expr.mem_params]
    simp [Expr.param?, Expr.children, Expr.statement?]
  | compare => simp [Expr.mem_params_binary, Expr.mem_params_param]
  | within =>
    simp only [Expr.and, Expr.mem_params_binary, Expr.mem_params_param, List.exists_mem_cons_iff]
    simp only [List.not_mem_nil, false_and, exists_false, or_false]
    tauto
  | listed =>
    rw [Expr.mem_params]
    simp [Expr.param?, Expr.children, Expr.statement?, Expr.mem_params_param]

/-- The expression of a column is one of its select, or a bare column. -/
theorem resolveIn_params {lookup : Option Lookup} {site : Site} {key : String}
    {position : Option Nat} {column : SelectableColumn}
    (h : resolveIn lookup site key position = .ok (some column)) {p : Param}
    (hp : p ∈ column.expr.params) : p ∈ (Body.select site.select).params := by
  have hitem : ∀ item ∈ site.select.items, p ∈ item.expr.params →
      p ∈ (Body.select site.select).params := fun item hitem hp =>
    Body.mem_params_select.mpr (.inl ⟨_, Select.item_mem_exprs hitem, hp⟩)
  have hbyName : resolveIn.byName lookup site key = .ok (some column) →
      p ∈ (Body.select site.select).params := by
    intro h
    -- what is found by name is an item, or a column of a source, which has no parameters
    obtain ⟨columns, hcolumns, h⟩ := ok_of_bind h
    have hfound : findColumn? columns key = some column := Except.ok.inj h
    obtain ⟨sources, -, hcolumns⟩ := ok_of_bind hcolumns
    rw [← Except.ok.inj hcolumns] at hfound
    have hmem := mem_of_mem_firstByName (List.mem_of_find?_eq_some hfound)
    rcases List.mem_append.mp hmem with hmem | hmem
    · obtain ⟨item, hlisted, heq⟩ := List.mem_filterMap.mp hmem
      obtain ⟨n, -, rfl⟩ := Option.map_eq_some_iff.mp heq
      exact hitem item hlisted hp
    · obtain ⟨t, -, hmem⟩ := List.mem_flatMap.mp hmem
      obtain ⟨n, -, rfl⟩ := List.mem_map.mp hmem
      have hnone : ∀ c : ColumnRef, p ∉ (Expr.column c).params := by
        intro c
        rw [Expr.mem_params]
        simp [Expr.param?, Expr.children, Expr.statement?]
      dsimp only at hp
      split at hp
      · exact absurd hp (hnone _)
      · exact absurd hp (hnone _)
  unfold resolveIn at h
  split at h
  · next item hposition =>
    split at h
    · exact hbyName h
    · obtain rfl := Option.some.inj (Except.ok.inj h)
      obtain ⟨i, -, hi⟩ := Option.bind_eq_some_iff.mp hposition
      exact hitem item (List.mem_of_getElem? hi) hp
  · exact hbyName h

/-! ## Placed predicates -/

theorem Body.sites_ne_nil (b : Body) (scope : PlacedScope) (place : Path) :
    b.sites scope place ≠ [] := by
  fun_induction sites scope place b with
  | case1 => simp
  | case2 scope place l op r ihl ihr => exact List.append_ne_nil_of_left_ne_nil ihl _
  | case3 scope place w b ih => exact ih

theorem Producer.targets_ne_nil (p : Producer) (position : Option Nat) : p.targets position ≠ [] := by
  have hsites := p.statement.body.sites_ne_nil (p.scope.enter p.place p.statement)
    (p.place ++ [.body])
  unfold targets Statement.sites
  split
  · next h => exact absurd h hsites
  · simp

section

variable {lookup : Option Lookup} {pushDown : Bool} {key : String} {c : Criterion} {s : Statement}

/-- The placement is meant for a select of the statement, and its predicate is that of the criterion
over an expression that brings no parameters of its own. -/
structure Placement.Serves (pl : Placement) (s : Statement) (key : String) (c : Criterion) :
    Prop where
  hits : pl.Hits s
  predicate : ∃ column, Predicate column (c.bindings (paramBase key)) pl.predicate
    ∧ ∀ p ∈ column.params, p ∈ s.params

theorem serves_of_placements {site : Site} (hsite : site.StandsIn s) {column : Expr}
    (hcolumn : ∀ p ∈ column.params, p ∈ s.params) {ps : List Placement}
    (h : placements lookup pushDown key c site column = .ok ps) : ∀ pl ∈ ps, pl.Serves s key c := by
  refine placements_induction
    (P := fun site column => site.StandsIn s ∧ ∀ p ∈ column.params, p ∈ s.params)
    ?_ ?_ site column ⟨hsite, hcolumn⟩ h
  · intro site column e ⟨hsite, hcolumn⟩ _ he
    refine ⟨?_, column, Criterion.shape_of_predicate he, hcolumn⟩
    exact Option.isSome_iff_exists.mpr ⟨_, Statement.selectAt?_eq_some.mpr hsite.select⟩
  · intro site column name targets t inner ⟨hsite, _⟩ htargets ht hpasses
    have hstands := pushTargets_stand hsite htargets t ht
    obtain ⟨column, hresolved, rfl⟩ := hpasses.resolved
    exact ⟨hstands, fun p hp => Part.params_follow hstands.select (resolveIn_params hresolved hp)⟩

/-- A criterion is placed at least once for each select. -/
theorem placements_ne_nil {pushDown : Bool} (site : Site) (column : Expr) {ps : List Placement}
    (h : placements lookup pushDown key c site column = .ok ps) : ps ≠ [] := by
  obtain ⟨-, ⟨-, e, -, rfl⟩ | ⟨-, name, targets, inner, placed, htargets, hplaced, rfl⟩⟩ :=
    placements_eq_ok h
  · simp
  · have hne : targets ≠ [] := by
      obtain ⟨column, i, p, position, -, -, -, -, -, rfl⟩ := pushTargets_eq_ok htargets
      exact p.targets_ne_nil position
    obtain ⟨t, ht⟩ := List.exists_mem_of_ne_nil _ hne
    have hlt := pushTargets_weight_lt htargets ht
    obtain ⟨p, hp⟩ := List.exists_mem_of_ne_nil _ (placements_ne_nil t.1 (inner t) (hplaced t ht).2)
    exact List.ne_nil_of_mem (List.mem_flatMap.mpr ⟨t, ht, hp⟩)
termination_by site.weight
decreasing_by exact hlt

theorem Statement.PlacesIn.serves {i : Nat} {site : Site} {qs : List Placement}
    (hsite : (s.sites .empty [])[i]? = some site)
    (h : s.PlacesIn lookup pushDown key c i site qs) : ∀ pl ∈ qs, pl.Serves s key c := by
  obtain ⟨column, ⟨position, -, hcolumn⟩, hqs⟩ := h
  have hstands := s.rootSites_stand site (List.mem_of_getElem? hsite)
  exact serves_of_placements hstands
    (fun p hp => Part.params_follow hstands.select (resolveIn_params hcolumn hp)) hqs

theorem Statement.PlacesIn.ne_nil {i : Nat} {site : Site} {qs : List Placement}
    (h : s.PlacesIn lookup pushDown key c i site qs) : qs ≠ [] := by
  obtain ⟨column, -, hqs⟩ := h
  exact placements_ne_nil site column.expr hqs

end

/-! ## Values that arrive -/

/-- The predicate compares its column with the value, or one that is the same, under the name. -/
def Expr.Binds (e : Expr) (b : String × Value) : Prop :=
  ∃ v, Param.bound b.1 v ∈ e.compared ∧ b.2.same v = true

theorem Expr.Binds.of_same {a e : Expr} {b : String × Value} (h : a.Binds b)
    (hsame : a.same e = true) : e.Binds b := by
  obtain ⟨v, hv, hbv⟩ := h
  obtain ⟨i, hi, hget⟩ := List.mem_iff_getElem.mp hv
  have hrel := List.forall₂_iff_get.mp (Expr.compared_of_same hsame)
  have hi' : i < e.compared.length := hrel.1 ▸ hi
  have hp := hrel.2 i hi hi'
  rw [List.get_eq_getElem, List.get_eq_getElem, hget] at hp
  have hmem : e.compared[i] ∈ e.compared := List.getElem_mem hi'
  generalize e.compared[i] = p at hp hmem
  obtain ⟨name, value⟩ := p
  simp only [Param.same, Param.bound, Bool.and_eq_true, beq_iff_eq] at hp
  obtain ⟨rfl, hvalue⟩ := hp
  cases value with
  | none => simp [sameOption] at hvalue
  | some v' => exact ⟨v', hmem, Value.same_trans _ _ _ hbv hvalue⟩

/-- The values of a placement that is left out arrive with another one. -/
theorem exists_binds_of_distinctPlacements {b : String × Value} {q : Placement}
    {ps : List Placement} (hq : q ∈ ps) (h : q.predicate.Binds b) :
    ∃ p ∈ distinctPlacements ps, p.predicate.Binds b := by
  induction ps with
  | nil => simp at hq
  | cons p ps ih =>
    rw [distinctPlacements]
    rcases List.mem_cons.mp hq with rfl | hq
    · exact ⟨q, List.mem_cons_self, h⟩
    · obtain ⟨r, hr, hbinds⟩ := ih hq
      by_cases hsame : (r.place == p.place && r.predicate.same p.predicate) = true
      · rw [Bool.and_eq_true] at hsame
        exact ⟨p, List.mem_cons_self, hbinds.of_same hsame.2⟩
      · refine ⟨r, List.mem_cons_of_mem _ (List.mem_filter.mpr ⟨hr, ?_⟩), hbinds⟩
        rw [Bool.not_eq_true] at hsame
        rw [hsame]
        rfl

/-- What is mentioned in a filtered statement: the mentions of the statement, and bindings, of which
each is mentioned with its value or one that is the same. -/
structure Extends (ts ps : List Param) (bs : List (String × Value)) : Prop where
  kept : ∀ p ∈ ps, p ∈ ts
  new : ∀ p ∈ ts, p ∈ ps ∨ ∃ b ∈ bs, p = bindingParam b
  arrive : ∀ b ∈ bs, ∃ v, .bound b.1 v ∈ ts ∧ b.2.same v = true

/-- **What filtering by criteria does to the parameters.** Those of the statement stay, the only new
ones are those of the criteria, and every value of the criteria arrives. -/
theorem Statement.filterBy_mentions {s t : Statement} {criteria : Criteria} {pushDown : Bool}
    {lookup : Option Lookup} (h : s.filterBy criteria pushDown lookup = .ok t)
    (hcriteria : ∀ b ∈ criteria.bindings, b.2.WellKeyed) :
    Extends t.params s.params criteria.bindings := by
  obtain ⟨all, rfl, hfrom, hall⟩ := filterBy_eq_placesIn h
  have hserves : ∀ pl ∈ distinctPlacements all, ∃ key c, (key, c) ∈ criteria.active
      ∧ pl.Serves s key c := by
    intro pl hpl
    obtain ⟨key, c, hc, i, site, hsite, qs, hqs, hpl⟩ :=
      hfrom pl (mem_of_mem_distinctPlacements hpl)
    exact ⟨key, c, hc, hqs.serves hsite pl hpl⟩
  have hmem : ∀ p, p ∈ ((distinctPlacements all).foldl Placement.apply s).params ↔
      p ∈ s.params ∨ ∃ pl ∈ distinctPlacements all, p ∈ pl.predicate.params := by
    refine fun p => mem_params_foldl_apply fun pl hpl => ?_
    obtain ⟨key, c, -, hpl⟩ := hserves pl hpl
    exact hpl.hits
  refine ⟨fun p hp => (hmem p).mpr (.inl hp), fun p hp => ?_, fun b hb => ?_⟩
  · rcases (hmem p).mp hp with hp | ⟨pl, hpl, hp⟩
    · exact .inl hp
    · obtain ⟨key, c, hc, -, column, hpredicate, hcolumn⟩ := hserves pl hpl
      rcases hpredicate.mem_params.mp hp with hp | ⟨b, hb, rfl⟩
      · exact .inl (hcolumn p hp)
      · exact .inr ⟨b, List.mem_flatMap.mpr ⟨(key, c), hc, hb⟩, rfl⟩
  · obtain ⟨⟨key, c⟩, hc, hbc⟩ := List.mem_flatMap.mp hb
    -- the first select is enough: the criterion has a placement for it, or one like it
    have hsites := List.length_pos_iff.mpr (s.body.sites_ne_nil (.enter .empty [] s) [.body])
    obtain ⟨qs, hqs, hqsAll⟩ := hall key c hc 0 _ (List.getElem?_eq_getElem hsites)
    obtain ⟨q, hq⟩ := List.exists_mem_of_ne_nil _ hqs.ne_nil
    have hbinds : q.predicate.Binds b := by
      obtain ⟨column, hpredicate, -⟩ :=
        (hqs.serves (List.getElem?_eq_getElem hsites) q hq).predicate
      refine ⟨b.2, ?_, Value.same_refl _ (hcriteria b hb)⟩
      rw [hpredicate.compared_eq]
      exact List.mem_map_of_mem hbc
    obtain ⟨pl, hpl, v, hv, hsame⟩ := exists_binds_of_distinctPlacements (hqsAll q hq) hbinds
    obtain ⟨key', c', -, -, column, hpredicate, -⟩ := hserves pl hpl
    rw [hpredicate.compared_eq] at hv
    obtain ⟨b', hb', hbound⟩ := List.mem_map.mp hv
    have hparam := hpredicate.mem_params.mpr (.inr ⟨b', hb', hbound.symm⟩)
    exact ⟨v, (hmem _).mpr (.inr ⟨pl, hpl, hparam⟩), hsame⟩

end Sql
