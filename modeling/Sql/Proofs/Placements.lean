import Mathlib.Data.List.Basic
import Mathlib.Tactic.Choose
import Sql.Filter.PushDown
import Sql.Proofs.Places
import Sql.Proofs.Results

/-!
# Where predicates go

What is known of the placements of a criterion, case by case: the predicate stays in the select at
hand, or it goes to every select that its column comes from (`placements_eq_ok`). Whatever holds of
a predicate in one select and passes on to the selects below holds of all placements
(`placements_induction`).
-/

namespace Sql

variable {lookup : Option Lookup} {pushDown : Bool} {key : String} {c : Criterion}

theorem collectAll_eq_ok {α β : Type} {f : α → Except Error (Option (List β))} {as : List α}
    {bs : List β} (h : collectAll f as = .ok (some bs)) :
    ∃ g : α → List β, bs = as.flatMap g ∧ ∀ a ∈ as, f a = .ok (some (g a)) := by
  let g (a : α) : List β := ((f a).toOption.bind id).getD []
  have hg : ∀ a bs, f a = .ok (some bs) → bs = g a := fun a bs ha => by
    simp [g, ha, Except.toOption]
  refine ⟨g, ?_⟩
  induction as generalizing bs with
  | nil =>
    obtain rfl := Option.some.inj (Except.ok.inj h)
    exact ⟨rfl, by simp⟩
  | cons a as ih =>
    obtain ⟨head, hhead, h⟩ := ok_of_bind h
    cases head with
    | none => simp [pure, Except.pure] at h
    | some head =>
      obtain ⟨tail, htail, h⟩ := ok_of_bind h
      cases tail with
      | none => simp [pure, Except.pure] at h
      | some tail =>
        obtain ⟨rfl, has⟩ := ih htail
        obtain rfl := Option.some.inj (Except.ok.inj h)
        obtain rfl := hg a head hhead
        exact ⟨rfl, List.forall_mem_cons.mpr ⟨hhead, has⟩⟩

theorem collectAll_eq_none {α β : Type} {f : α → Except Error (Option (List β))} {as : List α}
    (h : collectAll f as = .ok none) : ∃ a ∈ as, f a = .ok none := by
  induction as with
  | nil => simp [collectAll] at h
  | cons a as ih =>
    obtain ⟨head, hhead, h⟩ := ok_of_bind h
    cases head with
    | none => exact ⟨a, List.mem_cons_self, hhead⟩
    | some head =>
      obtain ⟨tail, htail, h⟩ := ok_of_bind h
      cases tail with
      | none =>
        obtain ⟨b, hb, hnone⟩ := ih htail
        exact ⟨b, List.mem_cons_of_mem _ hb, hnone⟩
      | some tail => simp [pure, Except.pure] at h

/-! ## One level down -/

theorem Producer.map_fst_targets (p : Producer) (position : Option Nat) :
    (p.targets position).map Prod.fst = p.statement.sites p.scope p.place := by
  unfold targets
  split
  · next hs => rw [hs, List.map_nil]
  · next s rest hs => rw [hs, List.map_cons, List.map_map]; simp [Function.comp_def]

theorem Producer.mem_sites_of_mem_targets {p : Producer} {position : Option Nat}
    {t : Site × Option Nat} (h : t ∈ p.targets position) :
    t.1 ∈ p.statement.sites p.scope p.place :=
  p.map_fst_targets position ▸ List.mem_map_of_mem h

/-- The targets of a column are the selects that the statement behind its source combines. -/
theorem pushTargets_eq_ok {site : Site} {e : Expr} {name : String}
    {targets : List (Site × Option Nat)}
    (h : pushTargets lookup site e = .ok (some (name, targets))) :
    ∃ column i p position, e = .column column ∧ column.name = name
      ∧ columnSource? lookup site column = .ok (some i) ∧ producer? site i name = some p
      ∧ p.columnPosition lookup name = .ok position ∧ targets = p.targets position := by
  unfold pushTargets at h
  split at h
  · next column =>
    obtain ⟨source, hsource, h⟩ := ok_of_bind h
    cases source with
    | none => simp [pure, Except.pure] at h
    | some i =>
      dsimp only at h
      split at h
      · simp [pure, Except.pure] at h
      · next p hp =>
        obtain ⟨position, hposition, h⟩ := ok_of_bind h
        obtain ⟨rfl, rfl⟩ := Prod.mk.inj (Option.some.inj (Except.ok.inj h))
        exact ⟨column, i, p, position, rfl, rfl, hsource, hp, hposition, rfl⟩
  · simp at h

/-- The selects that a column comes from stand at their places. -/
theorem pushTargets_stand {s : Statement} {site : Site} (hsite : site.StandsIn s) {e : Expr}
    {name : String} {targets : List (Site × Option Nat)}
    (h : pushTargets lookup site e = .ok (some (name, targets))) :
    ∀ t ∈ targets, t.1.StandsIn s := by
  obtain ⟨column, i, p, position, -, -, -, hp, -, rfl⟩ := pushTargets_eq_ok h
  obtain ⟨hplace, hscope⟩ := producer?_stands hsite hp
  exact fun t ht =>
    Statement.sites_stand hscope hplace _ (Producer.mem_sites_of_mem_targets ht)

theorem requireIn_eq_ok {site : Site} {key : String} {position : Option Nat}
    {column : SelectableColumn} (h : requireIn lookup site key position = .ok column) :
    resolveIn lookup site key position = .ok (some column) := by
  obtain ⟨found, hfound, h⟩ := ok_of_bind h
  cases found with
  | none => simp at h
  | some found =>
    obtain rfl := Except.ok.inj h
    exact hfound

/-! ## The predicate of one criterion -/

/-- The predicate goes to the select itself. -/
def PlacedHere (key : String) (c : Criterion) (site : Site) (column : Expr)
    (ps : List Placement) : Prop :=
  ∃ e, c.predicate column key = .ok e ∧ ps = [⟨site.place, e, column.containsAggregate⟩]

/-- A select that the predicate may go on to: it has no LIMIT and no OFFSET, and the column is found
in it under that name without a window. -/
structure PassesOn (lookup : Option Lookup) (name : String) (t : Site × Option Nat)
    (inner : Expr) : Prop where
  unpaged : t.1.select.isPaged = false
  resolved : ∃ column, resolveIn lookup t.1 name t.2 = .ok (some column) ∧ column.expr = inner
  no_window : inner.containsWindow = false

theorem PassesOn.map_expr {name : String} {t : Site × Option Nat} {inner : Expr}
    {column : Option SelectableColumn} (h : PassesOn lookup name t inner)
    (hcolumn : resolveIn lookup t.1 name t.2 = .ok column) :
    column.map SelectableColumn.expr = some inner := by
  obtain ⟨-, ⟨column', hcolumn', rfl⟩, -⟩ := h
  rw [Except.ok.inj (hcolumn.symm.trans hcolumn'), Option.map_some]

theorem PassesOn.unique {name : String} {t : Site × Option Nat} {e e' : Expr}
    (h : PassesOn lookup name t e) (h' : PassesOn lookup name t e') : e = e' := by
  obtain ⟨-, ⟨column, hcolumn, rfl⟩, -⟩ := h
  exact Option.some.inj (h'.map_expr hcolumn)

/-- The predicate goes on to all selects that the column comes from. -/
def PlacedBelow (lookup : Option Lookup) (key : String) (c : Criterion) (site : Site)
    (column : Expr) (ps : List Placement) : Prop :=
  ∃ name targets, ∃ (inner : Site × Option Nat → Expr) (placed : Site × Expr → List Placement),
    pushTargets lookup site column = .ok (some (name, targets))
      ∧ (∀ t ∈ targets, PassesOn lookup name t (inner t)
        ∧ placements lookup true key c t.1 (inner t) = .ok (placed (t.1, inner t)))
      ∧ ps = targets.flatMap fun t => placed (t.1, inner t)

/-- What keeps the predicate in the select: the column is an aggregate, it comes from no subquery or
CTE, or one of the selects that it comes from cannot take the predicate. -/
inductive Stays (lookup : Option Lookup) (site : Site) (column : Expr) : Prop
  | aggregate : column.containsAggregate = true → Stays lookup site column
  | unfollowed : pushTargets lookup site column = .ok none → Stays lookup site column
  | blocked {name : String} {targets : List (Site × Option Nat)} {t : Site × Option Nat} :
      pushTargets lookup site column = .ok (some (name, targets)) → t ∈ targets →
        (∀ inner, ¬ PassesOn lookup name t inner) → Stays lookup site column

theorem placeHere_eq_ok {site : Site} {column : Expr} {ps : List Placement}
    (h : placeHere site column key c = .ok ps) : PlacedHere key c site column ps := by
  obtain ⟨e, he, h⟩ := ok_of_bind h
  exact ⟨e, he, (Except.ok.inj h).symm⟩

/-- A target takes the predicate over one expression, or it cannot take it over any. -/
theorem placedInTarget_eq_ok {name : String} {t : Site × Option Nat}
    {place : Expr → Except Error (List Placement)} {r : Option (List Placement)}
    (h : (if t.1.select.isPaged then .ok none else do
      match ← resolveIn lookup t.1 name t.2 with
      | none => return none
      | some inner =>
        if inner.expr.containsWindow then return none
        else return some (← place inner.expr)) = .ok r) :
    (∃ inner ps, r = some ps ∧ PassesOn lookup name t inner ∧ place inner = .ok ps)
      ∨ r = none ∧ ∀ inner, ¬ PassesOn lookup name t inner := by
  split at h
  · next hpaged =>
    refine .inr ⟨(Except.ok.inj h).symm, fun inner hpasses => ?_⟩
    exact Bool.false_ne_true (hpasses.unpaged.symm.trans hpaged)
  next hunpaged =>
  obtain ⟨column, hcolumn, h⟩ := ok_of_bind h
  cases column with
  | none =>
    refine .inr ⟨(Except.ok.inj h).symm, fun inner hpasses => ?_⟩
    simpa using hpasses.map_expr hcolumn
  | some column =>
    dsimp only at h
    split at h
    · next hwindow =>
      refine .inr ⟨(Except.ok.inj h).symm, fun inner hpasses => ?_⟩
      obtain rfl := Option.some.inj (hpasses.map_expr hcolumn)
      exact Bool.false_ne_true (hpasses.no_window.symm.trans hwindow)
    · next hwindow =>
      obtain ⟨ps, hps, h⟩ := ok_of_bind h
      exact .inl ⟨column.expr, ps, (Except.ok.inj h).symm, ⟨by simpa using hunpaged,
        ⟨column, hcolumn, rfl⟩, by simpa using hwindow⟩, hps⟩

/-- If every target takes the predicate, it goes on. -/
theorem placedBelow_of_forall {site : Site} {column : Expr} {name : String}
    {targets : List (Site × Option Nat)} {found : { t // t ∈ targets } → List Placement}
    (h : pushTargets lookup site column = .ok (some (name, targets)))
    (hfound : ∀ t, ∃ inner, PassesOn lookup name t.1 inner
      ∧ placements lookup true key c t.1.1 inner = .ok (found t)) :
    PlacedBelow lookup key c site column (targets.attach.flatMap found) := by
  have htarget : ∀ t (ht : t ∈ targets), ∃ inner, PassesOn lookup name t inner
      ∧ placements lookup true key c t.1 inner = .ok (found ⟨t, ht⟩) := fun t ht => hfound ⟨t, ht⟩
  have hexpr : Nonempty Expr := ⟨.null⟩
  choose! inner hpasses hplaced using htarget
  -- a target is given with its membership, what is placed in it depends on the select only
  let placed (b : Site × Expr) := (placements lookup true key c b.1 b.2).toOption.getD []
  have heq : ∀ t (ht : t ∈ targets), found ⟨t, ht⟩ = placed (t.1, inner t) := fun t ht => by
    simp [placed, hplaced t ht, Except.toOption]
  refine ⟨name, targets, inner, placed, h,
    fun t ht => ⟨hpasses t ht, heq t ht ▸ hplaced t ht⟩, ?_⟩
  calc targets.attach.flatMap found
      = targets.attach.flatMap fun t => placed (t.1.1, inner t.1) :=
        List.flatMap_congr fun t _ => heq t.1 t.2
    _ = (targets.attach.map Subtype.val).flatMap fun t => placed (t.1, inner t) := by
        rw [List.flatMap_map]
    _ = targets.flatMap fun t => placed (t.1, inner t) := by rw [List.attach_map_subtype_val]

/-- **One step of placing a predicate.** The column is no window function. The predicate stays, with
push-down only where something keeps it, or push-down takes it on. -/
theorem placements_eq_ok {site : Site} {column : Expr} {ps : List Placement}
    (h : placements lookup pushDown key c site column = .ok ps) :
    column.containsWindow = false
      ∧ ((pushDown = true → Stays lookup site column) ∧ PlacedHere key c site column ps
        ∨ pushDown = true ∧ PlacedBelow lookup key c site column ps) := by
  rw [placements] at h
  split at h
  · simp at h
  next hwindow =>
  refine ⟨by simpa using hwindow, ?_⟩
  split at h
  · next hpush =>
    rw [Bool.and_eq_true] at hpush
    obtain ⟨rfl, -⟩ := hpush
    split at h
    · simp at h
    · next htargets => exact .inl ⟨fun _ => .unfollowed htargets, placeHere_eq_ok h⟩
    · next name targets htargets =>
      obtain ⟨below, hbelow, h⟩ := ok_of_bind h
      cases below with
      -- one of the selects below cannot take the predicate, so none of them does
      | none =>
        obtain ⟨⟨t, ht⟩, -, hnone⟩ := collectAll_eq_none hbelow
        obtain ⟨_, _, hsome, -⟩ | ⟨-, hblocked⟩ := placedInTarget_eq_ok hnone
        · simp at hsome
        · exact .inl ⟨fun _ => .blocked htargets ht hblocked, placeHere_eq_ok h⟩
      | some below =>
        obtain rfl := Except.ok.inj h
        obtain ⟨found, rfl, hfound⟩ := collectAll_eq_ok hbelow
        refine .inr ⟨rfl, placedBelow_of_forall htargets fun t => ?_⟩
        obtain ⟨inner, ps, hps, hpasses, hplaced⟩ | ⟨hnone, -⟩ :=
          placedInTarget_eq_ok (hfound t (List.mem_attach _ _))
        · exact ⟨inner, hpasses, Option.some.inj hps ▸ hplaced⟩
        · simp at hnone
  · next hpush =>
    refine .inl ⟨fun hpushed => .aggregate ?_, placeHere_eq_ok h⟩
    simpa [hpushed] using hpush

/-- **What passes on from select to select holds wherever a predicate is placed.** -/
theorem placements_induction {P : Site → Expr → Prop} {Q : Placement → Prop}
    (hhere : ∀ site column e, P site column → column.containsWindow = false →
      c.predicate column key = .ok e → Q ⟨site.place, e, column.containsAggregate⟩)
    (hbelow : ∀ site column name targets t inner, P site column →
      pushTargets lookup site column = .ok (some (name, targets)) → t ∈ targets →
        PassesOn lookup name t inner → P t.1 inner)
    (site : Site) (column : Expr) (hsite : P site column) {ps : List Placement}
    (h : placements lookup pushDown key c site column = .ok ps) : ∀ p ∈ ps, Q p := by
  obtain ⟨hwindow, ⟨-, e, he, rfl⟩ | ⟨hpush, hplaced⟩⟩ := placements_eq_ok h
  · intro p hp
    obtain rfl := List.mem_singleton.mp hp
    exact hhere site column e hsite hwindow he
  · intro p hp
    obtain ⟨name, targets, inner, placed, htargets, hplaced, rfl⟩ := hplaced
    obtain ⟨t, ht, hp⟩ := List.mem_flatMap.mp hp
    obtain ⟨hpasses, hps⟩ := hplaced t ht
    have hlt := pushTargets_weight_lt htargets ht
    exact placements_induction hhere hbelow t.1 (inner t)
      (hbelow site column name targets t _ hsite htargets ht hpasses) (hpush ▸ hps) p hp
termination_by site.weight
decreasing_by exact hlt

/-! ## All criteria -/

theorem mem_of_mem_distinctPlacements {p : Placement} {ps : List Placement}
    (h : p ∈ distinctPlacements ps) : p ∈ ps := by
  induction ps with
  | nil => simp [distinctPlacements] at h
  | cons q qs ih =>
    rw [distinctPlacements, List.mem_cons, List.mem_filter] at h
    rcases h with rfl | ⟨h, -⟩
    · exact List.mem_cons_self
    · exact List.mem_cons_of_mem _ (ih h)

/-- Where a name is looked for in one of the selects that a statement combines, by the number of the
select: by name in the first one, and in the others where the statement has its first column of that
name, if it has one. -/
inductive Statement.LooksAt (s : Statement) (lookup : Option Lookup) (scope : Scope)
    (name : String) : Nat → Option Nat → Prop
  | byName : LooksAt s lookup scope name 0 none
  | byPosition {i : Nat} {out : OutputColumns} :
      outputColumns lookup scope s = .ok out →
        LooksAt s lookup scope name (i + 1) (out.names.findIdx? fun n => sameName n name)

theorem Statement.LooksAt.unique {s : Statement} {scope : Scope} {name : String} {i : Nat}
    {p q : Option Nat} (hp : s.LooksAt lookup scope name i p)
    (hq : s.LooksAt lookup scope name i q) : p = q := by
  cases hp with
  | byName =>
    cases hq with
    | byName => rfl
  | byPosition hp =>
    cases hq with
    | byPosition hq => rw [Except.ok.inj (hp.symm.trans hq)]

/-- What a key is in the select with that number: the column that is found where the key is looked
for. -/
def Statement.FindsIn (s : Statement) (lookup : Option Lookup) (key : String) (i : Nat)
    (site : Site) (column : SelectableColumn) : Prop :=
  ∃ position, s.LooksAt lookup .empty key i position
    ∧ resolveIn lookup site key position = .ok (some column)

/-- The placements of a criterion, followed from the select with that number. -/
def Statement.PlacesIn (s : Statement) (lookup : Option Lookup) (pushDown : Bool) (key : String)
    (c : Criterion) (i : Nat) (site : Site) (ps : List Placement) : Prop :=
  ∃ column, s.FindsIn lookup key i site column
    ∧ placements lookup pushDown key c site column.expr = .ok ps

theorem criterionPlacements_eq_ok {sites : List Site} {outputNames : List String}
    {ps : List Placement}
    (h : criterionPlacements lookup pushDown sites outputNames key c = .ok ps) :
    let position (i : Nat) := if i = 0 then none else outputNames.findIdx? fun n => sameName n key
    ∃ found : Site × Nat → List Placement, ps = sites.zipIdx.flatMap found
      ∧ ∀ i site, sites[i]? = some site →
          ∃ column, resolveIn lookup site key (position i) = .ok (some column)
            ∧ placements lookup pushDown key c site column.expr = .ok (found (site, i)) := by
  obtain ⟨pss, hpss, h⟩ := ok_of_bind h
  obtain ⟨found, rfl, hfound⟩ := exists_map_of_mapM hpss
  refine ⟨found, (Except.ok.inj h).symm, fun i site hsite => ?_⟩
  obtain ⟨column, hcolumn, hplaced⟩ :=
    ok_of_bind (hfound (site, i) (List.mk_mem_zipIdx_iff_getElem?.mpr hsite))
  exact ⟨column, requireIn_eq_ok hcolumn, hplaced⟩

/-- **The placements of all criteria.** They are those of each criterion in each of the selects that
the statement combines. Of placements that put the same predicate in the same place only the first
is carried out. -/
theorem Statement.criteriaPlacements_eq_ok {s : Statement} {criteria : List (String × Criterion)}
    {ps : List Placement} (h : s.criteriaPlacements lookup pushDown criteria = .ok ps) :
    ∃ found : String × Criterion → Site × Nat → List Placement,
      ps = distinctPlacements
        (criteria.flatMap fun kc => (s.sites .empty []).zipIdx.flatMap (found kc))
      ∧ ∀ key c, (key, c) ∈ criteria → ∀ i site, (s.sites .empty [])[i]? = some site →
          s.PlacesIn lookup pushDown key c i site (found (key, c) (site, i)) := by
  -- a criterion is looked up by name in the first select, by position in all others
  have hnames : ∃ outputNames, (∀ key i site, (s.sites .empty [])[i]? = some site →
      s.LooksAt lookup .empty key i
        (if i = 0 then none else outputNames.findIdx? fun n => sameName n key)) ∧ (do
      let found ← criteria.mapM fun (key, c) =>
        criterionPlacements lookup pushDown (s.sites .empty []) outputNames key c
      return distinctPlacements found.flatten) = .ok ps := by
    unfold criteriaPlacements at h
    dsimp only at h
    split at h
    · obtain ⟨outputNames, hout, h⟩ := ok_of_bind h
      refine ⟨outputNames, fun key i site _ => ?_, h⟩
      cases i with
      | zero => exact .byName
      | succ i =>
        cases hcolumns : outputColumns lookup .empty s with
        | error e => simp [hcolumns, Functor.map, Except.map] at hout
        | ok out =>
          rw [hcolumns] at hout
          obtain rfl := Except.ok.inj hout
          exact .byPosition hcolumns
    · -- there is no other select than the first
      next hlength =>
      refine ⟨_, fun key i site hsite => ?_, h⟩
      have hi := (List.getElem?_eq_some_iff.mp hsite).1
      obtain rfl : i = 0 := by omega
      exact .byName
  obtain ⟨outputNames, hlooks, h⟩ := hnames
  obtain ⟨pss, hpss, h⟩ := ok_of_bind h
  obtain ⟨all, rfl, hall⟩ := exists_map_of_mapM hpss
  have hfound : ∀ kc ∈ criteria, ∃ found : Site × Nat → List Placement,
      all kc = (s.sites .empty []).zipIdx.flatMap found
        ∧ ∀ i site, (s.sites .empty [])[i]? = some site →
          s.PlacesIn lookup pushDown kc.1 kc.2 i site (found (site, i)) := by
    intro kc hkc
    obtain ⟨found, heq, hfound⟩ := criterionPlacements_eq_ok (hall kc hkc)
    refine ⟨found, heq, fun i site hsite => ?_⟩
    obtain ⟨column, hcolumn, hplaced⟩ := hfound i site hsite
    exact ⟨column, ⟨_, hlooks kc.1 i site hsite, hcolumn⟩, hplaced⟩
  choose! found hfound using hfound
  refine ⟨found, ?_, fun key c hc => (hfound (key, c) hc).2⟩
  rw [← Except.ok.inj h, List.flatMap_def, List.map_congr_left fun kc hkc => (hfound kc hkc).1]

/-- **What filtering by criteria does.** The predicates of the placements of each criterion in each
of the selects that the statement combines are added, each once. -/
theorem Statement.filterBy_eq_ok {s t : Statement} {criteria : Criteria}
    (h : s.filterBy criteria pushDown lookup = .ok t) :
    ∃ found : String × Criterion → Site × Nat → List Placement,
      t = (distinctPlacements (criteria.active.flatMap fun kc =>
        (s.sites .empty []).zipIdx.flatMap (found kc))).foldl Placement.apply s
      ∧ ∀ key c, (key, c) ∈ criteria.active → ∀ i site, (s.sites .empty [])[i]? = some site →
          s.PlacesIn lookup pushDown key c i site (found (key, c) (site, i)) := by
  unfold filterBy at h
  dsimp only at h
  split at h
  · next hempty =>
    rw [List.isEmpty_iff.mp hempty]
    exact ⟨fun _ _ => [], (Except.ok.inj h).symm, by simp⟩
  · obtain ⟨columns, -, h⟩ := ok_of_bind h
    obtain ⟨ps, hps, h⟩ := ok_of_bind h
    obtain ⟨found, rfl, hfound⟩ := criteriaPlacements_eq_ok hps
    exact ⟨found, (Except.ok.inj h).symm, hfound⟩

/-- The same, by what is among the placements. -/
theorem Statement.filterBy_eq_placesIn {s t : Statement} {criteria : Criteria}
    (h : s.filterBy criteria pushDown lookup = .ok t) :
    ∃ all, t = (distinctPlacements all).foldl Placement.apply s
      ∧ (∀ p ∈ all, ∃ key c, (key, c) ∈ criteria.active
          ∧ ∃ i site, (s.sites .empty [])[i]? = some site
          ∧ ∃ qs, s.PlacesIn lookup pushDown key c i site qs ∧ p ∈ qs)
      ∧ ∀ key c, (key, c) ∈ criteria.active → ∀ i site, (s.sites .empty [])[i]? = some site →
          ∃ qs, s.PlacesIn lookup pushDown key c i site qs ∧ ∀ q ∈ qs, q ∈ all := by
  obtain ⟨found, rfl, hfound⟩ := filterBy_eq_ok h
  refine ⟨_, rfl, fun p hp => ?_, fun key c hc i site hsite => ?_⟩
  · obtain ⟨⟨key, c⟩, hc, hp⟩ := List.mem_flatMap.mp hp
    obtain ⟨⟨site, i⟩, hsite, hp⟩ := List.mem_flatMap.mp hp
    have hsite := List.mk_mem_zipIdx_iff_getElem?.mp hsite
    exact ⟨key, c, hc, i, site, hsite, _, hfound key c hc i site hsite, hp⟩
  · refine ⟨_, hfound key c hc i site hsite, fun q hq => List.mem_flatMap.mpr ⟨(key, c), hc, ?_⟩⟩
    exact List.mem_flatMap.mpr ⟨(site, i), List.mk_mem_zipIdx_iff_getElem?.mpr hsite, hq⟩

end Sql
