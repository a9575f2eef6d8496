import Sql.Format
import Sql.Proofs.Placements

/-!
# How far predicates are pushed

With push-down a predicate leaves the select it is meant for and goes to where its column comes
from, one level at a time. A level is `GoesDown`: a bare column of a subquery, or of a CTE that is
not recursive, leads to one expression in each of the selects that the subquery or CTE combines, and
each of these selects must be able to take the predicate. So a predicate goes down to all of them
together, or it stays (`PushedDown`).

* `PushedDown.unique`: nothing else decides where predicates go.
* `Statement.filterBy_pushDown`: the predicates that are added are those of `PushedDown`, and each
  is at the end of a `Descent`.
* `pushDown_past_boundaries`: a window function for another column, an outer join and another reader
  of a CTE do not stop a descent.
-/

namespace Sql

variable {lookup : Option Lookup} {key : String} {c : Criterion}

/-! ## One level -/

/-- What a source of a select reads when a column of that name is asked for: the statement of a FROM
subquery, or that of a CTE which is not recursive and either lists no columns or lists this one. -/
inductive Site.Reads (site : Site) (i : Nat) (name : String) : Producer → Prop
  | subquery {s : Statement} {asName : String} :
      site.select.sources[i]? = some (.subquery s asName) →
        Reads site i name ⟨s, site.place ++ [.source i], site.scope, none⟩
  | cte {t : Source} {c : PlacedCte} {before : PlacedScope} {position : Option Nat} :
      site.select.sources[i]? = some t → site.scope.resolve? t = some (c, before) →
        c.entry.recursive = false → listedPosition? c.entry.cte.columns name = some position →
          Reads site i name ⟨c.entry.cte.statement, c.place, before, position⟩

theorem producer?_eq_some {site : Site} {i : Nat} {name : String} {p : Producer} :
    producer? site i name = some p ↔ site.Reads i name p := by
  constructor
  · intro h
    unfold producer? at h
    split at h
    · simp at h
    · next s asName hsource =>
      obtain rfl := Option.some.inj h
      exact .subquery hsource
    · next t ht hsource =>
      split at h
      · simp at h
      · next c before hresolve =>
        split at h
        · simp at h
        · next hrecursive =>
          obtain ⟨position, hposition, rfl⟩ := Option.map_eq_some_iff.mp h
          exact .cte hsource hresolve (Bool.eq_false_iff.mpr hrecursive) hposition
  · intro h
    cases h with
    | subquery hsource => simp [producer?, hsource]
    | @cte t c before position hsource hresolve hrecursive hposition =>
      cases t with
      | table => simp [producer?, hsource, hresolve, hrecursive, hposition]
      | subquery => simp [PlacedScope.resolve?] at hresolve

/-- Where a column of a producer is looked for in one of the selects it combines, by the number of
the select: in all of them where the CTE lists the column, if it lists its columns, else where the
statement has it. -/
inductive Producer.LooksAt (p : Producer) (lookup : Option Lookup) (name : String) (k : Nat) :
    Option Nat → Prop
  | listed {i : Nat} : p.position = some i → LooksAt p lookup name k (some i)
  | unlisted {position : Option Nat} : p.position = none →
      p.statement.LooksAt lookup p.scope.scope name k position → LooksAt p lookup name k position

theorem Producer.LooksAt.unique {p : Producer} {name : String} {k : Nat} {i j : Option Nat}
    (hi : p.LooksAt lookup name k i) (hj : p.LooksAt lookup name k j) : i = j := by
  cases hi with
  | listed hi =>
    cases hj with
    | listed hj => exact hi.symm.trans hj
    | unlisted hj => simp [hi] at hj
  | unlisted hi hlooks =>
    cases hj with
    | listed hj => simp [hi] at hj
    | unlisted _ hlooks' => exact hlooks.unique hlooks'

/-- The targets of a column have the position at which it is looked for. -/
theorem Producer.looksAt_of_targets {p : Producer} {name : String} {position : Option Nat}
    (hposition : p.columnPosition lookup name = .ok position) {k : Nat} {t : Site × Option Nat}
    (h : (p.targets position)[k]? = some t) : p.LooksAt lookup name k t.2 := by
  unfold targets at h
  split at h
  · simp at h
  next s rest hs =>
  unfold columnPosition at hposition
  rw [hs] at hposition
  cases k with
  | zero =>
    -- the first select keeps the position only where the CTE lists the column
    obtain rfl := Option.some.inj h
    split at hposition
    · next i hi =>
      obtain rfl := Except.ok.inj hposition
      simpa [hi] using LooksAt.listed hi
    · next hi => simpa [hi] using LooksAt.unlisted hi .byName
  | succ k =>
    -- there is another select than the first
    rw [List.getElem?_cons_succ, List.getElem?_map, Option.map_eq_some_iff] at h
    obtain ⟨s', hs', rfl⟩ := h
    have hlength := (List.getElem?_eq_some_iff.mp hs').1
    split at hposition
    · next i hi =>
      obtain rfl := Except.ok.inj hposition
      exact .listed hi
    · next hi =>
      rw [if_pos (by rw [List.length_cons]; omega)] at hposition
      obtain ⟨out, hout, hposition⟩ := ok_of_bind hposition
      obtain rfl := Except.ok.inj hposition
      exact .unlisted hi (.byPosition hout)

/-- A column of a select goes down to expressions of other selects: it is a bare column of a source
that reads a statement, and each of the selects that the statement combines has the expression where
the column is looked for and can take the predicate over it. -/
inductive GoesDown (lookup : Option Lookup) (site : Site) : Expr → List (Site × Expr) → Prop
  | column {column : ColumnRef} {i : Nat} {p : Producer} {below : List (Site × Expr)} :
      columnSource? lookup site column = .ok (some i) → site.Reads i column.name p →
        below.map Prod.fst = p.statement.sites p.scope p.place →
          (∀ k branch inner, below[k]? = some (branch, inner) → ∃ position,
            p.LooksAt lookup column.name k position
              ∧ PassesOn lookup column.name (branch, position) inner) →
            GoesDown lookup site (.column column) below

/-- A column leads to one expression in each select below. -/
theorem GoesDown.unique {site : Site} {e : Expr} {below below' : List (Site × Expr)}
    (h : GoesDown lookup site e below) (h' : GoesDown lookup site e below') : below = below' := by
  obtain ⟨hsource, hreads, hsites, hpasses⟩ := h
  obtain ⟨hsource', hreads', hsites', hpasses'⟩ := h'
  obtain rfl := Option.some.inj (Except.ok.inj (hsource.symm.trans hsource'))
  obtain rfl := Option.some.inj
    ((producer?_eq_some.mpr hreads).symm.trans (producer?_eq_some.mpr hreads'))
  -- both lead to the selects of one producer, so only the expressions could differ
  have hfst := hsites.trans hsites'.symm
  have hlength : below.length = below'.length := by simpa using congrArg List.length hfst
  refine List.ext_getElem hlength fun k hk hk' => ?_
  have hbranch : below[k].1 = below'[k].1 := by
    simpa [hk, hk'] using congrArg (fun sites => sites[k]?) hfst
  obtain ⟨i, hlooks, hinner⟩ := hpasses k _ _ (List.getElem?_eq_getElem hk)
  obtain ⟨j, hlooks', hinner'⟩ := hpasses' k _ _ (List.getElem?_eq_getElem hk')
  obtain rfl := hlooks.unique hlooks'
  exact Prod.ext hbranch (hinner.unique (hbranch ▸ hinner'))

/-- The selects below stand at their places. -/
theorem GoesDown.stand {s : Statement} {site : Site} (hsite : site.StandsIn s) {e : Expr}
    {below : List (Site × Expr)} (h : GoesDown lookup site e below) :
    ∀ b ∈ below, b.1.StandsIn s := by
  obtain ⟨-, hreads, hsites, -⟩ := h
  obtain ⟨hplace, hscope⟩ := producer?_stands hsite (producer?_eq_some.mpr hreads)
  exact fun b hb => Statement.sites_stand hscope hplace _ (hsites ▸ List.mem_map_of_mem hb)

/-- A column goes down to its targets, if all of them can take the predicate. -/
theorem goesDown_of_pushTargets {site : Site} {e : Expr} {name : String}
    {targets : List (Site × Option Nat)} {inner : Site × Option Nat → Expr}
    (h : pushTargets lookup site e = .ok (some (name, targets)))
    (hpasses : ∀ t ∈ targets, PassesOn lookup name t (inner t)) :
    GoesDown lookup site e (targets.map fun t => (t.1, inner t)) := by
  obtain ⟨column, i, p, position, rfl, rfl, hsource, hp, hposition, rfl⟩ := pushTargets_eq_ok h
  refine .column hsource (producer?_eq_some.mp hp) ?_ fun k branch e hk => ?_
  · rw [List.map_map]
    exact p.map_fst_targets position
  · rw [List.getElem?_map, Option.map_eq_some_iff] at hk
    obtain ⟨t, ht, heq⟩ := hk
    obtain ⟨rfl, rfl⟩ := Prod.mk.inj heq
    exact ⟨t.2, Producer.looksAt_of_targets hposition ht, hpasses t (List.mem_of_getElem? ht)⟩

/-- What keeps a predicate in a select is that its column does not go down. -/
theorem Stays.not_goesDown {site : Site} {e : Expr} (h : Stays lookup site e)
    (below : List (Site × Expr)) : ¬ GoesDown lookup site e below := by
  rintro @⟨column, i, p, below, hsource, hreads, hsites, hpasses⟩
  have hp := producer?_eq_some.mpr hreads
  cases h with
  | aggregate h => simp [Expr.containsAggregate, Expr.nodes_eq, Expr.children] at h
  | unfollowed h =>
    unfold pushTargets at h
    simp only [hsource, hp, bind, Except.bind] at h
    split at h <;> simp [pure, Except.pure] at h
  | @blocked name targets t htargets ht hblocked =>
    obtain ⟨column', i', p', position, hcolumn, rfl, hsource', hp', hposition, rfl⟩ :=
      pushTargets_eq_ok htargets
    obtain rfl := Expr.column.inj hcolumn
    obtain rfl := Option.some.inj (Except.ok.inj (hsource.symm.trans hsource'))
    obtain rfl := Option.some.inj (hp.symm.trans hp')
    -- the target that is blocked is one of the selects below
    obtain ⟨k, hk⟩ := List.mem_iff_getElem?.mp ht
    have hbranch : (below.map Prod.fst)[k]? = some t.1 := by
      rw [hsites, ← p.map_fst_targets position, List.getElem?_map, hk]
      rfl
    rw [List.getElem?_map, Option.map_eq_some_iff] at hbranch
    obtain ⟨⟨branch, inner⟩, hinner, rfl⟩ := hbranch
    obtain ⟨position', hlooks, hpasses⟩ := hpasses k t.1 inner hinner
    obtain rfl := hlooks.unique (Producer.looksAt_of_targets hposition hk)
    exact hblocked inner hpasses

/-! ## All levels -/

/-- The predicates of a criterion over a column of a select: one in the select itself, if the column
does not go down, else those over the expressions that it goes down to, in all selects below. -/
inductive PushedDown (lookup : Option Lookup) (key : String) (c : Criterion) :
    Site → Expr → List Placement → Prop
  | stays {site : Site} {column e : Expr} :
      (∀ below, ¬ GoesDown lookup site column below) → column.containsWindow = false →
        c.predicate column key = .ok e →
          PushedDown lookup key c site column [⟨site.place, e, column.containsAggregate⟩]
  | goes {site : Site} {column : Expr} {below : List (Site × Expr)}
      {placed : Site × Expr → List Placement} :
      GoesDown lookup site column below →
        (∀ b ∈ below, PushedDown lookup key c b.1 b.2 (placed b)) →
          PushedDown lookup key c site column (below.flatMap placed)

/-- **Where predicates go is decided by what columns go down to.** -/
theorem PushedDown.unique {site : Site} {column : Expr} {ps qs : List Placement}
    (h : PushedDown lookup key c site column ps) (h' : PushedDown lookup key c site column qs) :
    ps = qs := by
  -- the same case holds on both sides, since it is decided by `GoesDown`
  induction h generalizing qs with
  | stays hstays _ he =>
    cases h' with
    | stays _ _ he' => rw [Except.ok.inj (he.symm.trans he')]
    | goes hgoes' => exact absurd hgoes' (hstays _)
  | goes hgoes _ ih =>
    cases h' with
    | stays hstays' => exact absurd hgoes (hstays' _)
    | goes hgoes' hbelow' =>
      obtain rfl := hgoes.unique hgoes'
      exact List.flatMap_congr fun b hb => ih b hb (hbelow' b hb)

theorem pushedDown_of_placements (site : Site) (column : Expr) {ps : List Placement}
    (h : placements lookup true key c site column = .ok ps) :
    PushedDown lookup key c site column ps := by
  obtain ⟨hwindow, ⟨hstays, e, he, rfl⟩ | ⟨-, hplaced⟩⟩ := placements_eq_ok h
  · exact .stays (hstays rfl).not_goesDown hwindow he
  · obtain ⟨name, targets, inner, placed, htargets, hplaced, rfl⟩ := hplaced
    have hgoes := goesDown_of_pushTargets htargets fun t ht => (hplaced t ht).1
    rw [← List.flatMap_map (fun t => (t.1, inner t)) placed]
    refine .goes hgoes fun b hb => ?_
    obtain ⟨t, ht, rfl⟩ := List.mem_map.mp hb
    -- a producer stands in a smaller scope, or is a smaller statement
    have hlt := pushTargets_weight_lt htargets ht
    exact pushedDown_of_placements t.1 (inner t) (hplaced t ht).2
termination_by site.weight
decreasing_by exact hlt

/-! ## Predicates at the ends of descents -/

/-- A column of one select is followed to an expression of another one, level by level. -/
inductive Descent (lookup : Option Lookup) : Site → Expr → Site → Expr → Prop
  | here (site : Site) (e : Expr) : Descent lookup site e site e
  | down {site branch last : Site} {column inner e : Expr} {below : List (Site × Expr)} :
      GoesDown lookup site column below → (branch, inner) ∈ below →
        Descent lookup branch inner last e → Descent lookup site column last e

/-- A predicate stands at the end of a descent from a select of the statement, in HAVING when its
column is an aggregate there. -/
def Placement.EndsDescent (p : Placement) (lookup : Option Lookup) (s : Statement)
    (key : String) (c : Criterion) (root : Site) (column : Expr) : Prop :=
  ∃ site inner, Descent lookup root column site inner
    ∧ inner.containsWindow = false
    ∧ c.predicate inner key = .ok p.predicate
    ∧ p.having = inner.containsAggregate
    ∧ p.place = site.place
    ∧ s.selectAt? p.place = some site.select

theorem PushedDown.endsDescent {s : Statement} {site : Site} {column : Expr} {ps : List Placement}
    (h : PushedDown lookup key c site column ps) (hsite : site.StandsIn s) :
    ∀ p ∈ ps, p.EndsDescent lookup s key c site column := by
  induction h with
  | @stays site column e _ hwindow he =>
    intro p hp
    obtain rfl := List.mem_singleton.mp hp
    exact ⟨site, column, .here _ _, hwindow, he, rfl, rfl,
      Statement.selectAt?_eq_some.mpr hsite.select⟩
  | goes hgoes _ ih =>
    intro p hp
    obtain ⟨b, hb, hp⟩ := List.mem_flatMap.mp hp
    obtain ⟨last, inner, hdescent, hp⟩ := ih b hb (hgoes.stand hsite b hb) p hp
    exact ⟨last, inner, .down hgoes hb hdescent, hp⟩

/-- Each placement ends a descent; without push-down that is where it starts. -/
theorem endsDescent_of_placements {s : Statement} {root : Site} (hroot : root.StandsIn s)
    {column : Expr} {pushDown : Bool} {ps : List Placement}
    (h : placements lookup pushDown key c root column = .ok ps) :
    ∀ p ∈ ps, p.EndsDescent lookup s key c root column := by
  cases pushDown with
  | true => exact (pushedDown_of_placements root column h).endsDescent hroot
  | false =>
    obtain ⟨hwindow, ⟨-, e, he, rfl⟩ | ⟨hpush, -⟩⟩ := placements_eq_ok h
    · intro p hp
      obtain rfl := List.mem_singleton.mp hp
      exact ⟨root, column, .here _ _, hwindow, he, rfl, rfl,
        Statement.selectAt?_eq_some.mpr hroot.select⟩
    · simp at hpush

/-- **Where push-down leaves the predicates.** For every criterion and every select that the
statement combines, the predicates are those over the column that the key stands for in that select,
pushed down as far as the column goes. Each of them stands at the end of a descent. The predicates
of all criteria in all these selects are added, each once, and nothing else. -/
theorem Statement.filterBy_pushDown {s t : Statement} {criteria : Criteria}
    (h : s.filterBy criteria true lookup = .ok t) :
    ∃ found : String × Criterion → Site × Nat → List Placement,
      t = (distinctPlacements (criteria.active.flatMap fun kc =>
        (s.sites .empty []).zipIdx.flatMap (found kc))).foldl Placement.apply s
      ∧ ∀ key c, (key, c) ∈ criteria.active → ∀ i root, (s.sites .empty [])[i]? = some root →
          ∃ column, s.FindsIn lookup key i root column
            ∧ PushedDown lookup key c root column.expr (found (key, c) (root, i))
            ∧ ∀ p ∈ found (key, c) (root, i), p.EndsDescent lookup s key c root column.expr := by
  obtain ⟨found, ht, hfound⟩ := filterBy_eq_ok h
  refine ⟨found, ht, fun key c hc i root hroot => ?_⟩
  obtain ⟨column, hcolumn, hplaced⟩ := hfound key c hc i root hroot
  have hpushed := pushedDown_of_placements root column.expr hplaced
  exact ⟨column, hcolumn, hpushed,
    hpushed.endsDescent (s.rootSites_stand root (List.mem_of_getElem? hroot))⟩

/-- A filter of `n` in both operands of the CTE that `n` comes from. -/
theorem filterBy_pushDown_union :
    ∃ s t, parse ("with p as (select n from s union all select m from g) "
          ++ "select n from p") = .ok s
      ∧ s.filterBy ⟨[("n", .like "x%")]⟩ true none = .ok t
      ∧ (∃ out, t.format .generic = .ok out
        ∧ out.sql = "WITH p AS (SELECT n FROM s WHERE n LIKE :n_like "
          ++ "UNION ALL SELECT m FROM g WHERE m LIKE :n_like) SELECT n FROM p")
      ∧ ∃ found : String × Criterion → Site × Nat → List Placement,
        t = (distinctPlacements ((⟨[("n", .like "x%")]⟩ : Criteria).active.flatMap fun kc =>
          (s.sites .empty []).zipIdx.flatMap (found kc))).foldl Placement.apply s
        ∧ ∀ key c, (key, c) ∈ (⟨[("n", .like "x%")]⟩ : Criteria).active →
            ∀ i root, (s.sites .empty [])[i]? = some root →
              ∃ column, s.FindsIn none key i root column
                ∧ PushedDown none key c root column.expr (found (key, c) (root, i))
                ∧ ∀ p ∈ found (key, c) (root, i), p.EndsDescent none s key c root column.expr := by
  obtain ⟨s, hs, h⟩ := exists_ok_of_any
    (show (parse ("with p as (select n from s union all select m from g) "
        ++ "select n from p")).toOption.any
      (fun s => (s.filterBy ⟨[("n", .like "x%")]⟩ true none).toOption.any
        fun t => (t.format .generic).toOption.any fun out => out.sql ==
          "WITH p AS (SELECT n FROM s WHERE n LIKE :n_like "
          ++ "UNION ALL SELECT m FROM g WHERE m LIKE :n_like) SELECT n FROM p")
        = true by decide +kernel)
  obtain ⟨t, ht, h⟩ := exists_ok_of_any h
  obtain ⟨out, hout, h⟩ := exists_ok_of_any h
  exact ⟨s, t, hs, ht, ⟨out, hout, beq_iff_eq.mp h⟩, Statement.filterBy_pushDown ht⟩

/-! ## Boundaries that are not looked at -/

/-- A window function is computed in some clause of the select. -/
def Select.computesWindow (q : Select) : Bool := q.exprs.any Expr.containsWindow

/-- An outer join of the select fills up the source of that number with nulls. -/
def Select.isNullSupplied (q : Select) (i : Nat) : Bool :=
  q.joins.zipIdx.any fun (j, k) =>
    match j.kind with
    | .left => i == k + 1
    | .right => decide (i ≤ k)
    | .full => decide (i ≤ k + 1)
    | _ => false

/-- Filtering the statement of a text by a column adds a single predicate, to the select at that
place. -/
structure PushedTo (text key : String) (place : Path) (s : Statement) (q : Select) : Prop where
  parsed : parse text = .ok s
  filtered : ∃ p, p.place = place
    ∧ s.filterBy ⟨[(key, .equals (.nat 1))]⟩ true none = .ok (Placement.apply s p)
  leads : s.selectAt? place = some q

theorem exists_pushedTo {text key : String} {place : Path} {check : Statement → Select → Bool}
    (h : (parse text).toOption.any (fun s =>
      (requireColumns none s [key]).toOption.any fun _ =>
        (s.criteriaPlacements none true [(key, .equals (.nat 1))]).toOption.any fun ps =>
          decide (ps.map Placement.place = [place]) && (s.selectAt? place).any (check s)) = true) :
    ∃ s q, PushedTo text key place s q ∧ check s q = true := by
  obtain ⟨s, hs, h⟩ := exists_ok_of_any h
  obtain ⟨columns, hcolumns, h⟩ := exists_ok_of_any h
  obtain ⟨ps, hps, h⟩ := exists_ok_of_any h
  rw [Bool.and_eq_true, decide_eq_true_eq, Option.any_eq_true] at h
  obtain ⟨hplace, q, hq, hcheck⟩ := h
  obtain ⟨p, rfl, -⟩ := List.map_eq_singleton_iff.mp hplace
  refine ⟨s, q, ⟨hs, ⟨p, (List.cons.inj hplace).1, ?_⟩, hq⟩, hcheck⟩
  have hactive : (⟨[(key, .equals (.nat 1))]⟩ : Criteria).active = [(key, .equals (.nat 1))] := rfl
  unfold Statement.filterBy
  simp only [hactive, List.isEmpty_cons, Bool.false_eq_true, if_false, List.map_cons, List.map_nil,
    hcolumns, hps]
  rfl

/-- **A descent does not look at other columns, at joins or at other readers of a CTE.** The
predicate is pushed into a select that numbers its rows, into the optional side of a left join, and
into a CTE that is read a second time. -/
theorem pushDown_past_boundaries :
    (∃ s q, PushedTo "select id from (select id, rank() over () as r from t) s"
        "id" [.body, .source 0, .body] s q ∧ q.computesWindow = true)
      ∧ (∃ s q, PushedTo "select s.n from t left join (select n from u) s on t.m = s.n"
        "n" [.body, .source 1, .body] s q ∧ s.select?.any (fun root => root.isNullSupplied 1) = true)
      ∧ ∃ s q, PushedTo "with c as (select n from t) select a.n as m, b.n from c a, c b"
        "n" [.cte 0, .body] s q ∧ s.select?.any (fun root =>
          decide (root.sources.map Source.tableName = [some "c", some "c"])
            && decide (root.items.filterMap (fun i => i.expr.column?)
              = [⟨["a"], "n"⟩, ⟨["b"], "n"⟩])) = true :=
  ⟨@exists_pushedTo _ _ _ (fun _ q => q.computesWindow) (by decide +kernel),
    @exists_pushedTo _ _ _ (fun s _ => s.select?.any fun root => root.isNullSupplied 1)
      (by decide +kernel),
    @exists_pushedTo _ _ _ (fun s _ => s.select?.any fun root =>
      decide (root.sources.map Source.tableName = [some "c", some "c"])
        && decide (root.items.filterMap (fun i => i.expr.column?) = [⟨["a"], "n"⟩, ⟨["b"], "n"⟩]))
      (by decide +kernel)⟩

end Sql
