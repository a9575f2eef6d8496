import Sql.Filter.PushDown
import Sql.Proofs.Places

/-!
# Trees with predicates added

Placements are carried out one after the other, each by a walk to its place. The result is the tree
in which every select at a place has the predicates that are meant for it, and nothing else is
changed (`Statement.filteredBy`).

* `Statement.foldl_apply`: carrying out placements one by one is adding all predicates at once.
* `Statement.selectAt?_filteredBy`: what stands at a place afterwards.
-/

namespace Sql

/-! ## Changing all sources -/

/-- Change the source that is joined. -/
def Join.mapRight (f : Source → Source) (j : Join) : Join := { j with right := f j.right }

@[simp] theorem Join.mapRight_id (j : Join) : j.mapRight (fun t => t) = j := by cases j; rfl

/-- Change the sources by their numbers, counting a first source and then the joins. -/
def Select.mapSources (f : Nat → Source → Source) (q : Select) : Select :=
  { q with
    source := q.source.map (f 0)
    joins := q.joins.mapIdx fun i j => j.mapRight (f (q.source.toList.length + i)) }

section

variable {f g : Nat → Source → Source} {q : Select}

theorem mapIdx_congr {α β : Type} {f g : Nat → α → β} {xs : List α}
    (h : ∀ i x, xs[i]? = some x → f i x = g i x) : xs.mapIdx f = xs.mapIdx g := by
  refine List.ext_getElem? fun i => ?_
  rw [List.getElem?_mapIdx, List.getElem?_mapIdx]
  cases hx : xs[i]? with
  | none => rfl
  | some x => exact congrArg some (h i x hx)

theorem mapIdx_eq_self {α : Type} {f : Nat → α → α} {xs : List α}
    (h : ∀ i x, xs[i]? = some x → f i x = x) : xs.mapIdx f = xs :=
  (mapIdx_congr h).trans (List.ext_getElem? fun i => by simp [List.getElem?_mapIdx])

theorem Select.sources_mapSources : (q.mapSources f).sources = q.sources.mapIdx f := by
  have hjoins : ∀ n : Nat, (q.joins.mapIdx fun i j => j.mapRight (f (n + i))).map Join.right =
      (q.joins.map Join.right).mapIdx fun i t => f (n + i) t := by
    intro n
    refine List.ext_getElem? fun i => ?_
    simp only [List.getElem?_map, List.getElem?_mapIdx, Option.map_map]
    rfl
  unfold mapSources sources
  cases q.source with
  | none => simpa using hjoins 0
  | some t => simpa [List.mapIdx_cons, Nat.add_comm 1] using hjoins 1

/-- Only what is changed of the sources that are there matters. -/
theorem Select.mapSources_congr (h : ∀ i t, q.sources[i]? = some t → f i t = g i t) :
    q.mapSources f = q.mapSources g := by
  have hsource : q.source.map (f 0) = q.source.map (g 0) := by
    refine Option.map_congr fun t ht => h 0 t ?_
    rw [sources, Option.mem_def.mp ht]
    rfl
  have hright : ∀ i j, q.joins[i]? = some j →
      f (q.source.toList.length + i) j.right = g (q.source.toList.length + i) j.right := by
    intro i j hj
    refine h _ _ ?_
    rw [sources, List.getElem?_append_right (Nat.le_add_right _ _), Nat.add_sub_cancel_left,
      List.getElem?_map, hj]
    rfl
  rw [mapSources, mapSources, hsource,
    mapIdx_congr fun i j hj =>
      show j.mapRight _ = j.mapRight _ from congrArg (Join.mk j.kind · j.constraint) (hright i j hj)]

theorem Select.mapSources_id : q.mapSources (fun _ t => t) = q := by
  obtain ⟨distinct, items, source, joins, filter, groupBy, having, orderBy, limit, offset⟩ := q
  have hjoins : (joins.mapIdx fun _ j => j.mapRight fun t => t) = joins :=
    mapIdx_eq_self fun _ j _ => j.mapRight_id
  simp only [mapSources, hjoins, Option.map_id']

theorem Select.mapSources_mapSources :
    (q.mapSources f).mapSources g = q.mapSources fun i t => g i (f i t) := by
  simp only [mapSources, Option.map_map, List.mapIdx_mapIdx]
  cases q.source <;> rfl

/-- WHERE and HAVING are not among the sources. -/
theorem Select.mapSources_filters (filter having : Option Expr) :
    ({ q with filter := filter, having := having } : Select).mapSources f =
      { q.mapSources f with filter := filter, having := having } := rfl

/-- Changing the source of one number. -/
theorem Select.updateSource_eq (i : Nat) (change : Source → Source) :
    q.updateSource i change = q.mapSources fun j t => if j = i then change t else t := by
  have hjoins : ∀ n k : Nat, (q.joins.modify k fun j => { j with right := change j.right }) =
      q.joins.mapIdx fun i j => j.mapRight fun t => if n + i = n + k then change t else t := by
    intro n k
    refine List.ext_getElem? fun i => ?_
    rw [List.getElem?_modify, List.getElem?_mapIdx]
    cases q.joins[i]? with
    | none => rfl
    | some j =>
      obtain ⟨kind, right, constraint⟩ := j
      by_cases hi : k = i <;> simp [hi, eq_comm, Join.mapRight]
  obtain ⟨distinct, items, source, joins, filter, groupBy, having, orderBy, limit, offset⟩ := q
  cases source with
  | none => simpa [updateSource, mapSources] using hjoins 0 i
  | some t =>
    cases i with
    | zero =>
      have hrest : (joins.mapIdx fun _ j => j) = joins := mapIdx_eq_self fun _ _ _ => rfl
      simp [updateSource, mapSources, hrest]
    | succ i => simpa [updateSource, mapSources, Nat.add_comm 1] using hjoins 1 i

end

/-! ## Placements from where they are looked at -/

/-- The placement as seen from where the step leads, if its place is there. -/
def Placement.below? (step : Step) (p : Placement) : Option Placement :=
  match p.place with
  | [] => none
  | head :: rest => if head = step then some { p with place := rest } else none

/-- The placements where the step leads. -/
def placementsBelow (step : Step) (ps : List Placement) : List Placement :=
  ps.filterMap (Placement.below? step)

/-- The predicate of the placement, if it is meant for HAVING, or else for WHERE, of that place. -/
def Placement.predicateFor? (place : Path) (having : Bool) (p : Placement) : Option Expr :=
  if p.place = place ∧ p.having = having then some p.predicate else none

/-- The predicates that are meant for HAVING, or else for WHERE, of the select at a place. -/
def predicatesAt (place : Path) (having : Bool) (ps : List Placement) : List Expr :=
  ps.filterMap (Placement.predicateFor? place having)

/-- A clause with several conditions joined to it, one after the other. -/
def conjoinAll (existing : Option Expr) (es : List Expr) : Option Expr :=
  es.foldl (fun e extra => some (conjoin e extra)) existing

section

variable {step : Step} {ps : List Placement} {p : Placement}

@[simp] theorem placementsBelow_nil : placementsBelow step [] = [] := rfl

@[simp] theorem predicatesAt_nil (place : Path) (having : Bool) :
    predicatesAt place having [] = [] := rfl

@[simp] theorem conjoinAll_nil (existing : Option Expr) : conjoinAll existing [] = existing := rfl

theorem conjoinAll_append (existing : Option Expr) (es : List Expr) (e : Expr) :
    conjoinAll existing (es ++ [e]) = some (conjoin (conjoinAll existing es) e) := by
  simp [conjoinAll]

/-- A placement where the step leads comes last there as well. -/
theorem placementsBelow_append_self {rest : Path} (h : p.place = step :: rest) :
    placementsBelow step (ps ++ [p]) = placementsBelow step ps ++ [{ p with place := rest }] := by
  simp [placementsBelow, Placement.below?, h]

theorem placementsBelow_append_ne (h : p.place.head? ≠ some step) :
    placementsBelow step (ps ++ [p]) = placementsBelow step ps := by
  have hnone : p.below? step = none := by
    unfold Placement.below?
    split
    · rfl
    · next head rest hplace => rw [if_neg (fun heq => h (by rw [hplace, heq]; rfl))]
  simp [placementsBelow, hnone]

theorem predicatesAt_append_of_ne {place : Path} {having : Bool}
    (h : p.place ≠ place ∨ p.having ≠ having) :
    predicatesAt place having (ps ++ [p]) = predicatesAt place having ps := by
  have hnone : p.predicateFor? place having = none :=
    if_neg fun heq => h.elim (· heq.1) (· heq.2)
  simp [predicatesAt, hnone]

theorem predicatesAt_append_self :
    predicatesAt p.place p.having (ps ++ [p]) = predicatesAt p.place p.having ps ++ [p.predicate] := by
  simp [predicatesAt, Placement.predicateFor?]

/-- What is meant for a place behind a step. -/
theorem predicatesAt_cons (place : Path) (having : Bool) :
    predicatesAt (step :: place) having ps = predicatesAt place having (placementsBelow step ps) := by
  rw [predicatesAt, predicatesAt, placementsBelow, List.filterMap_filterMap]
  congr 1
  funext p
  obtain ⟨path, e, h⟩ := p
  cases path with
  | nil => simp [Placement.predicateFor?, Placement.below?]
  | cons head rest =>
    by_cases hhead : head = step <;> simp [Placement.predicateFor?, Placement.below?, hhead]

end

/-! ## All predicates at once -/

mutual

/-- The statement with the predicates of all placements in it. -/
def Statement.filteredBy (ps : List Placement) : Statement → Statement
  | ⟨w, b⟩ => ⟨filteredWith? ps w, b.filteredBy (placementsBelow .body ps)⟩

/-- The WITH clause with the predicates of all placements in it. -/
def filteredWith? (ps : List Placement) : Option With → Option With
  | some ⟨r, cs⟩ => some ⟨r, filteredCtes ps 0 cs⟩
  | none => none

/-- The definitions, the first of which has that number, with the predicates in them. -/
def filteredCtes (ps : List Placement) (i : Nat) : List Cte → List Cte
  | [] => []
  | ⟨n, cs, s⟩ :: rest =>
    ⟨n, cs, s.filteredBy (placementsBelow (.cte i) ps)⟩ :: filteredCtes ps (i + 1) rest

/-- The body with the predicates of all placements in it. -/
def Body.filteredBy (ps : List Placement) : Body → Body
  | .select q => .select (q.filteredBy ps)
  | .setOp l op r =>
    .setOp (l.filteredBy (placementsBelow .left ps)) op (r.filteredBy (placementsBelow .right ps))
  | .nested s => .nested (s.filteredBy (placementsBelow .operand ps))

/-- The select with the predicates that are meant for it, and its subqueries with theirs. -/
def Select.filteredBy (ps : List Placement) : Select → Select
  | ⟨d, is, s, js, w, g, h, o, l, x⟩ =>
    ⟨d, is, filteredSource? ps s, filteredJoins ps s.toList.length js,
      conjoinAll w (predicatesAt [] false ps), g, conjoinAll h (predicatesAt [] true ps), o, l, x⟩

/-- The first source with the predicates in it. -/
def filteredSource? (ps : List Placement) : Option Source → Option Source
  | some t => some (t.filteredBy (placementsBelow (.source 0) ps))
  | none => none

/-- The joins, the first of which joins the source of that number, with the predicates in them. -/
def filteredJoins (ps : List Placement) (i : Nat) : List Join → List Join
  | [] => []
  | ⟨k, t, c⟩ :: js =>
    ⟨k, t.filteredBy (placementsBelow (.source i) ps), c⟩ :: filteredJoins ps (i + 1) js

/-- The source with the predicates of all placements in it. -/
def Source.filteredBy (ps : List Placement) : Source → Source
  | .table p n a => .table p n a
  | .subquery s a => .subquery (s.filteredBy ps) a

end

/-! ### Lists -/

section

variable (ps : List Placement)

theorem filteredCtes_eq (i : Nat) (cs : List Cte) :
    filteredCtes ps i cs = cs.mapIdx fun j c =>
      { c with statement := c.statement.filteredBy (placementsBelow (.cte (i + j)) ps) } := by
  induction cs generalizing i with
  | nil => rfl
  | cons c cs ih =>
    obtain ⟨n, columns, s⟩ := c
    rw [filteredCtes, ih, List.mapIdx_cons]
    simp only [Nat.add_zero, Nat.add_assoc, Nat.add_comm 1]

theorem filteredJoins_eq (i : Nat) (js : List Join) :
    filteredJoins ps i js = js.mapIdx fun k j =>
      { j with right := j.right.filteredBy (placementsBelow (.source (i + k)) ps) } := by
  induction js generalizing i with
  | nil => rfl
  | cons j js ih =>
    obtain ⟨kind, t, c⟩ := j
    rw [filteredJoins, ih, List.mapIdx_cons]
    simp only [Nat.add_zero, Nat.add_assoc, Nat.add_comm 1]

theorem Statement.body_filteredBy (s : Statement) :
    (s.filteredBy ps).body = s.body.filteredBy (placementsBelow .body ps) := by
  obtain ⟨w, b⟩ := s
  rw [filteredBy]

theorem Statement.ctes_filteredBy (s : Statement) :
    (s.filteredBy ps).ctes = s.ctes.mapIdx fun i c =>
      { c with statement := c.statement.filteredBy (placementsBelow (.cte i) ps) } := by
  obtain ⟨w, b⟩ := s
  rw [filteredBy]
  cases w with
  | none => rfl
  | some w =>
    obtain ⟨recursive, cs⟩ := w
    simpa [filteredWith?, ctes] using filteredCtes_eq ps 0 cs

theorem Select.filteredBy_eq (q : Select) :
    q.filteredBy ps =
      { q.mapSources (fun i t => t.filteredBy (placementsBelow (.source i) ps)) with
        filter := conjoinAll q.filter (predicatesAt [] false ps)
        having := conjoinAll q.having (predicatesAt [] true ps) } := by
  obtain ⟨distinct, items, source, joins, filter, groupBy, having, orderBy, limit, offset⟩ := q
  rw [filteredBy, filteredJoins_eq]
  cases source <;> rfl

theorem Select.sources_filteredBy (q : Select) :
    (q.filteredBy ps).sources = q.sources.mapIdx fun i t =>
      t.filteredBy (placementsBelow (.source i) ps) := by
  rw [filteredBy_eq, ← sources_mapSources]
  rfl

end

/-! ### No placements -/

mutual

theorem Statement.filteredBy_nil : (s : Statement) → s.filteredBy [] = s
  | ⟨w, b⟩ => by
    rw [Statement.filteredBy, placementsBelow_nil, Body.filteredBy_nil b]
    match w with
    | none => rfl
    | some ⟨recursive, cs⟩ => rw [filteredWith?, filteredCtes_nil 0 cs]

theorem filteredCtes_nil (i : Nat) : (cs : List Cte) → filteredCtes [] i cs = cs
  | [] => rfl
  | ⟨n, columns, s⟩ :: cs => by
    rw [filteredCtes, placementsBelow_nil, Statement.filteredBy_nil s, filteredCtes_nil (i + 1) cs]

theorem Body.filteredBy_nil : (b : Body) → b.filteredBy [] = b
  | .select q => by rw [Body.filteredBy, Select.filteredBy_nil q]
  | .setOp l op r => by
    rw [Body.filteredBy, placementsBelow_nil, placementsBelow_nil, Body.filteredBy_nil l,
      Body.filteredBy_nil r]
  | .nested s => by rw [Body.filteredBy, placementsBelow_nil, Statement.filteredBy_nil s]

theorem Select.filteredBy_nil : (q : Select) → q.filteredBy [] = q
  | ⟨distinct, items, source, joins, filter, groupBy, having, orderBy, limit, offset⟩ => by
    rw [Select.filteredBy, filteredJoins_nil _ joins]
    match source with
    | none => rfl
    | some t => rw [filteredSource?, placementsBelow_nil, Source.filteredBy_nil t]; rfl

theorem filteredJoins_nil (i : Nat) : (js : List Join) → filteredJoins [] i js = js
  | [] => rfl
  | ⟨kind, t, c⟩ :: js => by
    rw [filteredJoins, placementsBelow_nil, Source.filteredBy_nil t, filteredJoins_nil (i + 1) js]

theorem Source.filteredBy_nil : (t : Source) → t.filteredBy [] = t
  | .table path name asName => by rw [Source.filteredBy]
  | .subquery s asName => by rw [Source.filteredBy, Statement.filteredBy_nil s]

end

/-! ## One placement more -/

/-- Add a predicate to HAVING, or else to WHERE. -/
def Select.addPredicate (q : Select) (having : Bool) (e : Expr) : Select :=
  if having then q.addHaving e else q.addFilter e

theorem Placement.apply_eq (s : Statement) (p : Placement) :
    p.apply s = s.updateAt (fun q => q.addPredicate p.having p.predicate) p.place := rfl

/-- A changed list of changed items is a list of changed items. -/
theorem modify_mapIdx {α β : Type} {f g : Nat → α → β} {change : β → β} {xs : List α} {i : Nat}
    {x : α} (hx : xs[i]? = some x) (hi : change (f i x) = g i x)
    (hne : ∀ j, j ≠ i → ∀ y, f j y = g j y) : (xs.mapIdx f).modify i change = xs.mapIdx g := by
  refine List.ext_getElem? fun j => ?_
  rw [List.getElem?_modify, List.getElem?_mapIdx, List.getElem?_mapIdx]
  by_cases hj : i = j
  · subst hj
    simp [hx, hi]
  · cases xs[j]? with
    | none => simp
    | some y => simp [if_neg hj, hne j (Ne.symm hj) y]

/-- The part with the predicates of all placements in it. -/
def Part.filteredBy (ps : List Placement) : Part → Part :=
  Sum.map (Statement.filteredBy ps) (Body.filteredBy ps)

section

variable {ps qs : List Placement}

theorem filteredWith?_congr {w : Option With} {b : Body}
    (h : ∀ i, (Part.next (.inl ⟨w, b⟩) (.cte i)).isSome →
      placementsBelow (.cte i) ps = placementsBelow (.cte i) qs) :
    filteredWith? ps w = filteredWith? qs w := by
  cases w with
  | none => rfl
  | some w =>
    obtain ⟨recursive, cs⟩ := w
    rw [filteredWith?, filteredWith?, filteredCtes_eq, filteredCtes_eq]
    refine congrArg (fun cs => some (With.mk recursive cs)) (mapIdx_congr fun i c hc => ?_)
    rw [h (0 + i) (by simp [Part.next, Statement.ctes, hc])]

/-- Only placements where a step of the part leads matter, and those for a select itself. -/
theorem Part.filteredBy_congr {n : Part}
    (hbelow : ∀ step, (n.next step).isSome → placementsBelow step ps = placementsBelow step qs)
    (hhere : ∀ q, n = .inr (.select q) →
      ∀ having, predicatesAt [] having ps = predicatesAt [] having qs) :
    n.filteredBy ps = n.filteredBy qs := by
  obtain ⟨w, b⟩ | q | ⟨l, op, r⟩ | s := n
  · simp only [filteredBy, Sum.map_inl, Statement.filteredBy, hbelow .body rfl,
      filteredWith?_congr fun i => hbelow (.cte i)]
  · have hsources : ∀ (i : Nat) (t : Source), q.sources[i]? = some t →
        t.filteredBy (placementsBelow (.source i) ps) =
          t.filteredBy (placementsBelow (.source i) qs) := by
      intro i t ht
      cases t with
      | table path name asName => rw [Source.filteredBy, Source.filteredBy]
      | subquery s asName =>
        rw [hbelow (.source i) (by simp [next, ht, Source.statement?])]
    simp only [filteredBy, Sum.map_inr, Body.filteredBy, Select.filteredBy_eq, hhere q rfl,
      Select.mapSources_congr hsources]
  · simp only [filteredBy, Sum.map_inr, Body.filteredBy, hbelow .left rfl, hbelow .right rfl]
  · simp only [filteredBy, Sum.map_inr, Body.filteredBy, hbelow .operand rfl]

/-- What a step leads to has the predicates that are meant for what is there. -/
theorem Part.next_filteredBy (n : Part) (step : Step) :
    (n.filteredBy ps).next step = (n.next step).map (filteredBy (placementsBelow step ps)) := by
  obtain s | q | ⟨l, op, r⟩ | s := n
  · cases step with
    | cte i =>
      simp only [filteredBy, Sum.map_inl, next, Statement.ctes_filteredBy, List.getElem?_mapIdx]
      cases s.ctes[i]? <;> rfl
    | body =>
      simp only [filteredBy, Sum.map_inl, next, Statement.body_filteredBy, Option.map_some]
      rfl
    | _ => rfl
  · rw [filteredBy, Sum.map_inr, Body.filteredBy]
    cases step with
    | source i =>
      simp only [next, Select.sources_filteredBy, List.getElem?_mapIdx]
      cases q.sources[i]? with
      | none => rfl
      | some t =>
        cases t with
        | table path name asName => simp [Source.filteredBy, Source.statement?]
        | subquery s asName => simp [Source.filteredBy, Source.statement?, filteredBy]
    | _ => rfl
  · rw [filteredBy, Sum.map_inr, Body.filteredBy]
    cases step <;> rfl
  · rw [filteredBy, Sum.map_inr, Body.filteredBy]
    cases step <;> rfl

theorem placementsBelow_concat_ne {p : Placement} {step other : Step} {rest : Path}
    (hplace : p.place = step :: rest) (hother : other ≠ step) :
    placementsBelow other (ps ++ [p]) = placementsBelow other ps :=
  placementsBelow_append_ne (by rw [hplace]; simpa using hother.symm)

/-- A predicate that goes into a CTE goes into none of the others. -/
theorem modify_filteredCtes {change : Select → Select} {p : Placement} {i : Nat} {rest : Path}
    {cs : List Cte} {c : Cte} (hplace : p.place = .cte i :: rest) (hc : cs[i]? = some c)
    (h : (c.statement.filteredBy (placementsBelow (.cte i) ps)).updateAt change rest =
      c.statement.filteredBy (placementsBelow (.cte i) (ps ++ [p]))) :
    (filteredCtes ps 0 cs).modify i (fun c =>
        { c with statement := c.statement.updateAt change rest }) =
      filteredCtes (ps ++ [p]) 0 cs := by
  simp only [filteredCtes_eq, Nat.zero_add]
  refine modify_mapIdx hc ?_ fun j hj d => ?_
  · rw [h]
  · rw [placementsBelow_concat_ne hplace (by simpa using hj)]

/-- A predicate that goes into a source goes into none of the others, and the clauses of the select
stay. -/
theorem Select.updateSource_filteredBy {change : Select → Select} {p : Placement} {i : Nat}
    {rest : Path} {q : Select} {t : Source} {s : Statement} (hplace : p.place = .source i :: rest)
    (ht : q.sources[i]? = some t) (hs : t.statement? = some s)
    (h : (s.filteredBy (placementsBelow (.source i) ps)).updateAt change rest =
      s.filteredBy (placementsBelow (.source i) (ps ++ [p]))) :
    (q.filteredBy ps).updateSource i (Source.updateStatement (Statement.updateAt change rest)) =
      q.filteredBy (ps ++ [p]) := by
  have hhere : ∀ having, predicatesAt [] having (ps ++ [p]) = predicatesAt [] having ps := fun _ =>
    predicatesAt_append_of_ne (.inl (by simp [hplace]))
  have hsources : ∀ (j : Nat) (t' : Source), q.sources[j]? = some t' →
      (if j = i then (t'.filteredBy (placementsBelow (.source j) ps)).updateStatement
          (Statement.updateAt change rest)
        else t'.filteredBy (placementsBelow (.source j) ps)) =
        t'.filteredBy (placementsBelow (.source j) (ps ++ [p])) := by
    intro j t' ht'
    split
    · next hj =>
      subst hj
      obtain rfl := Option.some.inj (ht.symm.trans ht')
      cases t with
      | table path name asName => simp [Source.statement?] at hs
      | subquery s' asName =>
        obtain rfl := Option.some.inj hs
        simp only [Source.filteredBy, Source.updateStatement]
        exact congrArg (Source.subquery · asName) h
    · next hj => rw [placementsBelow_concat_ne hplace (by simpa using hj)]
  rw [Select.filteredBy_eq, Select.filteredBy_eq, Select.updateSource_eq,
    Select.mapSources_filters, Select.mapSources_mapSources, Select.mapSources_congr hsources,
    hhere, hhere]

/-- A predicate that goes further down goes down with those that are there. -/
theorem Part.updateAt_filteredBy_cons {change : Select → Select} {n m : Part} {p : Placement}
    {step : Step} {rest : Path} (hplace : p.place = step :: rest) (hm : n.next step = some m)
    (h : (m.filteredBy (placementsBelow step ps)).updateAt change rest =
      m.filteredBy (placementsBelow step (ps ++ [p]))) :
    (n.filteredBy ps).updateAt change (step :: rest) = n.filteredBy (ps ++ [p]) := by
  -- nothing is added but below the step
  have hne : ∀ other, other ≠ step →
      placementsBelow other (ps ++ [p]) = placementsBelow other ps := fun _ =>
    placementsBelow_concat_ne hplace
  unfold next at hm
  split at hm
  · next s i =>
    obtain ⟨c, hc, rfl⟩ := Option.map_eq_some_iff.mp hm
    obtain ⟨w, b⟩ := s
    cases w with
    | none => simp [Statement.ctes] at hc
    | some w =>
      obtain ⟨recursive, cs⟩ := w
      have hctes := @modify_filteredCtes ps change p i rest cs c hplace hc (Sum.inl.inj h)
      simp only [filteredBy, updateAt, Sum.map_inl, Statement.filteredBy, Statement.updateAt,
        filteredWith?, Option.map_some, hctes, hne .body (by simp)]
  · next s =>
    obtain rfl := Option.some.inj hm
    obtain ⟨w, b⟩ := s
    have hbody : (b.filteredBy (placementsBelow .body ps)).updateAt change rest =
        b.filteredBy (placementsBelow .body (ps ++ [p])) := Sum.inr.inj h
    have hwith : filteredWith? (ps ++ [p]) w = filteredWith? ps w :=
      filteredWith?_congr (b := b) fun i _ => hne (.cte i) (by simp)
    simp only [filteredBy, updateAt, Sum.map_inl, Statement.filteredBy, Statement.updateAt, hbody,
      hwith]
  · next l op r =>
    obtain rfl := Option.some.inj hm
    have hleft : (l.filteredBy (placementsBelow .left ps)).updateAt change rest =
        l.filteredBy (placementsBelow .left (ps ++ [p])) := Sum.inr.inj h
    simp only [filteredBy, updateAt, Sum.map_inr, Body.filteredBy, Body.updateAt, hleft,
      hne .right (by simp)]
  · next l op r =>
    obtain rfl := Option.some.inj hm
    have hright : (r.filteredBy (placementsBelow .right ps)).updateAt change rest =
        r.filteredBy (placementsBelow .right (ps ++ [p])) := Sum.inr.inj h
    simp only [filteredBy, updateAt, Sum.map_inr, Body.filteredBy, Body.updateAt, hright,
      hne .left (by simp)]
  · next s =>
    obtain rfl := Option.some.inj hm
    have hoperand : (s.filteredBy (placementsBelow .operand ps)).updateAt change rest =
        s.filteredBy (placementsBelow .operand (ps ++ [p])) := Sum.inl.inj h
    simp only [filteredBy, updateAt, Sum.map_inr, Body.filteredBy, Body.updateAt, hoperand]
  · next q i =>
    obtain ⟨s, hs, rfl⟩ := Option.map_eq_some_iff.mp hm
    obtain ⟨t, ht, hs⟩ := Option.bind_eq_some_iff.mp hs
    have hselect := Select.updateSource_filteredBy hplace ht hs (Sum.inl.inj h)
    simp only [filteredBy, updateAt, Sum.map_inr, Body.filteredBy, Body.updateAt, hselect]
  · simp at hm

/-- A path that leads nowhere changes nothing. -/
theorem Part.updateAt_of_next_none {change : Select → Select} {n : Part} {step : Step}
    (h : n.next step = none) (rest : Path) : n.updateAt change (step :: rest) = n := by
  obtain ⟨w, b⟩ | q | ⟨l, op, r⟩ | s := n
  · cases step with
    | cte i =>
      cases w with
      | none => rfl
      | some w =>
        obtain ⟨recursive, cs⟩ := w
        have hlength : cs.length ≤ i := by simpa [next, Statement.ctes] using h
        simp [updateAt, Statement.updateAt, List.modify_eq_self hlength]
    | body => simp [next] at h
    | _ => rfl
  · cases step with
    | source i =>
      have hsources : ∀ (j : Nat) (t : Source), q.sources[j]? = some t →
          (if j = i then t.updateStatement (Statement.updateAt change rest) else t) = t := by
        intro j t ht
        split
        · next hj =>
          subst hj
          cases t with
          | table path name asName => rfl
          | subquery s asName => simp [next, ht, Source.statement?] at h
        · rfl
      simp only [updateAt, Sum.map_inr, Body.updateAt, Select.updateSource_eq,
        Select.mapSources_congr hsources, Select.mapSources_id]
    | _ => rfl
  · cases step <;> first | rfl | simp [next] at h
  · cases step <;> first | rfl | simp [next] at h

/-- **One placement more is carried out last.** -/
theorem Part.updateAt_filteredBy (p : Placement) (n : Part) (ps : List Placement) :
    (n.filteredBy ps).updateAt (fun q => q.addPredicate p.having p.predicate) p.place =
      n.filteredBy (ps ++ [p]) := by
  obtain ⟨place, e, having⟩ := p
  induction place generalizing n ps with
  | nil =>
    have hbelow : ∀ step, placementsBelow step (ps ++ [⟨[], e, having⟩]) = placementsBelow step ps :=
      fun _ => placementsBelow_append_ne (by simp)
    have hother : (∀ q, n ≠ .inr (.select q)) → n.filteredBy ps =
        n.filteredBy (ps ++ [⟨[], e, having⟩]) := fun hn =>
      filteredBy_congr (fun step _ => (hbelow step).symm) fun q hq => absurd hq (hn q)
    obtain s | q | ⟨l, op, r⟩ | s := n
    · exact hother (by simp)
    · have hselect : (q.filteredBy ps).addPredicate having e =
          q.filteredBy (ps ++ [⟨[], e, having⟩]) := by
        simp only [Select.filteredBy_eq, hbelow]
        cases having with
        | false =>
          rw [predicatesAt_append_self (p := ⟨[], e, false⟩), conjoinAll_append,
            predicatesAt_append_of_ne (.inr (by simp))]
          rfl
        | true =>
          rw [predicatesAt_append_self (p := ⟨[], e, true⟩), conjoinAll_append,
            predicatesAt_append_of_ne (.inr (by simp))]
          rfl
      simp only [filteredBy, updateAt, Sum.map_inr, Body.filteredBy, Body.updateAt, hselect]
    · rw [← hother (by simp), filteredBy, Sum.map_inr, Body.filteredBy]
      rfl
    · rw [← hother (by simp), filteredBy, Sum.map_inr, Body.filteredBy]
      rfl
  | cons step rest ih =>
    cases hm : n.next step with
    | none =>
      -- the place is nowhere in the tree, and neither side has the predicate
      rw [updateAt_of_next_none (by rw [next_filteredBy, hm]; rfl)]
      refine filteredBy_congr (fun other hother => ?_) fun _ _ _ =>
        (predicatesAt_append_of_ne (.inl (by simp))).symm
      refine (placementsBelow_append_ne fun heq => ?_).symm
      obtain rfl := Option.some.inj heq
      simp [hm] at hother
    | some m =>
      refine updateAt_filteredBy_cons rfl hm ?_
      rw [placementsBelow_append_self rfl]
      exact ih m _

end

/-- **Placements are carried out one by one as if all at once.** -/
theorem Statement.foldl_apply (s : Statement) (ps : List Placement) :
    ps.foldl Placement.apply s = s.filteredBy ps := by
  have hfold : ∀ qs : List Placement,
      ps.foldl Placement.apply (s.filteredBy qs) = s.filteredBy (qs ++ ps) := by
    induction ps with
    | nil => simp
    | cons p ps ih =>
      intro qs
      have hstep : Placement.apply (s.filteredBy qs) p = s.filteredBy (qs ++ [p]) := by
        rw [Placement.apply_eq]
        exact Sum.inl.inj (Part.updateAt_filteredBy p (.inl s) qs)
      rw [List.foldl_cons, hstep, ih, List.append_assoc]
      rfl
  simpa [filteredBy_nil] using hfold []

/-! ## What stands at a place -/

section

variable {ps : List Placement}

/-- The placements where a path leads. -/
def placementsAt (path : Path) (ps : List Placement) : List Placement :=
  path.foldl (fun ps step => placementsBelow step ps) ps

theorem predicatesAt_placementsAt (path : Path) (having : Bool) :
    predicatesAt [] having (placementsAt path ps) = predicatesAt path having ps := by
  induction path generalizing ps with
  | nil => rfl
  | cons step path ih =>
    rw [predicatesAt_cons, ← ih]
    rfl

theorem Part.follow_filteredBy (n : Part) (path : Path) :
    (n.filteredBy ps).follow path = (n.follow path).map (filteredBy (placementsAt path ps)) := by
  induction path generalizing n ps with
  | nil => rfl
  | cons step path ih =>
    rw [follow, follow, next_filteredBy]
    cases n.next step with
    | none => rfl
    | some m => exact ih m

/-- **A select has the predicates that are meant for it joined to its clauses,** in their order. -/
theorem Statement.selectAt?_filteredBy {s : Statement} {path : Path} {q : Select}
    (h : s.selectAt? path = some q) :
    ∃ r, (s.filteredBy ps).selectAt? path = some r
      ∧ r.filter = conjoinAll q.filter (predicatesAt path false ps)
      ∧ r.having = conjoinAll q.having (predicatesAt path true ps)
      ∧ r.items = q.items := by
  rw [selectAt?_eq_some] at h
  refine ⟨q.filteredBy (placementsAt path ps), ?_, ?_, ?_, ?_⟩
  · have hfollow : (Part.filteredBy ps (.inl s)).follow path = _ :=
      Part.follow_filteredBy (.inl s) path
    rw [h, Option.map_some] at hfollow
    rw [selectAt?_eq_some]
    simpa [Part.filteredBy, Body.filteredBy] using hfollow
  · rw [Select.filteredBy_eq, ← predicatesAt_placementsAt path]
  · rw [Select.filteredBy_eq, ← predicatesAt_placementsAt path]
  · rw [Select.filteredBy_eq]
    rfl

end

end Sql
