import Sql.Filter.Place
import Sql.Scope.Columns
import Sql.Statement.Same

/-!
# Filtering by criteria

Every criterion becomes a predicate in each select that the statement combines: in WHERE, or in
HAVING when its column is an aggregate. With push-down a predicate goes instead to where the column
comes from: if the column is that of a subquery or CTE, and no part of it has a LIMIT, an OFFSET or
a window function in the column's place, the predicate is placed in each select that the subquery
or CTE combines, and so on from there.

* `pushTargets` finds the selects one level further down; each of them is smaller
  (`pushTargets_weight_lt`).
* `placements` follows the targets to the end and says which predicate goes where.
* `Statement.filterBy` adds the predicates, each once for every select.
-/

namespace Sql

/-- A predicate and the select it is meant for. -/
structure Placement where
  place : Path
  predicate : Expr
  /-- It belongs in HAVING. -/
  having : Bool

/-! ## The source of a column -/

/-- Where a source's rows come from: a statement with its place and the scope it stands in, and the
position of the column when the CTE names its columns itself. -/
structure Producer where
  statement : Statement
  place : Path
  scope : PlacedScope
  position : Option Nat

/-- The number of the first source of that effective name. -/
def Select.sourceIndex? (q : Select) (name : String) : Option Nat :=
  q.sources.findIdx? fun t => sameName t.effectiveName name

/-- The number of the source that a column belongs to. A column without qualifier belongs to the
only source there is, or to the only one that has such a column. -/
def columnSource? (lookup : Option Lookup) (site : Site) (c : ColumnRef) :
    Except Error (Option Nat) :=
  match c.qualifier with
  | some q => .ok (site.select.sourceIndex? q)
  | none =>
    if site.select.sources.length = 1 then .ok (some 0)
    else do
      let sources ← sourceColumns lookup site.scope.scope site.select
      match sources.filter fun s => s.exposes c.name with
      | [s] => return site.select.sourceIndex? s.source
      | _ => return none

/-- The position of a column in the list of a CTE. A CTE without a list gives no position; a column
that is not on the list cannot be followed. -/
def listedPosition? (columns : List String) (name : String) : Option (Option Nat) :=
  if columns.isEmpty then some none else (columns.findIdx? fun c => sameName c name).map some

/-- The statement behind a source: a subquery, or the body of a CTE that is not recursive. -/
def producer? (site : Site) (i : Nat) (name : String) : Option Producer :=
  match site.select.sources[i]? with
  | none => none
  | some (.subquery s _) => some ⟨s, site.place ++ [.source i], site.scope, none⟩
  | some t =>
    match site.scope.resolve? t with
    | none => none
    | some (c, before) =>
      if c.entry.recursive then none
      else
        (listedPosition? c.entry.cte.columns name).map fun position =>
          ⟨c.entry.cte.statement, c.place, before, position⟩

theorem producer?_weight_lt {site : Site} {i : Nat} {name : String} {p : Producer}
    (h : producer? site i name = some p) :
    sizeOf p.statement + p.scope.scope.weight < site.weight := by
  unfold producer? at h
  split at h
  · simp at h
  · next s asName hs =>
    have := Select.sizeOf_lt_of_mem_sources (List.mem_of_getElem? hs)
    simp only [Option.some.injEq] at h
    subst h
    simp only [Site.weight, Source.subquery.sizeOf_spec] at *
    omega
  · split at h
    · simp at h
    · next c before hr =>
      split at h
      · simp at h
      · obtain ⟨position, -, rfl⟩ := Option.map_eq_some_iff.1 h
        have := PlacedScope.resolve?_weight_lt hr
        simp only [Site.weight]; omega

/-! ## Targets one level down -/

/-- The selects of a producer, each with the position at which it has the column, if the column is
found by position. The first select finds the column by name unless the CTE names its columns. -/
def Producer.targets (p : Producer) (position : Option Nat) : List (Site × Option Nat) :=
  match p.statement.sites p.scope p.place with
  | [] => []
  | s :: rest =>
    (s, if p.position.isNone then none else position) :: rest.map fun s => (s, position)

/-- The position of a column among those of a producer: where the CTE lists it, else, when several
selects are combined, where the first of them has it. -/
def Producer.columnPosition (lookup : Option Lookup) (p : Producer) (name : String) :
    Except Error (Option Nat) :=
  match p.position with
  | some i => .ok (some i)
  | none =>
    if (p.statement.sites p.scope p.place).length > 1 then do
      let out ← outputColumns lookup p.scope.scope p.statement
      return out.names.findIdx? fun n => sameName n name
    else .ok none

/-- The selects that a column of a select comes from, when it comes from a subquery or CTE. -/
def pushTargets (lookup : Option Lookup) (site : Site) (e : Expr) :
    Except Error (Option (String × List (Site × Option Nat))) :=
  match e with
  | .column c => do
    match ← columnSource? lookup site c with
    | none => return none
    | some i =>
      match producer? site i c.name with
      | none => return none
      | some p => return some (c.name, p.targets (← p.columnPosition lookup c.name))
  | _ => .ok none

theorem Producer.weight_lt_of_mem_targets {p : Producer} {position : Option Nat}
    {t : Site × Option Nat} (h : t ∈ p.targets position) :
    t.1.weight < sizeOf p.statement + p.scope.scope.weight := by
  refine @Statement.weight_lt_of_mem_sites _ _ p.place _ ?_
  unfold targets at h
  split at h
  · simp at h
  · next s rest hs =>
    rw [hs]
    simp only [List.mem_cons, List.mem_map] at h ⊢
    rcases h with rfl | ⟨s', hs', rfl⟩
    · exact .inl rfl
    · exact .inr hs'

theorem pushTargets_weight_lt {lookup : Option Lookup} {site : Site} {e : Expr} {name : String}
    {targets : List (Site × Option Nat)} {t : Site × Option Nat}
    (h : pushTargets lookup site e = .ok (some (name, targets))) (ht : t ∈ targets) :
    t.1.weight < site.weight := by
  unfold pushTargets at h
  split at h
  · next c =>
    simp only [bind, Except.bind] at h
    split at h
    · simp at h
    · split at h
      · simp [pure, Except.pure] at h
      · split at h
        · simp [pure, Except.pure] at h
        · next p hp =>
          split at h
          · simp at h
          · simp only [pure, Except.pure, Except.ok.injEq, Option.some.injEq, Prod.mk.injEq] at h
            obtain ⟨-, rfl⟩ := h
            exact Nat.lt_trans (Producer.weight_lt_of_mem_targets ht) (producer?_weight_lt hp)
  · simp at h

/-! ## Placements -/

/-- The column of a key in one select: the item at the position, if there is one that is no star,
else the column that the select can name so. -/
def resolveIn (lookup : Option Lookup) (site : Site) (key : String) (position : Option Nat) :
    Except Error (Option SelectableColumn) :=
  match position.bind fun p => site.select.items[p]? with
  | some item =>
    if item.expr.isStar then byName else .ok (some ⟨key, item.expr⟩)
  | none => byName
where
  /-- The column that the select can name so. -/
  byName : Except Error (Option SelectableColumn) := do
    return findColumn? (← selectableIn lookup site.scope.scope site.select) key

/-- The results of all steps, unless one of them has none. -/
def collectAll {α β : Type} (f : α → Except Error (Option (List β))) :
    List α → Except Error (Option (List β))
  | [] => .ok (some [])
  | a :: as => do
    match ← f a with
    | none => return none
    | some bs =>
      match ← collectAll f as with
      | none => return none
      | some cs => return some (bs ++ cs)

/-- The predicate of a criterion in the select itself. -/
def placeHere (site : Site) (column : Expr) (key : String) (c : Criterion) :
    Except Error (List Placement) := do
  return [⟨site.place, ← c.predicate column key, column.containsAggregate⟩]

/-- Rows could be missing from the select's result although they match. -/
def Select.isPaged (q : Select) : Bool := q.limit.isSome || q.offset.isSome

/-- A window function's values come too late for a filter of the same select. -/
def windowError (site : Site) (key : String) : Error :=
  .unresolvedColumns [key]
    (site.select.label ++ " (window function results cannot be filtered in the same select)")

/-- Where the predicates of a criterion go, given the column's expression in a select. -/
def placements (lookup : Option Lookup) (pushDown : Bool) (key : String) (c : Criterion)
    (site : Site) (column : Expr) : Except Error (List Placement) :=
  if column.containsWindow then .error (windowError site key)
  else if pushDown && !column.containsAggregate then
    match _h : pushTargets lookup site column with
    | .error e => .error e
    | .ok none => placeHere site column key c
    | .ok (some (name, targets)) => do
      -- one select that cannot take the predicate keeps it above all of them
      let below ← collectAll
        (fun t =>
          if t.1.1.select.isPaged then .ok none
          else do
            match ← resolveIn lookup t.1.1 name t.1.2 with
            | none => return none
            | some inner =>
              if inner.expr.containsWindow then return none
              else return some (← placements lookup pushDown key c t.1.1 inner.expr))
        targets.attach
      match below with
      | some ps => return ps
      | none => placeHere site column key c
  else placeHere site column key c
termination_by site.weight
decreasing_by exact pushTargets_weight_lt _h t.2

/-! ## The whole statement -/

/-- Keep the first of the placements that put the same predicate in the same place. -/
def distinctPlacements : List Placement → List Placement
  | [] => []
  | p :: ps =>
    p :: (distinctPlacements ps).filter fun q =>
      !(q.place == p.place && q.predicate.same p.predicate)

/-- Add a predicate to the select it is meant for. -/
def Placement.apply (s : Statement) (p : Placement) : Statement :=
  let add (q : Select) := if p.having then q.addHaving p.predicate else q.addFilter p.predicate
  s.updateAt add p.place

/-- The column of a key in a select that the statement combines. -/
def requireIn (lookup : Option Lookup) (site : Site) (key : String) (position : Option Nat) :
    Except Error SelectableColumn := do
  match ← resolveIn lookup site key position with
  | some column => return column
  | none => throw (.unresolvedColumns [key] site.select.label)

/-- Where the predicates of one criterion go. The first select finds the column by name, the others
by the position at which the statement has it. -/
def criterionPlacements (lookup : Option Lookup) (pushDown : Bool) (sites : List Site)
    (outputNames : List String) (key : String) (c : Criterion) : Except Error (List Placement) := do
  let position := outputNames.findIdx? fun n => sameName n key
  let found ← sites.zipIdx.mapM fun (site, i) => do
    let column ← requireIn lookup site key (if i = 0 then none else position)
    placements lookup pushDown key c site column.expr
  return found.flatten

/-- Where the predicates of all criteria go. -/
def Statement.criteriaPlacements (s : Statement) (lookup : Option Lookup) (pushDown : Bool)
    (criteria : List (String × Criterion)) : Except Error (List Placement) := do
  let sites := s.sites .empty []
  let outputNames ←
    if sites.length > 1 then OutputColumns.names <$> outputColumns lookup .empty s else pure []
  let found ← criteria.mapM fun (key, c) =>
    criterionPlacements lookup pushDown sites outputNames key c
  return distinctPlacements found.flatten

/-- Filter a statement by criteria. Every key must be the name of a column that the leftmost select
can name. -/
def Statement.filterBy (s : Statement) (criteria : Criteria) (pushDown : Bool)
    (lookup : Option Lookup) : Except Error Statement := do
  let active := criteria.active
  if active.isEmpty then return s
  else
    let _ ← requireColumns lookup s (active.map Prod.fst)
    let ps ← s.criteriaPlacements lookup pushDown active
    return ps.foldl Placement.apply s

end Sql
