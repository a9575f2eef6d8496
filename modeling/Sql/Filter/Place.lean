import Sql.Filter
import Sql.Scope

/-!
# Places in a tree

A path leads from a statement to a part of it. A filter is meant for one select of a tree and is
added there by its path, so a CTE that several names lead to is still one place.

* `Statement.updateAt` changes the select at a path.
* `PlacedScope` is a scope whose CTEs know where their bodies stand.
* `Body.sites` lists the selects that a body combines, each with its place and scope.
-/

namespace Sql

/-- One step from a part of a tree to a part of it. -/
inductive Step
  /-- From a statement to the statement of its CTE with that number. -/
  | cte (i : Nat)
  /-- From a statement to its body. -/
  | body
  /-- From a set operation to its operands. -/
  | left | right
  /-- From parentheses to the statement in them. -/
  | operand
  /-- From a select to the subquery that is its source with that number. -/
  | source (i : Nat)
deriving DecidableEq, Repr

/-- The steps from a statement to a part of it. -/
abbrev Path := List Step

/-! ## Changing a select in place -/

/-- Change the statement of a subquery. -/
def Source.updateStatement (f : Statement → Statement) : Source → Source
  | .subquery s asName => .subquery (f s) asName
  | t => t

/-- Change the source with that number, counting a first source and then the joins. -/
def Select.updateSource (q : Select) (i : Nat) (f : Source → Source) : Select :=
  let atJoin (i : Nat) : Select :=
    { q with joins := q.joins.modify i fun j => { j with right := f j.right } }
  match q.source, i with
  | some s, 0 => { q with source := some (f s) }
  | some _, i + 1 => atJoin i
  | none, i => atJoin i

mutual

/-- Change the select at a path from a statement; a path to nowhere changes nothing. -/
def Statement.updateAt (f : Select → Select) : Path → Statement → Statement
  | .cte i :: path, s =>
    { s with
      withClause := s.withClause.map fun w =>
        { w with
          ctes := w.ctes.modify i fun c => { c with statement := c.statement.updateAt f path } } }
  | .body :: path, s => { s with body := s.body.updateAt f path }
  | _, s => s

/-- Change the select at a path from a body. -/
def Body.updateAt (f : Select → Select) : Path → Body → Body
  | [], .select q => .select (f q)
  | .source i :: path, .select q =>
    .select (q.updateSource i (Source.updateStatement (Statement.updateAt f path)))
  | .left :: path, .setOp l op r => .setOp (l.updateAt f path) op r
  | .right :: path, .setOp l op r => .setOp l op (r.updateAt f path)
  | .operand :: path, .nested s => .nested (s.updateAt f path)
  | _, b => b

end

/-! ## Scopes whose CTEs have places -/

/-- A CTE in scope and the path to its statement. -/
structure PlacedCte where
  entry : CteEntry
  place : Path

/-- A scope whose CTEs have places, innermost first. -/
structure PlacedScope where
  entries : List PlacedCte
  depth : Nat

/-- The CTEs of a statement at a place, the first of which has that number. -/
def placeCtes (place : Path) (recursive : Bool) : Nat → List Cte → List PlacedCte
  | _, [] => []
  | i, c :: cs => ⟨⟨c, recursive⟩, place ++ [.cte i]⟩ :: placeCtes place recursive (i + 1) cs

/-- The first CTE of that name, and those behind it. -/
def findPlaced (name : String) : List PlacedCte → Option (PlacedCte × List PlacedCte)
  | [] => none
  | c :: rest => if sameName c.entry.cte.name name then some (c, rest) else findPlaced name rest

namespace PlacedScope

/-- No CTE. -/
def empty : PlacedScope := ⟨[], 0⟩

/-- The scope without the places. -/
def scope (s : PlacedScope) : Scope := ⟨s.entries.map PlacedCte.entry, s.depth⟩

/-- The scope inside the statement at a place. -/
def enter (p : PlacedScope) (place : Path) (s : Statement) : PlacedScope :=
  { p with entries := (placeCtes place s.isRecursive 0 s.ctes).reverse ++ p.entries }

/-- The CTE of that name, and the scope of its body. -/
def find? (p : PlacedScope) (name : String) : Option (PlacedCte × PlacedScope) :=
  (findPlaced name p.entries).map fun (c, before) => (c, ⟨before, p.depth + 1⟩)

/-- The CTE that a source names, and the scope of its body. -/
def resolve? (p : PlacedScope) : Source → Option (PlacedCte × PlacedScope)
  | .table [] name _ => p.find? name
  | _ => none

end PlacedScope

theorem map_entry_placeCtes (place : Path) (recursive : Bool) (i : Nat) (cs : List Cte) :
    (placeCtes place recursive i cs).map PlacedCte.entry = cs.map fun c => ⟨c, recursive⟩ := by
  induction cs generalizing i with
  | nil => rfl
  | cons c cs ih => simp [placeCtes, ih]

/-- Places do not matter for what is in scope inside a statement. -/
theorem PlacedScope.scope_enter (p : PlacedScope) (place : Path) (s : Statement) :
    (p.enter place s).scope = p.scope.enter s := by
  simp [enter, scope, Scope.enter, map_entry_placeCtes]

theorem findEntry_map_entry (name : String) (cs : List PlacedCte) :
    findEntry name (cs.map PlacedCte.entry) =
      (findPlaced name cs).map fun (c, before) => (c.entry, before.map PlacedCte.entry) := by
  induction cs with
  | nil => rfl
  | cons c cs ih =>
    simp only [List.map_cons, findEntry, findPlaced]
    split
    · rfl
    · exact ih

/-- Places do not matter for what a name stands for. -/
theorem PlacedScope.scope_find? (p : PlacedScope) (name : String) :
    p.scope.find? name = (p.find? name).map fun (c, before) => (c.entry, before.scope) := by
  simp only [scope, Scope.find?, find?, findEntry_map_entry, Option.map_map]
  rfl

/-- Places do not matter for what a source stands for. -/
theorem PlacedScope.scope_resolve? (p : PlacedScope) (t : Source) :
    p.scope.resolve? t = (p.resolve? t).map fun (c, before) => (c.entry, before.scope) := by
  fun_cases resolve? p t with
  | case1 name => exact p.scope_find? _
  | case2 => simp_all [Scope.resolve?]

theorem PlacedScope.resolve?_weight_lt {p before : PlacedScope} {t : Source} {c : PlacedCte}
    (h : p.resolve? t = some (c, before)) :
    sizeOf c.entry.cte.statement + before.scope.weight < p.scope.weight := by
  have h' := p.scope_resolve? t
  rw [h] at h'
  exact Scope.resolve?_weight_lt h'

/-! ## Sites -/

/-- A select with its place and the scope it stands in. -/
structure Site where
  select : Select
  place : Path
  scope : PlacedScope

/-- The selects that a body at a place combines. -/
def Body.sites (scope : PlacedScope) (place : Path) : Body → List Site
  | select q => [⟨q, place, scope⟩]
  | setOp l _ r => l.sites scope (place ++ [.left]) ++ r.sites scope (place ++ [.right])
  | nested ⟨w, b⟩ =>
    b.sites (scope.enter (place ++ [.operand]) ⟨w, b⟩) (place ++ [.operand, .body])

/-- The selects that a statement at a place combines. -/
def Statement.sites (scope : PlacedScope) (place : Path) (s : Statement) : List Site :=
  s.body.sites (scope.enter place s) (place ++ [.body])

/-- What bounds the descent from a site. -/
noncomputable def Site.weight (site : Site) : Nat := sizeOf site.select + site.scope.scope.weight

theorem Body.weight_lt_of_mem_sites {b : Body} {scope : PlacedScope} {place : Path} {site : Site}
    (h : site ∈ b.sites scope place) : site.weight < sizeOf b + scope.scope.weight := by
  fun_induction sites scope place b with
  | case1 scope place q =>
    simp only [List.mem_singleton] at h
    subst h
    simp +arith [Site.weight]
  | case2 scope place l op r ihl ihr =>
    simp only [List.mem_append] at h
    simp only [setOp.sizeOf_spec]
    rcases h with h | h
    · have := ihl h; omega
    · have := ihr h; omega
  | case3 scope place w b ih =>
    have h₁ := ih h
    have h₂ := scope.scope.weight_enter_le ⟨w, b⟩
    rw [PlacedScope.scope_enter] at h₁
    simp only [nested.sizeOf_spec] at *; omega

theorem Statement.weight_lt_of_mem_sites {s : Statement} {scope : PlacedScope} {place : Path}
    {site : Site} (h : site ∈ s.sites scope place) :
    site.weight < sizeOf s + scope.scope.weight := by
  have h₁ := Body.weight_lt_of_mem_sites h
  have h₂ := scope.scope.weight_enter_le s
  rw [PlacedScope.scope_enter] at h₁
  omega

end Sql
