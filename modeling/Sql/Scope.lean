import Sql.Statement

/-!
# CTEs in scope

At every place of a tree some CTEs can be named. A later definition hides an earlier one of the
same name, and the body of a CTE sees only the definitions before it. The list of a scope starts
with the innermost definition, so what a CTE sees is what stands behind it.

* `Scope.find?` takes a name to its definition and the scope of its body.
* `Body.leftmostIn` is the select that names the columns of a body, with the scope it stands in.
* `Scope.weight` bounds every descent: entering a statement trades its size for weight, and
  following a name gives weight away (`Scope.weight_enter_le`, `Scope.find?_weight_lt`,
  `Body.leftmostIn_weight_lt`).
-/

namespace Sql

/-- A CTE in scope, and whether its WITH clause is recursive. -/
structure CteEntry where
  cte : Cte
  recursive : Bool

/-- The CTEs that can be named, innermost first, and how many names have been followed to get
here. -/
structure Scope where
  entries : List CteEntry
  depth : Nat

/-- The first entry of that name, and the entries behind it. -/
def findEntry (name : String) : List CteEntry → Option (CteEntry × List CteEntry)
  | [] => none
  | e :: rest => if sameName e.cte.name name then some (e, rest) else findEntry name rest

namespace Scope

/-- No CTE. -/
def empty : Scope := ⟨[], 0⟩

/-- The scope inside a statement: its own CTEs are added, the last one innermost. -/
def enter (scope : Scope) (s : Statement) : Scope :=
  { scope with
    entries := (s.ctes.map fun c => ⟨c, s.isRecursive⟩).reverse ++ scope.entries }

/-- The scope of a statement that stands alone. -/
def root (s : Statement) : Scope := empty.enter s

/-- The CTE of that name, and the scope of its body. -/
def find? (scope : Scope) (name : String) : Option (CteEntry × Scope) :=
  (findEntry name scope.entries).map fun (e, before) => (e, ⟨before, scope.depth + 1⟩)

/-- The CTE that a source names, and the scope of its body. A qualified name names no CTE. -/
def resolve? (scope : Scope) : Source → Option (CteEntry × Scope)
  | .table [] name _ => scope.find? name
  | _ => none

end Scope

/-- The select that names the columns of a body, and the scope it stands in. -/
def Body.leftmostIn : Body → Scope → Select × Scope
  | select q, scope => (q, scope)
  | setOp left _ _, scope => left.leftmostIn scope
  | nested ⟨w, body⟩, scope => body.leftmostIn (scope.enter ⟨w, body⟩)

theorem Body.leftmostIn_fst (b : Body) (scope : Scope) : (b.leftmostIn scope).1 = b.leftmost := by
  fun_induction leftmostIn b scope <;> simp_all [leftmost]

/-! ## Weight -/

/-- The size of all definitions in a list. -/
noncomputable def entriesWeight : List CteEntry → Nat
  | [] => 0
  | e :: rest => sizeOf e.cte + entriesWeight rest

theorem entriesWeight_append (a b : List CteEntry) :
    entriesWeight (a ++ b) = entriesWeight a + entriesWeight b := by
  induction a with
  | nil => simp [entriesWeight]
  | cons e rest ih => simp [entriesWeight, ih, Nat.add_assoc]

theorem entriesWeight_reverse (a : List CteEntry) :
    entriesWeight a.reverse = entriesWeight a := by
  induction a with
  | nil => rfl
  | cons e rest ih => simp [entriesWeight, entriesWeight_append, ih, Nat.add_comm]

theorem entriesWeight_map_le (ctes : List Cte) (r : Bool) :
    entriesWeight (ctes.map fun c => ⟨c, r⟩) ≤ sizeOf ctes := by
  induction ctes with
  | nil => simp [entriesWeight]
  | cons c rest ih => simp only [List.map_cons, entriesWeight, List.cons.sizeOf_spec]; omega

namespace Scope

/-- The size of all definitions in scope. -/
noncomputable def weight (scope : Scope) : Nat := entriesWeight scope.entries

theorem weight_enter_le (scope : Scope) (s : Statement) :
    sizeOf s.body + (scope.enter s).weight < sizeOf s + scope.weight := by
  obtain ⟨w, b⟩ := s
  simp only [weight, enter, entriesWeight_append, entriesWeight_reverse, Statement.mk.sizeOf_spec]
  cases w with
  | none => simp +arith [Statement.ctes, entriesWeight]
  | some w =>
    obtain ⟨r, cs⟩ := w
    have := entriesWeight_map_le cs r
    simp only [Statement.ctes, Statement.isRecursive, Option.some.sizeOf_spec,
      With.mk.sizeOf_spec]
    omega

end Scope

theorem findEntry_weight {name : String} {entries before : List CteEntry} {e : CteEntry}
    (h : findEntry name entries = some (e, before)) :
    sizeOf e.cte + entriesWeight before ≤ entriesWeight entries := by
  induction entries with
  | nil => simp [findEntry] at h
  | cons x rest ih =>
    simp only [findEntry] at h
    split at h
    · simp only [Option.some.injEq, Prod.mk.injEq] at h
      obtain ⟨rfl, rfl⟩ := h
      simp [entriesWeight]
    · have := ih h
      simp only [entriesWeight]; omega

theorem Scope.find?_weight_lt {scope before : Scope} {name : String} {e : CteEntry}
    (h : scope.find? name = some (e, before)) :
    sizeOf e.cte.statement + before.weight < scope.weight := by
  simp only [find?, Option.map_eq_some_iff, Prod.exists, Prod.mk.injEq] at h
  obtain ⟨e', entries, h, rfl, rfl⟩ := h
  have := findEntry_weight h
  obtain ⟨⟨n, cs, s⟩, r⟩ := e'
  simp only [weight, Cte.mk.sizeOf_spec] at *; omega

theorem Scope.resolve?_weight_lt {scope before : Scope} {t : Source} {e : CteEntry}
    (h : scope.resolve? t = some (e, before)) :
    sizeOf e.cte.statement + before.weight < scope.weight := by
  fun_cases resolve? scope t with
  | case1 name => exact find?_weight_lt h
  | case2 => simp_all [resolve?]

theorem Body.leftmostIn_weight_lt (b : Body) (scope : Scope) :
    sizeOf (b.leftmostIn scope).1 + (b.leftmostIn scope).2.weight < sizeOf b + scope.weight := by
  fun_induction leftmostIn b scope with
  | case1 => simp +arith
  | case2 _ _ _ _ ih => simp only [setOp.sizeOf_spec]; omega
  | case3 w body scope ih =>
    have := scope.weight_enter_le ⟨w, body⟩
    simp only [nested.sizeOf_spec, Statement.mk.sizeOf_spec] at *; omega

end Sql
