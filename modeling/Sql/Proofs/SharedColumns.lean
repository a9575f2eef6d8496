import Sql.Proofs.InferredColumns
import Sql.Proofs.Results

/-!
# Columns that joins share

A join with USING says that its two sides have the columns it lists. The right side is one source;
the left side is what stands before it in the same item of the FROM clause, and a comma starts a new
item. An unknown table takes the listed columns of every join of the select, also of those that it
has no part in.

* `Select.joinedSources`: each source with the joins that it takes part in.
* `Select.Evidences`: what the text says of a source, its own joins included.
* `columnsOf_unknown`: which columns an unknown table has, and when the text says so of all of them.
-/

namespace Sql

variable {lookup : Option Lookup}

/-! ## The joins of a source -/

/-- The joins up to the next comma. -/
def untilComma (js : List Join) : List Join := js.takeWhile fun j => j.kind != .comma

/-- The right sides of joins, each with its own join and those that it stands on the left of. -/
def joinedSources : List Join → List (Source × List Join)
  | [] => []
  | j :: js => (j.right, j :: untilComma js) :: joinedSources js

/-- The sources of a select, each with the joins that it takes part in. -/
def Select.joinedSources (q : Select) : List (Source × List Join) :=
  (q.source.toList.map fun t => (t, untilComma q.joins)) ++ Sql.joinedSources q.joins

/-- Every source has its joins, in the order of the FROM clause. -/
theorem Select.map_fst_joinedSources (q : Select) : q.joinedSources.map Prod.fst = q.sources := by
  have hjoins : ∀ js : List Join, (Sql.joinedSources js).map Prod.fst = js.map Join.right := by
    intro js
    induction js with
    | nil => rfl
    | cons j js ih => rw [Sql.joinedSources, List.map_cons, List.map_cons, ih]
  rw [joinedSources, List.map_append, hjoins, List.map_map, sources]
  exact congrArg (· ++ _) (List.map_id _)

theorem mem_of_mem_untilComma {j : Join} {js : List Join} (h : j ∈ untilComma js) : j ∈ js :=
  (List.takeWhile_prefix _).subset h

theorem Select.joins_of_mem_joinedSources {q : Select} {t : Source} {js : List Join}
    (h : (t, js) ∈ q.joinedSources) : js ⊆ q.joins := by
  have hjoins : ∀ all : List Join, (t, js) ∈ Sql.joinedSources all → js ⊆ all := by
    intro all
    induction all with
    | nil => simp [Sql.joinedSources]
    | cons j rest ih =>
      intro h
      rcases List.mem_cons.mp h with h | h
      · obtain ⟨-, rfl⟩ := Prod.mk.inj h
        exact List.cons_subset_cons j fun k hk => mem_of_mem_untilComma hk
      · exact List.subset_cons_of_subset j (ih h)
  rcases List.mem_append.mp h with h | h
  · obtain ⟨t', -, h⟩ := List.mem_map.mp h
    obtain ⟨-, rfl⟩ := Prod.mk.inj h
    exact fun j hj => mem_of_mem_untilComma hj
  · exact hjoins q.joins h

/-! ## What the text says of a source -/

/-- The text says that a source with these joins has the column. -/
inductive Select.Evidences (q : Select) (t : Source) (js : List Join) (n : String) : Prop
  /-- An expression names it with the name of the source before it. -/
  | qualified (h : q.Mentions t.effectiveName n)
  /-- No join adds another source, and an expression names it without a qualifier. -/
  | bare (honly : q.joins = []) (h : q.MentionsBare n)
  /-- A join of the source lists it. -/
  | shared (j : Join) (hj : j ∈ js) (h : nameIn n j.constraint.sharedColumns = true)

theorem Expr.column?_eq_some {e : Expr} {c : ColumnRef} : e.column? = some c ↔ e = .column c := by
  cases e <;> simp [Expr.column?]

instance (q : Select) (source column : String) : Decidable (q.Mentions source column) :=
  decidable_of_iff
    (∃ e ∈ q.exprs, ∃ x ∈ e.nodes, ∃ c ∈ x.column?,
      (∃ k ∈ c.qualifier, sameName k source = true) ∧ sameName column c.name = true) <| by
    refine exists_congr fun e => and_congr_right fun _ => ⟨?_, ?_⟩
    · rintro ⟨x, hx, c, hc, h⟩
      obtain rfl := Expr.column?_eq_some.mp hc
      exact ⟨c, hx, h⟩
    · rintro ⟨c, hx, h⟩
      exact ⟨.column c, hx, c, rfl, h⟩

variable {q : Select} {t : Source} {js : List Join}

theorem Select.Evidences.congr {n k : String} (h : q.Evidences t js n)
    (hsame : sameName k n = true) : q.Evidences t js k := by
  cases h with
  | qualified h =>
    obtain ⟨e, he, c, hc, hqualifier, hname⟩ := h
    exact .qualified ⟨e, he, c, hc, hqualifier, sameName_trans hsame hname⟩
  | bare honly h =>
    obtain ⟨e, he, c, hc, hqualifier, halias, hname⟩ := h
    exact .bare honly ⟨e, he, c, hc, hqualifier, halias, sameName_trans hsame hname⟩
  | shared j hj h => exact .shared j hj (by rwa [nameIn_congr (sameName_iff.mp hsame)])

/-- What is inferred for a source is what the text says of it, and the columns that joins list. -/
theorem nameIn_inferColumns_iff (hplace : (t, js) ∈ q.joinedSources) {n : String} :
    nameIn n (inferColumns q t) = true
      ↔ q.Evidences t js n ∨ ∃ j ∈ q.joins, nameIn n j.constraint.sharedColumns = true := by
  rw [nameIn_inferColumns]
  constructor
  · rintro (h | ⟨honly, h⟩ | h)
    · exact .inl (.qualified h)
    · exact .inl (.bare honly h)
    · exact .inr h
  · rintro (h | h)
    · cases h with
      | qualified h => exact .inl h
      | bare honly h => exact .inr (.inl ⟨honly, h⟩)
      | shared j hj h => exact .inr (.inr ⟨j, q.joins_of_mem_joinedSources hplace hj, h⟩)
    · exact .inr (.inr h)

/-! ## The columns of an unknown table -/

/-- **An unknown table takes the listed columns of every join.** It has the columns that the text
says it has, and those that any join of the select lists. So the text says of each of its columns
that the table has it exactly when it says so of all the columns that joins list. -/
theorem columnsOf_unknown {scope : Scope} (hplace : (t, js) ∈ q.joinedSources)
    (hunknown : t.IsUnknown lookup scope) :
    ∃ columns, columnsOf lookup scope q t = .ok ⟨t.effectiveName, columns, true⟩
      ∧ (∀ n, nameIn n columns = true
        ↔ q.Evidences t js n ∨ ∃ j ∈ q.joins, nameIn n j.constraint.sharedColumns = true)
      ∧ ((∀ n ∈ columns, q.Evidences t js n)
        ↔ ∀ j ∈ q.joins, ∀ n ∈ j.constraint.sharedColumns, q.Evidences t js n) := by
  obtain ⟨path, name, asName, rfl, hresolve, hfound⟩ := hunknown
  have hcolumns := columnsOf_table hresolve hfound q
  have hinferred := fun n => nameIn_inferColumns_iff hplace (n := n)
  -- a listed column is inferred up to case, and case does not matter to what the text says
  refine ⟨inferColumns q (.table path name asName), hcolumns, hinferred, fun h j hj n hn => ?_,
    fun h n hn => ?_⟩
  · have hlisted := nameIn_iff.mpr ⟨n, hn, sameName_refl n⟩
    obtain ⟨k, hk, hsame⟩ := nameIn_iff.mp ((hinferred n).mpr (.inr ⟨j, hj, hlisted⟩))
    exact (h k hk).congr hsame
  · rcases (hinferred n).mp (nameIn_iff.mpr ⟨n, hn, sameName_refl n⟩) with hn | ⟨j, hj, hn⟩
    · exact hn
    · obtain ⟨k, hk, hsame⟩ := nameIn_iff.mp hn
      exact (h j hj k hk).congr hsame

/-- Without a lookup, every table that is no CTE is unknown. -/
theorem Source.isUnknown_none {scope : Scope} {t : Source} (htable : t.qualifiedName.isSome = true)
    (hresolve : scope.resolve? t = none) : t.IsUnknown none scope := by
  cases t with
  | table path name asName => exact ⟨path, name, asName, rfl, hresolve, rfl⟩
  | subquery s asName => cases htable

/-- In one statement, `b` takes no column that the text does not say it has, and `a` takes the
column that `b` and `c` share. -/
theorem columnsOf_unknown_beside : ∃ s, parse "select a.x from a, b join c using (k)" = .ok s
    ∧ (∃ t js columns, (t, js) ∈ s.body.leftmost.joinedSources ∧ t.effectiveName = "b"
      ∧ t.IsUnknown none (Scope.root s)
      ∧ columnsOf none (Scope.root s) s.body.leftmost t = .ok ⟨"b", columns, true⟩
      ∧ nameIn "k" columns = true ∧ ∀ n ∈ columns, s.body.leftmost.Evidences t js n)
    ∧ ∃ t js columns, (t, js) ∈ s.body.leftmost.joinedSources ∧ t.effectiveName = "a"
      ∧ t.IsUnknown none (Scope.root s)
      ∧ columnsOf none (Scope.root s) s.body.leftmost t = .ok ⟨"a", columns, true⟩
      ∧ nameIn "k" columns = true ∧ ¬ s.body.leftmost.Evidences t js "k" := by
  obtain ⟨s, hs, h⟩ := exists_ok_of_any
    (show (parse "select a.x from a, b join c using (k)").toOption.any (fun s =>
      let q := s.body.leftmost
      decide ((∃ j ∈ q.joins, nameIn "k" j.constraint.sharedColumns = true)
        ∧ (∃ p ∈ q.joinedSources, p.1.effectiveName = "b" ∧ p.1.qualifiedName.isSome = true
          ∧ ((Scope.root s).resolve? p.1).isNone = true
          ∧ ∀ j ∈ q.joins, ∀ n ∈ j.constraint.sharedColumns,
            ∃ j ∈ p.2, nameIn n j.constraint.sharedColumns = true)
        ∧ ∃ p ∈ q.joinedSources, p.1.effectiveName = "a" ∧ p.1.qualifiedName.isSome = true
          ∧ ((Scope.root s).resolve? p.1).isNone = true ∧ p.2.isEmpty = true
          ∧ ¬ q.Mentions p.1.effectiveName "k")) = true
      by decide +kernel)
  obtain ⟨⟨j, hj, hlisted⟩, ⟨⟨b, js⟩, hb, hname, htable, hresolve, hshared⟩,
    ⟨a, own⟩, ha, hown, htableA, hresolveA, hnone, hmentions⟩ := of_decide_eq_true h
  have hunknown := Source.isUnknown_none htable (Option.isNone_iff_eq_none.mp hresolve)
  have hunknownA := Source.isUnknown_none htableA (Option.isNone_iff_eq_none.mp hresolveA)
  obtain ⟨columns, hcolumns, hinferred, hsaid⟩ := columnsOf_unknown hb hunknown
  obtain ⟨taken, htaken, hinferredA, -⟩ := columnsOf_unknown ha hunknownA
  rw [hname] at hcolumns
  rw [hown] at htaken
  have hk : nameIn "k" columns = true := (hinferred "k").mpr (.inr ⟨j, hj, hlisted⟩)
  have hkA : nameIn "k" taken = true := (hinferredA "k").mpr (.inr ⟨j, hj, hlisted⟩)
  refine ⟨s, hs, ⟨b, js, columns, hb, hname, hunknown, hcolumns, hk, hsaid.mpr fun i hi n hn => ?_⟩,
    a, own, taken, ha, hown, hunknownA, htaken, hkA, ?_⟩
  · obtain ⟨i, hi, hn⟩ := hshared i hi n hn
    exact .shared i hi hn
  · -- `a` takes part in no join, and the text does not name `a.k`
    rintro (h | ⟨honly, -⟩ | ⟨i, hi, -⟩)
    · exact hmentions h
    · rw [honly] at hj
      cases hj
    · obtain rfl : own = [] := List.isEmpty_iff.mp hnone
      cases hi

end Sql
