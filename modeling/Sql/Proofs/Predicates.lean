import Mathlib.Data.List.Forall2
import Sql.Collect.Parameters
import Sql.Filter
import Sql.Statement.Same
import Sql.Proofs.ParamNames

/-!
# Predicates of criteria

A criterion gives names to its values (`Criterion.bindings`), and its predicate is one of four
conditions over the column with these names and values (`Criterion.shape_of_predicate`). What is
compared with the column can be read off a predicate again (`Predicate.compared_eq`).
-/

namespace Sql

/-! ## Names and values -/

/-- The names that a criterion gives its values, and the values. A comparison with null has none. -/
def Criterion.bindings (base : String) : Criterion → List (String × Value)
  | equals .null => []
  | equals v => [(base, v)]
  | like pattern => [(base ++ "_like", .string pattern)]
  | atLeast v => [(base ++ "_min", v)]
  | atMost v => [(base ++ "_max", v)]
  | range low high =>
    low.toList.map (fun v => (base ++ "_min", v)) ++ high.toList.map fun v => (base ++ "_max", v)
  | oneOf vs => vs.zipIdx.map fun (v, i) => (base ++ "_in_" ++ toString i, v)
  | omitted => []

/-- The names and values of all criteria that ask for something. -/
def Criteria.bindings (cs : Criteria) : List (String × Value) :=
  cs.active.flatMap fun (key, c) => c.bindings (paramBase key)

/-- A parameter bound to a value by its name. -/
def bindingParam (b : String × Value) : Param := .bound b.1 b.2

theorem Criterion.isParamName_of_mem_bindings {base : String} (hbase : IsParamName base)
    {c : Criterion} : ∀ b ∈ c.bindings base, IsParamName b.1 := by
  have hlow : IsParamName (base ++ "_min") := hbase.append (by decide +kernel)
  have hhigh : IsParamName (base ++ "_max") := hbase.append (by decide +kernel)
  fun_cases bindings base c with
  | case1 => simp
  | case2 v hv => simpa using hbase
  | case3 pattern => simpa using hbase.append (by decide +kernel)
  | case4 v => simpa using hlow
  | case5 v => simpa using hhigh
  | case6 low high =>
    intro b hb
    rcases List.mem_append.mp hb with hb | hb
    · obtain ⟨v, -, rfl⟩ := List.mem_map.mp hb
      exact hlow
    · obtain ⟨v, -, rfl⟩ := List.mem_map.mp hb
      exact hhigh
  | case7 vs =>
    intro b hb
    obtain ⟨⟨v, i⟩, -, rfl⟩ := List.mem_map.mp hb
    exact (hbase.append (by decide +kernel)).append (all_isWordChar_toString i)
  | case8 => simp

/-! ## Conditions -/

/-- The condition that some names and values make of a column. -/
inductive Predicate (column : Expr) : List (String × Value) → Expr → Prop
  | missing : Predicate column [] (.isNull column false)
  | compare {op : BinaryOp} {b : String × Value} (h : op ≠ .and) :
      Predicate column [b] (.binary column op (.param (bindingParam b)))
  | within {low high : String × Value} :
      Predicate column [low, high] (.and (.binary column .gtEq (.param (bindingParam low)))
        (.binary column .ltEq (.param (bindingParam high))))
  | listed {bs : List (String × Value)} (h : bs ≠ []) :
      Predicate column bs (.inList column (bs.map fun b => .param (bindingParam b)) false)

theorem listParams_eq (base : String) (vs : List Value) (i : Nat) :
    listParams base i vs = ((vs.zipIdx i).map fun (v, i) => (base ++ "_in_" ++ toString i, v)).map
      fun b => .param (bindingParam b) := by
  induction vs generalizing i with
  | nil => rfl
  | cons v vs ih =>
    rw [listParams, ih]
    rfl

/-- **A criterion makes one of four conditions of a column,** with its names and values. -/
theorem Criterion.shape_of_predicate {c : Criterion} {column e : Expr} {key : String}
    (h : c.predicate column key = .ok e) : Predicate column (c.bindings (paramBase key)) e := by
  unfold predicate at h
  generalize paramBase key = base at h
  split at h
  · next e' he =>
    obtain rfl := Except.ok.inj h
    fun_cases predicate? column base c with
    | case1 =>
      obtain rfl := Except.ok.inj he
      exact .missing
    | case2 v hv =>
      rw [predicate?.eq_2 _ _ _ hv] at he
      obtain rfl := Except.ok.inj he
      rw [bindings.eq_2 _ _ hv]
      exact .compare (by decide)
    -- a pattern, and an interval that one bound leaves open on the other side
    | case3 | case4 | case5 | case7 | case8 =>
      obtain rfl := Except.ok.inj he
      exact .compare (by decide)
    | case6 low high =>
      obtain rfl := Except.ok.inj he
      exact .within
    -- an interval without bounds, and lists that are empty
    | case9 | case10 | case12 => simp [predicate?] at he
    | case11 vs hvs =>
      rw [predicate?.eq_11 _ _ _ hvs] at he
      obtain rfl := Except.ok.inj he
      rw [listParams_eq]
      exact .listed (by simpa [bindings] using fun h => hvs h)
  · simp at h

/-- The parameters that a predicate compares its column with. -/
def Expr.compared : Expr → List Param
  | .binary l .and r => l.compared ++ r.compared
  | .binary _ _ (.param p) => [p]
  | .inList _ items _ => items.filterMap Expr.param?
  | _ => []

/-- **A predicate compares its column with the values of its criterion,** under their names. -/
theorem Predicate.compared_eq {column e : Expr} {bs : List (String × Value)}
    (h : Predicate column bs e) : e.compared = bs.map bindingParam := by
  cases h with
  | missing => rfl
  | compare h => exact Expr.compared.eq_2 _ _ _ h
  | within => rfl
  | listed h =>
    rw [Expr.compared, List.filterMap_map]
    exact congrFun List.filterMap_eq_map bs

theorem forall₂_of_sameExprs {as bs : List Expr} (h : sameExprs as bs = true) :
    List.Forall₂ (fun a b => a.same b = true) as bs := by
  induction as generalizing bs with
  | nil =>
    cases bs with
    | nil => exact .nil
    | cons b bs => simp [sameExprs] at h
  | cons a as ih =>
    cases bs with
    | nil => simp [sameExprs] at h
    | cons b bs =>
      rw [sameExprs, Bool.and_eq_true] at h
      exact .cons h.1 (ih h.2)

/-- What is the same as a parameter is one with the same name and value. -/
theorem Expr.param?_of_same {a b : Expr} (h : a.same b = true) :
    Option.Rel (fun p q => p.same q = true) a.param? b.param? := by
  cases a <;> cases b <;> simp_all [Expr.same, Expr.param?]

/-- Predicates that are the same compare with the same names and values. -/
theorem Expr.compared_of_same {a b : Expr} (h : a.same b = true) :
    List.Forall₂ (fun p q => p.same q = true) a.compared b.compared := by
  fun_induction compared a generalizing b with
  | case1 l r ihl ihr =>
    cases b <;> simp only [Expr.same, Bool.and_eq_true, beq_iff_eq, Bool.false_eq_true] at h
    obtain ⟨⟨rfl, hl⟩, hr⟩ := h
    exact List.rel_append (ihl hl) (ihr hr)
  | case2 l op p hop =>
    cases b with
    | binary l' op' r' =>
      simp only [Expr.same, Bool.and_eq_true, beq_iff_eq] at h
      obtain ⟨⟨rfl, -⟩, hr⟩ := h
      cases r' <;> simp only [Expr.same, Bool.false_eq_true] at hr
      rw [compared.eq_2 _ _ _ hop]
      exact .cons hr .nil
    | _ => simp [Expr.same] at h
  | case3 e items negated =>
    cases b with
    | inList e' items' negated' =>
      simp only [Expr.same, Bool.and_eq_true] at h
      refine List.rel_filterMap (R := fun a b : Expr => a.same b = true) ?_
        (forall₂_of_sameExprs h.1.2)
      exact fun _ _ => Expr.param?_of_same
    | _ => simp [Expr.same] at h
  | case4 a hand hparam hlist =>
    -- nothing is read off the other one either, since it has the same shape
    have hb : b.compared = [] := by
      unfold compared
      split
      · cases a <;> simp_all [Expr.same]
      · next l' op p' hop =>
        cases a with
        | binary l op r => cases r <;> simp_all [Expr.same]
        | _ => simp [Expr.same] at h
      · cases a <;> simp_all [Expr.same]
      · rfl
    rw [hb]
    exact .nil

end Sql
