import Mathlib.Data.List.Induction
import Sql.Edit.Combine
import Sql.Proofs.Results
import Sql.Proofs.StageNames

/-!
# How statements are combined

Combining does two things that do not touch each other: the CTEs of all statements become one list,
and their bodies one chain of set operations.

* `hoist_cases`, `hoistAll_cases`: the list is that of all CTEs in order, unless a name is there
  twice; then the first name that repeats an earlier one is reported.
* `combinedBody` is the chain. `combinedBody_induction` and `flatMap_combinedBody` take a property
  or a list from the bodies to the chain.
* `combine_eq` puts the two together, and `combine_eq_ok` reads them off a result.
-/

namespace Sql

/-! ## One list of CTEs -/

theorem namesDiffer_concat {ns : List String} {n : String} :
    NamesDiffer (ns ++ [n]) ↔ NamesDiffer ns ∧ nameIn n ns = false := by
  rw [NamesDiffer, NamesDiffer, List.pairwise_append, nameIn_eq_false]
  simp only [List.pairwise_singleton, List.mem_singleton, forall_eq, true_and]
  exact and_congr_right fun _ => forall₂_congr fun k _ => by rw [sameName_comm]

/-- The definition is the first one of the list that has the name of one before it. -/
def FirstRepeated (cs : List Cte) (c : Cte) : Prop :=
  ∃ before after, cs = before ++ c :: after ∧ NamesDiffer (before.map Cte.name)
    ∧ nameIn c.name (before.map Cte.name) = true

theorem FirstRepeated.not_namesDiffer {cs : List Cte} {c : Cte} (h : FirstRepeated cs c) :
    ¬ NamesDiffer (cs.map Cte.name) := by
  obtain ⟨before, after, rfl, -, hname⟩ := h
  intro hdiffer
  rw [List.append_cons, List.map_append, List.map_append, List.map_singleton] at hdiffer
  have hnew := (namesDiffer_concat.mp (List.pairwise_append.mp hdiffer).1).2
  simp [hname] at hnew

/-- Definitions are added to those before, or one of them repeats a name. -/
theorem hoist_cases {before : List Cte} (hdiffer : NamesDiffer (before.map Cte.name))
    (cs : List Cte) :
    (NamesDiffer ((before ++ cs).map Cte.name) ∧ hoist before cs = .ok (before ++ cs))
      ∨ ∃ c, FirstRepeated (before ++ cs) c ∧ hoist before cs = .error (.duplicateCte c.name) := by
  -- the definitions added so far always have names of their own
  induction cs generalizing before with
  | nil =>
    rw [List.append_nil]
    exact .inl ⟨hdiffer, rfl⟩
  | cons c cs ih =>
    rw [hoist]
    cases hnew : nameIn c.name (before.map Cte.name) with
    | true => exact .inr ⟨c, ⟨before, cs, rfl, hdiffer, hnew⟩, if_pos rfl⟩
    | false =>
      have hdiffer' : NamesDiffer ((before ++ [c]).map Cte.name) := by
        rw [List.map_append, List.map_singleton]
        exact namesDiffer_concat.mpr ⟨hdiffer, hnew⟩
      rw [if_neg Bool.false_ne_true, List.append_cons]
      exact ih hdiffer'

theorem hoist_append (before cs ds : List Cte) :
    hoist before (cs ++ ds) = (hoist before cs >>= fun out => hoist out ds) := by
  induction cs generalizing before with
  | nil => rfl
  | cons c cs ih =>
    rw [List.cons_append, hoist, hoist, ih]
    split <;> rfl

/-- The definitions of all statements are added one after the other. -/
theorem hoistAll_eq (statements : List Statement) :
    hoistAll statements = hoist [] (statements.flatMap Statement.ctes) := by
  have hfold : ∀ before : List Cte, statements.foldlM (fun before s => hoist before s.ctes) before
      = hoist before (statements.flatMap Statement.ctes) := by
    induction statements with
    | nil => exact fun before => rfl
    | cons s rest ih =>
      intro before
      rw [List.foldlM_cons, List.flatMap_cons, hoist_append]
      exact congrArg _ (funext ih)
  exact hfold []

theorem hoistAll_append (xs ys : List Statement) :
    hoistAll (xs ++ ys) = (hoistAll xs >>= fun out => hoist out (ys.flatMap Statement.ctes)) := by
  rw [hoistAll_eq, hoistAll_eq, List.flatMap_append, hoist_append]

/-- The CTEs of all statements, or the first of them that repeats a name. -/
theorem hoistAll_cases (statements : List Statement) :
    (NamesDiffer ((statements.flatMap Statement.ctes).map Cte.name)
        ∧ hoistAll statements = .ok (statements.flatMap Statement.ctes))
      ∨ ∃ c, FirstRepeated (statements.flatMap Statement.ctes) c
        ∧ hoistAll statements = .error (.duplicateCte c.name) := by
  have hnone : NamesDiffer (([] : List Cte).map Cte.name) := List.Pairwise.nil
  rw [hoistAll_eq]
  exact hoist_cases hnone _

theorem hoistAll_eq_ok {statements : List Statement} {out : List Cte}
    (h : hoistAll statements = .ok out) :
    out = statements.flatMap Statement.ctes ∧ NamesDiffer (out.map Cte.name) := by
  rcases hoistAll_cases statements with ⟨hdiffer, hok⟩ | ⟨_, -, herror⟩
  · obtain rfl := Except.ok.inj (h.symm.trans hok)
    exact ⟨rfl, hdiffer⟩
  · rw [h] at herror
    simp at herror

/-! ## One chain of bodies -/

/-- The bodies of some statements, in a chain behind that of a first one. -/
def combinedBody (op : SetOperator) (s : Statement) (rest : List Statement) : Body :=
  rest.foldl (fun left t => .setOp left op t.body.asNext) (s.body.asFirst op)

theorem combinedBody_nil (op : SetOperator) (s : Statement) :
    combinedBody op s [] = s.body.asFirst op := rfl

theorem combinedBody_append (op : SetOperator) (s : Statement) (rest more : List Statement) :
    combinedBody op s (rest ++ more)
      = more.foldl (fun left t => .setOp left op t.body.asNext) (combinedBody op s rest) :=
  List.foldl_append

theorem combinedBody_concat (op : SetOperator) (s : Statement) (rest : List Statement)
    (t : Statement) :
    combinedBody op s (rest ++ [t]) = .setOp (combinedBody op s rest) op t.body.asNext :=
  combinedBody_append op s rest [t]

theorem Body.asFirst_eq (op : SetOperator) (b : Body) :
    b.asFirst op = b ∨ b.asFirst op = b.inParens := by
  unfold asFirst
  split
  · exact .inr rfl
  · exact .inl rfl

theorem Body.asNext_eq (b : Body) : b.asNext = b ∨ b.asNext = b.inParens := by
  unfold asNext
  split
  · exact .inr rfl
  · exact .inl rfl

@[simp] theorem Body.isSetOp_asNext (b : Body) : b.asNext.isSetOp = false := by
  unfold asNext
  split
  · rfl
  · next h => exact (Bool.or_eq_false_iff.mp (Bool.eq_false_iff.mpr h)).1

@[simp] theorem Body.isTerm_asNext (b : Body) : b.asNext.isTerm = true := by
  have h := b.isSetOp_asNext
  revert h
  cases b.asNext <;> simp [isSetOp, isTerm]

@[simp] theorem Body.endsWithTrailingClauses_asNext (b : Body) :
    b.asNext.endsWithTrailingClauses = false := by
  unfold asNext
  split
  · rfl
  · next h => exact (Bool.or_eq_false_iff.mp (Bool.eq_false_iff.mpr h)).2

@[simp] theorem Body.isOtherSetOp_asFirst (op : SetOperator) (b : Body) :
    (b.asFirst op).isOtherSetOp op = false := by
  unfold asFirst
  split
  · rfl
  · next h => exact (Bool.or_eq_false_iff.mp (Bool.eq_false_iff.mpr h)).1

@[simp] theorem Body.endsWithTrailingClauses_asFirst (op : SetOperator) (b : Body) :
    (b.asFirst op).endsWithTrailingClauses = false := by
  unfold asFirst
  split
  · rfl
  · next h => exact (Bool.or_eq_false_iff.mp (Bool.eq_false_iff.mpr h)).2

/-- A chain can be the first operand of a longer one as it stands. -/
theorem asFirst_combinedBody (op : SetOperator) (s : Statement) (rest : List Statement) :
    (combinedBody op s rest).asFirst op = combinedBody op s rest := by
  have h : (combinedBody op s rest).isOtherSetOp op = false
      ∧ (combinedBody op s rest).endsWithTrailingClauses = false := by
    rcases List.eq_nil_or_concat rest with rfl | ⟨rest, t, rfl⟩
    · exact ⟨s.body.isOtherSetOp_asFirst op, s.body.endsWithTrailingClauses_asFirst op⟩
    · rw [List.concat_eq_append, combinedBody_concat]
      exact ⟨bne_self_eq_false op, t.body.endsWithTrailingClauses_asNext⟩
  rw [Body.asFirst, h.1, h.2]
  rfl

/-- A chain whose first operand is a chain goes on with it. -/
theorem combinedBody_combinedBody (op : SetOperator) (w : Option With) (s : Statement)
    (rest more : List Statement) :
    combinedBody op ⟨w, combinedBody op s rest⟩ more = combinedBody op s (rest ++ more) := by
  rw [combinedBody_append, combinedBody, asFirst_combinedBody]

/-- What stays in parentheses and under set operations, the chain has from the bodies. -/
theorem combinedBody_induction {P : Body → Prop} (hparens : ∀ b, P b → P b.inParens)
    (hsetOp : ∀ left op right, P left → P right → right.isTerm = true → P (.setOp left op right))
    (op : SetOperator) {s : Statement} {rest : List Statement} (h : ∀ t ∈ s :: rest, P t.body) :
    P (combinedBody op s rest) := by
  obtain ⟨hs, hrest⟩ := List.forall_mem_cons.mp h
  -- a chain grows at its end, and only the first body is asked for the operator
  induction rest using List.reverseRecOn with
  | nil =>
    rcases Body.asFirst_eq op s.body with heq | heq <;> rw [combinedBody_nil, heq]
    · exact hs
    · exact hparens _ hs
  | append_singleton rest t ih =>
    obtain ⟨hrest, ht⟩ := List.forall_mem_append.mp hrest
    have ht := List.forall_mem_singleton.mp ht
    rw [combinedBody_concat]
    refine hsetOp _ _ _ (ih (List.forall_mem_cons.mpr ⟨hs, hrest⟩) hrest) ?_ t.body.isTerm_asNext
    rcases t.body.asNext_eq with heq | heq <;> rw [heq]
    · exact ht
    · exact hparens _ ht

/-- What is collected through parentheses and set operations, the chain has from the bodies. -/
theorem flatMap_combinedBody {α : Type} {f : Body → List α} (hparens : ∀ b, f b.inParens = f b)
    (hsetOp : ∀ left op right, f (.setOp left op right) = f left ++ f right) (op : SetOperator)
    (s : Statement) (rest : List Statement) :
    f (combinedBody op s rest) = (s :: rest).flatMap fun t => f t.body := by
  induction rest using List.reverseRecOn with
  | nil =>
    rw [List.flatMap_singleton]
    rcases Body.asFirst_eq op s.body with heq | heq <;> rw [combinedBody_nil, heq]
    exact hparens _
  | append_singleton rest t ih =>
    have ht : f t.body.asNext = f t.body := by
      rcases t.body.asNext_eq with heq | heq <;> rw [heq]
      exact hparens _
    rw [combinedBody_concat, hsetOp, ih, ht, ← List.cons_append, List.flatMap_append,
      List.flatMap_singleton]

/-! ## The combined statement -/

@[simp] theorem Statement.ctes_withOf (recursive : Bool) (cs : List Cte) (b : Body) :
    Statement.ctes ⟨withOf recursive cs, b⟩ = cs := by
  unfold withOf
  split
  · next h => exact (List.isEmpty_iff.mp h).symm
  · rfl

theorem Statement.isRecursive_withOf (recursive : Bool) {cs : List Cte} (h : cs ≠ []) (b : Body) :
    Statement.isRecursive ⟨withOf recursive cs, b⟩ = recursive := by
  rw [withOf, if_neg (by rwa [List.isEmpty_iff])]
  rfl

theorem withOf_eq_none {recursive : Bool} {cs : List Cte} :
    withOf recursive cs = none ↔ cs = [] := by
  rw [withOf, ← List.isEmpty_iff]
  split <;> simp_all

theorem ctes_ne_of_mem_withOf {recursive : Bool} {cs : List Cte} {w : With}
    (h : w ∈ withOf recursive cs) : w.ctes ≠ [] := by
  rintro hnil
  unfold withOf at h
  split at h
  · simp at h
  · next hne =>
    obtain rfl := Option.some.inj h
    exact hne (List.isEmpty_iff.mpr hnil)

/-- Two statements or more are combined in both ways at once. -/
theorem combine_eq (op : SetOperator) (s : Statement) {rest : List Statement} (hrest : rest ≠ []) :
    combine (s :: rest) op = (hoistAll (s :: rest)).map fun ctes =>
      ⟨withOf ((s :: rest).any Statement.isRecursive) ctes, combinedBody op s rest⟩ := by
  obtain ⟨t, rest, rfl⟩ := List.exists_cons_of_ne_nil hrest
  rw [combine]
  · cases hoistAll (s :: t :: rest) <;> rfl
  · simp

/-- Two statements or more can be combined, or one of their CTEs repeats a name. -/
theorem combine_cases {statements : List Statement} (hlength : 2 ≤ statements.length)
    (op : SetOperator) :
    (NamesDiffer ((statements.flatMap Statement.ctes).map Cte.name)
        ∧ ∃ t, combine statements op = .ok t)
      ∨ ∃ c, FirstRepeated (statements.flatMap Statement.ctes) c
        ∧ combine statements op = .error (.duplicateCte c.name) := by
  match statements, hlength with
  | s :: u :: rest, _ =>
    have hcombine := combine_eq op s (List.cons_ne_nil u rest)
    rcases hoistAll_cases (s :: u :: rest) with ⟨hdiffer, hok⟩ | ⟨c, hc, herror⟩
    · rw [hok] at hcombine
      exact .inl ⟨hdiffer, _, hcombine⟩
    · rw [herror] at hcombine
      exact .inr ⟨c, hc, hcombine⟩

/-- What was combined: one statement, or several whose CTEs all have names of their own. -/
theorem combine_eq_ok {statements : List Statement} {op : SetOperator} {t : Statement}
    (h : combine statements op = .ok t) :
    statements = [t] ∨ ∃ s rest, statements = s :: rest
      ∧ NamesDiffer ((statements.flatMap Statement.ctes).map Cte.name)
      ∧ t = ⟨withOf (statements.any Statement.isRecursive) (statements.flatMap Statement.ctes),
        combinedBody op s rest⟩ := by
  match statements with
  | [] => simp [combine] at h
  | [s] => exact .inl (by rw [Except.ok.inj h])
  | s :: u :: rest =>
    rw [combine_eq op s (List.cons_ne_nil u rest)] at h
    rcases hoistAll_cases (s :: u :: rest) with ⟨hdiffer, hok⟩ | ⟨_, -, herror⟩
    · rw [hok] at h
      exact .inr ⟨s, u :: rest, rfl, hdiffer, (Except.ok.inj h).symm⟩
    · rw [herror] at h
      simp [Except.map] at h

end Sql
