import Sql.Proofs.AnyDepth
import Sql.Proofs.Combining

/-!
# Combined statements keep their operands

A combined statement is the one that the operands call for: it has their CTEs, their bodies are the
operands of its chain, and its text is read as the same chain. So what belongs to one operand, such
as ORDER BY or an operator of its own, belongs to that operand in the text as well.

* `Body.Chains` is the chain with what is asked of every operand.
* `combine_keepsOperands`: when statements can be combined, and what they are combined to.
* `combine_append`: combining some statements first and the rest with the result is combining all.
-/

namespace Sql

variable {statements : List Statement} {op : SetOperator} {t : Statement}

/-! ## When names stay apart -/

/-- No CTE of the first statement has the name of a CTE of the second. -/
def Statement.DefinesApart (s t : Statement) : Prop :=
  ∀ c ∈ s.ctes, ∀ d ∈ t.ctes, sameName c.name d.name = false

instance : DecidableRel Statement.DefinesApart := fun s t =>
  inferInstanceAs (Decidable (∀ c ∈ s.ctes, ∀ d ∈ t.ctes, sameName c.name d.name = false))

/-- Where the names of each statement differ, those of all do if no two statements share one. -/
theorem namesDiffer_flatMap (h : ∀ s ∈ statements, NamesDiffer (s.ctes.map Cte.name)) :
    NamesDiffer ((statements.flatMap Statement.ctes).map Cte.name)
      ↔ statements.Pairwise Statement.DefinesApart := by
  rw [NamesDiffer, List.map_flatMap, List.pairwise_flatMap]
  refine (and_iff_right h).trans (iff_of_eq (congrArg (List.Pairwise · statements) ?_))
  funext s t
  simp only [Statement.DefinesApart, List.forall_mem_map]

/-! ## The chain -/

/-- The operand is the body as it is, or in parentheses. -/
def Body.KeptAs (b operand : Body) : Prop := operand = b ∨ operand = b.inParens

/-- The last body chains the bodies of the list by one operator. The first operand may be such a
chain itself, which then goes on, and the others are no set operations. What an operand ends with
stands in parentheses where it would belong to the whole chain. -/
inductive Body.Chains (op : SetOperator) : List Body → Body → Prop
  | first {b operand : Body} : b.KeptAs operand → operand.isOtherSetOp op = false →
      operand.endsWithTrailingClauses = false → Chains op [b] operand
  | next {bodies : List Body} {chain b operand : Body} : Chains op bodies chain →
      b.KeptAs operand → operand.isSetOp = false → operand.endsWithTrailingClauses = false →
        Chains op (bodies ++ [b]) (.setOp chain op operand)

theorem combinedBody_chains (op : SetOperator) (s : Statement) (rest : List Statement) :
    (combinedBody op s rest).Chains op ((s :: rest).map Statement.body) := by
  induction rest using List.reverseRecOn with
  | nil =>
    exact .first (s.body.asFirst_eq op) (s.body.isOtherSetOp_asFirst op)
      (s.body.endsWithTrailingClauses_asFirst op)
  | append_singleton rest t ih =>
    rw [combinedBody_concat, ← List.cons_append, List.map_append, List.map_singleton]
    exact .next ih t.body.asNext_eq t.body.isSetOp_asNext t.body.endsWithTrailingClauses_asNext

/-! ## Well-formed statements -/

section

variable {strict bounded : Prop} {n : Nat}

/-- A clause without CTEs has no text, so no statement that was read is recursive for nothing. -/
theorem Statement.ctes_ne_of_isRecursive {s : Statement} (h : s.Wf strict bounded n)
    (hrecursive : s.isRecursive = true) : s.ctes ≠ [] := by
  have hne := (Statement.wf_iff.mp h).1
  obtain ⟨w, b⟩ := s
  cases w with
  | none => simp [isRecursive] at hrecursive
  | some w => exact hne w rfl

end

/-- The combined statement is recursive if one of the statements is. -/
theorem isRecursive_combined (h : ∀ s ∈ statements, s.isRecursive = true → s.ctes ≠ [])
    (b : Body) :
    Statement.isRecursive
        ⟨withOf (statements.any Statement.isRecursive) (statements.flatMap Statement.ctes), b⟩
      = statements.any Statement.isRecursive := by
  by_cases hnil : statements.flatMap Statement.ctes = []
  · -- no statement has CTEs, so none is recursive
    have hnone : statements.any Statement.isRecursive = false := by
      refine List.any_eq_false.mpr fun s hs hrecursive => h s hs hrecursive ?_
      exact List.flatMap_eq_nil_iff.mp hnil s hs
    rw [hnil, hnone]
    rfl
  · exact Statement.isRecursive_withOf _ hnil b

/-- **Combining keeps statements well formed**, at any depth. -/
theorem combine_wf (hall : ∀ s ∈ statements, ∀ n, s.Wf True False n)
    (h : combine statements op = .ok t) : ∀ n, t.Wf True False n := by
  rcases combine_eq_ok h with rfl | ⟨s, rest, rfl, hdiffer, rfl⟩
  · exact hall t List.mem_cons_self
  · -- parentheses open a level, which does no harm as the depth is not limited
    have hbody : ∀ n, (combinedBody op s rest).Wf True False n := by
      refine combinedBody_induction (P := fun b => ∀ n, b.Wf True False n) (fun b hb n => ?_)
        (fun left op right hl hr hterm n => ?_) op fun u hu n => ?_
      · rw [Body.inParens, Body.Wf, Statement.wf_iff]
        exact ⟨False.elim, by simp, by simp [Statement.ctes, ctesWf], List.Pairwise.nil, hb _⟩
      · rw [Body.Wf]
        exact ⟨hl n, hr n, hterm⟩
      · exact (Statement.wf_iff.mp (hall u hu n)).2.2.2
    refine fun n => Statement.wf_iff.mpr ⟨fun w hw => ctes_ne_of_mem_withOf hw, ?_, ?_, hbody n⟩
    · rw [Statement.ctes_withOf]
      refine ctesWf_iff.mpr fun c hc => ?_
      obtain ⟨u, hu, hc⟩ := List.mem_flatMap.mp hc
      exact ctesWf_iff.mp (Statement.wf_iff.mp (hall u hu n)).2.1 c hc
    · rwa [Statement.ctes_withOf]

/-! ## Operands -/

/-- What a statement has of those that it combines. -/
structure Combination (statements : List Statement) (op : SetOperator) (t : Statement) : Prop where
  ctes : t.ctes = statements.flatMap Statement.ctes
  clause_iff : t.withClause = none ↔ t.ctes = []
  recursive : t.isRecursive = statements.any Statement.isRecursive
  leaves : t.body.leaves = statements.flatMap fun s => s.body.leaves
  chains : t.body.Chains op (statements.map Statement.body)

theorem combination_of_combine (hlength : 2 ≤ statements.length)
    (hrecursive : ∀ s ∈ statements, s.isRecursive = true → s.ctes ≠ [])
    (h : combine statements op = .ok t) : Combination statements op t := by
  rcases combine_eq_ok h with rfl | ⟨s, rest, rfl, -, rfl⟩
  · simp at hlength
  · exact {
      ctes := Statement.ctes_withOf _ _ _
      clause_iff := by
        rw [Statement.ctes_withOf]
        exact withOf_eq_none
      recursive := isRecursive_combined hrecursive _
      leaves := flatMap_combinedBody (fun b => rfl) (fun left op right => rfl) op s rest
      chains := combinedBody_chains op s rest }

/-- **Combining loses nothing and keeps every operand whole.** Two statements or more can be
combined if no two of them define a CTE of the same name; otherwise the first definition that
repeats a name is reported. The combined statement has the CTEs and the selects of all of them in
order and chains their bodies, and it is printed and read as itself. -/
theorem combine_keepsOperands (hlength : 2 ≤ statements.length)
    (hread : ∀ s ∈ statements, ∃ text, parse text = .ok s)
    (hnamed : ∀ s ∈ statements, ∀ e ∈ s.nodesInOrder, e.Named) :
    ((∃ t, combine statements op = .ok t) ↔ statements.Pairwise Statement.DefinesApart)
      ∧ (¬ statements.Pairwise Statement.DefinesApart →
        ∃ c, FirstRepeated (statements.flatMap Statement.ctes) c
          ∧ combine statements op = .error (.duplicateCte c.name))
      ∧ ∀ t, combine statements op = .ok t →
        Combination statements op t ∧ ∀ d ∈ readableDialects, t.ReadsAsItself d.config := by
  have hwf : ∀ s ∈ statements, ∀ n, s.Wf True False n := by
    intro s hs
    obtain ⟨text, hparse⟩ := hread s hs
    exact Statement.wf_of_read hparse (hnamed s hs)
  have hapart := namesDiffer_flatMap fun s hs => (Statement.wf_iff.mp (hwf s hs 0)).2.2.1
  have hwhole : ∀ t, combine statements op = .ok t →
      Combination statements op t ∧ ∀ d ∈ readableDialects, t.ReadsAsItself d.config := by
    refine fun t ht => ⟨combination_of_combine hlength (fun s hs => ?_) ht, fun d hd => ?_⟩
    · exact Statement.ctes_ne_of_isRecursive (hwf s hs 0)
    · exact Statement.readsAsItself (combine_wf hwf ht) hd
  rcases combine_cases hlength op with ⟨hdiffer, hok⟩ | ⟨c, hc, herror⟩
  · exact ⟨iff_of_true hok (hapart.mp hdiffer), fun hnot => absurd (hapart.mp hdiffer) hnot, hwhole⟩
  · refine ⟨iff_of_false ?_ (mt hapart.mpr hc.not_namesDiffer), fun _ => ⟨c, hc, herror⟩, hwhole⟩
    rintro ⟨t, ht⟩
    simp [ht] at herror

/-- An operand with LIMIT, and a set operation as the second one: both stand in parentheses, and the
CTE moves to the front. A statement that defines the same name in capital letters cannot be combined
with the first one. -/
theorem combine_keepsOperands_except : ∃ s₁ s₂ s₃ t out,
    parse "with a as (select 1) select x limit 2" = .ok s₁
      ∧ parse "select y union select z" = .ok s₂
      ∧ parse "with A as (select 1) select x" = .ok s₃
      ∧ (∀ s ∈ [s₁, s₂, s₃], ∀ e ∈ s.nodesInOrder, e.Named)
      ∧ [s₁, s₂].Pairwise Statement.DefinesApart
      ∧ combine [s₁, s₂] .except = .ok t ∧ Combination [s₁, s₂] .except t
      ∧ (∀ d ∈ readableDialects, t.ReadsAsItself d.config) ∧ Dialect.generic ∈ readableDialects
      ∧ t.format Dialect.generic.config = .ok out
      ∧ out.sql = "WITH a AS (SELECT 1) (SELECT x LIMIT 2) "
        ++ "EXCEPT (SELECT y UNION SELECT z)"
      ∧ ¬ [s₁, s₃].Pairwise Statement.DefinesApart
      ∧ ∃ c, FirstRepeated ([s₁, s₃].flatMap Statement.ctes) c
        ∧ combine [s₁, s₃] .except = .error (.duplicateCte c.name) := by
  obtain ⟨s₁, h₁, h⟩ := exists_ok_of_any
    (show (parse "with a as (select 1) select x limit 2").toOption.any (fun s₁ =>
      (parse "select y union select z").toOption.any fun s₂ =>
      (parse "with A as (select 1) select x").toOption.any fun s₃ =>
      (combine [s₁, s₂] .except).toOption.any fun t =>
      (t.format Dialect.generic.config).toOption.any fun out =>
        decide ((∀ s ∈ [s₁, s₂, s₃], ∀ e ∈ s.nodesInOrder, e.Named)
          ∧ out.sql = "WITH a AS (SELECT 1) (SELECT x LIMIT 2) "
            ++ "EXCEPT (SELECT y UNION SELECT z)"
          ∧ ¬ [s₁, s₃].Pairwise Statement.DefinesApart)) = true by decide +kernel)
  obtain ⟨s₂, h₂, h⟩ := exists_ok_of_any h
  obtain ⟨s₃, h₃, h⟩ := exists_ok_of_any h
  obtain ⟨t, ht, h⟩ := exists_ok_of_any h
  obtain ⟨out, hout, h⟩ := exists_ok_of_any h
  obtain ⟨hnamed, hsql, hnot⟩ := of_decide_eq_true h
  obtain ⟨hnamed₁, hrest⟩ := List.forall_mem_cons.mp hnamed
  obtain ⟨hnamed₂, hnamed₃⟩ := List.forall_mem_cons.mp hrest
  obtain ⟨hapart, -, hwhole⟩ := @combine_keepsOperands [s₁, s₂] .except
    (Nat.le_refl 2) (List.forall_mem_cons.mpr ⟨⟨_, h₁⟩, List.forall_mem_singleton.mpr ⟨_, h₂⟩⟩)
    (List.forall_mem_cons.mpr ⟨hnamed₁, List.forall_mem_singleton.mpr hnamed₂⟩)
  obtain ⟨-, hrepeats, -⟩ := @combine_keepsOperands [s₁, s₃] .except
    (Nat.le_refl 2) (List.forall_mem_cons.mpr ⟨⟨_, h₁⟩, List.forall_mem_singleton.mpr ⟨_, h₃⟩⟩)
    (List.forall_mem_cons.mpr ⟨hnamed₁, hnamed₃⟩)
  exact ⟨s₁, s₂, s₃, t, out, h₁, h₂, h₃, hnamed, hapart.mp ⟨t, ht⟩, ht, (hwhole t ht).1,
    (hwhole t ht).2, by decide, hout, hsql, hnot, hrepeats hnot⟩

/-! ## Combining step by step -/

/-- **Combining goes on from what was combined before.** Statements can be combined with a list of
further ones after they were combined themselves, and it is the same as combining all at once: the
same statement, or the same name that is defined twice. -/
theorem combine_append {xs : List Statement} (hne : xs ≠ [])
    (hread : ∀ s ∈ xs, ∃ text, parse text = .ok s) (ys : List Statement) (op : SetOperator) :
    (combine xs op >>= fun t => combine (t :: ys) op) = combine (xs ++ ys) op := by
  have hrecursive : ∀ s ∈ xs, s.isRecursive = true → s.ctes ≠ [] := by
    intro s hs
    obtain ⟨text, hparse⟩ := hread s hs
    exact Statement.ctes_ne_of_isRecursive (wf_of_parse hparse)
  match xs, ys with
  | [s], ys => rfl
  | s :: u :: rest, [] =>
    rw [List.append_nil]
    cases combine (s :: u :: rest) op <;> rfl
  | s :: u :: rest, v :: ys =>
    have hxs := combine_eq op s (List.cons_ne_nil u rest)
    have hall := combine_eq op s (show u :: rest ++ v :: ys ≠ [] by simp)
    rw [← List.cons_append] at hall
    cases hfirst : hoistAll (s :: u :: rest) with
    | error e =>
      -- the name that is defined twice among the first is so among all
      rw [hfirst] at hxs
      rw [hoistAll_append, hfirst] at hall
      rw [hxs, hall]
      rfl
    | ok ctes =>
      obtain ⟨rfl, -⟩ := hoistAll_eq_ok hfirst
      generalize ht : (⟨withOf ((s :: u :: rest).any Statement.isRecursive)
        ((s :: u :: rest).flatMap Statement.ctes), combinedBody op s (u :: rest)⟩ : Statement) = t
      have hctes : hoistAll (t :: v :: ys) = hoistAll (s :: u :: rest ++ v :: ys) := by
        rw [hoistAll_eq, hoistAll_eq, List.flatMap_cons, List.flatMap_append, ← ht,
          Statement.ctes_withOf]
      have hany : (t :: v :: ys).any Statement.isRecursive
          = (s :: u :: rest ++ v :: ys).any Statement.isRecursive := by
        rw [List.any_cons, List.any_append, ← ht, isRecursive_combined hrecursive]
      have hbody : combinedBody op t (v :: ys) = combinedBody op s (u :: rest ++ v :: ys) := by
        rw [← ht, combinedBody_combinedBody]
      calc combine (s :: u :: rest) op >>= (fun t => combine (t :: v :: ys) op)
          = combine (t :: v :: ys) op := by
            rw [hxs, hfirst, ← ht]
            rfl
        _ = combine (s :: u :: rest ++ v :: ys) op := by
            rw [combine_eq op t (List.cons_ne_nil v ys), hctes, hany, hbody, hall]

/-- Three statements, combined at once and with the third one later. -/
theorem combine_append_union : ∃ s₁ s₂ s₃ t u,
    parse "select a limit 1" = .ok s₁ ∧ parse "with c as (select 1) select b from c" = .ok s₂
      ∧ parse "select d except select e" = .ok s₃
      ∧ [s₁, s₂] ≠ [] ∧ (∀ s ∈ [s₁, s₂], ∃ text, parse text = .ok s)
      ∧ combine [s₁, s₂] .union = .ok t ∧ combine [t, s₃] .union = .ok u
      ∧ combine [s₁, s₂, s₃] .union = .ok u := by
  obtain ⟨s₁, h₁, h⟩ := exists_ok_of_any
    (show (parse "select a limit 1").toOption.any (fun s₁ =>
      (parse "with c as (select 1) select b from c").toOption.any fun s₂ =>
      (parse "select d except select e").toOption.any fun s₃ =>
      (combine [s₁, s₂] .union).toOption.any fun t =>
        (combine [t, s₃] .union).toOption.any fun _ => true) = true by decide +kernel)
  obtain ⟨s₂, h₂, h⟩ := exists_ok_of_any h
  obtain ⟨s₃, h₃, h⟩ := exists_ok_of_any h
  obtain ⟨t, ht, h⟩ := exists_ok_of_any h
  obtain ⟨u, hu, -⟩ := exists_ok_of_any h
  have hread : ∀ s ∈ [s₁, s₂], ∃ text, parse text = .ok s :=
    List.forall_mem_cons.mpr ⟨⟨_, h₁⟩, List.forall_mem_singleton.mpr ⟨_, h₂⟩⟩
  have hne : [s₁, s₂] ≠ [] := List.cons_ne_nil _ _
  have hall := combine_append hne hread [s₃] .union
  rw [ht] at hall
  exact ⟨s₁, s₂, s₃, t, u, h₁, h₂, h₃, hne, hread, ht, hu, hall.symm.trans hu⟩

end Sql
