import Sql.Proofs.Values
import Sql.Statement.Same

/-!
# Being the same tree

Trees are compared part by part, and only the values of parameters are not compared literally. So
what is the same as a third tree is what is the same as a second one that is the same as the third
(`Expr.same_trans`).
-/

namespace Sql

theorem sameOption_trans {α : Type} {r : α → α → Bool}
    (hr : ∀ a b c, r a b = true → r b c = true → r a c = true) {a b c : Option α}
    (hab : sameOption r a b = true) (hbc : sameOption r b c = true) : sameOption r a c = true := by
  cases a <;> cases b <;> simp only [sameOption, Bool.false_eq_true] at hab <;> cases c <;>
    simp only [sameOption, Bool.false_eq_true] at hbc ⊢
  exact hr _ _ _ hab hbc

theorem Param.same_trans {a b c : Param} (hab : a.same b = true) (hbc : b.same c = true) :
    a.same c = true := by
  simp only [same, Bool.and_eq_true, beq_iff_eq] at hab hbc ⊢
  exact ⟨hab.1.trans hbc.1, sameOption_trans Value.same_trans hab.2 hbc.2⟩

/-- Expressions that are the same are of one kind. -/
theorem Expr.ctorIdx_of_same {a b : Expr} (h : a.same b = true) : a.ctorIdx = b.ctorIdx := by
  fun_cases Expr.same a b with
  | case17 => simp [Expr.same] at h
  | _ => rfl

mutual

/-- **Being the same expression is transitive.** -/
theorem Expr.same_trans : ∀ a b c : Expr, a.same b = true → b.same c = true → a.same c = true
  -- in each case the second expression takes the form of the first, and then the third that of both
  | .column x, b, c, hab, hbc => by
    have hb := Expr.ctorIdx_of_same hab
    cases b <;> try cases hb
    have hc := Expr.ctorIdx_of_same hbc
    cases c <;> try cases hc
    simp only [Expr.same, beq_iff_eq] at hab hbc ⊢
    exact hab.trans hbc
  | .star x, b, c, hab, hbc => by
    have hb := Expr.ctorIdx_of_same hab
    cases b <;> try cases hb
    have hc := Expr.ctorIdx_of_same hbc
    cases c <;> try cases hc
    simp only [Expr.same, beq_iff_eq] at hab hbc ⊢
    exact hab.trans hbc
  | .literal x, b, c, hab, hbc => by
    have hb := Expr.ctorIdx_of_same hab
    cases b <;> try cases hb
    have hc := Expr.ctorIdx_of_same hbc
    cases c <;> try cases hc
    simp only [Expr.same, beq_iff_eq] at hab hbc ⊢
    exact hab.trans hbc
  | .param p, b, c, hab, hbc => by
    have hb := Expr.ctorIdx_of_same hab
    cases b <;> try cases hb
    have hc := Expr.ctorIdx_of_same hbc
    cases c <;> try cases hc
    rw [Expr.same] at hab hbc ⊢
    exact Param.same_trans hab hbc
  | .call n as d f w, b, c, hab, hbc => by
    have hb := Expr.ctorIdx_of_same hab
    cases b <;> try cases hb
    have hc := Expr.ctorIdx_of_same hbc
    cases c <;> try cases hc
    simp only [Expr.same, Bool.and_eq_true, beq_iff_eq] at hab hbc ⊢
    obtain ⟨⟨⟨⟨hn, has⟩, hd⟩, hf⟩, hw⟩ := hab
    obtain ⟨⟨⟨⟨hn', has'⟩, hd'⟩, hf'⟩, hw'⟩ := hbc
    exact ⟨⟨⟨⟨hn.trans hn', sameExprs_trans as _ _ has has'⟩, hd.trans hd'⟩,
      sameExpr?_trans f _ _ hf hf'⟩, sameWindow?_trans w _ _ hw hw'⟩
  | .binary l op r, b, c, hab, hbc => by
    have hb := Expr.ctorIdx_of_same hab
    cases b <;> try cases hb
    have hc := Expr.ctorIdx_of_same hbc
    cases c <;> try cases hc
    simp only [Expr.same, Bool.and_eq_true, beq_iff_eq] at hab hbc ⊢
    exact ⟨⟨hab.1.1.trans hbc.1.1, Expr.same_trans l _ _ hab.1.2 hbc.1.2⟩,
      Expr.same_trans r _ _ hab.2 hbc.2⟩
  | .unary op e, b, c, hab, hbc => by
    have hb := Expr.ctorIdx_of_same hab
    cases b <;> try cases hb
    have hc := Expr.ctorIdx_of_same hbc
    cases c <;> try cases hc
    simp only [Expr.same, Bool.and_eq_true, beq_iff_eq] at hab hbc ⊢
    exact ⟨hab.1.trans hbc.1, Expr.same_trans e _ _ hab.2 hbc.2⟩
  | .isNull e n, b, c, hab, hbc => by
    have hb := Expr.ctorIdx_of_same hab
    cases b <;> try cases hb
    have hc := Expr.ctorIdx_of_same hbc
    cases c <;> try cases hc
    simp only [Expr.same, Bool.and_eq_true, beq_iff_eq] at hab hbc ⊢
    exact ⟨Expr.same_trans e _ _ hab.1 hbc.1, hab.2.trans hbc.2⟩
  | .between e l h n, b, c, hab, hbc => by
    have hb := Expr.ctorIdx_of_same hab
    cases b <;> try cases hb
    have hc := Expr.ctorIdx_of_same hbc
    cases c <;> try cases hc
    simp only [Expr.same, Bool.and_eq_true, beq_iff_eq] at hab hbc ⊢
    obtain ⟨⟨⟨he, hl⟩, hh⟩, hn⟩ := hab
    obtain ⟨⟨⟨he', hl'⟩, hh'⟩, hn'⟩ := hbc
    exact ⟨⟨⟨Expr.same_trans e _ _ he he', Expr.same_trans l _ _ hl hl'⟩,
      Expr.same_trans h _ _ hh hh'⟩, hn.trans hn'⟩
  | .inList e es n, b, c, hab, hbc => by
    have hb := Expr.ctorIdx_of_same hab
    cases b <;> try cases hb
    have hc := Expr.ctorIdx_of_same hbc
    cases c <;> try cases hc
    simp only [Expr.same, Bool.and_eq_true, beq_iff_eq] at hab hbc ⊢
    exact ⟨⟨Expr.same_trans e _ _ hab.1.1 hbc.1.1, sameExprs_trans es _ _ hab.1.2 hbc.1.2⟩,
      hab.2.trans hbc.2⟩
  | .inQuery e s n, b, c, hab, hbc => by
    have hb := Expr.ctorIdx_of_same hab
    cases b <;> try cases hb
    have hc := Expr.ctorIdx_of_same hbc
    cases c <;> try cases hc
    simp only [Expr.same, Bool.and_eq_true, beq_iff_eq] at hab hbc ⊢
    exact ⟨⟨Expr.same_trans e _ _ hab.1.1 hbc.1.1, Statement.same_trans s _ _ hab.1.2 hbc.1.2⟩,
      hab.2.trans hbc.2⟩
  | .hasRows s, b, c, hab, hbc => by
    have hb := Expr.ctorIdx_of_same hab
    cases b <;> try cases hb
    have hc := Expr.ctorIdx_of_same hbc
    cases c <;> try cases hc
    rw [Expr.same] at hab hbc ⊢
    exact Statement.same_trans s _ _ hab hbc
  | .subquery s, b, c, hab, hbc => by
    have hb := Expr.ctorIdx_of_same hab
    cases b <;> try cases hb
    have hc := Expr.ctorIdx_of_same hbc
    cases c <;> try cases hc
    rw [Expr.same] at hab hbc ⊢
    exact Statement.same_trans s _ _ hab hbc
  | .case o bs f, b, c, hab, hbc => by
    have hb := Expr.ctorIdx_of_same hab
    cases b <;> try cases hb
    have hc := Expr.ctorIdx_of_same hbc
    cases c <;> try cases hc
    simp only [Expr.same, Bool.and_eq_true] at hab hbc ⊢
    exact ⟨⟨sameExpr?_trans o _ _ hab.1.1 hbc.1.1, sameBranches_trans bs _ _ hab.1.2 hbc.1.2⟩,
      sameExpr?_trans f _ _ hab.2 hbc.2⟩
  | .cast e t short, b, c, hab, hbc => by
    have hb := Expr.ctorIdx_of_same hab
    cases b <;> try cases hb
    have hc := Expr.ctorIdx_of_same hbc
    cases c <;> try cases hc
    simp only [Expr.same, Bool.and_eq_true, beq_iff_eq] at hab hbc ⊢
    exact ⟨⟨Expr.same_trans e _ _ hab.1.1 hbc.1.1, hab.1.2.trans hbc.1.2⟩, hab.2.trans hbc.2⟩
  | .paren e, b, c, hab, hbc => by
    have hb := Expr.ctorIdx_of_same hab
    cases b <;> try cases hb
    have hc := Expr.ctorIdx_of_same hbc
    cases c <;> try cases hc
    rw [Expr.same] at hab hbc ⊢
    exact Expr.same_trans e _ _ hab hbc
termination_by a => sizeOf a
decreasing_by all_goals simp +arith

theorem sameExprs_trans : ∀ as bs cs : List Expr,
    sameExprs as bs = true → sameExprs bs cs = true → sameExprs as cs = true
  | [], bs, cs, hab, hbc => by cases bs <;> cases cs <;> simp_all [sameExprs]
  | a :: as, [], cs, hab, hbc => by simp [sameExprs] at hab
  | a :: as, b :: bs, [], hab, hbc => by simp [sameExprs] at hbc
  | a :: as, b :: bs, c :: cs, hab, hbc => by
    rw [sameExprs, Bool.and_eq_true] at hab hbc ⊢
    exact ⟨Expr.same_trans a b c hab.1 hbc.1, sameExprs_trans as bs cs hab.2 hbc.2⟩
termination_by a => sizeOf a
decreasing_by all_goals simp +arith

theorem sameExpr?_trans : ∀ a b c : Option Expr,
    sameExpr? a b = true → sameExpr? b c = true → sameExpr? a c = true
  | none, b, c, hab, hbc => by cases b <;> cases c <;> simp_all [sameExpr?]
  | some a, none, c, hab, hbc => by simp [sameExpr?] at hab
  | some a, some b, none, hab, hbc => by simp [sameExpr?] at hbc
  | some a, some b, some c, hab, hbc => by
    rw [sameExpr?] at hab hbc ⊢
    exact Expr.same_trans a b c hab hbc
termination_by a => sizeOf a
decreasing_by all_goals simp +arith

theorem sameBranches_trans : ∀ as bs cs : List Branch,
    sameBranches as bs = true → sameBranches bs cs = true → sameBranches as cs = true
  | [], bs, cs, hab, hbc => by cases bs <;> cases cs <;> simp_all [sameBranches]
  | a :: as, [], cs, hab, hbc => by simp [sameBranches] at hab
  | a :: as, b :: bs, [], hab, hbc => by simp [sameBranches] at hbc
  | ⟨x, r⟩ :: as, ⟨x', r'⟩ :: bs, ⟨x'', r''⟩ :: cs, hab, hbc => by
    rw [sameBranches, Bool.and_eq_true, Bool.and_eq_true] at hab hbc ⊢
    exact ⟨⟨Expr.same_trans x x' x'' hab.1.1 hbc.1.1, Expr.same_trans r r' r'' hab.1.2 hbc.1.2⟩,
      sameBranches_trans as bs cs hab.2 hbc.2⟩
termination_by a => sizeOf a
decreasing_by all_goals simp +arith

theorem sameOrder_trans : ∀ as bs cs : List OrderItem,
    sameOrder as bs = true → sameOrder bs cs = true → sameOrder as cs = true
  | [], bs, cs, hab, hbc => by cases bs <;> cases cs <;> simp_all [sameOrder]
  | a :: as, [], cs, hab, hbc => by simp [sameOrder] at hab
  | a :: as, b :: bs, [], hab, hbc => by simp [sameOrder] at hbc
  | ⟨e, d, n⟩ :: as, ⟨e', d', n'⟩ :: bs, ⟨e'', d'', n''⟩ :: cs, hab, hbc => by
    simp only [sameOrder, Bool.and_eq_true, beq_iff_eq] at hab hbc ⊢
    obtain ⟨⟨⟨he, hd⟩, hn⟩, hrest⟩ := hab
    obtain ⟨⟨⟨he', hd'⟩, hn'⟩, hrest'⟩ := hbc
    exact ⟨⟨⟨Expr.same_trans e e' e'' he he', hd.trans hd'⟩, hn.trans hn'⟩,
      sameOrder_trans as bs cs hrest hrest'⟩
termination_by a => sizeOf a
decreasing_by all_goals simp +arith

theorem sameWindow?_trans : ∀ a b c : Option Window,
    sameWindow? a b = true → sameWindow? b c = true → sameWindow? a c = true
  | none, b, c, hab, hbc => by cases b <;> cases c <;> simp_all [sameWindow?]
  | some a, none, c, hab, hbc => by simp [sameWindow?] at hab
  | some a, some b, none, hab, hbc => by simp [sameWindow?] at hbc
  | some ⟨p, o⟩, some ⟨p', o'⟩, some ⟨p'', o''⟩, hab, hbc => by
    rw [sameWindow?, Bool.and_eq_true] at hab hbc ⊢
    exact ⟨sameExprs_trans p p' p'' hab.1 hbc.1, sameOrder_trans o o' o'' hab.2 hbc.2⟩
termination_by a => sizeOf a
decreasing_by all_goals simp +arith

theorem sameItems_trans : ∀ as bs cs : List SelectItem,
    sameItems as bs = true → sameItems bs cs = true → sameItems as cs = true
  | [], bs, cs, hab, hbc => by cases bs <;> cases cs <;> simp_all [sameItems]
  | a :: as, [], cs, hab, hbc => by simp [sameItems] at hab
  | a :: as, b :: bs, [], hab, hbc => by simp [sameItems] at hbc
  | ⟨e, n⟩ :: as, ⟨e', n'⟩ :: bs, ⟨e'', n''⟩ :: cs, hab, hbc => by
    simp only [sameItems, Bool.and_eq_true, beq_iff_eq] at hab hbc ⊢
    exact ⟨⟨Expr.same_trans e e' e'' hab.1.1 hbc.1.1, hab.1.2.trans hbc.1.2⟩,
      sameItems_trans as bs cs hab.2 hbc.2⟩
termination_by a => sizeOf a
decreasing_by all_goals simp +arith

theorem Source.same_trans : ∀ a b c : Source, a.same b = true → b.same c = true → a.same c = true
  | .table p n a, b, c, hab, hbc => by
    cases b <;> simp only [Source.same, Bool.false_eq_true] at hab
    cases c <;>
      simp only [Source.same, Bool.false_eq_true, Bool.and_eq_true, beq_iff_eq] at hab hbc ⊢
    exact ⟨⟨hab.1.1.trans hbc.1.1, hab.1.2.trans hbc.1.2⟩, hab.2.trans hbc.2⟩
  | .subquery s a, b, c, hab, hbc => by
    cases b <;> simp only [Source.same, Bool.false_eq_true] at hab
    cases c <;>
      simp only [Source.same, Bool.false_eq_true, Bool.and_eq_true, beq_iff_eq] at hab hbc ⊢
    exact ⟨Statement.same_trans s _ _ hab.1 hbc.1, hab.2.trans hbc.2⟩
termination_by a => sizeOf a
decreasing_by all_goals simp +arith

theorem sameSource?_trans : ∀ a b c : Option Source,
    sameSource? a b = true → sameSource? b c = true → sameSource? a c = true
  | none, b, c, hab, hbc => by cases b <;> cases c <;> simp_all [sameSource?]
  | some a, none, c, hab, hbc => by simp [sameSource?] at hab
  | some a, some b, none, hab, hbc => by simp [sameSource?] at hbc
  | some a, some b, some c, hab, hbc => by
    rw [sameSource?] at hab hbc ⊢
    exact Source.same_trans a b c hab hbc
termination_by a => sizeOf a
decreasing_by all_goals simp +arith

theorem JoinConstraint.same_trans : ∀ a b c : JoinConstraint,
    a.same b = true → b.same c = true → a.same c = true
  | .on e, b, c, hab, hbc => by
    cases b <;> simp only [JoinConstraint.same, Bool.false_eq_true] at hab
    cases c <;> simp only [JoinConstraint.same, Bool.false_eq_true] at hbc ⊢
    exact Expr.same_trans e _ _ hab hbc
  | .shared columns, b, c, hab, hbc => by
    cases b <;> simp only [JoinConstraint.same, Bool.false_eq_true] at hab
    cases c <;> simp only [JoinConstraint.same, Bool.false_eq_true, beq_iff_eq] at hab hbc ⊢
    exact hab.trans hbc
  | .none, b, c, hab, hbc => by
    cases b <;> simp only [JoinConstraint.same, Bool.false_eq_true] at hab
    exact hbc
termination_by a => sizeOf a
decreasing_by all_goals simp +arith

theorem sameJoins_trans : ∀ as bs cs : List Join,
    sameJoins as bs = true → sameJoins bs cs = true → sameJoins as cs = true
  | [], bs, cs, hab, hbc => by cases bs <;> cases cs <;> simp_all [sameJoins]
  | a :: as, [], cs, hab, hbc => by simp [sameJoins] at hab
  | a :: as, b :: bs, [], hab, hbc => by simp [sameJoins] at hbc
  | ⟨k, r, x⟩ :: as, ⟨k', r', x'⟩ :: bs, ⟨k'', r'', x''⟩ :: cs, hab, hbc => by
    simp only [sameJoins, Bool.and_eq_true, beq_iff_eq] at hab hbc ⊢
    obtain ⟨⟨⟨hk, hr⟩, hx⟩, hrest⟩ := hab
    obtain ⟨⟨⟨hk', hr'⟩, hx'⟩, hrest'⟩ := hbc
    exact ⟨⟨⟨hk.trans hk', Source.same_trans r r' r'' hr hr'⟩,
      JoinConstraint.same_trans x x' x'' hx hx'⟩, sameJoins_trans as bs cs hrest hrest'⟩
termination_by a => sizeOf a
decreasing_by all_goals simp +arith

theorem Select.same_trans : ∀ a b c : Select, a.same b = true → b.same c = true → a.same c = true
  | ⟨d, is, s, js, f, g, h, o, l, x⟩, b, c, hab, hbc => by
    cases b
    cases c
    simp only [Select.same, Bool.and_eq_true, beq_iff_eq] at hab hbc ⊢
    obtain ⟨⟨⟨⟨⟨⟨⟨⟨⟨hd, his⟩, hs⟩, hjs⟩, hf⟩, hg⟩, hh⟩, ho⟩, hl⟩, hx⟩ := hab
    obtain ⟨⟨⟨⟨⟨⟨⟨⟨⟨hd', his'⟩, hs'⟩, hjs'⟩, hf'⟩, hg'⟩, hh'⟩, ho'⟩, hl'⟩, hx'⟩ := hbc
    exact ⟨⟨⟨⟨⟨⟨⟨⟨⟨hd.trans hd', sameItems_trans is _ _ his his'⟩,
      sameSource?_trans s _ _ hs hs'⟩, sameJoins_trans js _ _ hjs hjs'⟩,
      sameExpr?_trans f _ _ hf hf'⟩, sameExprs_trans g _ _ hg hg'⟩,
      sameExpr?_trans h _ _ hh hh'⟩, sameOrder_trans o _ _ ho ho'⟩,
      sameExpr?_trans l _ _ hl hl'⟩, sameExpr?_trans x _ _ hx hx'⟩
termination_by a => sizeOf a
decreasing_by all_goals simp +arith

theorem sameCtes_trans : ∀ as bs cs : List Cte,
    sameCtes as bs = true → sameCtes bs cs = true → sameCtes as cs = true
  | [], bs, cs, hab, hbc => by cases bs <;> cases cs <;> simp_all [sameCtes]
  | a :: as, [], cs, hab, hbc => by simp [sameCtes] at hab
  | a :: as, b :: bs, [], hab, hbc => by simp [sameCtes] at hbc
  | ⟨n, cols, s⟩ :: as, ⟨n', cols', s'⟩ :: bs, ⟨n'', cols'', s''⟩ :: cs, hab, hbc => by
    simp only [sameCtes, Bool.and_eq_true, beq_iff_eq] at hab hbc ⊢
    obtain ⟨⟨⟨hn, hcols⟩, hs⟩, hrest⟩ := hab
    obtain ⟨⟨⟨hn', hcols'⟩, hs'⟩, hrest'⟩ := hbc
    exact ⟨⟨⟨hn.trans hn', hcols.trans hcols'⟩, Statement.same_trans s s' s'' hs hs'⟩,
      sameCtes_trans as bs cs hrest hrest'⟩
termination_by a => sizeOf a
decreasing_by all_goals simp +arith

theorem sameWith?_trans : ∀ a b c : Option With,
    sameWith? a b = true → sameWith? b c = true → sameWith? a c = true
  | none, b, c, hab, hbc => by cases b <;> cases c <;> simp_all [sameWith?]
  | some a, none, c, hab, hbc => by simp [sameWith?] at hab
  | some a, some b, none, hab, hbc => by simp [sameWith?] at hbc
  | some ⟨r, cs⟩, some ⟨r', cs'⟩, some ⟨r'', cs''⟩, hab, hbc => by
    simp only [sameWith?, Bool.and_eq_true, beq_iff_eq] at hab hbc ⊢
    exact ⟨hab.1.trans hbc.1, sameCtes_trans cs cs' cs'' hab.2 hbc.2⟩
termination_by a => sizeOf a
decreasing_by all_goals simp +arith

theorem Body.same_trans : ∀ a b c : Body, a.same b = true → b.same c = true → a.same c = true
  | .select q, b, c, hab, hbc => by
    cases b <;> simp only [Body.same, Bool.false_eq_true] at hab
    cases c <;> simp only [Body.same, Bool.false_eq_true] at hbc ⊢
    exact Select.same_trans q _ _ hab hbc
  | .setOp l op r, b, c, hab, hbc => by
    cases b <;> simp only [Body.same, Bool.false_eq_true] at hab
    cases c <;> simp only [Body.same, Bool.false_eq_true, Bool.and_eq_true, beq_iff_eq] at hab hbc ⊢
    exact ⟨⟨Body.same_trans l _ _ hab.1.1 hbc.1.1, hab.1.2.trans hbc.1.2⟩,
      Body.same_trans r _ _ hab.2 hbc.2⟩
  | .nested s, b, c, hab, hbc => by
    cases b <;> simp only [Body.same, Bool.false_eq_true] at hab
    cases c <;> simp only [Body.same, Bool.false_eq_true] at hbc ⊢
    exact Statement.same_trans s _ _ hab hbc
termination_by a => sizeOf a
decreasing_by all_goals simp +arith

theorem Statement.same_trans : ∀ a b c : Statement,
    a.same b = true → b.same c = true → a.same c = true
  | ⟨w, b⟩, ⟨w', b'⟩, ⟨w'', b''⟩, hab, hbc => by
    rw [Statement.same, Bool.and_eq_true] at hab hbc ⊢
    exact ⟨sameWith?_trans w w' w'' hab.1 hbc.1, Body.same_trans b b' b'' hab.2 hbc.2⟩
termination_by a => sizeOf a
decreasing_by all_goals simp +arith

end

end Sql
