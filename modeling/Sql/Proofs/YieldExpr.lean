import Sql.Proofs.ReadAtoms
import Sql.Proofs.Yields

/-!
# Expressions that are read are well formed

Given that the parsers of the next level in hand back well-formed trees (`YieldsWf`), so do the
parsers of expressions: each level hands back expressions of at least its own strength, which is why
an operand never needs parentheses that are not there.
-/

namespace Sql.Parser

/-- The expression is well formed one level further in. -/
abbrev WfInside (n : Nat) (e : Expr) : Prop := (True → 0 < n) ∧ e.Wf False True (n - 1)

/-- The parsers of the next level in hand back trees that are well formed one level further in, and
statements that start with SELECT or WITH if there is no parenthesis. -/
structure YieldsWf (inner : Inner) (n : Nat) : Prop where
  expr : Yields inner.expr (WfInside n)
  statement : Yields inner.statement fun s => (True → 0 < n) ∧ s.Wf False True (n - 1)
  negated : Yields inner.negated fun e =>
    (True → 0 < n) ∧ e.Wf False True (n - 1) ∧ strengthNot ≤ e.strength
  signed : Yields inner.signed fun e =>
    (True → 0 < n) ∧ e.Wf False True (n - 1) ∧ strengthSign ≤ e.strength
  bare : ∀ ts s rest, (firstToken ts).lexeme ≠ .symbol .leftParen →
    inner.statement ts = .ok (s, rest) → s.startsBare = true

section

variable {inner : Inner} {n : Nat} {β : Type} {R : β → Prop}

/-! ## Subqueries and lists -/

/-- A statement behind its first word, or else something other than a statement. -/
theorem Yields.query (h : YieldsWf inner n) {f : Statement → Parser β} {p : Parser β}
    (hf : ∀ s : Statement, (True → 0 < n) ∧ s.Wf False True (n - 1) → s.startsBare = true →
      Yields (f s) R) (hp : Yields p R) :
    Yields (isNextQuery >>= fun b => if b = true then inner.statement >>= f else p) R := by
  intro ts b rest hts hrun
  change (if ((firstToken ts).lexeme.isKeyword "select" || (firstToken ts).lexeme.isKeyword "with")
    = true then inner.statement >>= f else p) ts = .ok (b, rest) at hrun
  split at hrun
  · next hquery =>
    have hparen : (firstToken ts).lexeme ≠ .symbol .leftParen := fun hl => by
      rw [hl] at hquery
      exact absurd hquery (by decide)
    obtain ⟨s, between, hs, hb⟩ := bind_eq_ok hrun
    obtain ⟨hwf, hclean⟩ := h.statement ts s between hts hs
    exact hf s hwf (h.bare ts s between hparen hs) between b rest hclean hb
  · exact hp ts b rest hts hrun

theorem optionWf_none : optionWf False True n none := by
  rw [optionWf]
  trivial

theorem optionWf_some {e : Expr} (he : WfInside n e) : optionWf False True n (some e) := by
  rw [optionWf]
  exact he

/-- A keyword and an expression, or neither. -/
theorem Yields.optional (h : YieldsWf inner n) {k : String} {f : Option Expr → Parser β}
    (hf : ∀ o, optionWf False True n o → Yields (f o) R) :
    Yields (eatKeyword k >>= fun b =>
      if b = true then (some <$> inner.expr) >>= f else (Pure.pure none : Parser (Option Expr)) >>= f)
      R := by
  have hsome : Yields (some <$> inner.expr) (optionWf False True n) :=
    Yields.map (h.expr.weaken fun _ he => optionWf_some he)
  exact Yields.flag yields_eatKeyword (Yields.bind hsome hf)
    (Yields.bind (Yields.pure optionWf_none) hf)

theorem yields_byClause {α : Type} {item : Parser α} {Q : α → Prop} {k : String}
    (hitem : Yields item Q) : Yields (byClause k item) fun as => ∀ a ∈ as, Q a := by
  refine Yields.flag yields_eatKeyword ?_ (Yields.pure fun a ha => by simp at ha)
  exact Yields.expectKeyword ((yields_commaList hitem).weaken fun _ has => has.2)

theorem yields_direction : Yields direction fun _ => True :=
  Yields.flag yields_eatKeyword (Yields.pure trivial)
    (Yields.flag yields_eatKeyword (Yields.pure trivial) (Yields.pure trivial))

theorem yields_nullsOrder : Yields nullsOrder fun _ => True :=
  Yields.flag yields_eatKeyword
    (Yields.flag yields_eatKeyword (Yields.pure trivial)
      (Yields.flag yields_eatKeyword (Yields.pure trivial) yields_unexpected))
    (Yields.pure trivial)

theorem yields_orderItem (h : YieldsWf inner n) :
    Yields (orderItem inner) fun i => WfInside n i.expr :=
  Yields.bind h.expr fun _ he => Yields.bind yields_direction fun _ _ =>
    Yields.bind yields_nullsOrder fun _ _ => Yields.pure he

/-! ## Calls -/

theorem yields_callFilter (h : YieldsWf inner n) :
    Yields (callFilter inner) (optionWf False True n) := by
  refine Yields.bind yields_isNextKeyword fun _ _ => Yields.peekSecond fun _ _ => Yields.ite
    (fun _ => Yields.skip (Yields.skip (Yields.expectKeyword ?_))) fun _ => Yields.pure optionWf_none
  exact Yields.bind h.expr fun e he => Yields.expect (Yields.pure (optionWf_some he))

theorem yields_callWindow (h : YieldsWf inner n) :
    Yields (callWindow inner) (overWf False True n) := by
  rw [callWindow_eq]
  refine Yields.bind yields_isNextKeyword fun _ _ => Yields.peekSecond fun _ _ => Yields.ite
    (fun _ => Yields.skip (Yields.skip ?_)) fun _ => Yields.pure (by rw [overWf]; trivial)
  refine Yields.bind (yields_byClause h.expr) fun partitionBy hpartition => Yields.bind
    (yields_byClause (yields_orderItem h)) fun orderBy horder => Yields.expect (Yields.pure ?_)
  rw [overWf]
  exact ⟨exprsWf_iff.mpr hpartition, orderWf_iff.mpr horder⟩

theorem yields_call (h : YieldsWf inner n) {f : String} (hf : IsFunctionName False f) :
    Yields (call inner f) fun e => e.Wf False True n ∧ strengthAtom ≤ e.strength := by
  refine Yields.peek fun t _ => Yields.expect ?_
  have hend : ∀ (distinct : Bool) (args : List Expr), (distinct = true → args ≠ []) →
      (∀ e ∈ args, WfInside n e) → Yields (callEnd inner f t.offset distinct args)
        fun e => e.Wf False True n ∧ strengthAtom ≤ e.strength := by
    intro distinct args hdistinct hargs
    refine Yields.closeParen (Yields.bind (yields_callFilter h) fun filter hfilter =>
      Yields.bind (yields_callWindow h) fun window hwindow => Yields.pure ⟨?_, Nat.le_refl _⟩)
    rw [Expr.Wf]
    exact ⟨hf, hdistinct, exprsWf_iff.mpr hargs, hfilter, hwindow⟩
  refine Yields.flag yields_isNext (hend false [] (by simp) (by simp)) ?_
  exact Yields.bind yields_eatKeyword fun distinct _ => Yields.bind (yields_commaList h.expr)
    fun args hargs => hend distinct args (fun _ => hargs.1) hargs.2

/-! ## Names -/

theorem yields_pathTail (k : Nat) {parts : List String} (hparts : parts ≠ [] ∧ AreNames parts) :
    Yields (pathTail k parts) fun r => r.1 ≠ [] ∧ AreNames r.1 := by
  induction k generalizing parts with
  | zero => exact Yields.pure hparts
  | succ k ih =>
    refine Yields.flag yields_eat ?_ (Yields.pure hparts)
    refine Yields.flag yields_eat (Yields.pure hparts) (Yields.bind yields_name fun m hm => ih ?_)
    refine ⟨by simp, fun p hp => ?_⟩
    rcases List.mem_append.mp hp with hp | hp
    · exact hparts.2 p hp
    · obtain rfl := List.mem_singleton.mp hp
      exact hm

theorem yields_path (h : YieldsWf inner n) :
    Yields (path inner) fun e => e.Wf False True n ∧ strengthAtom ≤ e.strength := by
  have hrest : ∀ first : String, first ≠ "" → Yields (pathRest inner first)
      fun e => e.Wf False True n ∧ strengthAtom ≤ e.strength := by
    intro first hfirst
    refine Yields.remaining fun k => Yields.bind (yields_pathTail k ⟨by simp, ?_⟩) ?_
    · intro p hp
      obtain rfl := List.mem_singleton.mp hp
      exact hfirst
    · rintro ⟨parts, star⟩ ⟨hne, hparts⟩
      cases star with
      | true =>
        refine Yields.pure ⟨?_, Nat.le_refl _⟩
        rw [Expr.Wf]
        exact fun q hq => hparts q (List.mem_of_getLast? hq)
      | false =>
        refine Yields.flag yields_isNext (yields_call h ⟨parts, hne, hparts, rfl, False.elim⟩)
          (Yields.pure ⟨?_, Nat.le_refl _⟩)
        rw [Expr.Wf, List.getLastD_eq_getLast?, List.getLast?_eq_getLast_of_ne_nil hne,
          Option.getD_some, List.dropLast_append_getLast]
        exact hparts
  refine Yields.peek fun t ht => ?_
  cases hl : t.lexeme with
  | word w =>
    rw [hl] at ht
    exact Yields.skip (hrest w (IsWord.ne_empty ht))
  | quoted m =>
    rw [hl] at ht
    exact Yields.skip (hrest m ht)
  | _ => exact Yields.bind (Q := fun _ => False) yields_unexpected fun _ hfalse => hfalse.elim

/-! ## CASE, CAST and EXISTS -/

theorem yields_branches (h : YieldsWf inner n) (k : Nat) :
    Yields (branches inner k) (branchesWf False True n) := by
  induction k with
  | zero => exact Yields.pure (by rw [branchesWf]; trivial)
  | succ k ih =>
    refine Yields.flag yields_eatKeyword ?_ (Yields.pure (by rw [branchesWf]; trivial))
    refine Yields.bind h.expr fun c hc => Yields.expectKeyword (Yields.bind h.expr fun r hr =>
      Yields.bind ih fun bs hbs => Yields.pure ?_)
    rw [branchesWf]
    exact ⟨⟨hc.1, hc.2, hr.2⟩, hbs⟩

theorem yields_caseTail (h : YieldsWf inner n) :
    Yields (caseTail inner) fun e => e.Wf False True n ∧ strengthAtom ≤ e.strength := by
  have hrest : ∀ scrutinee, optionWf False True n scrutinee → Yields (do
      let bs ← branches inner (← remaining)
      if bs.isEmpty then unexpected "WHEN" else caseEnd inner scrutinee bs : Parser Expr)
      fun e => e.Wf False True n ∧ strengthAtom ≤ e.strength := by
    intro scrutinee hscrutinee
    refine Yields.remaining fun k => Yields.bind (yields_branches h k) fun bs hbs =>
      Yields.ite (fun _ => yields_unexpected) fun hne => ?_
    refine Yields.optional h fun fallback hfallback => Yields.expectKeyword
      (Yields.pure ⟨?_, Nat.le_refl _⟩)
    rw [Expr.Wf]
    exact ⟨hscrutinee, by simpa using hne, hbs, hfallback⟩
  refine Yields.flag yields_isNextKeyword (hrest none optionWf_none) ?_
  exact Yields.bind (Yields.map (h.expr.weaken fun _ he => optionWf_some he)) hrest

theorem yields_castTail (h : YieldsWf inner n) (start : Nat) :
    Yields (castTail inner start) fun e => e.Wf False True n ∧ strengthAtom ≤ e.strength := by
  refine Yields.expect (Yields.bind h.expr fun e he => Yields.expectKeyword
    (Yields.bind yields_typeName fun type htype => Yields.closeParen
      (Yields.pure ⟨?_, Nat.le_refl _⟩)))
  rw [Expr.Wf]
  exact ⟨he, htype⟩

theorem yields_existsTail (h : YieldsWf inner n) :
    Yields (existsTail inner) fun e => e.Wf False True n ∧ strengthAtom ≤ e.strength := by
  refine Yields.peek fun _ _ => Yields.expect (Yields.bind h.statement fun s hs =>
    Yields.closeParen (Yields.pure ⟨?_, Nat.le_refl _⟩))
  rw [Expr.Wf]
  exact hs

/-! ## Expressions without an outer operator -/

/-- The string after the name of a type of which there are literals. -/
theorem Yields.literalValue {type : String} {f : Option String → Parser β}
    (hf : ∀ v, type ∈ literalTypes → Yields (f (some v)) R) (hnone : Yields (f none) R) :
    Yields (literalValue? type >>= f) R := by
  have hvalue : Yields (literalValue? type) fun o => ∀ v ∈ o, type ∈ literalTypes := by
    refine Yields.peekSecond fun t _ => ?_
    cases t.lexeme with
    | string s =>
      refine Yields.pure fun v hv => ?_
      by_cases htype : literalTypes.contains type = true
      · exact List.contains_iff_mem.mp htype
      · rw [if_neg htype] at hv
        simp at hv
    | _ => exact Yields.pure fun v hv => by simp at hv
  refine Yields.bind hvalue fun o ho => ?_
  cases o with
  | none => exact hnone
  | some v => exact hf v (ho v rfl)

theorem yields_isFunctionWord {w : String} : Yields (isFunctionWord w) fun _ => True :=
  Yields.peekSecond fun _ _ => Yields.pure trivial

theorem yields_wordExpr (h : YieldsWf inner n) (w : String) (start : Nat) :
    Yields (wordExpr inner w start) fun e => e.Wf False True n ∧ strengthAtom ≤ e.strength := by
  have hliteral : ∀ l : Literal, l.Wf →
      (Expr.literal l).Wf False True n ∧ strengthAtom ≤ (Expr.literal l).strength := fun l hl =>
    ⟨by rw [Expr.Wf]; exact hl, Nat.le_refl _⟩
  unfold wordExpr
  refine Yields.ite (fun _ => Yields.skip (Yields.pure (hliteral .null trivial))) fun _ => ?_
  refine Yields.ite (fun _ => Yields.skip (Yields.pure (hliteral _ trivial))) fun _ => ?_
  refine Yields.ite (fun _ => Yields.skip (Yields.pure (hliteral _ trivial))) fun _ => ?_
  refine Yields.ite (fun _ => Yields.skip (yields_caseTail h)) fun _ => ?_
  refine Yields.ite (fun _ => Yields.skip (yields_castTail h start)) fun _ => ?_
  refine Yields.ite (fun _ => Yields.skip (yields_existsTail h)) fun _ => ?_
  refine Yields.literalValue
    (fun v htype => Yields.skip (Yields.skip (Yields.pure (hliteral _ htype)))) ?_
  exact Yields.bind yields_isFunctionWord fun _ _ =>
    Yields.ite (fun _ => yields_failAt) fun _ => yields_path h

theorem yields_parenTail (h : YieldsWf inner n) (opened : Nat) :
    Yields (parenTail inner opened) fun e => e.Wf False True n ∧ strengthAtom ≤ e.strength := by
  refine Yields.query h (fun s hs hbare => Yields.closeParen (Yields.pure ⟨?_, Nat.le_refl _⟩)) ?_
  · rw [Expr.Wf]
    exact ⟨hs.1, hs.2, hbare⟩
  · refine Yields.bind h.expr fun e he => Yields.closeParen (Yields.pure ⟨?_, Nat.le_refl _⟩)
    rw [Expr.Wf]
    exact he

theorem yields_primary (h : YieldsWf inner n) :
    Yields (primary inner) fun e => e.Wf False True n ∧ strengthAtom ≤ e.strength := by
  refine Yields.peek fun t ht => ?_
  cases hl : t.lexeme with
  | number m =>
    rw [hl] at ht
    refine Yields.skip (Yields.pure ⟨?_, Nat.le_refl _⟩)
    rw [Expr.Wf]
    exact ht
  | string v =>
    refine Yields.skip (Yields.pure ⟨?_, Nat.le_refl _⟩)
    rw [Expr.string, Expr.Wf]
    trivial
  | param c m =>
    rw [hl] at ht
    refine Yields.skip (Yields.pure ⟨?_, Nat.le_refl _⟩)
    rw [Expr.Wf]
    exact ⟨rfl, ht, False.elim⟩
  | symbol s =>
    cases s with
    | star =>
      refine Yields.skip (Yields.pure ⟨?_, Nat.le_refl _⟩)
      rw [Expr.Wf]
      exact fun q hq => by simp at hq
    | leftParen => exact Yields.skip (yields_parenTail h t.offset)
    | _ => exact yields_unexpected
  | word w => exact yields_wordExpr h w t.offset
  | quoted m => exact yields_path h
  | eof => exact yields_unexpected

/-! ## The levels -/

theorem yields_loop {Q : Expr → Prop} {step : Expr → Parser (Option Expr)}
    (hstep : ∀ e, Q e → Yields (step e) fun o => ∀ e' ∈ o, Q e') (k : Nat) {e : Expr} (he : Q e) :
    Yields (loop step k e) Q := by
  induction k generalizing e with
  | zero => exact Yields.pure he
  | succ k ih =>
    refine Yields.bind (hstep e he) fun o ho => ?_
    cases o with
    | none => exact Yields.pure he
    | some e' => exact ih (ho e' rfl)

theorem yields_chainStep {operator : Lexeme → Option BinaryOp} {operand : Parser Expr} {s : Nat}
    (hoperator : ∀ l op, operator l = some op → op.strength = s)
    (hoperand : Yields operand fun e => e.Wf False True n ∧ s + 1 ≤ e.strength) (e : Expr)
    (he : e.Wf False True n ∧ s ≤ e.strength) :
    Yields (chainStep operator operand e) fun o =>
      ∀ e' ∈ o, e'.Wf False True n ∧ s ≤ e'.strength := by
  refine Yields.peek fun t _ => ?_
  cases hop : operator t.lexeme with
  | none => exact Yields.pure fun e' he' => by simp at he'
  | some op =>
    obtain rfl := hoperator t.lexeme op hop
    refine Yields.skip (Yields.bind hoperand fun r hr => Yields.pure fun e' he' => ?_)
    obtain rfl := Option.mem_some.mp he'
    refine ⟨?_, Nat.le_refl _⟩
    rw [Expr.Wf]
    exact ⟨he.1, hr.1, he.2, hr.2⟩

theorem yields_castStep (e : Expr) (he : e.Wf False True n ∧ strengthCast ≤ e.strength) :
    Yields (castStep e) fun o => ∀ e' ∈ o, e'.Wf False True n ∧ strengthCast ≤ e'.strength := by
  refine Yields.flag yields_eat ?_ (Yields.pure fun e' he' => by simp at he')
  refine Yields.bind yields_typeName fun type htype => Yields.pure fun e' he' => ?_
  obtain rfl := Option.mem_some.mp he'
  refine ⟨?_, Nat.le_refl _⟩
  rw [Expr.Wf]
  exact ⟨he, htype⟩

/-- A level hands back what the next one does, extended by its own steps. -/
theorem yields_level {s : Nat} (hs : groupsLeft s = true)
    (hnext : Yields (level inner (s + 1)) fun e => e.Wf False True n ∧ s + 1 ≤ e.strength)
    (hstep : ∀ e : Expr, e.Wf False True n ∧ s ≤ e.strength →
      Yields (levelStep inner s e) fun o => ∀ e' ∈ o, e'.Wf False True n ∧ s ≤ e'.strength) :
    Yields (level inner s) fun e => e.Wf False True n ∧ s ≤ e.strength := by
  rw [level_eq inner hs]
  exact Yields.bind hnext fun e he => Yields.remaining fun k =>
    yields_loop hstep k ⟨he.1, Nat.le_of_succ_le he.2⟩

theorem yields_castExpr (h : YieldsWf inner n) :
    Yields (level inner 9) fun e => e.Wf False True n ∧ 9 ≤ e.strength :=
  yields_level rfl ((yields_primary h).weaken fun _ he => ⟨he.1, Nat.le_trans (by decide) he.2⟩)
    yields_castStep

/-- A sign binds more tightly than any operator, but a cast binds more tightly than a sign. -/
theorem yields_signExpr (h : YieldsWf inner n) :
    Yields (level inner 8) fun e => e.Wf False True n ∧ 8 ≤ e.strength := by
  refine Yields.peek fun t _ => ?_
  cases hop : signOf? t.lexeme with
  | none => exact (yields_castExpr h).weaken fun _ he => ⟨he.1, Nat.le_of_succ_le he.2⟩
  | some op =>
    have hstrength : op.strength = strengthSign ∧ ∀ e, (Expr.unary op e).strength = strengthSign := by
      unfold signOf? at hop
      split at hop
      · obtain rfl := Option.some.inj hop
        exact ⟨rfl, fun _ => rfl⟩
      · obtain rfl := Option.some.inj hop
        exact ⟨rfl, fun _ => rfl⟩
      · exact absurd hop (by simp)
    refine Yields.skip (Yields.bind h.signed fun e he => Yields.pure ⟨?_, ?_⟩)
    · rw [Expr.Wf, hstrength.1]
      exact he
    · rw [hstrength.2 e]
      exact Nat.le_refl _

theorem yields_productExpr (h : YieldsWf inner n) :
    Yields (level inner 7) fun e => e.Wf False True n ∧ 7 ≤ e.strength := by
  refine yields_level rfl (yields_signExpr h) (yields_chainStep (fun l op hop => ?_)
    (yields_signExpr h))
  unfold productOp? at hop
  split at hop
  all_goals first
    | (obtain rfl := Option.some.inj hop; rfl)
    | exact absurd hop (by simp)

theorem yields_sumExpr (h : YieldsWf inner n) :
    Yields (level inner 6) fun e => e.Wf False True n ∧ 6 ≤ e.strength := by
  refine yields_level rfl (yields_productExpr h) (yields_chainStep (fun l op hop => ?_)
    (yields_productExpr h))
  unfold sumOp? at hop
  split at hop
  all_goals first
    | (obtain rfl := Option.some.inj hop; rfl)
    | exact absurd hop (by simp)

theorem yields_concatExpr (h : YieldsWf inner n) :
    Yields (level inner 5) fun e => e.Wf False True n ∧ 5 ≤ e.strength := by
  refine yields_level rfl (yields_sumExpr h) (yields_chainStep (fun l op hop => ?_)
    (yields_sumExpr h))
  unfold concatOp? at hop
  split at hop
  all_goals first
    | (obtain rfl := Option.some.inj hop; rfl)
    | exact absurd hop (by simp)

/-! ## Predicates -/

theorem yields_inTail (h : YieldsWf inner n) {e : Expr} (negated : Bool)
    (he : e.Wf False True n ∧ strengthComparison ≤ e.strength) :
    Yields (inTail inner e negated) fun e' =>
      e'.Wf False True n ∧ strengthComparison ≤ e'.strength := by
  refine Yields.peek fun _ _ => Yields.expect (Yields.query h (fun s hs hbare =>
    Yields.closeParen (Yields.pure ⟨?_, Nat.le_refl _⟩)) (Yields.flag yields_isNext yields_failAt ?_))
  · rw [Expr.Wf]
    exact ⟨he, hs.1, hs.2, hbare⟩
  · refine Yields.bind (yields_commaList h.expr) fun items hitems => Yields.closeParen
      (Yields.pure ⟨?_, Nat.le_refl _⟩)
    rw [Expr.Wf]
    exact ⟨he, hitems.1, exprsWf_iff.mpr hitems.2⟩

/-- A comparison that is handed back, of well-formed operands. -/
theorem yields_comparison (h : YieldsWf inner n) {e : Expr} {op : BinaryOp}
    (he : e.Wf False True n ∧ strengthComparison ≤ e.strength)
    (hop : op.strength = strengthComparison) :
    Yields (do return some (.binary e op (← concatExpr inner)) : Parser (Option Expr)) fun o =>
      ∀ e' ∈ o, e'.Wf False True n ∧ strengthComparison ≤ e'.strength := by
  refine Yields.bind (yields_concatExpr h) fun r hr => Yields.pure fun e' he' => ?_
  obtain rfl := Option.mem_some.mp he'
  refine ⟨?_, Nat.le_of_eq hop.symm⟩
  rw [Expr.Wf, hop]
  exact ⟨he.1, hr.1, he.2, hr.2⟩

theorem yields_wordPredicate (h : YieldsWf inner n) {e : Expr} (negated : Bool)
    (he : e.Wf False True n ∧ strengthComparison ≤ e.strength) :
    Yields (wordPredicate inner e negated) fun o =>
      ∀ e' ∈ o, e'.Wf False True n ∧ strengthComparison ≤ e'.strength := by
  refine Yields.flag yields_eatKeyword (yields_comparison h he (by cases negated <;> rfl)) ?_
  refine Yields.flag yields_eatKeyword (yields_comparison h he (by cases negated <;> rfl)) ?_
  refine Yields.flag yields_eatKeyword ?_ (Yields.flag yields_eatKeyword ?_
    (Yields.pure fun e' he' => by simp at he'))
  · refine Yields.bind (yields_concatExpr h) fun low hlow => Yields.expectKeyword
      (Yields.bind (yields_concatExpr h) fun high hhigh => Yields.pure fun e' he' => ?_)
    obtain rfl := Option.mem_some.mp he'
    refine ⟨?_, Nat.le_refl _⟩
    rw [Expr.Wf]
    exact ⟨he, hlow, hhigh⟩
  · refine Yields.bind (yields_inTail h negated he) fun e'' he'' => Yields.pure fun e' he' => ?_
    obtain rfl := Option.mem_some.mp he'
    exact he''

theorem yields_eatPredicateNot : Yields eatPredicateNot fun _ => True :=
  Yields.bind yields_isNextKeyword fun _ _ => Yields.peekSecond fun _ _ => Yields.ite
    (fun _ => Yields.skip (Yields.pure trivial)) fun _ => Yields.pure trivial

theorem yields_predicate (h : YieldsWf inner n) (e : Expr)
    (he : e.Wf False True n ∧ strengthComparison ≤ e.strength) :
    Yields (predicate? inner e) fun o =>
      ∀ e' ∈ o, e'.Wf False True n ∧ strengthComparison ≤ e'.strength := by
  refine Yields.peek fun t _ => ?_
  cases hop : comparisonOp? t.lexeme with
  | some op =>
    refine Yields.skip (yields_comparison h he ?_)
    unfold comparisonOp? at hop
    split at hop
    all_goals first
      | (obtain rfl := Option.some.inj hop; rfl)
      | exact absurd hop (by simp)
  | none =>
    refine Yields.flag yields_eatKeyword ?_ ?_
    · refine Yields.bind yields_eatKeyword fun negated _ => Yields.expectKeyword
        (Yields.pure fun e' he' => ?_)
      obtain rfl := Option.mem_some.mp he'
      refine ⟨?_, Nat.le_refl _⟩
      rw [Expr.Wf]
      exact he
    · exact Yields.bind yields_eatPredicateNot fun negated _ => yields_wordPredicate h negated he

/-! ## The weak levels -/

theorem yields_comparisonExpr (h : YieldsWf inner n) :
    Yields (level inner 4) fun e => e.Wf False True n ∧ 4 ≤ e.strength :=
  yields_level rfl (yields_concatExpr h) (yields_predicate h)

theorem yields_notExpr (h : YieldsWf inner n) :
    Yields (level inner 3) fun e => e.Wf False True n ∧ 3 ≤ e.strength := by
  refine Yields.flag yields_eatKeyword ?_
    ((yields_comparisonExpr h).weaken fun _ he => ⟨he.1, Nat.le_of_succ_le he.2⟩)
  refine Yields.bind h.negated fun e he => Yields.pure ⟨?_, Nat.le_refl _⟩
  rw [Expr.Wf]
  exact he

theorem yields_andExpr (h : YieldsWf inner n) :
    Yields (level inner 2) fun e => e.Wf False True n ∧ 2 ≤ e.strength := by
  refine yields_level rfl (yields_notExpr h) (yields_chainStep (fun l op hop => ?_)
    (yields_notExpr h))
  unfold andOp? at hop
  split at hop
  all_goals first
    | (obtain rfl := Option.some.inj hop; rfl)
    | exact absurd hop (by simp)

/-- **The expressions that are read are well formed.** -/
theorem yields_orExpr (h : YieldsWf inner n) :
    Yields (level inner 1) fun e => e.Wf False True n ∧ 1 ≤ e.strength := by
  refine yields_level rfl (yields_andExpr h) (yields_chainStep (fun l op hop => ?_)
    (yields_andExpr h))
  unfold orOp? at hop
  split at hop
  all_goals first
    | (obtain rfl := Option.some.inj hop; rfl)
    | exact absurd hop (by simp)

end

end Sql.Parser
