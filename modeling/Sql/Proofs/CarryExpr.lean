import Sql.Proofs.Carries
import Sql.Proofs.ReadAtoms

/-!
# Expressions in front of a closing parenthesis

Given that the parsers of the next level in carry over (`CarriesInner`), so do the parsers of
expressions, level by level.

* `Carries.closed`: what has to be closed is not left open at the end, so a closing parenthesis that
  is only looked for is none that stands in place of the end.
* `carries_level`: a level carries over with the next one and with its own steps.
-/

namespace Sql.Parser

/-- The parsers for what stands one level further in carry over. -/
structure CarriesInner (fits : Prop) (inner inner' : Inner) : Prop where
  expr : ∀ m, Carries fits m inner.expr inner'.expr
  statement : ∀ m, Carries fits m inner.statement inner'.statement
  negated : ∀ m, Carries fits m inner.negated inner'.negated
  signed : ∀ m, Carries fits m inner.signed inner'.signed

section

variable {fits : Prop} {inner inner' : Inner} {m : Nat} {α β : Type} {ls : List Lexeme} {l : Lexeme}
  {taken : α → Nat}

/-! ## Lists and clauses -/

theorem carries_isNextQuery : Carries fits m isNextQuery isNextQuery :=
  Carries.bind carries_isNextKeyword fun _ => Carries.bind carries_isNextKeyword fun _ =>
    Carries.pure

/-- A keyword and what it announces, or neither. -/
theorem carries_optional {k : String} {p p' : Parser α} {f f' : Option α → Parser β}
    (hp : Carries fits m p p') (hf : ∀ o, Carries fits m (f o) (f' o)) :
    Carries fits m
      (eatKeyword k >>= fun b =>
        if b = true then (some <$> p) >>= f else (Pure.pure none : Parser (Option α)) >>= f)
      (eatKeyword k >>= fun b =>
        if b = true then (some <$> p') >>= f' else (Pure.pure none : Parser (Option α)) >>= f') :=
  Carries.flag carries_eatKeyword (Carries.bind (Carries.map _ hp) hf)
    (Carries.bind Carries.pure hf)

theorem carries_byClause {item item' : Parser α} {k : String}
    (hitem : ∀ m, Carries fits m item item') :
    Carries fits m (byClause k item) (byClause k item') :=
  Carries.flag carries_eatKeyword
    (Carries.bind carries_expectKeyword fun _ => carries_commaList hitem) Carries.pure

theorem carries_direction : Carries fits m direction direction :=
  Carries.flag carries_eatKeyword Carries.pure
    (Carries.flag carries_eatKeyword Carries.pure Carries.pure)

theorem carries_nullsOrder : Carries fits m nullsOrder nullsOrder :=
  Carries.flag carries_eatKeyword
    (Carries.flag carries_eatKeyword Carries.pure
      (Carries.flag carries_eatKeyword Carries.pure carries_unexpected))
    Carries.pure

theorem carries_orderItem (h : CarriesInner fits inner inner') :
    Carries fits m (orderItem inner) (orderItem inner') :=
  Carries.bind (h.expr m) fun _ => Carries.bind carries_direction fun _ =>
    Carries.bind carries_nullsOrder fun _ => Carries.pure

/-! ## Two tokens ahead -/

/-- A keyword with a token behind it that passes a test. -/
theorem Advances.twoAhead {k : String} (test : Lexeme → Bool) (hend : test .eof = false)
    (hparen : test (.symbol .rightParen) = false) {p p' q q' : Parser α}
    (hp : ∀ l l' ls, (l :: l' :: ls).length < m → CarriesAt fits (l :: l' :: ls) taken p p')
    (hq : Advances fits m taken q q') :
    Advances fits m taken
      (isNextKeyword k >>= fun b => peekSecond >>= fun t =>
        if (b && test t.lexeme) = true then p else q)
      (isNextKeyword k >>= fun b => peekSecond >>= fun t =>
        if (b && test t.lexeme) = true then p' else q') := by
  intro ls hls ts us a rest hparted hrun
  change (if ((firstToken ts).lexeme.isKeyword k && test (firstToken ts.tail).lexeme) = true
    then p else q) ts = .ok (a, rest) at hrun
  show ∃ n, _ ∧ _ ∧ _ ∧ Outcome fits
    ((if ((firstToken us).lexeme.isKeyword k && test (firstToken us.tail).lexeme) = true
      then p' else q') us) _
  have hneither : ((firstToken ts).lexeme.isKeyword k && test (firstToken ts.tail).lexeme) = false →
      ((firstToken us).lexeme.isKeyword k && test (firstToken us.tail).lexeme) = false →
      ∃ n, taken a ≤ n ∧ n ≤ ls.length ∧ rest = ts.drop n ∧ Outcome fits
        ((if ((firstToken us).lexeme.isKeyword k && test (firstToken us.tail).lexeme) = true
          then p' else q') us) (a, us.drop n) := by
    intro hts hus
    rw [hts, if_neg Bool.false_ne_true] at hrun
    rw [hus, if_neg Bool.false_ne_true]
    exact hq ls hls ts us a rest hparted hrun
  -- with fewer than two tokens, one of the looks falls on the end, or else on the parenthesis
  match ls with
  | [] =>
    obtain ⟨o, o', us', rfl, rfl⟩ := hparted.at_end
    exact hneither rfl rfl
  | [l] =>
    obtain ⟨o, ts', o', us', rfl, rfl, hparted'⟩ := hparted.at_token
    obtain ⟨o₂, o₂', us'', rfl, rfl⟩ := hparted'.at_end
    refine hneither ?_ ?_
    · show (l.isKeyword k && test .eof) = false
      rw [hend, Bool.and_false]
    · show (l.isKeyword k && test (.symbol .rightParen)) = false
      rw [hparen, Bool.and_false]
  | l :: l' :: ls =>
    obtain ⟨o, ts', o', us', rfl, rfl, hparted'⟩ := hparted.at_token
    obtain ⟨o₂, ts'', o₂', us'', rfl, rfl, -⟩ := hparted'.at_token
    cases htest : l.isKeyword k && test l' with
    | false => exact hneither htest htest
    | true =>
      change (if (l.isKeyword k && test l') = true then p else q) _ = _ at hrun
      show ∃ n, _ ∧ _ ∧ _ ∧ Outcome fits
        ((if (l.isKeyword k && test l') = true then p' else q') _) _
      rw [htest, if_pos rfl] at hrun ⊢
      exact hp l l' ls hls _ _ a rest hparted hrun

/-- A look at the token after the next. -/
theorem CarriesAt.peekSecond {f f' : Token → Parser α}
    (hmore : ∀ l' ls' o o', ls = l' :: ls' →
      CarriesAt fits (l :: ls) taken (f ⟨l', o⟩) (f' ⟨l', o'⟩))
    (hend : ∀ o o', ls = [] →
      CarriesAt fits (l :: ls) taken (f ⟨.eof, o⟩) (f' ⟨.symbol .rightParen, o'⟩)) :
    CarriesAt fits (l :: ls) taken (Parser.peekSecond >>= f) (Parser.peekSecond >>= f') := by
  intro ts us a rest hparted hrun
  obtain ⟨o, ts', o', us', rfl, rfl, hparted'⟩ := hparted.at_token
  cases ls with
  | nil =>
    obtain ⟨o₂, o₂', us'', rfl, rfl⟩ := hparted'.at_end
    exact hend o₂ o₂' rfl _ _ a rest hparted hrun
  | cons l' ls =>
    obtain ⟨o₂, ts'', o₂', us'', rfl, rfl, -⟩ := hparted'.at_token
    exact hmore l' ls o₂ o₂' rfl _ _ a rest hparted hrun

/-! ## What has to be closed -/

/-- The parser stops with a fault where nothing is left. -/
def FailsAtEnd (p : Parser α) : Prop := ∀ o, ∃ e, p [⟨.eof, o⟩] = .error e

/-- At the end, a parser that carries over leaves the end to the next one. -/
theorem FailsAtEnd.bind {p p' : Parser α} {f : α → Parser β} (hp : Carries fits 1 p p')
    (hf : ∀ a, FailsAtEnd (f a)) : FailsAtEnd (p >>= f) := by
  intro o
  cases hrun : (p >>= f) [⟨.eof, o⟩] with
  | error e => exact ⟨e, rfl⟩
  | ok r =>
    obtain ⟨b, rest⟩ := r
    obtain ⟨a, between, ha, hb⟩ := bind_eq_ok hrun
    have hparted : Parted [] [⟨.eof, o⟩] [⟨.symbol .rightParen, 0⟩] :=
      ⟨rfl, ⟨[], rfl⟩, List.not_mem_nil⟩
    -- the first parser cannot have taken the end
    obtain ⟨k, -, hk, rfl, -⟩ := hp [] Nat.zero_lt_one _ _ a between hparted ha
    obtain rfl : k = 0 := Nat.le_zero.mp hk
    obtain ⟨e, he⟩ := hf a o
    cases he.symm.trans hb

/-- **What has to be closed is not left open at the end.** A closing parenthesis that is only looked
for, where else something follows that has to be closed, is none that stands in place of the end. -/
theorem Carries.closed {f f' : Bool → Parser α} (htrue : Carries fits m (f true) (f' true))
    (hfalse : Carries fits m (f false) (f' false)) (hend : FailsAtEnd (f false)) :
    Carries fits m (isNext (.symbol .rightParen) >>= f) (isNext (.symbol .rightParen) >>= f') := by
  show Advances fits m _ (peek >>= fun t => f (t.lexeme == .symbol .rightParen))
    (peek >>= fun t => f' (t.lexeme == .symbol .rightParen))
  refine Advances.look (fun l o o' ls hls => ?_) fun o o' ts us a rest hparted hrun => ?_
  · dsimp only
    cases l == .symbol .rightParen with
    | true => exact htrue _ hls
    | false => exact hfalse _ hls
  · obtain ⟨o₂, -, -, rfl, -⟩ := hparted.at_end
    obtain ⟨e, he⟩ := hend o₂
    cases he.symm.trans hrun

/-! ## Calls -/

theorem carries_callFilter (h : CarriesInner fits inner inner') :
    Carries fits m (callFilter inner) (callFilter inner') := by
  refine Advances.twoAhead (· == .symbol .leftParen) rfl rfl (fun l l' ls hls => ?_) Carries.pure
  have hcondition : Carries fits m
      (do
        expectKeyword "where"
        let condition ← inner.expr
        expect (.symbol .rightParen) "')' after FILTER"
        return some condition : Parser (Option Expr))
      (do
        expectKeyword "where"
        let condition ← inner'.expr
        expect (.symbol .rightParen) "')' after FILTER"
        return some condition : Parser (Option Expr)) :=
    Carries.bind carries_expectKeyword fun _ => Carries.bind (h.expr m) fun _ =>
      Carries.bind carries_expectClosing fun _ => Carries.pure
  exact CarriesAt.skip (hcondition.skip (Nat.lt_of_succ_lt hls) fun _ => Nat.zero_le _)

theorem carries_callWindow (h : CarriesInner fits inner inner') :
    Carries fits m (callWindow inner) (callWindow inner') := by
  rw [callWindow_eq, callWindow_eq]
  refine Advances.twoAhead (· == .symbol .leftParen) rfl rfl (fun l l' ls hls => ?_) Carries.pure
  have hclauses : Carries fits m
      (do
        let partitionBy ← byClause "partition" inner.expr
        let orderBy ← byClause "order" (orderItem inner)
        expect (.symbol .rightParen) "')' after window specification"
        return some ⟨partitionBy, orderBy⟩ : Parser (Option Window))
      (do
        let partitionBy ← byClause "partition" inner'.expr
        let orderBy ← byClause "order" (orderItem inner')
        expect (.symbol .rightParen) "')' after window specification"
        return some ⟨partitionBy, orderBy⟩ : Parser (Option Window)) :=
    Carries.bind (carries_byClause h.expr) fun _ =>
      Carries.bind (carries_byClause fun _ => carries_orderItem h) fun _ =>
        Carries.bind carries_expectClosing fun _ => Carries.pure
  exact CarriesAt.skip (hclauses.skip (Nat.lt_of_succ_lt hls) fun _ => Nat.zero_le _)

/-- A call from its closing parenthesis on. -/
theorem carries_callEnd (h : CarriesInner fits inner inner') {f : String} {opened opened' : Nat}
    {distinct : Bool} {args : List Expr} :
    Carries fits m (callEnd inner f opened distinct args)
      (callEnd inner' f opened' distinct args) :=
  Carries.bind carries_closeParen fun _ => Carries.bind (carries_callFilter h) fun _ =>
    Carries.bind (carries_callWindow h) fun _ => Carries.pure

theorem carries_call (h : CarriesInner fits inner inner') {f : String} :
    Carries fits m (call inner f) (call inner' f) := by
  refine Advances.place fun t t' =>
    Carries.bind (carries_expect (by decide) (by decide)) fun _ => ?_
  refine Carries.closed (carries_callEnd h) ?_ ?_
  · exact Carries.bind carries_eatKeyword fun _ =>
      Carries.bind (carries_commaList h.expr) fun _ => carries_callEnd h
  · have hdistinct : Carries fits 1 (eatKeyword "distinct") (eatKeyword "distinct") :=
      carries_eatKeyword
    exact FailsAtEnd.bind hdistinct fun _ =>
      FailsAtEnd.bind (carries_commaList h.expr) fun _ _ => ⟨_, rfl⟩

/-! ## Names -/

theorem carries_pathTail : ∀ n n', n ≤ n' → ∀ parts,
    Carries fits n (pathTail n parts) (pathTail n' parts) :=
  carries_turns fun _ _ hrest parts => Carries.turn (advances_eat (by decide) (by decide))
    (Carries.flag (carries_eat (by decide) (by decide)) Carries.pure
      (Carries.bind carries_name fun _ => hrest _))
    Carries.pure

theorem carries_path (h : CarriesInner fits inner inner') :
    Carries fits m (path inner) (path inner') := by
  have hrest : ∀ first, Carries fits m (pathRest inner first) (pathRest inner' first) := by
    refine fun first => Advances.remaining fun n n' hn =>
      Carries.bind (carries_pathTail n n' hn [first]) ?_
    rintro ⟨parts, star⟩
    cases star with
    | true => exact Carries.pure
    | false =>
      exact Carries.flag (carries_isNext (by decide) (by decide)) (carries_call h) Carries.pure
  refine Advances.look (fun l _ _ ls hls => ?_) fun _ _ => CarriesAt.of_error fun _ => ⟨_, rfl⟩
  cases l with
  | word w => exact (hrest w).skip hls fun _ => Nat.zero_le _
  | quoted n => exact (hrest n).skip hls fun _ => Nat.zero_le _
  | _ => exact CarriesAt.of_error fun _ => ⟨_, rfl⟩

/-! ## CASE, CAST and EXISTS -/

theorem carries_branches (h : CarriesInner fits inner inner') :
    ∀ n n', n ≤ n' → Carries fits n (branches inner n) (branches inner' n') :=
  carries_repeated fun n _ hrest => Carries.turn advances_eatKeyword
    (Carries.bind (h.expr n) fun _ => Carries.bind carries_expectKeyword fun _ =>
      Carries.bind (h.expr n) fun _ => Carries.bind hrest fun _ => Carries.pure)
    Carries.pure

theorem carries_caseTail (h : CarriesInner fits inner inner') :
    Carries fits m (caseTail inner) (caseTail inner') := by
  have hrest : ∀ scrutinee, Carries fits m
      (do
        let bs ← branches inner (← remaining)
        if bs.isEmpty then unexpected "WHEN" else caseEnd inner scrutinee bs : Parser Expr)
      (do
        let bs ← branches inner' (← remaining)
        if bs.isEmpty then unexpected "WHEN" else caseEnd inner' scrutinee bs : Parser Expr) := by
    refine fun scrutinee => Advances.remaining fun n n' hn =>
      Carries.bind (carries_branches h n n' hn) fun bs =>
        Advances.ite (fun _ => carries_unexpected) fun _ => ?_
    exact carries_optional (h.expr n) fun _ => Carries.bind carries_expectKeyword fun _ =>
      Carries.pure
  exact Carries.flag carries_isNextKeyword (hrest none)
    (Carries.bind (Carries.map _ (h.expr m)) hrest)

theorem carries_castTail (h : CarriesInner fits inner inner') {start start' : Nat} :
    Carries fits m (castTail inner start) (castTail inner' start') :=
  Carries.bind (carries_expect (by decide) (by decide)) fun _ => Carries.bind (h.expr m) fun _ =>
    Carries.bind carries_expectKeyword fun _ => Carries.bind carries_typeName fun _ =>
      Carries.bind carries_closeParen fun _ => Carries.pure

theorem carries_existsTail (h : CarriesInner fits inner inner') :
    Carries fits m (existsTail inner) (existsTail inner') :=
  Advances.place fun _ _ => Carries.bind (carries_expect (by decide) (by decide)) fun _ =>
    Carries.bind (h.statement m) fun _ => Carries.bind carries_closeParen fun _ => Carries.pure

/-! ## Expressions without an outer operator -/

/-- The string after the name of a type, which makes a literal with it. -/
theorem CarriesAt.literalValue {type : String} {f f' : Option String → Parser α}
    (hnone : CarriesAt fits (l :: ls) taken (f none) (f' none))
    (hsome : ∀ v ls', ls = .string v :: ls' →
      CarriesAt fits (l :: ls) taken (f (some v)) (f' (some v))) :
    CarriesAt fits (l :: ls) taken (literalValue? type >>= f) (literalValue? type >>= f') := by
  have hvalue : literalValue? type = Parser.peekSecond >>= fun t =>
      Pure.pure (valueOf? type t.lexeme) := funext (literalValue?_eq type)
  rw [hvalue]
  show CarriesAt fits (l :: ls) taken (Parser.peekSecond >>= fun t => f (valueOf? type t.lexeme))
    (Parser.peekSecond >>= fun t => f' (valueOf? type t.lexeme))
  refine CarriesAt.peekSecond (fun l' ls' o o' hls => ?_) fun o o' _ => hnone
  cases l' with
  | string v =>
    dsimp only [valueOf?]
    split
    · exact hsome v ls' hls
    · exact hnone
  | _ => exact hnone

theorem carries_wordExpr (h : CarriesInner fits inner inner') {w : String} {start start' : Nat}
    (hls : (.word w :: ls : List Lexeme).length < m) :
    CarriesAt fits (.word w :: ls) (fun _ => 0) (wordExpr inner w start)
      (wordExpr inner' w start') := by
  unfold wordExpr
  dsimp only
  split
  · exact Carries.pure.skip hls fun _ => Nat.zero_le _
  split
  · exact Carries.pure.skip hls fun _ => Nat.zero_le _
  split
  · exact Carries.pure.skip hls fun _ => Nat.zero_le _
  split
  · exact (carries_caseTail h).skip hls fun _ => Nat.zero_le _
  split
  · exact (carries_castTail h).skip hls fun _ => Nat.zero_le _
  split
  · exact (carries_existsTail h).skip hls fun _ => Nat.zero_le _
  refine CarriesAt.literalValue ?_ fun v ls' hstring => ?_
  · -- a word that only stands for a function has an opening parenthesis behind it
    have hpath : ∀ b : Bool, CarriesAt fits (.word w :: ls) (fun _ => 0)
        (if (isStopWord w && !b) = true then failAt start (.unexpectedKeyword w) else path inner)
        (if (isStopWord w && !b) = true then failAt start' (.unexpectedKeyword w)
          else path inner') := by
      intro b
      split
      · exact CarriesAt.of_error fun _ => ⟨_, rfl⟩
      · exact carries_path h _ hls
    show CarriesAt fits (.word w :: ls) (fun _ => 0)
      (Parser.peekSecond >>= fun t =>
        if (isStopWord w && !((foldCase w == "left" || foldCase w == "right")
          && t.lexeme == .symbol .leftParen)) = true
        then failAt start (.unexpectedKeyword w) else path inner)
      (Parser.peekSecond >>= fun t =>
        if (isStopWord w && !((foldCase w == "left" || foldCase w == "right")
          && t.lexeme == .symbol .leftParen)) = true
        then failAt start' (.unexpectedKeyword w) else path inner')
    exact CarriesAt.peekSecond (fun _ _ _ _ _ => hpath _) fun _ _ _ => hpath (_ && false)
  · subst hstring
    exact CarriesAt.skip (Carries.pure.skip (Nat.lt_of_succ_lt hls) fun _ => Nat.zero_le _)

theorem carries_parenTail (h : CarriesInner fits inner inner') {opened opened' : Nat} :
    Carries fits m (parenTail inner opened) (parenTail inner' opened') :=
  Carries.flag carries_isNextQuery
    (Carries.bind (h.statement m) fun _ => Carries.bind carries_closeParen fun _ => Carries.pure)
    (Carries.bind (h.expr m) fun _ => Carries.bind carries_closeParen fun _ => Carries.pure)

theorem carries_primary (h : CarriesInner fits inner inner') :
    Carries fits m (primary inner) (primary inner') := by
  refine Advances.look (fun l o o' ls hls => ?_) fun _ _ => CarriesAt.of_error fun _ => ⟨_, rfl⟩
  cases l with
  | number _ => exact Carries.pure.skip hls fun _ => Nat.zero_le _
  | string _ => exact Carries.pure.skip hls fun _ => Nat.zero_le _
  | param _ _ => exact Carries.pure.skip hls fun _ => Nat.zero_le _
  | symbol s =>
    cases s with
    | star => exact Carries.pure.skip hls fun _ => Nat.zero_le _
    | leftParen => exact (carries_parenTail h).skip hls fun _ => Nat.zero_le _
    | _ => exact CarriesAt.of_error fun _ => ⟨_, rfl⟩
  | word w => exact carries_wordExpr h hls
  | quoted _ => exact carries_path h _ hls
  | eof => exact CarriesAt.of_error fun _ => ⟨_, rfl⟩

/-! ## The levels -/

theorem carries_loop {step step' : Expr → Parser (Option Expr)}
    (hstep : ∀ m e, Steps fits m (step e) (step' e)) :
    ∀ n n', n ≤ n' → ∀ e, Carries fits n (loop step n e) (loop step' n' e) :=
  carries_turns fun _ _ hrest e => Carries.turnStep (hstep _ e) hrest Carries.pure

theorem steps_chainStep {operator : Lexeme → Option BinaryOp} {operand operand' : Parser Expr}
    (hend : operator .eof = none) (hparen : operator (.symbol .rightParen) = none)
    (hoperand : ∀ m, Carries fits m operand operand') (m : Nat) (e : Expr) :
    Steps fits m (chainStep operator operand e) (chainStep operator operand' e) := by
  refine Advances.look (fun l o o' ls hls => ?_) fun o o' => ?_
  · dsimp only
    cases operator l with
    | none => exact CarriesAt.pure rfl
    | some op =>
      have hright : Carries fits m
          (do return some (.binary e op (← operand)) : Parser (Option Expr))
          (do return some (.binary e op (← operand'))) :=
        Carries.bind (hoperand m) fun _ => Carries.pure
      exact hright.skip hls fun o => Bool.toNat_le o.isSome
  · dsimp only
    rw [hend, hparen]
    exact CarriesAt.pure rfl

theorem steps_castStep (m : Nat) (e : Expr) : Steps fits m (castStep e) (castStep e) :=
  Steps.flag (advances_eat (by decide) (by decide))
    (Carries.bind carries_typeName fun _ => Carries.pure) Steps.none

/-- **A level carries over with the next one and with its own steps.** -/
theorem carries_level {s : Nat} (hs : groupsLeft s = true)
    (hnext : ∀ m, Carries fits m (level inner (s + 1)) (level inner' (s + 1)))
    (hstep : ∀ m e, Steps fits m (levelStep inner s e) (levelStep inner' s e)) (m : Nat) :
    Carries fits m (level inner s) (level inner' s) := by
  rw [level_eq inner hs, level_eq inner' hs]
  exact Carries.bind (hnext m) fun e => Advances.remaining fun n n' hn =>
    carries_loop hstep n n' hn e

theorem carries_castExpr (h : CarriesInner fits inner inner') :
    ∀ m, Carries fits m (level inner 9) (level inner' 9) :=
  carries_level rfl (fun _ => carries_primary h) steps_castStep

theorem carries_signExpr (h : CarriesInner fits inner inner') (m : Nat) :
    Carries fits m (level inner 8) (level inner' 8) := by
  refine Advances.look (fun l o o' ls hls => ?_) fun o o' => ?_
  · dsimp only
    cases signOf? l with
    | none => exact carries_castExpr h m _ hls
    | some op =>
      have hsigned : Carries fits m (do return .unary op (← inner.signed) : Parser Expr)
          (do return .unary op (← inner'.signed)) :=
        Carries.bind (h.signed m) fun _ => Carries.pure
      exact hsigned.skip hls fun _ => Nat.zero_le _
  · exact carries_castExpr h 1 [] Nat.zero_lt_one

theorem carries_productExpr (h : CarriesInner fits inner inner') :
    ∀ m, Carries fits m (level inner 7) (level inner' 7) :=
  carries_level rfl (carries_signExpr h) (steps_chainStep rfl rfl (carries_signExpr h))

theorem carries_sumExpr (h : CarriesInner fits inner inner') :
    ∀ m, Carries fits m (level inner 6) (level inner' 6) :=
  carries_level rfl (carries_productExpr h) (steps_chainStep rfl rfl (carries_productExpr h))

theorem carries_concatExpr (h : CarriesInner fits inner inner') :
    ∀ m, Carries fits m (level inner 5) (level inner' 5) :=
  carries_level rfl (carries_sumExpr h) (steps_chainStep rfl rfl (carries_sumExpr h))

/-! ## Predicates -/

theorem carries_inTail (h : CarriesInner fits inner inner') {e : Expr} {negated : Bool} :
    Carries fits m (inTail inner e negated) (inTail inner' e negated) := by
  refine Advances.place fun t t' => Carries.bind (carries_expect (by decide) (by decide)) fun _ =>
    Carries.flag carries_isNextQuery ?_ (Carries.closed carries_failAt ?_ ?_)
  · exact Carries.bind (h.statement m) fun _ => Carries.bind carries_closeParen fun _ =>
      Carries.pure
  · exact Carries.bind (carries_commaList h.expr) fun _ =>
      Carries.bind carries_closeParen fun _ => Carries.pure
  · exact FailsAtEnd.bind (carries_commaList h.expr) fun _ _ => ⟨_, rfl⟩

/-- An operand on the right, and the comparison with it. -/
theorem carries_comparison (h : CarriesInner fits inner inner') {e : Expr} {op : BinaryOp} :
    Carries fits m (do return some (.binary e op (← concatExpr inner)) : Parser (Option Expr))
      (do return some (.binary e op (← concatExpr inner'))) :=
  Carries.bind (carries_concatExpr h m) fun _ => Carries.pure

theorem steps_wordPredicate (h : CarriesInner fits inner inner') {e : Expr} {negated : Bool} :
    Steps fits m (wordPredicate inner e negated) (wordPredicate inner' e negated) := by
  refine Steps.flag advances_eatKeyword (carries_comparison h) ?_
  refine Steps.flag advances_eatKeyword (carries_comparison h) ?_
  refine Steps.flag advances_eatKeyword ?_ (Steps.flag advances_eatKeyword ?_ Steps.none)
  · exact Carries.bind (carries_concatExpr h m) fun _ => Carries.bind carries_expectKeyword fun _ =>
      Carries.bind (carries_concatExpr h m) fun _ => Carries.pure
  · exact Carries.bind (carries_inTail h) fun _ => Carries.pure

theorem carries_eatPredicateNot : Carries fits m eatPredicateNot eatPredicateNot :=
  Advances.twoAhead (fun l => negatable.any l.isKeyword) rfl rfl
    (fun _ _ _ hls => Carries.pure.skip hls fun _ => Nat.zero_le _) Carries.pure

theorem steps_predicate (h : CarriesInner fits inner inner') (m : Nat) (e : Expr) :
    Steps fits m (predicate? inner e) (predicate? inner' e) := by
  have hwords : ∀ m, Steps fits m
      (do
        if ← eatKeyword "is" then
          let negated ← eatKeyword "not"
          expectKeyword "null"
          return some (.isNull e negated)
        else
          let negated ← eatPredicateNot
          wordPredicate inner e negated : Parser (Option Expr))
      (do
        if ← eatKeyword "is" then
          let negated ← eatKeyword "not"
          expectKeyword "null"
          return some (.isNull e negated)
        else
          let negated ← eatPredicateNot
          wordPredicate inner' e negated : Parser (Option Expr)) := fun m =>
    Steps.flag advances_eatKeyword
      (Carries.bind carries_eatKeyword fun _ => Carries.bind carries_expectKeyword fun _ =>
        Carries.pure)
      (Carries.bind carries_eatPredicateNot fun _ => steps_wordPredicate h)
  refine Advances.look (fun l o o' ls hls => ?_) fun o o' => ?_
  · dsimp only
    cases comparisonOp? l with
    | some op => exact (carries_comparison h).skip hls fun o => Bool.toNat_le o.isSome
    | none => exact hwords m _ hls
  · exact hwords 1 [] Nat.zero_lt_one

/-! ## The weak levels -/

theorem carries_comparisonExpr (h : CarriesInner fits inner inner') :
    ∀ m, Carries fits m (level inner 4) (level inner' 4) :=
  carries_level rfl (carries_concatExpr h) (steps_predicate h)

theorem carries_notExpr (h : CarriesInner fits inner inner') (m : Nat) :
    Carries fits m (level inner 3) (level inner' 3) :=
  Carries.flag carries_eatKeyword (Carries.bind (h.negated m) fun _ => Carries.pure)
    (carries_comparisonExpr h m)

theorem carries_andExpr (h : CarriesInner fits inner inner') :
    ∀ m, Carries fits m (level inner 2) (level inner' 2) :=
  carries_level rfl (carries_notExpr h) (steps_chainStep rfl rfl (carries_notExpr h))

/-- **Expressions carry over.** -/
theorem carries_orExpr (h : CarriesInner fits inner inner') :
    ∀ m, Carries fits m (level inner 1) (level inner' 1) :=
  carries_level rfl (carries_andExpr h) (steps_chainStep rfl rfl (carries_andExpr h))

end

end Sql.Parser
