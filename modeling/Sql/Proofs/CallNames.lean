import Sql.Proofs.ReadBack

/-!
# Calls that are read back

The name of a function is printed part by part, bare where it is simple, also where it is spelled
like a keyword. A call of which all names can be called (`CanBeCalled`) is read back from its text,
whatever quotes, dots or blanks its name has. From the text of a call whose own name cannot be
called no call is read (`isCall_of_format`): its first word is taken for the start of something
else, or a later part stops the reader.
-/

namespace Sql

/-- The expression is a call. -/
def Expr.isCall : Expr → Bool
  | .call .. => true
  | _ => false

/-- A function that is called has a name by which it can be. -/
def Expr.Callable : Expr → Prop
  | .call f _ _ _ _ => CanBeCalled (splitName f)
  | _ => True

instance : (e : Expr) → Decidable e.Callable
  | .call f _ _ _ _ => inferInstanceAs (Decidable (CanBeCalled (splitName f)))
  | .column _ | .star _ | .literal _ | .param _ | .binary .. | .unary .. | .isNull .. | .between ..
  | .inList .. | .inQuery .. | .hasRows _ | .subquery _ | .case .. | .cast .. | .paren _ =>
    inferInstanceAs (Decidable True)

theorem Expr.named_of_callable {e : Expr} (hparams : ∀ p ∈ e.params, p.name ≠ none)
    (hcalls : ∀ x ∈ e.nodesInOrder, x.Callable) : ∀ x ∈ e.nodesInOrder, x.Named := by
  intro x hx
  cases x with
  | param p => exact hparams p (List.mem_filterMap.mpr ⟨_, hx, rfl⟩)
  | call => exact hcalls _ hx
  | _ => trivial

/-! ## Stop words are simple -/

theorem isAlpha_of_range {c : Char} (h : 65 ≤ c.toNat ∧ c.toNat ≤ 90) : c.isAlpha = true := by
  have hupper : decide (c.val ≥ 'A'.val ∧ c.val ≤ 'Z'.val) = true := by
    simp only [decide_eq_true_eq, ge_iff_le, UInt32.le_iff_toNat_le]
    exact h
  show (decide _ || c.isLower) = true
  rw [hupper, Bool.true_or]

theorem isSimpleStart_of_toLower {c : Char} (h : isSimpleStart c.toLower = true) :
    isSimpleStart c = true := by
  rcases toLower_cases c with ⟨hsame, -⟩ | ⟨hupper, -⟩
  · rwa [hsame] at h
  · simp [isSimpleStart, isAlpha_of_range hupper]

theorem isSimpleChar_of_toLower {c : Char} (h : isSimpleChar c.toLower = true) :
    isSimpleChar c = true := by
  rcases toLower_cases c with ⟨hsame, -⟩ | ⟨hupper, -⟩
  · rwa [hsame] at h
  · simp [isSimpleChar, Char.isAlphanum, isAlpha_of_range hupper]

theorem isSimpleName_of_foldCase {n : String} (h : isSimpleName (foldCase n) = true) :
    isSimpleName n = true := by
  unfold isSimpleName foldCase at *
  rw [String.toList_ofList] at h
  cases hn : n.toList with
  | nil =>
    rw [hn] at h
    cases h
  | cons c cs =>
    simp only [hn, List.map_cons, isSimple, Bool.and_eq_true, List.all_eq_true,
      List.forall_mem_map] at h ⊢
    exact ⟨isSimpleStart_of_toLower h.1, fun d hd => isSimpleChar_of_toLower (h.2 d hd)⟩

/-- A stop word has the shape of a name, so nothing quotes it where names of functions are kept. -/
theorem isSimpleName_of_isStopWord {word : String} (h : isStopWord word = true) :
    isSimpleName word = true := by
  have hall : ∀ w ∈ stopWords, isSimpleName w = true := by decide +kernel
  exact isSimpleName_of_foldCase (hall _ (List.contains_iff_mem.mp h))

theorem callable_of_nameOf? {p n : String} (h : Parser.nameOf? (partLexeme p) = some n) :
    isStopWord p = false := by
  cases hstop : isStopWord p with
  | false => rfl
  | true =>
    rw [partLexeme, if_pos (isSimpleName_of_isStopWord hstop), Parser.nameOf?, if_pos hstop] at h
    cases h

/-! ## The nodes of trees that were read -/

section

variable {strict bounded : Prop}

mutual

/-- Every node of a well-formed expression is well formed. -/
theorem Expr.wf_of_mem_nodesInOrder {n : Nat} (e : Expr) (h : e.Wf strict bounded n) :
    ∀ x ∈ e.nodesInOrder, ∃ m, x.Wf strict bounded m := by
  obtain ⟨-, hchildren, hstatement⟩ := Expr.parts_of_wf h
  refine Expr.forall_nodesInOrder.mpr ⟨⟨n, h⟩, fun c hc => ?_, fun s hs => ?_⟩
  · obtain ⟨m, hm⟩ := hchildren c hc
    exact Expr.wf_of_mem_nodesInOrder c hm
  · obtain ⟨m, hm⟩ := hstatement s hs
    exact Statement.wf_of_mem_nodesInOrder s hm
termination_by sizeOf e
decreasing_by
  · exact Expr.sizeOf_lt_of_mem_children hc
  · exact Expr.sizeOf_lt_of_statement? hs

theorem Body.wf_of_mem_nodesInOrder {n : Nat} (b : Body) (h : b.Wf strict bounded n) :
    ∀ x ∈ b.nodesInOrder, ∃ m, x.Wf strict bounded m := by
  match b with
  | .select q =>
    rw [Body.Wf] at h
    obtain ⟨-, hexprs, hsources⟩ := Select.parts_of_wf h
    refine Select.forall_nodesInOrder.mpr ⟨fun e he => ?_, fun t ht x hx => ?_⟩
    · obtain ⟨m, hm⟩ := hexprs e (Select.inl_mem_parts.mp he)
      exact Expr.wf_of_mem_nodesInOrder e hm
    · obtain ⟨s, hs, hx⟩ : ∃ s, t.statement? = some s ∧ x ∈ s.nodesInOrder := by
        unfold Source.nodesInOrder at hx
        cases hs : t.statement? with
        | none => simp [hs] at hx
        | some s => exact ⟨s, rfl, by simpa [hs] using hx⟩
      obtain ⟨m, hm⟩ := hsources t (Select.inr_mem_parts.mp ht) s hs
      exact Statement.wf_of_mem_nodesInOrder s hm x hx
  | .setOp l op r =>
    rw [Body.Wf] at h
    rw [Body.nodesInOrder_setOp, List.forall_mem_append]
    exact ⟨Body.wf_of_mem_nodesInOrder l h.1, Body.wf_of_mem_nodesInOrder r h.2.1⟩
  | .nested s =>
    rw [Body.Wf] at h
    rw [Body.nodesInOrder_nested]
    exact Statement.wf_of_mem_nodesInOrder s h.2
termination_by sizeOf b
decreasing_by
  · have := Select.sizeOf_lt_of_mem_exprs (Select.inl_mem_parts.mp he)
    simp +arith only [Body.select.sizeOf_spec]; omega
  · have := Source.sizeOf_lt_of_statement? hs
    have := Select.sizeOf_lt_of_mem_sources (Select.inr_mem_parts.mp ht)
    simp +arith only [Body.select.sizeOf_spec]; omega
  all_goals simp +arith

theorem Statement.wf_of_mem_nodesInOrder {n : Nat} (s : Statement) (h : s.Wf strict bounded n) :
    ∀ x ∈ s.nodesInOrder, ∃ m, x.Wf strict bounded m := by
  obtain ⟨-, hctes, hbody⟩ := Statement.parts_of_wf h
  rw [Statement.nodesInOrder_eq, List.forall_mem_append, List.forall_mem_flatMap]
  refine ⟨fun c hc => ?_, Body.wf_of_mem_nodesInOrder s.body hbody⟩
  obtain ⟨m, hm⟩ := hctes c hc
  exact Statement.wf_of_mem_nodesInOrder c.statement hm
termination_by sizeOf s
decreasing_by
  · exact Statement.sizeOf_lt_of_mem_ctes hc
  · exact s.sizeOf_body_lt

end

end

/-- What was read is printed if its parameters have names. -/
theorem Expr.format_of_wf {strict bounded : Prop} {n : Nat} {e : Expr}
    (h : e.Wf strict bounded n) (hnamed : ∀ p ∈ e.params, p.name ≠ none) {config : DialectConfig}
    (hconfig : config.Readable) :
    ∃ out, formatFragments config (e.fragments 0 false) = .ok out := by
  apply Unbound.format hconfig
  have hjoins : ∀ q ∈ e.selects, q.JoinsPrinted :=
    fun q hq => ((Expr.allSound_of_wf e h).2.1 q hq).1.joinsPrinted
  intro p hp
  rw [Expr.printsParams e hjoins 0 false] at hp
  refine ⟨hnamed p hp, ?_⟩
  obtain ⟨x, hx, hparam⟩ := List.mem_filterMap.mp hp
  obtain ⟨m, hm⟩ := Expr.wf_of_mem_nodesInOrder e h x hx
  cases x <;> cases hparam
  rw [Expr.Wf] at hm
  exact hm.1

namespace Parser

/-! ## What a parser hands back, whatever it takes -/

/-- Whatever the parser hands back satisfies the condition. -/
def Hands {α : Type} (p : Parser α) (Q : α → Prop) : Prop :=
  ∀ ts a rest, p ts = .ok (a, rest) → Q a

section

variable {α β : Type} {p q : Parser α} {Q : α → Prop} {R : β → Prop}

theorem Hands.pure {a : α} (h : Q a) : Hands (Pure.pure a : Parser α) Q := by
  intro ts a' rest hrun
  obtain ⟨rfl, -⟩ := Prod.mk.inj (Except.ok.inj hrun)
  exact h

/-- Only the last of several parsers matters. -/
theorem Hands.bind {f : α → Parser β} (hf : ∀ a, Hands (f a) R) : Hands (p >>= f) R := by
  intro ts b rest hrun
  obtain ⟨a, between, -, hb⟩ := bind_eq_ok hrun
  exact hf a between b rest hb

theorem Hands.ite {c : Prop} [Decidable c] (hp : Hands p Q) (hq : Hands q Q) :
    Hands (if c then p else q) Q := by
  split
  · exact hp
  · exact hq

theorem hands_failAt {offset : Nat} {f : ParseFault} : Hands (failAt offset f) Q := by
  intro ts a rest hrun
  cases hrun

theorem hands_unexpected {what : String} : Hands (unexpected what) Q := by
  intro ts a rest hrun
  cases hrun

end

section

variable {inner : Inner} {e : Expr}

/-- What continues an expression makes no call of it. -/
abbrev NoCall (o : Option Expr) : Prop := ∀ e ∈ o, e.isCall = false

theorem noCall_none : NoCall none := fun _ h => by cases h

theorem noCall_some (h : e.isCall = false) : NoCall (some e) := by
  rintro _ ⟨⟩
  exact h

theorem hands_chainStep {operator : Lexeme → Option BinaryOp} {operand : Parser Expr} :
    Hands (chainStep operator operand e) NoCall := by
  refine Hands.bind fun t => ?_
  cases operator t.lexeme with
  | none => exact Hands.pure noCall_none
  | some op => exact Hands.bind fun _ => Hands.bind fun r => Hands.pure (noCall_some rfl)

theorem hands_castStep : Hands (castStep e) NoCall :=
  Hands.bind fun _ => Hands.ite (Hands.bind fun _ => Hands.pure (noCall_some rfl))
    (Hands.pure noCall_none)

theorem hands_inTail {negated : Bool} :
    Hands (inTail inner e negated) fun e => e.isCall = false := by
  refine Hands.bind fun _ => Hands.bind fun _ => Hands.bind fun _ => Hands.ite ?_ ?_
  · exact Hands.bind fun _ => Hands.bind fun _ => Hands.pure rfl
  · refine Hands.bind fun _ => Hands.ite hands_failAt ?_
    exact Hands.bind fun _ => Hands.bind fun _ => Hands.pure rfl

theorem hands_predicate : Hands (predicate? inner e) NoCall := by
  refine Hands.bind fun t => ?_
  cases comparisonOp? t.lexeme with
  | some op => exact Hands.bind fun _ => Hands.bind fun _ => Hands.pure (noCall_some rfl)
  | none =>
    refine Hands.bind fun _ => Hands.ite ?_ (Hands.bind fun negated => ?_)
    · exact Hands.bind fun _ => Hands.bind fun _ => Hands.pure (noCall_some rfl)
    refine Hands.bind fun _ => Hands.ite ?_ (Hands.bind fun _ => Hands.ite ?_
      (Hands.bind fun _ => Hands.ite ?_ (Hands.bind fun _ => Hands.ite ?_ ?_)))
    · exact Hands.bind fun _ => Hands.pure (noCall_some rfl)
    · exact Hands.bind fun _ => Hands.pure (noCall_some rfl)
    · exact Hands.bind fun _ => Hands.bind fun _ => Hands.bind fun _ =>
        Hands.pure (noCall_some rfl)
    · intro ts o rest hrun
      obtain ⟨e', between, he', ho⟩ := bind_eq_ok hrun
      obtain ⟨rfl, -⟩ := Prod.mk.inj (Except.ok.inj ho)
      exact noCall_some (hands_inTail ts e' between he')
    · exact Hands.pure noCall_none

/-! ## Calls come from the innermost level -/

/-- A loop whose steps make no call hands back no call but the one that it was given. -/
theorem eq_of_loop_call {step : Expr → Parser (Option Expr)} (hstep : ∀ e, Hands (step e) NoCall)
    {k : Nat} {e' : Expr} {ts rest : List Token} (h : loop step k e ts = .ok (e', rest))
    (hcall : e'.isCall = true) : e' = e := by
  induction k generalizing e ts with
  | zero => exact (Prod.mk.inj (Except.ok.inj h)).1.symm
  | succ k ih =>
    obtain ⟨o, between, ho, hloop⟩ := bind_eq_ok h
    cases o with
    | none => exact (Prod.mk.inj (Except.ok.inj hloop)).1.symm
    | some x =>
      obtain rfl := ih hloop
      rw [hstep e ts _ between ho e' rfl] at hcall
      cases hcall

theorem hands_levelStep {s : Nat} (hs : groupsLeft s = true) (e : Expr) :
    Hands (levelStep inner s e) NoCall := by
  have hcases : ∀ s ∈ [1, 2, 4, 5, 6, 7, 9], Hands (levelStep inner s e) NoCall := by
    simp only [List.forall_mem_cons, List.not_mem_nil, false_imp_iff, implies_true, and_true]
    exact ⟨hands_chainStep, hands_chainStep, hands_predicate, hands_chainStep, hands_chainStep,
      hands_chainStep, hands_castStep⟩
  exact hcases s (by simpa [groupsLeft] using hs)

/-- A call that the parser of a level reads, the parser of the next level reads. -/
theorem next_of_level_call {s : Nat} (hs : s < 10) {ts rest : List Token}
    (h : level inner s ts = .ok (e, rest)) (hcall : e.isCall = true) :
    ∃ rest', level inner (s + 1) ts = .ok (e, rest') := by
  have hcases : s = 0 ∨ s = 3 ∨ s = 8 ∨ groupsLeft s = true := by
    have : ∀ s < 10, s = 0 ∨ s = 3 ∨ s = 8 ∨ groupsLeft s = true := by decide
    exact this s hs
  rcases hcases with rfl | rfl | rfl | hgroups
  · exact ⟨rest, h⟩
  · -- behind NOT there is a negation, which is no call
    obtain ⟨b, between, hnot, hrun⟩ := bind_eq_ok h
    cases b with
    | true =>
      have hnone : Hands (inner.negated >>= fun x => Pure.pure (Expr.unary .not x))
          fun e => e.isCall = false := Hands.bind fun _ => Hands.pure rfl
      rw [hnone between e rest hrun] at hcall
      cases hcall
    | false =>
      obtain rfl := eatKeyword_eq_false hnot
      exact ⟨rest, hrun⟩
  · have hsigned : ∀ op, Hands (skip >>= fun _ => inner.signed >>= fun x =>
        (Pure.pure (Expr.unary op x) : Parser Expr)) fun e => e.isCall = false :=
      fun op => Hands.bind fun _ => Hands.bind fun _ => Hands.pure rfl
    obtain ⟨t, between, hpeek, hrun⟩ := bind_eq_ok h
    obtain ⟨rfl, rfl⟩ := Prod.mk.inj (Except.ok.inj hpeek)
    cases hsign : signOf? (firstToken ts).lexeme with
    | some op =>
      simp only [hsign] at hrun
      rw [hsigned op ts e rest hrun] at hcall
      cases hcall
    | none =>
      simp only [hsign] at hrun
      exact ⟨rest, hrun⟩
  · rw [level_eq inner hgroups] at h
    obtain ⟨x, between, hx, hloop⟩ := bind_eq_ok h
    obtain rfl := eq_of_loop_call (hands_levelStep hgroups) hloop hcall
    exact ⟨between, hx⟩

/-- **A call is read by the parser for expressions without an outer operator.** -/
theorem primary_of_level_call {s : Nat} (hs : s ≤ 10) {ts rest : List Token}
    (h : level inner s ts = .ok (e, rest)) (hcall : e.isCall = true) :
    ∃ rest', primary inner ts = .ok (e, rest') := by
  induction hk : 10 - s generalizing s rest with
  | zero =>
    obtain rfl : s = 10 := by omega
    exact ⟨rest, h⟩
  | succ k ih =>
    obtain ⟨rest', hnext⟩ := next_of_level_call (by omega) h hcall
    exact ih (by omega) hnext (by omega)

/-! ## The first words of a call -/

theorem hands_caseTail : Hands (caseTail inner) fun e => e.isCall = false := by
  have hend : ∀ (scrutinee : Option Expr) (bs : List Branch),
      Hands (caseEnd inner scrutinee bs) fun e => e.isCall = false := fun _ _ =>
    Hands.bind fun _ => Hands.ite
      (Hands.bind fun _ => Hands.bind fun _ => Hands.pure rfl)
      (Hands.bind fun _ => Hands.bind fun _ => Hands.pure rfl)
  have hrest : ∀ scrutinee : Option Expr, Hands (do
      let bs ← branches inner (← remaining)
      if bs.isEmpty then unexpected "WHEN" else caseEnd inner scrutinee bs : Parser Expr)
      fun e => e.isCall = false := fun scrutinee =>
    Hands.bind fun _ => Hands.bind fun bs => Hands.ite hands_unexpected (hend scrutinee bs)
  exact Hands.bind fun _ => Hands.ite (Hands.bind hrest) (Hands.bind hrest)

theorem hands_castTail {start : Nat} : Hands (castTail inner start) fun e => e.isCall = false :=
  Hands.bind fun _ => Hands.bind fun _ => Hands.bind fun _ => Hands.bind fun _ =>
    Hands.bind fun _ => Hands.pure rfl

theorem hands_existsTail : Hands (existsTail inner) fun e => e.isCall = false :=
  Hands.bind fun _ => Hands.bind fun _ => Hands.bind fun _ => Hands.bind fun _ => Hands.pure rfl

/-- A word in front of a call is no stop word, or one that is read as the name of a function. -/
theorem path_of_wordExpr_call {w : String} {start : Nat} {ts rest : List Token}
    (h : wordExpr inner w start ts = .ok (e, rest)) (hcall : e.isCall = true) :
    (isStopWord w = false ∨ nameIn w ["left", "right"] = true
        ∧ (firstToken ts.tail).lexeme = .symbol .leftParen)
      ∧ path inner ts = .ok (e, rest) := by
  -- what the words with a syntax of their own start is no call
  have hno : ∀ {p : Parser Expr}, Hands p (fun e => e.isCall = false) →
      p ts = .ok (e, rest) → False := by
    intro p hp hrun
    rw [hp ts e rest hrun] at hcall
    cases hcall
  have hskip : ∀ {p : Parser Expr}, Hands p (fun e => e.isCall = false) →
      Hands (skip >>= fun _ => p) fun e => e.isCall = false := fun hp => Hands.bind fun _ => hp
  unfold wordExpr at h
  split at h
  · exact (hno (hskip (Hands.pure rfl)) h).elim
  split at h
  · exact (hno (hskip (Hands.pure rfl)) h).elim
  split at h
  · exact (hno (hskip (Hands.pure rfl)) h).elim
  split at h
  · exact (hno (hskip hands_caseTail) h).elim
  split at h
  · exact (hno (hskip hands_castTail) h).elim
  split at h
  · exact (hno (hskip hands_existsTail) h).elim
  obtain ⟨value, between, hvalue, h⟩ := bind_eq_ok h
  rw [literalValue?_eq] at hvalue
  obtain ⟨-, rfl⟩ := Prod.mk.inj (Except.ok.inj hvalue)
  cases value with
  | some v => exact (hno (hskip (hskip (Hands.pure rfl))) h).elim
  | none =>
    change (if (isStopWord w && !((foldCase w == "left" || foldCase w == "right")
      && (firstToken ts.tail).lexeme == .symbol .leftParen)) = true
      then failAt start (.unexpectedKeyword w) else path inner : Parser Expr) ts
      = .ok (e, rest) at h
    split at h
    · exact (hno hands_failAt h).elim
    · next hword =>
      refine ⟨?_, h⟩
      cases hstop : isStopWord w with
      | false => exact .inl rfl
      | true =>
        right
        simp only [hstop, Bool.true_and, Bool.not_eq_true', Bool.not_eq_false, Bool.and_eq_true,
          Bool.or_eq_true, beq_iff_eq] at hword
        obtain ⟨hname, hparen⟩ := hword
        refine ⟨?_, hparen⟩
        rw [nameIn, List.any_eq_true]
        rcases hname with hname | hname
        · exact ⟨"left", by simp, sameName_iff.mpr (hname.trans (by decide))⟩
        · exact ⟨"right", by simp, sameName_iff.mpr (hname.trans (by decide))⟩

theorem name_eq_ok {what n : String} {ts rest : List Token} (h : name what ts = .ok (n, rest)) :
    nameOf? (firstToken ts).lexeme = some n ∧ rest = ts.tail := by
  obtain ⟨t, between, hpeek, hrun⟩ := bind_eq_ok h
  obtain ⟨rfl, rfl⟩ := Prod.mk.inj (Except.ok.inj hpeek)
  cases hname : nameOf? (firstToken ts).lexeme with
  | some m =>
    simp only [hname] at hrun
    obtain ⟨rfl, rfl⟩ := Prod.mk.inj (Except.ok.inj hrun)
    exact ⟨rfl, rfl⟩
  | none =>
    simp only [hname] at hrun
    cases hrun

theorem partLexeme_ne_star (p : String) : partLexeme p ≠ .symbol .star := by
  unfold partLexeme
  split <;> exact nofun

/-- The further parts of a name are read only if none is a stop word. -/
theorem callable_of_pathTail {ps read : List String} {ls : List Lexeme} {k : Nat}
    {ts rest : List Token} {r : List String × Bool}
    (hlex : ts.map Token.lexeme = ps.flatMap (fun p => [.symbol .dot, partLexeme p]) ++ ls)
    (hk : ts.length ≤ k) (h : pathTail k read ts = .ok (r, rest)) :
    ∀ p ∈ ps, isStopWord p = false := by
  induction ps generalizing ts k read with
  | nil => exact List.forall_mem_nil _
  | cons p ps ih =>
    rw [List.flatMap_cons, List.append_assoc] at hlex
    obtain ⟨dot, ts, rfl, hdot, hlex⟩ := List.map_eq_cons_iff.mp hlex
    obtain ⟨part, ts, rfl, hpart, hlex⟩ := List.map_eq_cons_iff.mp hlex
    cases k with
    | zero => simp at hk
    | succ k =>
      obtain ⟨b, between, heat, h⟩ := bind_eq_ok h
      rcases eat_eq_ok heat with ⟨rfl, -, rfl⟩ | ⟨-, hne, -⟩
      · obtain ⟨star, between, hstar, h⟩ := bind_eq_ok h
        rcases eat_eq_ok hstar with ⟨-, hstar, -⟩ | ⟨rfl, -, rfl⟩
        · exact absurd (hpart.symm.trans hstar) (partLexeme_ne_star p)
        · rw [if_neg Bool.false_ne_true] at h
          obtain ⟨n, between, hname, hrest⟩ := bind_eq_ok h
          obtain ⟨hnameOf, rfl⟩ := name_eq_ok hname
          rw [List.length_cons, List.length_cons] at hk
          refine List.forall_mem_cons.mpr ⟨callable_of_nameOf? (hpart ▸ hnameOf), ?_⟩
          exact ih hlex (by omega) hrest
      · exact absurd hdot hne

/-- **A call is only read behind a name that can be called.** -/
theorem callable_of_primary_call {p : String} {ps : List String} {ls : List Lexeme}
    {ts rest : List Token}
    (hlex : ts.map Token.lexeme
      = dotSep ((p :: ps).map partLexeme) ++ .symbol .leftParen :: ls)
    (h : primary inner ts = .ok (e, rest)) (hcall : e.isCall = true) : CanBeCalled (p :: ps) := by
  rw [List.map_cons, dotSep, List.flatMap_map, List.cons_append] at hlex
  obtain ⟨t, ts, rfl, ht, hbehind⟩ := List.map_eq_cons_iff.mp hlex
  obtain ⟨lexeme, offset⟩ := t
  obtain rfl : lexeme = partLexeme p := ht
  have hparts : ∀ {read}, pathRest inner read ts = .ok (e, rest) →
      ∀ q ∈ ps, isStopWord q = false := by
    intro read hpath
    obtain ⟨k, between, hlength, hpath⟩ := bind_eq_ok hpath
    obtain ⟨rfl, rfl⟩ := Prod.mk.inj (Except.ok.inj hlength)
    obtain ⟨r, between, htail, -⟩ := bind_eq_ok hpath
    exact callable_of_pathTail hbehind (Nat.le_refl _) htail
  unfold partLexeme at h
  split at h
  · obtain ⟨hword, hpath⟩ := path_of_wordExpr_call h hcall
    have hrest := hparts hpath
    rcases hword with hstop | ⟨hname, hparen⟩
    · exact .inl (List.forall_mem_cons.mpr ⟨hstop, hrest⟩)
    · -- the parenthesis stands right behind the word, so the name has one part
      cases ps with
      | nil => exact .inr ⟨p, rfl, hname⟩
      | cons q qs =>
        obtain ⟨dot, ts, rfl, hdot, -⟩ := List.map_eq_cons_iff.mp hbehind
        exact absurd (hdot.symm.trans hparen) (by simp)
  · next hsimple =>
    have hstop : isStopWord p = false := by
      cases hp : isStopWord p with
      | false => rfl
      | true => exact absurd (isSimpleName_of_isStopWord hp) hsimple
    exact .inl (List.forall_mem_cons.mpr ⟨hstop, hparts h⟩)

end

end Parser

/-! ## Calls that are read back -/

open Sql.Parser

variable {config : DialectConfig}

/-- From the text of a call whose name cannot be called no call is read. -/
theorem isCall_of_format (hconfig : config.Readable) {f : String} {args : List Expr}
    {distinct : Bool} {filter : Option Expr} {window : Option Window} {out : Formatted}
    (hf : IsFunctionName False f) (hkeyword : ¬ CanBeCalled (splitName f))
    (hformat : formatFragments config
      ((Expr.call f args distinct filter window).fragments 0 false) = .ok out)
    {e : Expr} (hread : parseExpression out.sql = .ok e) : e.isCall = false := by
  obtain ⟨ts, rest, hts, hrun⟩ := runText_eq_ok hread
  obtain ⟨p, ps, hsplit⟩ := List.exists_cons_of_ne_nil hf.splitName.1
  have hlex : ∃ ls, ts.map Token.lexeme
      = dotSep ((p :: ps).map partLexeme) ++ .symbol .leftParen :: ls := by
    -- the text starts with the parts of the name and a parenthesis
    obtain ⟨fs, hfs⟩ : ∃ fs, (Expr.call f args distinct filter window).fragments 0 false
        = .function f :: .text "(" :: fs := by
      rw [Expr.fragments]
      exact ⟨_, rfl⟩
    have hopen := @splits_open config
    have h := lex_of_tokenize hts
    rw [formatFragments_toList hconfig hformat, hfs, Fragment.chars_cons,
      Fragment.lex_put_function hconfig hf.splitName.1
        (show Parts (Fragment.chars config (.text "(" :: fs) []) from (hopen.ends _).parts)] at h
    rw [show Fragment.chars config (.text "(" :: fs) []
        = Fragment.chars config [.text "("] (Fragment.chars config fs []) from rfl,
      hopen.reads] at h
    cases hlex : lex (Fragment.chars config fs []) with
    | none =>
      rw [hlex] at h
      cases h
    | some ls =>
      rw [hlex] at h
      refine ⟨ls, ?_⟩
      rw [← hsplit]
      exact (Option.some.inj h).symm
  obtain ⟨ls, hlex⟩ := hlex
  cases hcall : e.isCall with
  | false => rfl
  | true =>
    -- the end is not what the text starts with, so an expression is read
    obtain ⟨b, between, heof, hrun⟩ := bind_eq_ok hrun
    obtain ⟨-, rfl⟩ := Prod.mk.inj (Except.ok.inj heof)
    cases b with
    | true => cases hrun
    | false =>
      obtain ⟨x, between, hx, hrun⟩ := bind_eq_ok hrun
      obtain ⟨_, _, -, hrun⟩ := bind_eq_ok hrun
      obtain ⟨rfl, -⟩ := Prod.mk.inj (Except.ok.inj hrun)
      have hlevel : level (Inner.within (maxNesting - 1)) 1 ts = .ok (x, between) := hx
      obtain ⟨_, hprimary⟩ := primary_of_level_call (by decide) hlevel hcall
      rw [hsplit] at hkeyword
      exact absurd (callable_of_primary_call hlex hprimary hcall) hkeyword

/-- **A call that was read is printed, and its text is read as the same call** where every function
in it has a name that can be called. Where its own name cannot be, no call is read from the text. -/
theorem parseExpression_format_call {text : String} {e : Expr}
    (hparse : parseExpression text = .ok e) (hcall : e.isCall = true)
    (hnamed : ∀ p ∈ e.params, p.name ≠ none) {d : Dialect} (hd : d ∈ readableDialects)
    {config : DialectConfig} (hlike : config.WritesLike d) (hvalid : config.validate = .ok ()) :
    ∃ out, e.format config = .ok out
      ∧ ((∀ x ∈ e.nodesInOrder, x.Callable) → parseExpression out = .ok e)
      ∧ (¬ e.Callable → ∀ e', parseExpression out = .ok e' → e'.isCall = false) := by
  have hconfig := DialectConfig.readable_of_writesLike hd hlike hvalid
  have hwf := wf_of_parseExpression hparse
  obtain ⟨out, hformat⟩ := Expr.format_of_wf hwf hnamed hconfig
  refine ⟨out.sql, by rw [Expr.format, hformat]; rfl, fun hcalls => ?_, fun hkeyword e' hread => ?_⟩
  · have hstrict := Expr.wf_of_named e hwf (Expr.named_of_callable hnamed hcalls)
    obtain ⟨out', hout', hlex⟩ := (Expr.spells hconfig 0 false e hstrict).format hconfig
    obtain rfl : out' = out := Except.ok.inj (hout'.symm.trans hformat)
    rcases parseExpression_of_lex hstrict hlex with hread | ⟨hfits, -⟩
    · exact hread
    · exact absurd trivial hfits
  · cases e with
    | call f args distinct filter window =>
      rw [Expr.Wf] at hwf
      exact isCall_of_format hconfig hwf.1 hkeyword hformat hread
    | _ => cases hcall

/-- A call by a name of three parts with a dot, a quote and a blank in them. -/
def quotedCall : String := "\"Größe\".[a.\"b].\x60c d\x60(:p, \"left\"(distinct x)) filter (where y)"

/-- A call by the name that is spelled like NOT. -/
def callOfNot : String := "\"not\"(:p)"

theorem parseExpression_quotedCall :
    ∃ e, parseExpression quotedCall = .ok e ∧ e.isCall = true
      ∧ (∀ p ∈ e.params, p.name ≠ none) ∧ ∀ x ∈ e.nodesInOrder, x.Callable := by
  have hread : (parseExpression quotedCall).toOption.any (fun e => e.isCall
      && decide ((∀ p ∈ e.params, p.name ≠ none) ∧ ∀ x ∈ e.nodesInOrder, x.Callable)) = true := by
    decide +kernel
  obtain ⟨e, hparse, h⟩ := exists_ok_of_any hread
  rw [Bool.and_eq_true] at h
  exact ⟨e, hparse, h.1, of_decide_eq_true h.2⟩

theorem parseExpression_callOfNot :
    ∃ e, parseExpression callOfNot = .ok e ∧ e.isCall = true
      ∧ (∀ p ∈ e.params, p.name ≠ none) ∧ ¬ e.Callable := by
  have hread : (parseExpression callOfNot).toOption.any (fun e => e.isCall
      && decide ((∀ p ∈ e.params, p.name ≠ none) ∧ ¬ e.Callable)) = true := by
    decide +kernel
  obtain ⟨e, hparse, h⟩ := exists_ok_of_any hread
  rw [Bool.and_eq_true] at h
  exact ⟨e, hparse, h.1, of_decide_eq_true h.2⟩

theorem parseExpression_format_call_quoted :
    (∃ e, parseExpression quotedCall = .ok e ∧ e.isCall = true
      ∧ ∃ out, e.format Dialect.sqlserver.config = .ok out ∧ parseExpression out = .ok e)
    ∧ ∃ e, parseExpression callOfNot = .ok e ∧ e.isCall = true
      ∧ ∃ out, e.format Dialect.postgres.config = .ok out
        ∧ ∀ e', parseExpression out = .ok e' → e'.isCall = false := by
  obtain ⟨e, hparse, hcall, hnamed, hcallable⟩ := parseExpression_quotedCall
  obtain ⟨e', hparse', hcall', hnamed', hkeyword⟩ := parseExpression_callOfNot
  obtain ⟨out, hformat, hread, -⟩ := parseExpression_format_call hparse hcall hnamed
    (show Dialect.sqlserver ∈ readableDialects by decide) ⟨rfl, rfl, rfl⟩ rfl
  obtain ⟨out', hformat', -, hother⟩ := parseExpression_format_call hparse' hcall' hnamed'
    (show Dialect.postgres ∈ readableDialects by decide) ⟨rfl, rfl, rfl⟩ rfl
  exact ⟨⟨e, hparse, hcall, out, hformat, hread hcallable⟩,
    e', hparse', hcall', out', hformat', hother hkeyword⟩

end Sql
