import Sql.Proofs.KeptTokens
import Sql.Proofs.ReadAtoms

/-!
# Parsers of expressions keep to their tokens

Given that the parsers of the next level in keep to their tokens (`Bounds.KeepsInner`), so do the
parsers of types, calls, names and expressions.
-/

open Sql.Parser

namespace Sql.Bounds

/-- The parsers of the next level in keep to their tokens. -/
structure KeepsInner (w : Bounds) (inner : Inner) : Prop where
  expr : ∀ m, w.Keeps m inner.expr inner.expr
  statement : ∀ m, w.Keeps m inner.statement inner.statement
  negated : ∀ m, w.Keeps m inner.negated inner.negated
  signed : ∀ m, w.Keeps m inner.signed inner.signed

section

variable {w : Bounds} {inner : Inner} {α : Type} {pre : Token → Prop} {m k n n' : Nat}
  {took : α → Prop}

theorem keeps_isNextQuery : w.Keeps m isNextQuery isNextQuery :=
  .bind keepsIf_isNextKeyword fun _ => .bind keepsIf_isNextKeyword fun _ => keeps_pure

/-! ## Types -/

theorem keepsIf_typePart : w.KeepsIf pre m (fun _ => True) typePart typePart := by
  refine .peek fun t _ _ => ?_
  cases hl : t.lexeme with
  | word v => exact .skip (fun u hu => by simp [hu, hl]) keeps_pure
  | quoted v => exact .skip (fun u hu => by simp [hu, hl]) keeps_pure
  | _ => exact keepsIf_unexpected

theorem keeps_typeParts (hn : k ≤ n) (hn' : k ≤ n') : w.Keeps k (typeParts n) (typeParts n') := by
  refine keeps_loop (fun n (_ : Unit) => typeParts n) (fun k n n' ih _ => ?_) hn hn' ()
  exact .flag (keepsIf_eat (by simp))
    (.bind keepsIf_typePart fun _ => .bind (ih ()) fun _ => keeps_pure) keeps_pure

theorem keeps_typeTail (hn : k ≤ n) (hn' : k ≤ n') : w.Keeps k (typeTail n) (typeTail n') := by
  refine keeps_loop (fun n (_ : Unit) => typeTail n) (fun k n n' ih _ => ?_) hn hn' ()
  refine .peek fun t _ _ => ?_
  cases hl : t.lexeme with
  | word v =>
    refine .ite (fun _ => ?_) fun _ => keeps_pure
    exact .skip (fun u hu => by simp [hu, hl]) (.bind (ih ()) fun _ => keeps_pure)
  | _ => exact keeps_pure

theorem keeps_typeModifier : w.Keeps m typeModifier typeModifier := by
  refine .peek fun t _ _ => ?_
  cases hl : t.lexeme with
  | number v => exact .skip (fun u hu => by simp [hu, hl]) keeps_pure
  | _ => exact keepsIf_unexpected

theorem keeps_typeName : w.Keeps m typeName typeName := by
  refine .bind keepsIf_typePart fun _ => .remaining fun _ _ _ hn hn' => ?_
  refine .bind (keeps_typeParts hn hn') fun _ => .remaining fun _ _ _ hn hn' => ?_
  refine .bind (keeps_typeTail hn hn') fun _ => .flag (keepsIf_eat (by simp)) ?_ keeps_pure
  exact .bind (keeps_commaList fun _ => keeps_typeModifier) fun _ => .expect (by simp) keeps_pure

/-! ## Sort keys -/

theorem keeps_direction : w.Keeps m direction direction :=
  .flag keepsIf_eatKeyword keeps_pure (.flag keepsIf_eatKeyword keeps_pure keeps_pure)

theorem keeps_nullsOrder : w.Keeps m nullsOrder nullsOrder :=
  .flag keepsIf_eatKeyword
    (.flag keepsIf_eatKeyword keeps_pure
      (.flag keepsIf_eatKeyword keeps_pure keepsIf_unexpected)) keeps_pure

theorem keeps_byClause {item : Parser α} {kw : String} (hitem : ∀ m, w.Keeps m item item) :
    w.Keeps m (byClause kw item) (byClause kw item) :=
  .flag keepsIf_eatKeyword (.expectKeyword (keeps_commaList hitem)) keeps_pure

theorem keeps_orderItem (h : w.KeepsInner inner) (m : Nat) :
    w.Keeps m (orderItem inner) (orderItem inner) :=
  .bind (h.expr m) fun _ => .bind keeps_direction fun _ => .bind keeps_nullsOrder fun _ =>
    keeps_pure

/-! ## Calls -/

/-- A keyword and a symbol that are taken together. -/
theorem keeps_keywordSymbol {kw : String} {s : Symbol} {r q : Parser α} (hr : w.Keeps m r r)
    (hq : w.Keeps m q q) :
    w.Keeps m
      (do if (← isNextKeyword kw) && (← peekSecond).lexeme == .symbol s then skip; skip; r else q)
      (do
        if (← isNextKeyword kw) && (← peekSecond).lexeme == .symbol s then skip; skip; r
        else q) := by
  refine .keywordAnd (c := fun t => t.lexeme == .symbol s) (fun ts hts hlen hfirst hc => ?_) hq
  refine .skipTwo hts hlen hfirst ?_ hr
  rw [beq_iff_eq.mp hc]
  simp

theorem keeps_callFilter (h : w.KeepsInner inner) :
    w.Keeps m (callFilter inner) (callFilter inner) :=
  keeps_keywordSymbol (.expectKeyword (.bind (h.expr _) fun _ => .expect (by simp) keeps_pure))
    keeps_pure

theorem keeps_callWindow (h : w.KeepsInner inner) :
    w.Keeps m (callWindow inner) (callWindow inner) := by
  rw [callWindow_eq]
  exact keeps_keywordSymbol (.bind (keeps_byClause h.expr) fun _ =>
    .bind (keeps_byClause (keeps_orderItem h)) fun _ => .expect (by simp) keeps_pure) keeps_pure

theorem keeps_call (h : w.KeepsInner inner) (name : String) :
    w.Keeps m (call inner name) (call inner name) := by
  refine .peek fun t _ hplace => .expect (by simp) ?_
  have hend : ∀ {m} distinct args, w.Keeps m (callEnd inner name t.offset distinct args)
      (callEnd inner name t.offset distinct args) := fun distinct args =>
    .closeParen hplace (.bind (keeps_callFilter h) fun _ => .bind (keeps_callWindow h) fun _ =>
      keeps_pure)
  refine .bind keepsIf_isNext fun b => ?_
  cases b with
  | true => exact hend false []
  | false =>
    exact .bind keepsIf_eatKeyword fun distinct =>
      .bind (keeps_commaList h.expr) fun args => hend distinct args

/-! ## Names -/

theorem keeps_pathTail (hn : k ≤ n) (hn' : k ≤ n') (parts : List String) :
    w.Keeps k (pathTail n parts) (pathTail n' parts) := by
  refine keeps_loop pathTail (fun k n n' ih parts => ?_) hn hn' parts
  refine .flag (keepsIf_eat (by simp)) ?_ keeps_pure
  exact .flag (keepsIf_eat (by simp)) keeps_pure (.bind keepsIf_name fun _ => ih _)

theorem keeps_path (h : w.KeepsInner inner) :
    w.KeepsIf pre m (fun _ => False) (path inner) (path inner) := by
  have hrest : ∀ {m} first, w.Keeps m (pathRest inner first) (pathRest inner first) := by
    intro m first
    refine .remaining fun _ _ _ hn hn' => .bind (keeps_pathTail hn hn' [first]) ?_
    rintro ⟨parts, star⟩
    refine .ite (fun _ => keeps_pure) fun _ => .bind keepsIf_isNext fun _ => ?_
    exact .ite (fun _ => keeps_call h _) fun _ => keeps_pure
  refine .peek fun t _ _ => ?_
  cases hl : t.lexeme with
  | word v => exact .skip (fun u hu => by simp [hu, hl]) (hrest v)
  | quoted v => exact .skip (fun u hu => by simp [hu, hl]) (hrest v)
  | _ =>
    have hunexpected : w.KeepsIf (· = t) m (fun _ => False)
        (unexpected "identifier" : Parser String) (unexpected "identifier") := keepsIf_unexpected
    exact hunexpected.bind hrest

/-! ## Expressions that start with a word -/

theorem keeps_branches (h : w.KeepsInner inner) (hn : k ≤ n) (hn' : k ≤ n') :
    w.Keeps k (branches inner n) (branches inner n') := by
  refine keeps_loop (fun n (_ : Unit) => branches inner n) (fun k n n' ih _ => ?_) hn hn' ()
  refine .flag keepsIf_eatKeyword ?_ keeps_pure
  exact .bind (h.expr k) fun _ => .expectKeyword (.bind (h.expr _) fun _ =>
    .bind ((ih ()).mono (Nat.sub_le k 1)) fun _ => keeps_pure)

theorem keeps_caseTail (h : w.KeepsInner inner) :
    w.Keeps m (caseTail inner) (caseTail inner) := by
  have hend : ∀ {m} scrutinee bs, w.Keeps m (caseEnd inner scrutinee bs)
      (caseEnd inner scrutinee bs) := fun scrutinee bs =>
    .flag keepsIf_eatKeyword (.bind (.map (h.expr _)) fun _ => .expectKeyword keeps_pure)
      (.bind keeps_pure fun _ => .expectKeyword keeps_pure)
  have hrest : ∀ {m} scrutinee, w.Keeps m
      (do
        let bs ← branches inner (← remaining)
        if bs.isEmpty then unexpected "WHEN" else caseEnd inner scrutinee bs)
      (do
        let bs ← branches inner (← remaining)
        if bs.isEmpty then unexpected "WHEN" else caseEnd inner scrutinee bs) := fun scrutinee =>
    .remaining fun _ _ _ hn hn' => .bind (keeps_branches h hn hn') fun bs =>
      .ite (fun _ => keepsIf_unexpected) fun _ => hend scrutinee bs
  refine .bind keepsIf_isNextKeyword fun b => ?_
  cases b with
  | true => exact hrest none
  | false => exact .bind (.map (h.expr m)) fun scrutinee => hrest scrutinee

theorem keeps_castTail (h : w.KeepsInner inner) {start : Nat} (hstart : w.places start) :
    w.Keeps m (castTail inner start) (castTail inner start) :=
  .expect (by simp) (.bind (h.expr _) fun _ => .expectKeyword (.bind keeps_typeName fun _ =>
    .closeParen hstart keeps_pure))

theorem keeps_existsTail (h : w.KeepsInner inner) :
    w.Keeps m (existsTail inner) (existsTail inner) :=
  .peek fun _ _ hplace => .expect (by simp) (.bind (h.statement _) fun _ =>
    .closeParen hplace keeps_pure)

/-- What is done when a string behind the next token makes a literal with it, and when not. -/
theorem KeepsIf.literalValue {type : String} {f f' : Option String → Parser α}
    (hpre : ∀ t, pre t → t.lexeme ≠ .eof)
    (hsome : ∀ v ts, w.Holds ts → ts.length ≤ m → (firstToken ts).lexeme ≠ .eof →
      (firstToken ts.tail).lexeme ≠ .eof → w.KeepsOn took ts (f (some v)) (f' (some v)))
    (hnone : w.KeepsIf pre m took (f none) (f' none)) :
    w.KeepsIf pre m took (literalValue? type >>= f) (literalValue? type >>= f') := by
  intro ts hts hlen hfirst
  have hne := hpre _ hfirst
  have hsecond : firstToken (ts ++ w.behind).tail = firstToken ts.tail := by
    rw [List.tail_append_of_ne_nil hts.ne_nil, firstToken_append (hts.tail hne).ne_nil]
  have hrun : ∀ (g : Option String → Parser α) us, (literalValue? type >>= g) us
      = g (valueOf? type (firstToken us.tail).lexeme) us := by
    intro g us
    change (literalValue? type us >>= fun r => g r.1 r.2) = _
    rw [literalValue?_eq]
    rfl
  have hcont : w.KeepsOn took ts (f (valueOf? type (firstToken ts.tail).lexeme))
      (f' (valueOf? type (firstToken ts.tail).lexeme)) := by
    cases hv : valueOf? type (firstToken ts.tail).lexeme with
    | none => exact hnone ts hts hlen hfirst
    | some v =>
      refine hsome v ts hts hlen hne fun h => ?_
      rw [h] at hv
      cases hv
  simpa only [KeepsOn, hrun, hsecond] using hcont

theorem keeps_wordExpr (h : w.KeepsInner inner) (word : String) {start : Nat}
    (hstart : w.places start) (hpre : ∀ t, pre t → t.lexeme ≠ .eof) :
    w.KeepsIf pre m (fun _ => False) (wordExpr inner word start) (wordExpr inner word start) := by
  unfold wordExpr
  refine .ite (fun _ => .skip hpre keeps_pure) fun _ => ?_
  refine .ite (fun _ => .skip hpre keeps_pure) fun _ => ?_
  refine .ite (fun _ => .skip hpre keeps_pure) fun _ => ?_
  refine .ite (fun _ => .skip hpre (keeps_caseTail h)) fun _ => ?_
  refine .ite (fun _ => .skip hpre (keeps_castTail h hstart)) fun _ => ?_
  refine .ite (fun _ => .skip hpre (keeps_existsTail h)) fun _ => ?_
  refine KeepsIf.literalValue hpre (fun v ts hts hlen hfirst hsecond =>
    .skipTwo hts hlen hfirst hsecond keeps_pure) ?_
  have hword : ∀ v, w.KeepsIf pre m (fun _ => False) (isFunctionWord v) (isFunctionWord v) :=
    fun v => .peekSecond hpre fun _ => keeps_pure
  exact .bind (hword _) fun _ => .ite (fun _ => keepsIf_failAt hstart) fun _ => keeps_path h

/-! ## The levels -/

/-- A statement behind its first word, or else something other than a statement. -/
theorem keeps_query (h : w.KeepsInner inner) {f : Statement → Parser α} {q : Parser α}
    (hf : ∀ s, w.Keeps m (f s) (f s)) (hq : w.Keeps m q q) :
    w.Keeps m (do if ← isNextQuery then inner.statement >>= f else q)
      (do if ← isNextQuery then inner.statement >>= f else q) :=
  .bind keeps_isNextQuery fun _ => .ite (fun _ => .bind (h.statement m) hf) fun _ => hq

theorem keeps_parenTail (h : w.KeepsInner inner) {opened : Nat} (hopened : w.places opened) :
    w.Keeps m (parenTail inner opened) (parenTail inner opened) :=
  keeps_query h (fun _ => .closeParen hopened keeps_pure)
    (.bind (h.expr m) fun _ => .closeParen hopened keeps_pure)

theorem keeps_primary (h : w.KeepsInner inner) :
    w.Keeps m (primary inner) (primary inner) := by
  refine .peek fun t _ hplace => ?_
  have hne : ∀ {l}, t.lexeme = l → l ≠ .eof → ∀ u, u = t → u.lexeme ≠ .eof := by
    rintro l hl hl' u rfl
    rwa [hl]
  cases hl : t.lexeme with
  | number v => exact .skip (hne hl (by simp)) keeps_pure
  | string v => exact .skip (hne hl (by simp)) keeps_pure
  | param c v => exact .skip (hne hl (by simp)) keeps_pure
  | symbol s =>
    cases s with
    | star => exact .skip (hne hl (by simp)) keeps_pure
    | leftParen => exact .skip (hne hl (by simp)) (keeps_parenTail h hplace)
    | _ => exact keepsIf_unexpected
  | word v => exact keeps_wordExpr h v hplace (hne hl (by simp))
  | quoted v => exact keeps_path h
  | eof => exact keepsIf_unexpected

theorem keeps_castsTail (hn : k ≤ n) (hn' : k ≤ n') (e : Expr) :
    w.Keeps k (castsTail n e) (castsTail n' e) := by
  refine keeps_loop castsTail (fun k n n' ih e => ?_) hn hn' e
  exact .flag (keepsIf_eat (by simp)) (.bind keeps_typeName fun _ => ih _) keeps_pure

theorem keeps_castExpr (h : w.KeepsInner inner) :
    w.Keeps m (castExpr inner) (castExpr inner) :=
  .bind (keeps_primary h) fun e => .remaining fun _ _ _ hn hn' => keeps_castsTail hn hn' e

theorem keeps_signExpr (h : w.KeepsInner inner) (m : Nat) :
    w.Keeps m (signExpr inner) (signExpr inner) := by
  refine .peek fun t _ _ => ?_
  cases hop : signOf? t.lexeme with
  | none => exact Keeps.given (keeps_castExpr h)
  | some op =>
    have hne : t.lexeme ≠ .eof := by
      intro hl
      rw [hl] at hop
      cases hop
    exact .skip (fun u hu => hu ▸ hne) (.bind (h.signed _) fun _ => keeps_pure)

theorem keeps_productExpr (h : w.KeepsInner inner) (m : Nat) :
    w.Keeps m (productExpr inner) (productExpr inner) :=
  keeps_chain rfl (keeps_signExpr h)

theorem keeps_sumExpr (h : w.KeepsInner inner) (m : Nat) :
    w.Keeps m (sumExpr inner) (sumExpr inner) :=
  keeps_chain rfl (keeps_productExpr h)

theorem keeps_concatExpr (h : w.KeepsInner inner) (m : Nat) :
    w.Keeps m (concatExpr inner) (concatExpr inner) :=
  keeps_chain rfl (keeps_sumExpr h)

/-! ## Predicates -/

theorem keeps_eatPredicateNot : w.Keeps m eatPredicateNot eatPredicateNot :=
  .keywordAnd (c := fun t => negatable.any t.lexeme.isKeyword)
    (fun _ hts _ hfirst _ => .skip hts (.pure (hts.tail hfirst) id))
    keeps_pure

theorem keeps_inTail (h : w.KeepsInner inner) (e : Expr) (negated : Bool) :
    w.Keeps m (inTail inner e negated) (inTail inner e negated) := by
  refine .peek fun t _ hplace => .expect (by simp) (keeps_query h (fun _ =>
    .closeParen hplace keeps_pure) (.bind keepsIf_isNext fun _ => ?_))
  exact .ite (fun _ => keepsIf_failAt hplace) fun _ =>
    .bind (keeps_commaList h.expr) fun _ => .closeParen hplace keeps_pure

theorem steps_wordPredicate (h : w.KeepsInner inner) (e : Expr) (negated : Bool) :
    w.Steps m (wordPredicate inner e negated) (wordPredicate inner e negated) := by
  have hoperand : ∀ {m} (f : Expr → Option Expr), w.Keeps m
      (do return f (← concatExpr inner)) (do return f (← concatExpr inner)) :=
    fun _ => .bind (keeps_concatExpr h _) fun _ => keeps_pure
  refine .flag keepsIf_eatKeyword (hoperand _) (.flag keepsIf_eatKeyword (hoperand _) ?_)
  refine .flag keepsIf_eatKeyword ?_ (.flag keepsIf_eatKeyword ?_ (.pure (by simp)))
  · exact .bind (keeps_concatExpr h _) fun _ => .expectKeyword (.bind (keeps_concatExpr h _)
      fun _ => keeps_pure)
  · exact .bind (keeps_inTail h e negated) fun _ => keeps_pure

theorem steps_predicate (h : w.KeepsInner inner) (e : Expr) :
    w.Steps m (predicate? inner e) (predicate? inner e) := by
  refine .peek fun t _ _ => ?_
  cases hop : comparisonOp? t.lexeme with
  | some op =>
    have hne : t.lexeme ≠ .eof := by
      intro hl
      rw [hl] at hop
      cases hop
    exact .skip (fun u hu => hu ▸ hne) (.bind (keeps_concatExpr h _) fun _ => keeps_pure)
  | none =>
    refine .flag keepsIf_eatKeyword ?_ ?_
    · exact .bind keepsIf_eatKeyword fun _ => .expectKeyword keeps_pure
    · exact .bind keeps_eatPredicateNot fun negated => steps_wordPredicate h e negated

theorem keeps_comparisonTail (h : w.KeepsInner inner) (hn : k ≤ n) (hn' : k ≤ n') (e : Expr) :
    w.Keeps k (comparisonTail inner n e) (comparisonTail inner n' e) := by
  refine keeps_loop (comparisonTail inner) (fun k n n' ih e => ?_) hn hn' e
  exact .step (steps_predicate h e) ih keeps_pure

theorem keeps_comparisonExpr (h : w.KeepsInner inner) :
    w.Keeps m (comparisonExpr inner) (comparisonExpr inner) :=
  .bind (keeps_concatExpr h m) fun e => .remaining fun _ _ _ hn hn' =>
    keeps_comparisonTail h hn hn' e

theorem keeps_notExpr (h : w.KeepsInner inner) (m : Nat) :
    w.Keeps m (notExpr inner) (notExpr inner) :=
  .flag keepsIf_eatKeyword (.bind (h.negated _) fun _ => keeps_pure) (keeps_comparisonExpr h)

theorem keeps_andExpr (h : w.KeepsInner inner) (m : Nat) :
    w.Keeps m (andExpr inner) (andExpr inner) :=
  keeps_chain rfl (keeps_notExpr h)

/-- **Parsers of expressions keep to their tokens.** -/
theorem keeps_orExpr (h : w.KeepsInner inner) (m : Nat) :
    w.Keeps m (orExpr inner) (orExpr inner) :=
  keeps_chain rfl (keeps_andExpr h)

end

end Sql.Bounds
