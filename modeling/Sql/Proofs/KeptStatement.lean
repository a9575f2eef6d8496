import Sql.Proofs.KeptExpr

/-!
# Parsers of statements keep to their tokens

The clauses of a select, set operations and WITH clauses keep to their tokens at every number of
levels that are left (`Bounds.keepsInner_within`), and so do the parsers of whole texts.
-/

open Sql.Parser

namespace Sql.Bounds

section

variable {w : Bounds} {inner : Inner} {m k n n' : Nat}

/-! ## FROM -/

theorem keeps_selectItem (h : w.KeepsInner inner) (m : Nat) :
    w.Keeps m (selectItem inner) (selectItem inner) := by
  refine .bind keepsIf_isNextKeyword fun _ => .bind keepsIf_isNext fun _ =>
    .ite (fun _ => keepsIf_unexpected) fun _ => .bind (h.expr m) fun e => ?_
  cases he : e.isStar with
  | true => exact .bind keeps_pure fun _ => keeps_pure
  | false => exact .bind keeps_optionalAlias fun _ => keeps_pure

theorem keeps_tableParts (hn : k ≤ n) (hn' : k ≤ n') :
    w.Keeps k (tableParts n) (tableParts n') := by
  refine keeps_loop (fun n (_ : Unit) => tableParts n) (fun k n n' ih _ => ?_) hn hn' ()
  exact .flag (keepsIf_eat (by simp))
    (.bind keepsIf_name fun _ => .bind (ih ()) fun _ => keeps_pure) keeps_pure

theorem keeps_parenStatement (h : w.KeepsInner inner) {what : String} {opened : Nat}
    (hopened : w.places opened) :
    w.Keeps m (parenStatement inner what opened) (parenStatement inner what opened) :=
  .bind keeps_isNextQuery fun _ => .bind keepsIf_isNext fun _ =>
    .ite (fun _ => .bind (h.statement m) fun _ => .closeParen hopened keeps_pure)
      fun _ => keepsIf_unexpected

theorem keeps_source (h : w.KeepsInner inner) : w.Keeps m (source inner) (source inner) := by
  refine .peek fun _ _ hplace => .flag (keepsIf_eat (by simp)) ?_ ?_
  · refine .bind (keeps_parenStatement h hplace) fun _ => .peek fun _ _ hplace' => ?_
    refine .bind (Keeps.given keeps_optionalAlias) fun asName => ?_
    cases asName with
    | some _ => exact keeps_pure
    | none => exact keepsIf_failAt hplace'
  · exact .bind keepsIf_name fun _ => .remaining fun _ _ _ hn hn' =>
      .bind (keeps_tableParts hn hn') fun _ => .bind keeps_optionalAlias fun _ => keeps_pure

theorem keeps_newSource (h : w.KeepsInner inner) (seen : List String) :
    w.Keeps m (newSource inner seen) (newSource inner seen) :=
  .peek fun _ _ hplace => .bind (Keeps.given (keeps_source h)) fun _ =>
    .ite (fun _ => keepsIf_failAt hplace) fun _ => keeps_pure

theorem keeps_joinSide : w.Keeps m joinSide? joinSide? := by
  have houter : ∀ {m} kind, w.Keeps m
      (do discard (eatKeyword "outer"); return some kind : Parser (Option JoinKind))
      (do discard (eatKeyword "outer"); return some kind : Parser (Option JoinKind)) :=
    fun _ => .bind (.discard keepsIf_eatKeyword) fun _ => keeps_pure
  refine .bind keepsIf_isNextKeyword fun _ => .ite (fun _ => keeps_pure) fun _ => ?_
  refine .flag keepsIf_eatKeyword keeps_pure (.flag keepsIf_eatKeyword (houter .left) ?_)
  refine .flag keepsIf_eatKeyword (houter .right) (.flag keepsIf_eatKeyword (houter .full) ?_)
  exact .flag keepsIf_eatKeyword keeps_pure keeps_pure

/-- A join takes at least its word JOIN. -/
theorem steps_joinKind : w.Steps m joinKind? joinKind? := by
  refine .bind keeps_joinSide fun kind => ?_
  cases kind with
  | none => exact .pure (by simp)
  | some kind => exact .expectKeyword keeps_pure

theorem keeps_constraint (h : w.KeepsInner inner) {start : Nat} (hstart : w.places start)
    (kind : JoinKind) : w.Keeps m (constraint inner start kind) (constraint inner start kind) := by
  refine .ite (fun _ => keeps_pure) fun _ => .flag keepsIf_eatKeyword ?_ ?_
  · exact .bind (h.expr _) fun _ => keeps_pure
  · exact .flag keepsIf_eatKeyword (.bind keeps_nameList fun _ => keeps_pure)
      (keepsIf_failAt hstart)

theorem keeps_joins (h : w.KeepsInner inner) (hn : k ≤ n) (hn' : k ≤ n') (seen : List String) :
    w.Keeps k (joins inner n seen) (joins inner n' seen) := by
  refine keeps_loop (joins inner) (fun k n n' ih seen => ?_) hn hn' seen
  refine .peek fun _ _ hplace =>
    .flag (keepsIf_eat (by simp)) ?_ (.step steps_joinKind ?_ keeps_pure)
  · exact .bind (keeps_newSource h seen) fun _ => .bind (ih _) fun _ => keeps_pure
  · exact fun kind => .bind (keeps_newSource h seen) fun _ =>
      .bind (keeps_constraint h hplace kind) fun _ => .bind (ih _) fun _ => keeps_pure

theorem keeps_fromClause (h : w.KeepsInner inner) :
    w.Keeps m (fromClause inner) (fromClause inner) :=
  .flag keepsIf_eatKeyword
    (.bind (keeps_newSource h []) fun _ => .remaining fun _ _ _ hn hn' =>
      .bind (keeps_joins h hn hn' _) fun _ => keeps_pure) keeps_pure

/-! ## The other clauses -/

theorem keeps_clause (h : w.KeepsInner inner) (kw : String) :
    w.Keeps m (clause inner kw) (clause inner kw) :=
  .flag keepsIf_eatKeyword (.bind (h.expr _) fun _ => keeps_pure) keeps_pure

theorem keeps_offsetClause (h : w.KeepsInner inner) :
    w.Keeps m (offsetClause inner) (offsetClause inner) :=
  .flag keepsIf_eatKeyword
    (.bind (h.expr _) fun _ => .bind (.discard keepsIf_eatKeyword) fun _ => keeps_pure) keeps_pure

theorem keeps_page (h : w.KeepsInner inner) : w.Keeps m (page inner) (page inner) := by
  refine .bind (keeps_clause h "limit") fun limit => ?_
  cases limit with
  | some _ => exact .bind (keeps_offsetClause h) fun _ => keeps_pure
  | none =>
    refine .bind (keeps_offsetClause h) fun offset => ?_
    cases offset with
    | some _ => exact .bind (keeps_clause h "limit") fun _ => keeps_pure
    | none => exact keeps_pure

theorem keeps_quantifier : w.Keeps m quantifier quantifier :=
  .flag keepsIf_eatKeyword keeps_pure (.bind (.discard keepsIf_eatKeyword) fun _ => keeps_pure)

theorem keeps_select (h : w.KeepsInner inner) : w.Keeps m (select inner) (select inner) :=
  .expectKeyword <| .bind keeps_quantifier fun _ => .bind (keeps_commaList (keeps_selectItem h))
    fun _ => .bind (keeps_fromClause h) fun _ => .bind (keeps_clause h "where") fun _ =>
    .bind (keeps_byClause h.expr) fun _ => .bind (keeps_clause h "having") fun _ =>
    .bind (keeps_byClause (keeps_orderItem h)) fun _ => .bind (keeps_page h) fun _ => keeps_pure

/-! ## Set operations and WITH -/

theorem steps_setOperator : w.Steps m setOperator? setOperator? := by
  refine .flag keepsIf_eatKeyword ?_ (.flag keepsIf_eatKeyword keeps_pure
    (.flag keepsIf_eatKeyword keeps_pure (.pure (by simp))))
  exact .flag keepsIf_eatKeyword keeps_pure
    (.bind (.discard keepsIf_eatKeyword) fun _ => keeps_pure)

theorem keeps_bodyTerm (h : w.KeepsInner inner) : w.Keeps m (bodyTerm inner) (bodyTerm inner) :=
  .peek fun _ _ hplace => .flag (keepsIf_eat (by simp))
    (.bind (keeps_parenStatement h hplace) fun _ => keeps_pure)
    (.bind (keeps_select h) fun _ => keeps_pure)

theorem keeps_bodyTail (h : w.KeepsInner inner) (hn : k ≤ n) (hn' : k ≤ n') (left : Body) :
    w.Keeps k (bodyTail inner n left) (bodyTail inner n' left) := by
  refine keeps_loop (bodyTail inner) (fun k n n' ih left => ?_) hn hn' left
  exact .step steps_setOperator (fun _ => .bind (keeps_bodyTerm h) fun _ => ih _) keeps_pure

theorem keeps_body (h : w.KeepsInner inner) : w.Keeps m (body inner) (body inner) :=
  .bind (keeps_bodyTerm h) fun left => .remaining fun _ _ _ hn hn' => keeps_bodyTail h hn hn' left

theorem keeps_cte (h : w.KeepsInner inner) (before : List Cte) :
    w.Keeps m (cte inner before) (cte inner before) := by
  refine .peek fun _ _ hplace => .bind keepsIf_name fun n =>
    .ite (fun _ => keepsIf_failAt hplace) fun _ => .bind keepsIf_isNext fun b => ?_
  have hrest : ∀ {m} columns, w.Keeps m
      (do
        expectKeyword "as"
        expect (.symbol .leftParen) "'(' before CTE body"
        let s ← inner.statement
        expect (.symbol .rightParen) "')' after CTE body"
        return ⟨n, columns, s⟩ : Parser Cte)
      (do
        expectKeyword "as"
        expect (.symbol .leftParen) "'(' before CTE body"
        let s ← inner.statement
        expect (.symbol .rightParen) "')' after CTE body"
        return ⟨n, columns, s⟩ : Parser Cte) := fun _ =>
    .expectKeyword (.expect (by simp) (.bind (h.statement _) fun _ => .expect (by simp) keeps_pure))
  cases b with
  | true => exact .bind keeps_nameList hrest
  | false => exact .bind keeps_pure hrest

theorem keeps_ctes (h : w.KeepsInner inner) (hn : k ≤ n) (hn' : k ≤ n') (before : List Cte) :
    w.Keeps k (ctes inner n before) (ctes inner n' before) := by
  refine keeps_loop (ctes inner) (fun k n n' ih before => ?_) hn hn' before
  exact .bind (keeps_cte h before) fun _ => .flag (keepsIf_eat (by simp)) (ih _) keeps_pure

theorem keeps_withClause (h : w.KeepsInner inner) :
    w.Keeps m (withClause inner) (withClause inner) :=
  .flag keepsIf_eatKeyword
    (.bind keepsIf_eatKeyword fun _ => .remaining fun _ _ _ hn hn' =>
      .bind (keeps_ctes h hn hn' []) fun _ => keeps_pure) keeps_pure

theorem keeps_statement (h : w.KeepsInner inner) (m : Nat) :
    w.Keeps m (statement inner) (statement inner) :=
  .bind (keeps_withClause h) fun _ => .bind (keeps_body h) fun _ => keeps_pure

/-! ## Whole texts -/

/-- **At every number of levels that are left, the parsers keep to their tokens.** -/
theorem keepsInner_within (w : Bounds) (levels : Nat) : w.KeepsInner (.within levels) := by
  induction levels with
  | zero =>
    exact ⟨fun _ => keepsIf_failHere, fun _ => keepsIf_failHere, fun _ => keepsIf_failHere,
      fun _ => keepsIf_failHere⟩
  | succ levels ih =>
    exact ⟨keeps_orExpr ih, keeps_statement ih, keeps_notExpr ih, keeps_signExpr ih⟩

theorem keeps_atEnd {after : String} : w.Keeps m (atEnd after) (atEnd after) := by
  refine .peek fun t _ hplace => ?_
  cases t.lexeme with
  | eof => exact keeps_pure
  | symbol s =>
    cases s with
    | rightParen => exact keepsIf_failAt hplace
    | _ => exact keepsIf_failAt hplace
  | _ => exact keepsIf_failAt hplace

/-- The parser of a text that is one statement keeps to its tokens, -/
theorem keeps_wholeStatement (hstart : w.places 0) : w.Keeps m wholeStatement wholeStatement := by
  have hinner := keepsInner_within w maxNesting
  refine .bind keepsIf_isNext fun _ => .ite (fun _ => keepsIf_failAt hstart) fun _ => ?_
  exact .bind (hinner.statement m) fun _ => .bind (.discard (keepsIf_eat (by simp))) fun _ =>
    .bind keeps_atEnd fun _ => keeps_pure

/-- and so does that of a text that is one expression. -/
theorem keeps_wholeExpr (hstart : w.places 0) : w.Keeps m wholeExpr wholeExpr := by
  have hinner := keepsInner_within w maxNesting
  refine .bind keepsIf_isNext fun _ => .ite (fun _ => keepsIf_failAt hstart) fun _ => ?_
  exact .bind (hinner.expr m) fun _ => .bind keeps_atEnd fun _ => keeps_pure

end

end Sql.Bounds
