import Sql.Proofs.CarryExpr
import Sql.Proofs.YieldStatement

/-!
# Statements in front of a closing parenthesis

A statement that is read up to the end of a text is read in the same way up to a closing
parenthesis.

* `carries_selectItem` to `carries_statement`: the clauses, the sources and the set operations.
* `carriesInner_within`: the parsers of all levels carry over, by induction on the levels.
* `reads_of_wholeWithin`: the lexemes of a whole text are read as its statement wherever a closing
  parenthesis follows.
-/

namespace Sql.Parser

section

variable {fits : Prop} {inner inner' : Inner} {m : Nat} {α : Type}

/-! ## Select list -/

/-- Where the end is refused, there is a token. -/
theorem carries_notEnd {found : Bool} {what : String} {p p' : Parser α}
    (hp : Carries fits m p p') :
    Carries fits m (isNext .eof >>= fun b => if (found || b) = true then unexpected what else p)
      (isNext .eof >>= fun b => if (found || b) = true then unexpected what else p') := by
  show Advances fits m _
    (peek >>= fun t => if (found || t.lexeme == .eof) = true then unexpected what else p)
    (peek >>= fun t => if (found || t.lexeme == .eof) = true then unexpected what else p')
  refine Advances.look (fun l _ _ ls hls => ?_) fun _ _ => ?_
  · dsimp only
    split
    · exact carries_unexpected _ hls
    · exact hp _ hls
  · show CarriesAt fits [] _ (if (found || true) = true then unexpected what else p) _
    rw [Bool.or_true, if_pos rfl]
    exact CarriesAt.of_error fun _ => ⟨_, rfl⟩

theorem carries_selectItem (h : CarriesInner fits inner inner') :
    Carries fits m (selectItem inner) (selectItem inner') := by
  refine Carries.bind carries_isNextKeyword fun found => carries_notEnd ?_
  exact Carries.bind (h.expr m) fun e => Advances.ite (fun _ => Carries.pure) fun _ =>
    Carries.bind carries_optionalAlias fun _ => Carries.pure

/-! ## FROM -/

theorem carries_tableParts : ∀ n n', n ≤ n' → Carries fits n (tableParts n) (tableParts n') :=
  carries_repeated fun _ _ hrest => Carries.turn (advances_eat (by decide) (by decide))
    (Carries.bind carries_name fun _ => Carries.bind hrest fun _ => Carries.pure) Carries.pure

theorem carries_parenStatement (h : CarriesInner fits inner inner') {what : String}
    {opened opened' : Nat} :
    Carries fits m (parenStatement inner what opened) (parenStatement inner' what opened') :=
  Carries.bind carries_isNextQuery fun _ =>
    Carries.bind (carries_isNext (by decide) (by decide)) fun _ =>
      Advances.ite
        (fun _ => Carries.bind (h.statement m) fun _ => Carries.bind carries_closeParen fun _ =>
          Carries.pure)
        fun _ => carries_unexpected

theorem carries_source (h : CarriesInner fits inner inner') :
    Carries fits m (source inner) (source inner') := by
  refine Advances.place fun _ _ => Carries.flag (carries_eat (by decide) (by decide)) ?_ ?_
  · refine Carries.bind (carries_parenStatement h) fun s => Advances.place fun _ _ =>
      Carries.bind carries_optionalAlias fun a => ?_
    cases a with
    | some n => exact Carries.pure
    | none => exact carries_failAt
  · exact Carries.bind carries_name fun _ => Advances.remaining fun n n' hn =>
      Carries.bind (carries_tableParts n n' hn) fun _ =>
        Carries.bind carries_optionalAlias fun _ => Carries.pure

theorem carries_newSource (h : CarriesInner fits inner inner') {seen : List String} :
    Carries fits m (newSource inner seen) (newSource inner' seen) :=
  Advances.place fun _ _ => Carries.bind (carries_source h) fun _ =>
    Advances.ite (fun _ => carries_failAt) fun _ => Carries.pure

theorem carries_joinSide : Carries fits m joinSide? joinSide? := by
  have houter : ∀ kind : JoinKind, Carries fits m
      (do discard (eatKeyword "outer"); return some kind : Parser (Option JoinKind))
      (do discard (eatKeyword "outer"); return some kind : Parser (Option JoinKind)) := fun _ =>
    Carries.bind (Carries.discard carries_eatKeyword) fun _ => Carries.pure
  refine Carries.flag carries_isNextKeyword Carries.pure ?_
  refine Carries.flag carries_eatKeyword Carries.pure ?_
  refine Carries.flag carries_eatKeyword (houter .left) ?_
  refine Carries.flag carries_eatKeyword (houter .right) ?_
  refine Carries.flag carries_eatKeyword (houter .full) ?_
  exact Carries.flag carries_eatKeyword Carries.pure Carries.pure

/-- The word JOIN is there at the latest. -/
theorem steps_joinKind : Steps fits m joinKind? joinKind? :=
  Carries.bind carries_joinSide fun kind => by
    cases kind with
    | none => exact Steps.none
    | some k => exact Advances.bind advances_expectKeyword fun _ _ _ => CarriesAt.pure rfl

theorem carries_constraint (h : CarriesInner fits inner inner') {start start' : Nat}
    {kind : JoinKind} :
    Carries fits m (constraint inner start kind) (constraint inner' start' kind) := by
  refine Advances.ite (fun _ => Carries.pure) fun _ => ?_
  refine Carries.flag carries_eatKeyword (Carries.bind (h.expr m) fun _ => Carries.pure) ?_
  exact Carries.flag carries_eatKeyword (Carries.bind carries_nameList fun _ => Carries.pure)
    carries_failAt

theorem carries_joins (h : CarriesInner fits inner inner') :
    ∀ n n', n ≤ n' → ∀ seen, Carries fits n (joins inner n seen) (joins inner' n' seen) := by
  refine carries_turns fun n n' hrest seen => Advances.place fun _ _ => ?_
  refine Carries.turn (advances_eat (by decide) (by decide)) ?_
    (Carries.turnStep steps_joinKind (fun kind => ?_) Carries.pure)
  · exact Carries.bind (carries_newSource h) fun right =>
      Carries.bind (hrest (right.effectiveName :: seen)) fun _ => Carries.pure
  · exact Carries.bind (carries_newSource h) fun right => Carries.bind (carries_constraint h)
      fun _ => Carries.bind (hrest (right.effectiveName :: seen)) fun _ => Carries.pure

theorem carries_fromClause (h : CarriesInner fits inner inner') :
    Carries fits m (fromClause inner) (fromClause inner') :=
  Carries.flag carries_eatKeyword
    (Carries.bind (carries_newSource h) fun first => Advances.remaining fun n n' hn =>
      Carries.bind (carries_joins h n n' hn [first.effectiveName]) fun _ => Carries.pure)
    Carries.pure

/-! ## The other clauses -/

theorem carries_clause (h : CarriesInner fits inner inner') {k : String} :
    Carries fits m (clause inner k) (clause inner' k) :=
  Carries.flag carries_eatKeyword (Carries.bind (h.expr m) fun _ => Carries.pure) Carries.pure

theorem carries_offsetClause (h : CarriesInner fits inner inner') :
    Carries fits m (offsetClause inner) (offsetClause inner') :=
  Carries.flag carries_eatKeyword
    (Carries.bind (h.expr m) fun _ => Carries.bind (Carries.discard carries_eatKeyword) fun _ =>
      Carries.pure)
    Carries.pure

theorem carries_page (h : CarriesInner fits inner inner') :
    Carries fits m (page inner) (page inner') := by
  refine Carries.bind (carries_clause h) fun limit => ?_
  cases limit with
  | some l => exact Carries.bind (carries_offsetClause h) fun _ => Carries.pure
  | none =>
    refine Carries.bind (carries_offsetClause h) fun offset => ?_
    cases offset with
    | some o => exact Carries.bind (carries_clause h) fun _ => Carries.pure
    | none => exact Carries.pure

theorem carries_quantifier : Carries fits m quantifier quantifier :=
  Carries.flag carries_eatKeyword Carries.pure
    (Carries.bind (Carries.discard carries_eatKeyword) fun _ => Carries.pure)

theorem carries_select (h : CarriesInner fits inner inner') :
    Carries fits m (select inner) (select inner') := by
  refine Carries.bind carries_expectKeyword fun _ => Carries.bind carries_quantifier fun _ => ?_
  refine Carries.bind (carries_commaList fun _ => carries_selectItem h) fun _ => ?_
  refine Carries.bind (carries_fromClause h) fun _ => ?_
  refine Carries.bind (carries_clause h) fun _ => Carries.bind (carries_byClause h.expr) fun _ => ?_
  refine Carries.bind (carries_clause h) fun _ =>
    Carries.bind (carries_byClause fun _ => carries_orderItem h) fun _ => ?_
  exact Carries.bind (carries_page h) fun _ => Carries.pure

/-! ## Set operations and WITH -/

theorem steps_setOperator : Steps fits m setOperator? setOperator? := by
  refine Steps.flag advances_eatKeyword ?_ ?_
  · exact Carries.flag carries_eatKeyword Carries.pure
      (Carries.bind (Carries.discard carries_eatKeyword) fun _ => Carries.pure)
  · exact Steps.flag advances_eatKeyword Carries.pure
      (Steps.flag advances_eatKeyword Carries.pure Steps.none)

theorem carries_bodyTerm (h : CarriesInner fits inner inner') :
    Carries fits m (bodyTerm inner) (bodyTerm inner') :=
  Advances.place fun _ _ => Carries.flag (carries_eat (by decide) (by decide))
    (Carries.bind (carries_parenStatement h) fun _ => Carries.pure)
    (Carries.bind (carries_select h) fun _ => Carries.pure)

theorem carries_bodyTail (h : CarriesInner fits inner inner') :
    ∀ n n', n ≤ n' → ∀ left, Carries fits n (bodyTail inner n left) (bodyTail inner' n' left) :=
  carries_turns fun _ _ hrest left => Carries.turnStep steps_setOperator
    (fun op => Carries.bind (carries_bodyTerm h) fun right => hrest (.setOp left op right))
    Carries.pure

theorem carries_body (h : CarriesInner fits inner inner') :
    Carries fits m (body inner) (body inner') :=
  Carries.bind (carries_bodyTerm h) fun left => Advances.remaining fun n n' hn =>
    carries_bodyTail h n n' hn left

theorem carries_cte (h : CarriesInner fits inner inner') {before : List Cte} :
    Carries fits m (cte inner before) (cte inner' before) := by
  have hbody : ∀ (n : String) (columns : List String), Carries fits m
      (do
        expectKeyword "as"
        expect (.symbol .leftParen) "'(' before CTE body"
        let s ← inner.statement
        expect (.symbol .rightParen) "')' after CTE body"
        return ⟨n, columns, s⟩ : Parser Cte)
      (do
        expectKeyword "as"
        expect (.symbol .leftParen) "'(' before CTE body"
        let s ← inner'.statement
        expect (.symbol .rightParen) "')' after CTE body"
        return ⟨n, columns, s⟩ : Parser Cte) := fun _ _ =>
    Carries.bind carries_expectKeyword fun _ =>
      Carries.bind (carries_expect (by decide) (by decide)) fun _ =>
        Carries.bind (h.statement m) fun _ => Carries.bind carries_expectClosing fun _ =>
          Carries.pure
  refine Advances.place fun _ _ => Carries.bind carries_name fun n =>
    Advances.ite (fun _ => carries_failAt) fun _ => ?_
  exact Carries.flag (carries_isNext (by decide) (by decide))
    (Carries.bind carries_nameList (hbody n)) (hbody n [])

theorem carries_ctes (h : CarriesInner fits inner inner') :
    ∀ n n', n ≤ n' → ∀ before, Carries fits n (ctes inner n before) (ctes inner' n' before) :=
  carries_turns fun _ _ hrest before => Carries.bind (carries_cte h) fun c =>
    Carries.turn (advances_eat (by decide) (by decide)) (hrest (before ++ [c])) Carries.pure

theorem carries_withClause (h : CarriesInner fits inner inner') :
    Carries fits m (withClause inner) (withClause inner') :=
  Carries.flag carries_eatKeyword
    (Carries.bind carries_eatKeyword fun _ => Advances.remaining fun n n' hn =>
      Carries.bind (carries_ctes h n n' hn []) fun _ => Carries.pure)
    Carries.pure

/-- **Statements carry over.** -/
theorem carries_statement (h : CarriesInner fits inner inner') :
    Carries fits m (statement inner) (statement inner') :=
  Carries.bind (carries_withClause h) fun _ => Carries.bind (carries_body h) fun _ => Carries.pure

end

/-! ## Nesting -/

section

variable {fits : Prop} {α : Type}

/-- The parsers of a level carry over with those of the next one in. -/
theorem carriesInner_succ {n n' : Nat}
    (h : CarriesInner fits (Inner.within n) (Inner.within n')) :
    CarriesInner fits (Inner.within (n + 1)) (Inner.within (n' + 1)) where
  expr := carries_orExpr h
  statement _ := carries_statement h
  negated := carries_notExpr h
  signed := carries_signExpr h

/-- With no level left, a parser hands back nothing. -/
theorem carriesInner_zero {inner' : Inner} : CarriesInner fits (Inner.within 0) inner' :=
  ⟨fun _ => carries_failHere, fun _ => carries_failHere, fun _ => carries_failHere,
    fun _ => carries_failHere⟩

theorem carriesInner_self : (n : Nat) → CarriesInner fits (Inner.within n) (Inner.within n)
  | 0 => carriesInner_zero
  | n + 1 => carriesInner_succ (carriesInner_self n)

/-- With no level left in front of the closing parenthesis, the depth is what is refused. -/
theorem carries_tooDeep {m : Nat} {p p' : Parser α} (hp : Carries fits m p p') (hfits : ¬ fits) :
    Carries fits m p (failHere .tooDeep) := by
  intro ls hls ts us a rest hparted hrun
  -- how many tokens are taken is known from any parser that carries over
  obtain ⟨k, htaken, hk, hrest, -⟩ := hp ls hls ts us a rest hparted hrun
  exact ⟨k, htaken, hk, hrest, Or.inr ⟨hfits, _, rfl⟩⟩

/-- **The parsers of all levels carry over to those of any other number of levels,** which refuse
nothing if they have as many levels left. -/
theorem carriesInner_within : (n n' : Nat) → (fits → n ≤ n') →
    CarriesInner fits (Inner.within n) (Inner.within n')
  | 0, _, _ => carriesInner_zero
  -- the levels on the right are used up first, which is the only way to be refused
  | n + 1, 0, hle =>
    have hself := carriesInner_self (n + 1)
    have hfits : ¬ fits := fun h => Nat.not_succ_le_zero n (hle h)
    { expr := fun m => carries_tooDeep (hself.expr m) hfits
      statement := fun m => carries_tooDeep (hself.statement m) hfits
      negated := fun m => carries_tooDeep (hself.negated m) hfits
      signed := fun m => carries_tooDeep (hself.signed m) hfits }
  | n + 1, n' + 1, hle =>
    carriesInner_succ (carriesInner_within n n' fun h => Nat.le_of_succ_le_succ (hle h))

/-! ## Whole texts -/

/-- A statement, an optional semicolon, and the end, where so many levels may be nested. -/
def wholeWithin (levels : Nat) : Parser Statement := do
  if ← isNext .eof then failAt 0 .emptyStatement
  else
    let s ← (Inner.within levels).statement
    discard (eat (.symbol .semicolon))
    atEnd "end of statement"
    return s

theorem atEnd_eq_ok {after : String} {ts rest : List Token} {u : Unit}
    (h : atEnd after ts = .ok (u, rest)) : (firstToken ts).lexeme = .eof := by
  obtain ⟨t, _, ht, h⟩ := bind_eq_ok h
  obtain ⟨rfl, rfl⟩ := Prod.mk.inj (Except.ok.inj ht)
  cases hl : (firstToken ts).lexeme with
  | eof => rfl
  | symbol s =>
    rw [hl] at h
    cases s <;> cases h
  | _ =>
    rw [hl] at h
    cases h

/-- What is left behind the statement that a whole text is. -/
theorem wholeWithin_eq_ok {levels : Nat} {ts rest : List Token} {s : Statement}
    (h : wholeWithin levels ts = .ok (s, rest)) :
    ∃ left, (Inner.within levels).statement ts = .ok (s, left)
      ∧ ((firstToken left).lexeme = .eof
        ∨ (firstToken left).lexeme = .symbol .semicolon
          ∧ (firstToken left.tail).lexeme = .eof) := by
  obtain ⟨empty, _, hempty, h⟩ := bind_eq_ok h
  obtain ⟨-, rfl⟩ := Prod.mk.inj (Except.ok.inj hempty)
  cases empty with
  | true => cases h
  | false =>
    obtain ⟨s', left, hs, h⟩ := bind_eq_ok h
    obtain ⟨_, behind, hsemicolon, h⟩ := bind_eq_ok h
    change (eat (.symbol .semicolon) >>= fun _ => Pure.pure ()) left = _ at hsemicolon
    obtain ⟨found, _, hfound, hsemicolon⟩ := bind_eq_ok hsemicolon
    obtain ⟨-, rfl⟩ := Prod.mk.inj (Except.ok.inj hsemicolon)
    obtain ⟨_, _, hend, h⟩ := bind_eq_ok h
    obtain ⟨rfl, -⟩ := Prod.mk.inj (Except.ok.inj h)
    refine ⟨left, hs, ?_⟩
    have hend := atEnd_eq_ok hend
    rcases eat_eq_ok hfound with ⟨-, hl, rfl⟩ | ⟨-, -, rfl⟩
    · exact Or.inr ⟨hl, hend⟩
    · exact Or.inl hend

/-- Only the end of a text is read as the end. -/
theorem eq_length_of_end {ls : List Lexeme} {ts us : List Token} (h : Parted ls ts us) {k : Nat}
    (hk : k ≤ ls.length) (hend : (firstToken (ts.drop k)).lexeme = .eof) : k = ls.length := by
  have hdropped := h.drop hk
  cases hls : ls.drop k with
  | nil => exact Nat.le_antisymm hk (List.drop_eq_nil_iff.mp hls)
  | cons l ls' =>
    rw [hls] at hdropped
    obtain ⟨o, ts', o', us', hts, -, -⟩ := hdropped.at_token
    rw [hts] at hend
    obtain rfl : l = .eof := hend
    exact absurd (List.mem_of_mem_drop (hls ▸ List.mem_cons_self)) h.inside

/-- The statement is the whole text, where no semicolon ends it. -/
theorem eq_length_of_left {ls : List Lexeme} {ts us : List Token} (h : Parted ls ts us)
    (hsemicolon : ∀ ks, ls ≠ ks ++ [.symbol .semicolon]) {k : Nat} (hk : k ≤ ls.length)
    (hleft : (firstToken (ts.drop k)).lexeme = .eof
      ∨ (firstToken (ts.drop k)).lexeme = .symbol .semicolon
        ∧ (firstToken (ts.drop k).tail).lexeme = .eof) : k = ls.length := by
  rcases hleft with hend | ⟨hl, hend⟩
  · exact eq_length_of_end h hk hend
  · cases hls : ls.drop k with
    | nil => exact Nat.le_antisymm hk (List.drop_eq_nil_iff.mp hls)
    | cons l ls' =>
      have hdropped := h.drop hk
      rw [hls] at hdropped
      obtain ⟨o, ts', o', us', hts, -, htail⟩ := hdropped.at_token
      rw [hts] at hl hend
      obtain rfl : l = .symbol .semicolon := hl
      obtain rfl : ls' = [] := (List.length_eq_zero_iff.mp
        (eq_length_of_end htail (Nat.zero_le _) hend).symm)
      exact absurd (hls ▸ (List.take_append_drop k ls).symm) (hsemicolon (ls.take k))

/-- **The lexemes of a whole text are read as its statement in front of a closing parenthesis,** if
no semicolon ends them. -/
theorem reads_of_wholeWithin {levels levels' : Nat} (hle : fits → levels ≤ levels')
    {ls : List Lexeme} {ts rest : List Token} {s : Statement}
    (hrun : wholeWithin levels ts = .ok (s, rest)) (hts : ts.map Token.lexeme = ls ++ [.eof])
    (hinside : .eof ∉ ls) (hsemicolon : ∀ ks, ls ≠ ks ++ [.symbol .semicolon]) :
    Reads fits (Inner.within levels').statement ls s (· = .symbol .rightParen) := by
  obtain ⟨left, hs, hleft⟩ := wholeWithin_eq_ok hrun
  intro us behind hus hbehind
  have hparted : Parted ls ts (us ++ behind) := by
    refine ⟨hts, ?_, hinside⟩
    cases behind with
    | nil => cases hbehind
    | cons u behind =>
      refine ⟨behind.map Token.lexeme, ?_⟩
      rw [List.map_append, hus, List.map_cons, show u.lexeme = _ from hbehind]
  -- as many tokens are taken as up to the end, which are all of them
  have hcarries := (carriesInner_within levels levels' hle).statement (ls.length + 1)
  obtain ⟨k, -, hk, rfl, hrun'⟩ :=
    hcarries ls (Nat.lt_succ_self _) ts (us ++ behind) s left hparted hs
  obtain rfl := eq_length_of_left hparted hsemicolon hk hleft
  rwa [← hus, List.length_map, List.drop_left] at hrun'

end

end Sql.Parser
