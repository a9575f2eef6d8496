import Sql.Proofs.CarryStatement
import Sql.Proofs.LexInFront
import Sql.Proofs.ReadTree
import Sql.Proofs.Results

/-!
# Statements as subqueries

A statement in parentheses may be a source of FROM, the body of a WITH definition, what EXISTS or IN
asks about, or a value. A text that is a statement stands for the same statement at each of these
places (`SubqueryPlace.parse_text`), with three reservations. A closing parenthesis behind a line
comment belongs to the comment, and a semicolon ends a statement only at the end of the whole text
(`CanBeEnclosed`). Two of the places take a parenthesis for that of a statement only if SELECT or
WITH comes next (`SubqueryPlace.looksAhead`). And the bound on nesting is that of the whole text
(`parseWithin`).
-/

namespace Sql

open Sql.Parser

/-! ## The five places -/

/-- Where a statement in parentheses may stand. -/
inductive SubqueryPlace
  | source
  | cte
  | hasRows
  | inList
  | scalar
deriving DecidableEq, Repr

/-- A select of one expression, without clauses behind the source. -/
def Select.ofOne (e : Expr) (source : Option Source) : Select where
  distinct := false
  items := [⟨e, none⟩]
  source := source
  joins := []
  filter := none
  groupBy := []
  having := none
  orderBy := []
  limit := none
  offset := none

namespace SubqueryPlace

/-- What stands in front of the parentheses. -/
def before : SubqueryPlace → String
  | source => "SELECT 1 FROM "
  | cte => "WITH q AS "
  | hasRows => "SELECT EXISTS "
  | inList => "SELECT x IN "
  | scalar => "SELECT "

/-- What stands behind the parentheses. -/
def after : SubqueryPlace → String
  | source => " AS q"
  | cte => " SELECT 1"
  | hasRows | inList | scalar => ""

/-- A text in parentheses at the place. -/
def text (p : SubqueryPlace) (inside : String) : String :=
  p.before ++ "(" ++ inside ++ ")" ++ p.after

/-- A statement at the place. -/
def statement (s : Statement) : SubqueryPlace → Statement
  | source => ⟨none, .select (.ofOne (.literal (.number "1")) (some (.subquery s "q")))⟩
  | cte => ⟨some ⟨false, [⟨"q", [], s⟩]⟩, .select (.ofOne (.literal (.number "1")) none)⟩
  | hasRows => ⟨none, .select (.ofOne (.hasRows s) none)⟩
  | inList => ⟨none, .select (.ofOne (.inQuery (.name "x") s false) none)⟩
  | scalar => ⟨none, .select (.ofOne (.subquery s) none)⟩

/-- How many levels further in the statement stands. -/
def depth : SubqueryPlace → Nat
  | source | cte => 1
  | hasRows | inList | scalar => 2

/-- An expression may stand at the place as well, so that the token behind the parenthesis tells
which of both it is. -/
def looksAhead : SubqueryPlace → Bool
  | source | cte | hasRows => false
  | inList | scalar => true

end SubqueryPlace

/-- The statement that a text is, where so many levels may be nested. -/
def parseWithin (levels : Nat) (text : String) : Except Error Statement :=
  (wholeWithin levels).runText text

theorem parse_eq_parseWithin : parse = parseWithin maxNesting := rfl

/-- A semicolon is the last lexeme of the text. -/
def endsInSemicolon (text : String) : Bool :=
  (lex text.toList).any fun ls => ls.dropLast.getLast? == some (.symbol .semicolon)

/-- A parenthesis behind the text is one, and the statement of the text goes up to it. -/
structure CanBeEnclosed (text : String) : Prop where
  comment : endsInComment text.toList = false
  semicolon : endsInSemicolon text = false

/-! ## Lexemes -/

namespace SubqueryPlace

/-- The dialect in which the texts in front and behind are written. -/
def config : DialectConfig := Dialect.generic.config

/-- The lexemes in front of the parentheses. -/
def lexemesBefore : SubqueryPlace → List Lexeme
  | source => [kw config "select", .number "1", kw config "from"]
  | cte => [kw config "with", nameLexeme config "q", kw config "as"]
  | hasRows => [kw config "select", kw config "exists"]
  | inList => [kw config "select", nameLexeme config "x", kw config "in"]
  | scalar => [kw config "select"]

/-- The lexemes behind the parentheses. -/
def lexemesAfter : SubqueryPlace → List Lexeme
  | source => aliasLexemes config (some "q")
  | cte => [kw config "select", .number "1"]
  | hasRows | inList | scalar => []

theorem lex_before (p : SubqueryPlace) :
    lex p.before.toList = some (p.lexemesBefore ++ [.eof]) := by
  cases p <;> decide +kernel

theorem endsInComment_before (p : SubqueryPlace) : endsInComment p.before.toList = false := by
  cases p <;> decide +kernel

theorem lex_after (p : SubqueryPlace) :
    lex p.after.toList = some (p.lexemesAfter ++ [.eof]) := by
  cases p <;> decide +kernel

/-- The lexemes of a text in parentheses at the place. -/
theorem lex_text (p : SubqueryPlace) {inside : String} {ls : List Lexeme}
    (h : lex inside.toList = some (ls ++ [.eof])) (hcomment : endsInComment inside.toList = false) :
    lex (p.text inside).toList
      = some (p.lexemesBefore ++ (parenLexemes ls ++ p.lexemesAfter) ++ [.eof]) := by
  -- the texts in front and inside each end at a parenthesis
  obtain ⟨ks, hks, -, hinside⟩ :=
    lex_append_paren (Or.inr rfl : IsParen ')') inside.toList p.after.toList h hcomment
  obtain rfl := List.append_cancel_right hks
  obtain ⟨ks, hks, -, hbefore⟩ := lex_append_paren (Or.inl rfl : IsParen '(') p.before.toList
    (inside.toList ++ ')' :: p.after.toList) p.lex_before p.endsInComment_before
  obtain rfl := List.append_cancel_right hks
  have htext : (p.text inside).toList
      = p.before.toList ++ '(' :: (inside.toList ++ ')' :: p.after.toList) := by
    simp [text]
  rw [htext, hbefore, lex_leftParen, hinside, lex_rightParen, p.lex_after]
  simp [parenLexemes]

end SubqueryPlace

/-! ## Selects of one expression -/

namespace Parser

section

variable {fits : Prop} {inner : Inner} {config : DialectConfig} {n : Nat} {ls ms : List Lexeme}
  {e : Expr} {first : Option Source}

theorem reachesBody_ofOne (he : Nested fits inner ls e)
    (hfrom : Reads fits (fromClause inner) ms (first, []) fun l => 3 ≤ l.stage)
    (hends : ∀ l : Lexeme, 3 ≤ l.stage → EndsItems (ms.headD l)) :
    ReachesBody fits inner (kw config "select" :: (ls ++ ms)) (.select (.ofOne e first)) := by
  have hitem : Reads fits (selectItem inner) (ls ++ aliasLexemes config none) ⟨e, none⟩
      fun l => 0 < l.stage := reads_selectItem he fun _ => rfl
  have hitems : Reads fits (commaList (selectItem inner)) (commaSep [ls]) [⟨e, none⟩]
      EndsItems := by
    rw [aliasLexemes, List.append_nil] at hitem
    exact reads_commaList (List.Forall₂.cons hitem List.Forall₂.nil) (by simp)
      (by decide : 0 < (Lexeme.symbol .comma).stage) (fun _ hl => hl.1) fun _ hl => hl.2
  have hclauses : ClausesRead fits inner config (.ofOne e first) := by
    constructor <;> simp [Select.ofOne, exprLexemes, orderLexemes]
  obtain ⟨s, hstarts⟩ := he.starts
  have hselect := reads_select_of ⟨s, hstarts.commaSep []⟩ hitems hfrom hends hclauses
  simp only [Select.ofOne, optionLexemes, listLexemes, exprLexemes, orderLexemes, commaSep,
    List.flatMap_nil, List.isEmpty_nil, Bool.false_eq_true, if_false, if_true, List.append_nil,
    List.nil_append] at hselect
  exact ReachesBody.of_term (reads_bodyTerm_select ⟨_, _, rfl, by simp⟩ hselect)

/-- The expression, without a source. -/
theorem reachesBody_value (he : Nested fits inner ls e) :
    ReachesBody fits inner (kw config "select" :: ls) (.select (.ofOne e none)) := by
  have hnone := @reads_from fits inner config none [] (by simp) (by simp) (fun _ => rfl)
    List.Pairwise.nil
  rw [fromLexemes] at hnone
  have hbody := @reachesBody_ofOne fits inner config ls [] e none he hnone fun l hl =>
    ⟨Nat.zero_lt_of_lt hl, ne_comma_of_stage hl⟩
  rwa [List.append_nil] at hbody

/-- A statement without a WITH clause. -/
theorem reads_bareStatement {b : Body} (h : ReachesBody fits inner (kw config "select" :: ls) b) :
    Reads fits (statement inner) (kw config "select" :: ls) ⟨none, b⟩ fun l => 10 ≤ l.stage := by
  have hnone : ∀ w ∈ (none : Option With), WithReads fits inner config w := fun _ hw => by cases hw
  have hread := reads_statement hnone h (Or.inl ⟨ls, rfl⟩)
  rwa [withLexemes, List.nil_append] at hread

theorem nested_of_primary (hstarts : Starts strengthAtom ls)
    (h : Reads fits (primary (Inner.within n)) ls e fun l => l.tight < strengthAtom) :
    Nested fits (Inner.within (n + 1)) ls e :=
  ⟨⟨_, hstarts⟩, (Readable.of_primary hstarts h).reads 1 (by decide)⟩

theorem nested_one : Nested fits (Inner.within (n + 1)) [.number "1"] (.literal (.number "1")) :=
  nested_of_primary ⟨_, [], rfl, rfl, fun _ => rfl, fun _ => rfl⟩ reads_number

end

end Parser

/-! ## What is read at the places -/

namespace SubqueryPlace

section

variable {fits : Prop} {inner : Inner} {n : Nat} {ls : List Lexeme} {s : Statement}

theorem reads_source (hstarts : StartsStatement ls)
    (hs : Reads fits (Inner.within (n + 1)).statement ls s (· = .symbol .rightParen)) :
    Reads fits (Parser.statement (Inner.within (n + 1)))
      (lexemesBefore source ++ (parenLexemes ls ++ lexemesAfter source)) (source.statement s)
      fun l => 10 ≤ l.stage := by
  have hsource : Reads fits (newSource (Inner.within (n + 1)) [])
      (parenLexemes ls ++ aliasLexemes config (some "q")) (.subquery s "q") fun _ => True :=
    reads_newSource (reads_subquerySource "q" hstarts hs) rfl
  have hjoins : ∀ k, Reads fits (joins (Inner.within (n + 1)) k ["q"]) [] []
      fun l => 3 ≤ l.stage := by
    intro k
    have hnone := @reads_joins fits (Inner.within (n + 1)) config [] (by simp) ["q"] (by simp)
      List.Pairwise.nil k
    rw [joinLexemes] at hnone
    exact hnone (Nat.zero_le k)
  have hfrom : Reads fits (fromClause (Inner.within (n + 1)))
      (kw config "from" :: (parenLexemes ls ++ aliasLexemes config (some "q")))
      (some (.subquery s "q"), []) fun l => 3 ≤ l.stage := by
    refine Reads.token (reads_eatKeyword (isKeyword_kw_self config "from")) ?_
    rw [← List.append_nil (parenLexemes ls ++ _)]
    exact Reads.bind hsource (Reads.remaining fun k _ => Reads.finish (hjoins k) rfl)
      fun _ _ => trivial
  have hends : ∀ l, EndsItems ((kw config "from"
      :: (parenLexemes ls ++ aliasLexemes config (some "q"))).headD l) := fun _ => by
    rw [List.headD_cons, EndsItems, stage_kw]
    exact ⟨by decide, by simp [kw]⟩
  have hbody : ReachesBody fits (Inner.within (n + 1)) (kw config "select" :: ([.number "1"]
      ++ kw config "from" :: (parenLexemes ls ++ aliasLexemes config (some "q"))))
      (.select (.ofOne (.literal (.number "1")) (some (.subquery s "q")))) :=
    reachesBody_ofOne nested_one hfrom fun l _ => hends l
  exact reads_bareStatement hbody

theorem reads_definition
    (hs : Reads fits (Inner.within (n + 1)).statement ls s (· = .symbol .rightParen)) :
    Reads fits (Parser.statement (Inner.within (n + 1)))
      (lexemesBefore cte ++ (parenLexemes ls ++ lexemesAfter cte)) (cte.statement s)
      fun l => 10 ≤ l.stage := by
  have hcte : Reads fits (Parser.cte (Inner.within (n + 1)) [])
      (nameLexeme config "q" :: kw config "as" :: parenLexemes ls) ⟨"q", [], s⟩ fun _ => True :=
    @reads_cte_of fits (Inner.within (n + 1)) config ls _ ⟨"q", [], s⟩ [] hs rfl
  have hctes : ∀ k, (nameLexeme config "q" :: kw config "as" :: parenLexemes ls).length ≤ k →
      Reads fits (ctes (Inner.within (n + 1)) k [])
        (nameLexeme config "q" :: kw config "as" :: parenLexemes ls) [⟨"q", [], s⟩]
        (· ≠ .symbol .comma) := by
    intro k hk
    cases k with
    | zero => exact absurd hk (by simp)
    | succ k =>
      rw [← List.append_nil (nameLexeme config "q" :: _)]
      exact Reads.bind hcte (Reads.look reads_not_eat (fun _ h => h) Reads.pure) fun _ _ => trivial
  have hwith : Reads fits (withClause (Inner.within (n + 1)))
      (kw config "with" :: nameLexeme config "q" :: kw config "as" :: parenLexemes ls)
      (some ⟨false, [⟨"q", [], s⟩]⟩) (· ≠ .symbol .comma) := by
    refine Reads.token (reads_eatKeyword (isKeyword_kw_self config "with")) ?_
    refine Reads.look reads_not_eatKeyword (fun l _ => ?_)
      (Reads.remaining fun k hk => Reads.finish (hctes k hk) rfl)
    exact (starts_name config "q" strengthAtom _).head_keyword (by decide) (by decide) l
  have hbody : Reads fits (body (Inner.within (n + 1))) [kw config "select", .number "1"]
      (.select (.ofOne (.literal (.number "1")) none)) fun l => 10 ≤ l.stage :=
    (reachesBody_value nested_one).reads
  have hread : Reads fits (Parser.statement (Inner.within (n + 1)))
      ((kw config "with" :: nameLexeme config "q" :: kw config "as" :: parenLexemes ls)
        ++ [kw config "select", .number "1"]) (cte.statement s) fun l => 10 ≤ l.stage :=
    Reads.bind hwith (Reads.finish hbody rfl) fun _ _ => by simp [kw]
  exact hread

theorem reads_hasRows
    (hs : Reads fits (Inner.within n).statement ls s (· = .symbol .rightParen)) :
    Reads fits (Parser.statement (Inner.within (n + 1)))
      (lexemesBefore hasRows ++ (parenLexemes ls ++ lexemesAfter hasRows)) (hasRows.statement s)
      fun l => 10 ≤ l.stage := by
  have hexists : Nested fits (Inner.within (n + 1)) (kw config "exists" :: parenLexemes ls)
      (.hasRows s) :=
    nested_of_primary (starts_kw config (by decide) (by decide) _ _) (reads_exists hs)
  rw [lexemesAfter, List.append_nil]
  exact reads_bareStatement (reachesBody_value hexists)

theorem reads_inList (hquery : IsQuery ls)
    (hs : Reads fits (Inner.within n).statement ls s (· = .symbol .rightParen)) :
    Reads fits (Parser.statement (Inner.within (n + 1)))
      (lexemesBefore inList ++ (parenLexemes ls ++ lexemesAfter inList)) (inList.statement s)
      fun l => 10 ≤ l.stage := by
  have hcolumn : Readable fits (Inner.within n) strengthAtom [nameLexeme config "x"] (.name "x") :=
    Readable.of_primary (starts_name config "x" _ []) (@reads_column fits _ config ⟨[], "x"⟩)
  have hin : Reads fits (predicate? (Inner.within n) (.name "x"))
      (kw config "in" :: parenLexemes ls) (some (.inQuery (.name "x") s false))
      fun l => l.tight ≤ strengthComparison :=
    @reads_in _ _ config _ _ _ _ false (reads_inQuery hquery hs)
  have hpredicate := hcolumn.predicate (by decide)
    (starts_name config "x" strengthComparison (kw config "in" :: parenLexemes ls)) hin
    ⟨_, _, rfl, by rw [tight_kw]; decide⟩
  have hnested : Nested fits (Inner.within (n + 1))
      (nameLexeme config "x" :: kw config "in" :: parenLexemes ls) (.inQuery (.name "x") s false) :=
    ⟨⟨_, starts_name config "x" strengthComparison _⟩, hpredicate.reads 1 (by decide)⟩
  rw [lexemesAfter, List.append_nil]
  exact reads_bareStatement (reachesBody_value hnested)

theorem reads_scalar (hquery : IsQuery ls)
    (hs : Reads fits (Inner.within n).statement ls s (· = .symbol .rightParen)) :
    Reads fits (Parser.statement (Inner.within (n + 1)))
      (lexemesBefore scalar ++ (parenLexemes ls ++ lexemesAfter scalar)) (scalar.statement s)
      fun l => 10 ≤ l.stage := by
  have hvalue : Nested fits (Inner.within (n + 1)) (parenLexemes ls) (.subquery s) :=
    nested_of_primary (starts_paren _ _) (reads_subquery hquery hs)
  rw [lexemesAfter, List.append_nil]
  exact reads_bareStatement (reachesBody_value hvalue)

/-- **A statement that is read in front of a closing parenthesis is read at each of the places.** -/
theorem reads_place (p : SubqueryPlace) (hstarts : StartsStatement ls)
    (hquery : p.looksAhead = true → IsQuery ls)
    (hs : Reads fits (Inner.within (maxNesting - p.depth)).statement ls s
      (· = .symbol .rightParen)) :
    Reads fits (Inner.within maxNesting).statement
      (p.lexemesBefore ++ (parenLexemes ls ++ p.lexemesAfter)) (p.statement s)
      fun l => 10 ≤ l.stage := by
  cases p with
  | source => exact reads_source hstarts hs
  | cte => exact reads_definition hs
  | hasRows => exact reads_hasRows hs
  | inList => exact reads_inList (hquery rfl) hs
  | scalar => exact reads_scalar (hquery rfl) hs

end

end SubqueryPlace

/-! ## Whole texts -/

theorem parseWithin_eq_ok {levels : Nat} {text : String} {s : Statement}
    (h : parseWithin levels text = .ok s) :
    ∃ ts rest, lex text.toList = some (ts.map Token.lexeme)
      ∧ wholeWithin levels ts = .ok (s, rest) := by
  obtain ⟨ts, rest, hts, hrun⟩ := runText_eq_ok h
  exact ⟨ts, rest, lex_of_tokenize hts, hrun⟩

/-- The lexemes of a text that is a statement start with SELECT or WITH, unless the statement starts
with a parenthesis. -/
theorem starts_of_wholeWithin {levels : Nat} {ts rest : List Token} {ls : List Lexeme}
    {s : Statement} (hrun : wholeWithin levels ts = .ok (s, rest))
    (hts : ts.map Token.lexeme = ls ++ [.eof]) :
    s.startsBare = true ∧ IsQuery ls
      ∨ s.startsBare = false ∧ ∃ tail, ls = .symbol .leftParen :: tail := by
  obtain ⟨left, hs, -⟩ := wholeWithin_eq_ok hrun
  have hfirst : (firstToken ts).lexeme = ls.headD .eof := by
    have hhead := lexeme_firstToken_append ts []
    rw [List.append_nil, hts, headD_append] at hhead
    exact hhead
  cases levels with
  | zero => cases hs
  | succ n =>
    rcases head_of_statement hs with ⟨hbare, hl⟩ | ⟨hbare, hl⟩
    · rw [hfirst] at hl
      cases ls with
      | nil => cases hl
      | cons l ls => exact Or.inl ⟨hbare, l, ls, rfl, hl⟩
    · rw [hfirst] at hl
      cases ls with
      | nil => cases hl
      | cons l ls => exact Or.inr ⟨hbare, ls, congrArg (· :: ls) hl⟩

namespace SubqueryPlace

variable {inside : String} {s : Statement}

/-- The statement stands at the place if the levels suffice. -/
theorem parse_text_of_levels {fits : Prop} {levels : Nat} (p : SubqueryPlace)
    (h : parseWithin levels inside = .ok s) (hinside : CanBeEnclosed inside)
    (hquery : p.looksAhead = true → s.startsBare = true)
    (hlevels : fits → levels ≤ maxNesting - p.depth) :
    parse (p.text inside) = .ok (p.statement s) ∨ (¬ fits ∧ ∃ offset, parse (p.text inside)
      = .error (Error.inText (p.text inside) offset ParseFault.tooDeep.message)) := by
  obtain ⟨ts, rest, hlex, hrun⟩ := parseWithin_eq_ok h
  obtain ⟨ls, hls, heof, -⟩ := lex_append_paren (Or.inr rfl : IsParen ')') inside.toList [] hlex
    hinside.comment
  have hsemicolon : ∀ ks, ls ≠ ks ++ [.symbol .semicolon] := by
    rintro ks rfl
    have hends := hinside.semicolon
    rw [endsInSemicolon, hlex, hls, Option.any_some, List.dropLast_concat,
      List.getLast?_concat] at hends
    cases hends
  have hread : Reads fits (Inner.within (maxNesting - p.depth)).statement ls s
      (· = .symbol .rightParen) := reads_of_wholeWithin hlevels hrun hls heof hsemicolon
  have hstarts := starts_of_wholeWithin hrun hls
  refine parse_of_reads ?_ (reads_place p ?_ ?_ hread)
    (p.lex_text (hls ▸ hlex) hinside.comment)
  · cases p <;> exact Or.inl ⟨_, _, rfl, by simp⟩
  · exact hstarts.imp And.right And.right
  · intro hlooks
    rcases hstarts with ⟨-, h⟩ | ⟨hbare, -⟩
    · exact h
    · rw [hquery hlooks] at hbare
      cases hbare

/-- **Every place takes the same statements.** A text that is a statement, and that can be enclosed,
stands for this statement in parentheses at each of the places, unless it nests more deeply than the
levels that are left there. Where an expression may stand as well, it has to start with SELECT or
WITH. -/
theorem parse_text (p : SubqueryPlace) (h : parse inside = .ok s) (hinside : CanBeEnclosed inside)
    (hquery : p.looksAhead = true → s.startsBare = true) :
    parse (p.text inside) = .ok (p.statement s)
      ∨ (parseWithin (maxNesting - p.depth) inside ≠ .ok s ∧ ∃ offset, parse (p.text inside)
        = .error (Error.inText (p.text inside) offset ParseFault.tooDeep.message)) := by
  have hwithin : parseWithin maxNesting inside = .ok s := parse_eq_parseWithin ▸ h
  -- read within the levels that are left, it cannot be refused for its depth
  by_cases hfits : parseWithin (maxNesting - p.depth) inside = .ok s
  · have hplace := @parse_text_of_levels _ _ True _ p hfits hinside hquery fun _ => Nat.le_refl _
    exact hplace.imp_right fun habsurd => absurd trivial habsurd.1
  · have hplace := @parse_text_of_levels _ _ False _ p hwithin hinside hquery False.elim
    exact hplace.imp_right fun hdeep => ⟨hfits, hdeep.2⟩

/-- A set operation with an operand in parentheses. -/
def compoundText : String := "select 1 union (select 2) /* two */"

theorem parse_text_compoundText :
    ∃ s, parse compoundText = .ok s ∧ CanBeEnclosed compoundText ∧ s.startsBare = true
      ∧ ∀ p : SubqueryPlace, parse (p.text compoundText) = .ok (p.statement s)
        ∨ (parseWithin (maxNesting - p.depth) compoundText ≠ .ok s ∧ ∃ offset,
          parse (p.text compoundText) = .error
            (Error.inText (p.text compoundText) offset ParseFault.tooDeep.message)) := by
  have hread : (parse compoundText).toOption.any Statement.startsBare = true := by decide +kernel
  have hinside : CanBeEnclosed compoundText := ⟨by decide +kernel, by decide +kernel⟩
  obtain ⟨s, hparse, hbare⟩ := exists_ok_of_any hread
  exact ⟨s, hparse, hinside, hbare, fun p => parse_text p hparse hinside fun _ => hbare⟩

/-- A comment that the end of the text ends takes in the parenthesis behind it, and in front of a
parenthesis IN and a value look no further for a statement. -/
theorem parse_text_refused :
    ((∃ s, parse "select 1 -- one" = .ok s) ∧ endsInSemicolon "select 1 -- one" = false
        ∧ ∀ p : SubqueryPlace, ¬ ∃ s, parse (p.text "select 1 -- one") = .ok s)
      ∧ (∃ s, parse "(select 1) union select 2" = .ok s)
        ∧ endsInSemicolon "(select 1) union select 2" = false
        ∧ ∀ p : SubqueryPlace, p.looksAhead = true →
          ¬ ∃ s, parse (p.text "(select 1) union select 2") = .ok s := by
  have hnone : ∀ {text : String}, (parse text).toOption.isNone = true →
      ¬ ∃ s, parse text = .ok s := by
    rintro text h ⟨s, hs⟩
    rw [hs] at h
    cases h
  have hread : ∀ {text : String}, (parse text).toOption.any (fun _ => true) = true →
      ∃ s, parse text = .ok s := fun h => (exists_ok_of_any h).imp fun _ => And.left
  refine ⟨⟨hread (by decide +kernel), by decide +kernel, fun p => hnone ?_⟩,
    hread (by decide +kernel), by decide +kernel, fun p hlooks => hnone ?_⟩
  · cases p <;> decide +kernel
  · cases p with
    | source | cte | hasRows => cases hlooks
    | inList | scalar => decide +kernel

end SubqueryPlace

end Sql
