import Mathlib.Data.List.Forall2
import Sql.Proofs.Grammar
import Sql.Proofs.Placeholders

/-!
# Reading printed text token by token

The text of a well-formed tree has the lexemes of the tree (`Expr.spells`, `Statement.spells`). The
proofs put the texts of subtrees together:

* `Spells`: the text of the fragments has these lexemes, when what follows starts with a break.
* `Trails`: besides, the text starts with a break itself, so that it may follow any other one.
* `Splits`: the text starts with a break, and anything may follow it.

Well-formed trees have no bound parameters, so that printing them under names is never refused
(`Spells.format`).
-/

namespace Sql

open Fragment

variable {config : DialectConfig}

/-! ## Texts and their lexemes -/

/-- The parameters among the fragments have names, and none is bound. -/
def Unbound (fs : List Fragment) : Prop := ∀ p ∈ params fs, p.name ≠ none ∧ p.value = none

theorem unbound_of_params {fs : List Fragment} (h : params fs = []) : Unbound fs := by
  intro p hp
  rw [h] at hp
  simp at hp

theorem Unbound.append {fs gs : List Fragment} (hfs : Unbound fs) (hgs : Unbound gs) :
    Unbound (fs ++ gs) := by
  intro p hp
  rw [params_append, List.mem_append] at hp
  exact hp.elim (hfs p) (hgs p)

/-- The text of the fragments has these lexemes in front of a break. -/
structure Spells (config : DialectConfig) (fs : List Fragment) (ls : List Lexeme) : Prop where
  unbound : Unbound fs
  reads : ∀ rest, Ends rest → (lex rest).isSome = true →
    lex (chars config fs rest) = (lex rest).map (ls ++ ·)

/-- The text of the fragments starts with a break when what follows does. -/
def Breaks (config : DialectConfig) (fs : List Fragment) : Prop :=
  ∀ rest, Ends rest → Ends (chars config fs rest)

/-- The text may follow another one. -/
structure Trails (config : DialectConfig) (fs : List Fragment) (ls : List Lexeme) : Prop where
  spells : Spells config fs ls
  breaks : Breaks config fs

/-- The text may stand between any two others. -/
structure Splits (config : DialectConfig) (fs : List Fragment) (ls : List Lexeme) : Prop where
  params : params fs = []
  reads : ∀ rest, lex (chars config fs rest) = (lex rest).map (ls ++ ·)
  ends : ∀ rest, Ends (chars config fs rest)

theorem spells_nil : Spells config [] [] := ⟨unbound_of_params rfl, fun rest _ _ => by simp⟩

theorem trails_nil : Trails config [] [] := ⟨spells_nil, fun _ h => h⟩

theorem Spells.append {fs gs : List Fragment} {ls ms : List Lexeme} (hfs : Spells config fs ls)
    (hgs : Trails config gs ms) : Spells config (fs ++ gs) (ls ++ ms) := by
  refine ⟨hfs.unbound.append hgs.spells.unbound, fun rest hrest hlex => ?_⟩
  have hgs' := hgs.spells.reads rest hrest hlex
  have hsome : (lex (chars config gs rest)).isSome = true := by
    rw [hgs', Option.isSome_map]
    exact hlex
  rw [chars_append, hfs.reads _ (hgs.breaks rest hrest) hsome, hgs', Option.map_map]
  congr 1
  funext tail
  simp

theorem Trails.append {fs gs : List Fragment} {ls ms : List Lexeme} (hfs : Trails config fs ls)
    (hgs : Trails config gs ms) : Trails config (fs ++ gs) (ls ++ ms) := by
  refine ⟨hfs.spells.append hgs, fun rest hrest => ?_⟩
  rw [chars_append]
  exact hfs.breaks _ (hgs.breaks rest hrest)

/-- Fragments that need nothing behind them, before any others. -/
theorem spells_of_lex {fs gs : List Fragment} {ls ms : List Lexeme} (hparams : params fs = [])
    (hfs : ∀ rest, lex (chars config fs rest) = (lex rest).map (ls ++ ·))
    (hgs : Spells config gs ms) : Spells config (fs ++ gs) (ls ++ ms) := by
  refine ⟨(unbound_of_params hparams).append hgs.unbound, fun rest hrest hlex => ?_⟩
  rw [chars_append, hfs, hgs.reads rest hrest hlex, Option.map_map]
  congr 1
  funext tail
  simp

theorem Splits.spells {fs gs : List Fragment} {ls ms : List Lexeme} (hfs : Splits config fs ls)
    (hgs : Spells config gs ms) : Trails config (fs ++ gs) (ls ++ ms) := by
  refine ⟨spells_of_lex hfs.params hfs.reads hgs, fun rest hrest => ?_⟩
  rw [chars_append]
  exact hfs.ends _

theorem Splits.trails {fs : List Fragment} {ls : List Lexeme} (h : Splits config fs ls) :
    Trails config fs ls :=
  ⟨⟨unbound_of_params h.params, fun rest _ _ => h.reads rest⟩, fun rest _ => h.ends rest⟩

/-! ## Fixed pieces -/

section

variable {word : String} (hword : isPhrase word = true)

theorem splits_text (c : Char) (cs : List Char) {s : String} {ls : List Lexeme}
    (hs : s.toList = c :: cs) (hc : isBreak c = true)
    (hlex : ∀ rest, lex (c :: cs ++ rest) = (lex rest).map (ls ++ ·)) :
    Splits config [text s] ls := by
  refine ⟨rfl, fun rest => ?_, fun rest => ?_⟩
  · simpa [hs] using hlex rest
  · simpa [hs] using hc

theorem splits_blank : Splits config [text " "] [] :=
  splits_text ' ' [] rfl (by decide) (by simp)

theorem splits_listComma : Splits config [text ", "] [.symbol .comma] :=
  splits_text ',' [' '] rfl (by decide) (by simp)

theorem splits_open : Splits config [text "("] [.symbol .leftParen] :=
  splits_text '(' [] rfl (by decide) (by simp)

theorem splits_blankOpen : Splits config [text " ("] [.symbol .leftParen] :=
  splits_text ' ' ['('] rfl (by decide) (by simp)

theorem splits_close : Splits config [text ")"] [.symbol .rightParen] :=
  splits_text ')' [] rfl (by decide) (by simp)

include hword

/-- A keyword in front of a break. -/
theorem spells_keyword : Spells config [keyword word] (phrase config word) :=
  ⟨unbound_of_params rfl, fun _ hrest _ => lex_put_keyword hword hrest.parts⟩

theorem lex_keyword_blank (rest : List Char) :
    lex (chars config [keyword word, text " "] rest)
      = (lex rest).map (phrase config word ++ ·) := by
  rw [chars_cons, lex_put_keyword hword (by simp; decide)]
  simp

/-- A keyword with a blank on either side. -/
theorem splits_word : Splits config [text " ", keyword word, text " "] (phrase config word) := by
  refine ⟨rfl, fun rest => ?_, fun rest => by simp; decide⟩
  rw [chars_cons, put_text, show " ".toList = [' '] from rfl, List.singleton_append, lex_space,
    lex_keyword_blank hword]

/-- A keyword before a parenthesis that opens. -/
theorem splits_wordOpen : Splits config [text " ", keyword word, text " ("]
    (phrase config word ++ [.symbol .leftParen]) := by
  refine ⟨rfl, fun rest => ?_, fun rest => by simp; decide⟩
  rw [chars_cons, put_text, show " ".toList = [' '] from rfl, List.singleton_append, lex_space,
    chars_cons, lex_put_keyword hword (by simp; decide)]
  simp [Function.comp_def]

/-- A keyword at the end. -/
theorem trails_word : Trails config [text " ", keyword word] (phrase config word) := by
  have h := splits_blank.spells (@spells_keyword config word hword)
  simpa using h

end

variable (hconfig : config.Readable)
include hconfig

theorem splits_lineEnd (depth : Nat) : Splits config [lineEnd depth] [] := by
  refine ⟨rfl, fun rest => ?_, fun rest => ends_put_lineEnd hconfig depth⟩
  simpa using lex_put_lineEnd hconfig depth

theorem splits_comma (depth : Nat) : Splits config [comma depth] [.symbol .comma] :=
  ⟨rfl, fun _ => lex_put_comma hconfig depth, fun _ => ends_put_comma hconfig depth⟩

theorem splits_conjunction (depth : Nat) : Splits config [conjunction depth] [kw config "and"] :=
  ⟨rfl, fun _ => lex_put_conjunction hconfig depth, fun _ => ends_put_conjunction hconfig depth⟩

/-- The keyword of a clause on a line of its own. -/
theorem splits_clause (depth : Nat) {word : String} (hword : isPhrase word = true) :
    Splits config (clauseFragments depth word []) (phrase config word) := by
  refine ⟨rfl, fun rest => ?_, fun rest => ends_put_lineEnd hconfig depth⟩
  rw [clauseFragments, chars_cons, lex_put_lineEnd hconfig, lex_keyword_blank hword]

theorem trails_edge (depth : Nat) : Trails config [edge depth] [] := by
  refine ⟨⟨unbound_of_params rfl, fun rest _ _ => ?_⟩,
    fun rest hrest => ends_put_edge hconfig hrest depth⟩
  simpa using lex_put_edge hconfig depth

omit hconfig

/-! ## Lists, parentheses and operands -/

theorem commaSep_cons_cons (ls ms : List Lexeme) (rest : List (List Lexeme)) :
    commaSep (ls :: ms :: rest) = ls ++ ([.symbol .comma] ++ commaSep (ms :: rest)) := by
  simp [commaSep]

theorem spells_joined {separator : List Fragment}
    (hseparator : Splits config separator [.symbol .comma]) {parts : List (List Fragment)}
    {lss : List (List Lexeme)} (h : List.Forall₂ (Spells config) parts lss) :
    Spells config (joined separator parts) (commaSep lss) := by
  induction h with
  | nil => exact spells_nil
  | cons hfirst hrest ih =>
    cases hrest with
    | nil => simpa [joined, commaSep] using hfirst
    | cons hsecond hrest =>
      rw [joined, List.intercalate_cons_cons, commaSep_cons_cons, List.append_assoc]
      exact hfirst.append (hseparator.spells ih)

theorem trails_inParens {fs : List Fragment} {ls : List Lexeme} (h : Spells config fs ls) :
    Trails config (inParens fs) (parenLexemes ls) := by
  have := splits_open.spells (h.append splits_close.trails)
  simpa [inParens, parenLexemes] using this

theorem trails_block (hconfig : config.Readable) (depth : Nat) {fs : List Fragment}
    {ls : List Lexeme} (h : Spells config fs ls) :
    Trails config (block depth fs) (parenLexemes ls) := by
  have hinner : Spells config ([edge (depth + 1)] ++ fs) ([] ++ ls) :=
    spells_of_lex rfl (fun rest => by simpa using lex_put_edge hconfig (depth + 1)) h
  have hclose := (trails_edge hconfig depth).append (@splits_close config).trails
  have := splits_open.spells (hinner.append hclose)
  simpa [block, parenLexemes] using this

/-- An operand that binds tightly enough stands without parentheses. -/
theorem operand_left {strength : Nat} {e : Expr} (h : strength ≤ e.strength) (fs : List Fragment) :
    operand strength false e fs = fs := by
  simp [operand, h]

theorem operand_right {strength : Nat} {e : Expr} (h : strength < e.strength)
    (fs : List Fragment) : operand strength true e fs = fs := by
  have hne : (e.strength == strength) = false := beq_eq_false_iff_ne.mpr (by omega)
  simp [operand, Nat.le_of_lt h, hne]

theorem splits_operator (hconfig : config.Readable) (depth : Nat) (op : BinaryOp)
    (condition : Bool) :
    Splits config (if condition && op == .and then [conjunction depth] else op.fragments)
      (op.lexemes config) := by
  split
  · next h =>
    rw [Bool.and_eq_true, beq_iff_eq] at h
    rw [h.2]
    exact splits_conjunction hconfig depth
  · exact ⟨op.params_fragments, fun rest => op.lex_fragments rest,
      fun rest => by simp [BinaryOp.fragments]; decide⟩

theorem trails_predicate {word negatedWord : String} (h : isPhrase word = true)
    (hnegated : isPhrase negatedWord = true) (negated : Bool) :
    Trails config (predicateWord word negatedWord negated)
      (predicateLexemes config word negatedWord negated) := by
  cases negated with
  | true => exact trails_word hnegated
  | false => exact trails_word h

theorem spells_minus {strength : Nat} {fs : List Fragment} {ls : List Lexeme}
    (h : Spells config fs ls) (hstarts : Starts strength ls) :
    Spells config (sign "-" :: fs) (.symbol .minus :: ls) := by
  refine ⟨h.unbound, fun rest hrest hlex => ?_⟩
  obtain ⟨tail, htail⟩ := Option.isSome_iff_exists.mp hlex
  obtain ⟨l, more, rfl, hopens, -, -⟩ := hstarts
  have htext := h.reads rest hrest hlex
  rw [htail] at htext
  rw [chars_cons, lex_put_minus (head_ne_of_lex htext ?_ ?_), htext, htail]
  · rfl
  · rintro rfl
    exact absurd hopens (by decide)
  · rintro rfl
    exact absurd hopens (by decide)

theorem spells_plus {fs : List Fragment} {ls : List Lexeme} (h : Spells config fs ls) :
    Spells config (sign "+" :: fs) (.symbol .plus :: ls) := by
  refine ⟨h.unbound, fun rest hrest hlex => ?_⟩
  rw [chars_cons, lex_put_plus, h.reads rest hrest hlex, Option.map_map]
  rfl

/-! ## Leaves -/

theorem spells_name (hconfig : config.Readable) {n : String} (hn : n ≠ "") :
    Spells config [name n] [nameLexeme config n] :=
  ⟨unbound_of_params rfl, fun _ hrest _ => lex_put_name hconfig hn hrest.parts⟩

theorem spells_dottedName (hconfig : config.Readable) {path : List String} {n : String}
    (h : AreNames (path ++ [n])) :
    Spells config (dottedName path n) (dottedLexemes config path n) :=
  ⟨unbound_of_params (params_dottedName path n),
    fun _ hrest _ => lex_chars_dottedName hconfig h hrest.parts⟩

theorem spells_names (hconfig : config.Readable) {ns : List String} (h : AreNames ns) :
    Spells config (names ns) (nameLexemes config ns) := by
  refine spells_joined splits_listComma ?_
  rw [List.forall₂_map_left_iff, List.forall₂_map_right_iff, List.forall₂_same]
  exact fun n hn => spells_name hconfig (h n hn)

/-- The names in parentheses behind the name of a common table expression, if any. -/
theorem trails_columnList (hconfig : config.Readable) {columns : List String}
    (h : AreNames columns) :
    Trails config
      (if columns.isEmpty then [] else text " (" :: names columns ++ [text ")"])
      (if columns.isEmpty then [] else parenLexemes (nameLexemes config columns)) := by
  split
  · exact trails_nil
  · exact splits_blankOpen.spells ((spells_names hconfig h).append (@splits_close config).trails)

theorem spells_qualifiedStar (hconfig : config.Readable) {q : String} (hq : q ≠ "") :
    Spells config [name q, text ".*"] [nameLexeme config q, .symbol .dot, .symbol .star] := by
  refine ⟨unbound_of_params rfl, fun rest _ _ => ?_⟩
  rw [chars_cons, lex_put_name hconfig hq (by simp), chars_cons, chars_nil, put_text,
    show ".*".toList = ['.', '*'] from rfl, List.cons_append, List.singleton_append,
    lex_dot rfl, lex_star, Option.map_map, Option.map_map]
  rfl

/-- What stands in front of the condition of a call. -/
theorem splits_filterOpen :
    Splits config [text " ", keyword "filter", text " (", keyword "where", text " "]
      [kw config "filter", .symbol .leftParen, kw config "where"] := by
  refine ⟨rfl, fun rest => ?_, fun rest => by simp; decide⟩
  rw [show [text " ", keyword "filter", text " (", keyword "where", text " "]
      = [text " ", keyword "filter", text " ("] ++ [keyword "where", text " "] from rfl,
    chars_append, (@splits_wordOpen config "filter" (by decide)).reads,
    @lex_keyword_blank config "where" (by decide), Option.map_map]
  rfl

/-- The type behind the colons of a short cast. -/
theorem trails_colonType {type : String} (htype : IsTypeName type) :
    Trails config [text ("::" ++ type)] (.symbol .doubleColon :: typeLexemes type) := by
  refine ⟨⟨unbound_of_params rfl, fun rest hrest _ => ?_⟩, fun rest _ => by simp; decide⟩
  rw [chars_cons, chars_nil, put_text, String.toList_append,
    show "::".toList = [':', ':'] from rfl, List.append_assoc, List.cons_append,
    List.singleton_append, lex_doubleColon, lex_typeName htype hrest.parts, Option.map_map]
  rfl

/-- The type of a cast in full and the parenthesis behind it. -/
theorem trails_asType {type : String} (htype : IsTypeName type) :
    Trails config [text " ", keyword "as", text (" " ++ type ++ ")")]
      (kw config "as" :: (typeLexemes type ++ [.symbol .rightParen])) := by
  refine ⟨⟨unbound_of_params rfl, fun rest _ _ => ?_⟩, fun rest _ => by simp; decide⟩
  have hclose : Parts (')' :: rest) := by simp; decide
  rw [chars_cons, put_text, show " ".toList = [' '] from rfl, List.singleton_append, lex_space,
    chars_cons, chars_cons, chars_nil, put_text, String.toList_append, String.toList_append,
    show " ".toList = [' '] from rfl, show ")".toList = [')'] from rfl, List.append_assoc,
    List.append_assoc, List.singleton_append, List.singleton_append,
    @lex_put_keyword config (' ' :: (type.toList ++ ')' :: rest)) "as" (by decide)
      (by simp; decide),
    lex_space, lex_typeName htype hclose, lex_rightParen, Option.map_map, Option.map_map]
  congr 1
  funext ls
  simp [show phrase config "as" = [kw config "as"] from rfl]

/-- A set operation on a line of its own. -/
theorem splits_setOperator (hconfig : config.Readable) (depth : Nat) (op : SetOperator) :
    Splits config [lineEnd depth, keyword op.keyword, lineEnd depth]
      (phrase config op.keyword) := by
  have hphrase : isPhrase op.keyword = true := by
    cases op <;> decide
  refine ⟨rfl, fun rest => ?_, fun rest => ends_put_lineEnd hconfig depth⟩
  rw [chars_cons, lex_put_lineEnd hconfig, chars_cons, chars_cons, chars_nil,
    lex_put_keyword hphrase (ends_put_lineEnd hconfig depth).parts, lex_put_lineEnd hconfig]

theorem trails_alias (hconfig : config.Readable) {a : Option String} (h : IsAlias a) :
    Trails config (alias? a) (aliasLexemes config a) := by
  cases a with
  | none => exact trails_nil
  | some n => exact (splits_word (by decide)).spells (spells_name hconfig (h n rfl))

theorem trails_direction (d : Option SortDirection) :
    Trails config (directionFragments d) (directionLexemes config d) := by
  cases d with
  | none => exact trails_nil
  | some d =>
    cases d with
    | asc => exact @trails_word config "asc" (by decide)
    | desc => exact @trails_word config "desc" (by decide)

theorem trails_nulls (n : Option NullsOrder) :
    Trails config (nullsFragments n) (nullsLexemes config n) := by
  cases n with
  | none => exact trails_nil
  | some n =>
    cases n with
    | first => exact @trails_word config "nulls first" (by decide)
    | last => exact @trails_word config "nulls last" (by decide)

theorem lex_quotedString (v : String) {rest : List Char} (hrest : Ends rest) :
    lex ((quotedString v).toList ++ rest) = (lex rest).map (.string v :: ·) := by
  have htext : (quotedString v).toList = '\x27' :: (doubled ['\x27'] 0 v.toList ++ ['\x27']) := by
    simp [quotedString]
  rw [htext, List.cons_append, List.append_assoc]
  exact lex_string v (hrest.parts.head_ne (by decide) (by decide))

theorem spells_literal {l : Literal} (h : l.Wf) :
    Spells config l.fragments (l.lexemes config) := by
  refine ⟨unbound_of_params l.params_fragments, fun rest hrest _ => ?_⟩
  cases l with
  | number t => simpa [Literal.fragments, Literal.lexemes] using lex_number h hrest
  | string v => simpa [Literal.fragments, Literal.lexemes] using lex_quotedString v hrest
  | boolean b =>
    have hword : ∀ w, isSimpleName w = true →
        lex (chars config [text w] rest) = (lex rest).map ([.word w] ++ ·) := fun w hw => by
      simpa using lex_word (isWord_of_isSimpleName hw) hrest.parts
    cases b with
    | true => exact hword "true" (by decide)
    | false => exact hword "false" (by decide)
  | null => exact @lex_put_keyword config rest "null" (by decide) hrest.parts
  | typed type v =>
    have hphrase : ∀ type ∈ literalTypes, isPhrase type = true
        ∧ phraseWords type.toList = [type.toList] := by decide
    obtain ⟨htype, hwords⟩ := hphrase type h
    rw [Literal.fragments, chars_cons, lex_put_keyword htype (by simp; decide), phrase, hwords]
    simp [lex_quotedString v hrest, Literal.lexemes, Function.comp_def]

/-! ## Whole trees -/

theorem spells_distinct (distinct : Bool) {fs : List Fragment} {ls : List Lexeme}
    (h : Spells config fs ls) :
    Spells config ((if distinct then [keyword "distinct", text " "] else []) ++ fs)
      ((if distinct then [kw config "distinct"] else []) ++ ls) := by
  cases distinct with
  | false => exact h
  | true => exact spells_of_lex rfl (@lex_keyword_blank config "distinct" (by decide)) h

theorem trails_flag (flag : Bool) {word : String} (hword : isPhrase word = true) :
    Trails config (if flag then [text " ", keyword word] else [])
      (if flag then phrase config word else []) := by
  cases flag with
  | false => exact trails_nil
  | true => exact trails_word hword

theorem trails_listClause (hconfig : config.Readable) (depth : Nat) {word : String}
    (hword : isPhrase word = true) {parts : List (List Fragment)} {lss : List (List Lexeme)}
    (h : List.Forall₂ (Spells config) parts lss) :
    Trails config (listClause depth word parts) (listLexemes config word lss) := by
  have hempty : lss.isEmpty = parts.isEmpty := by
    cases h <;> rfl
  unfold listClause listLexemes
  rw [hempty]
  split
  · exact trails_nil
  · exact (splits_clause hconfig depth hword).spells (spells_joined splits_listComma h)

theorem splits_cteComma (hconfig : config.Readable) (depth : Nat) :
    Splits config [text ",", lineEnd depth] [.symbol .comma] := by
  refine ⟨rfl, fun rest => ?_, fun rest => by simp; decide⟩
  rw [chars_cons, put_text, show ",".toList = [','] from rfl, List.singleton_append, lex_comma,
    chars_cons, lex_put_lineEnd hconfig]
  rfl

/-- What stands between the parentheses of a window. -/
theorem spells_sections {ps os : List (List Fragment)} {pls ols : List (List Lexeme)}
    (hps : List.Forall₂ (Spells config) ps pls) (hos : List.Forall₂ (Spells config) os ols) :
    Spells config
      (joined [text " "]
        ((if ps.isEmpty then [] else [keyword "partition by" :: text " " :: joined [text ", "] ps])
          ++ (if os.isEmpty then [] else
            [keyword "order by" :: text " " :: joined [text ", "] os])))
      (listLexemes config "partition by" pls ++ listLexemes config "order by" ols) := by
  have hp : Spells config (keyword "partition by" :: text " " :: joined [text ", "] ps)
      (phrase config "partition by" ++ commaSep pls) :=
    spells_of_lex rfl (@lex_keyword_blank config "partition by" (by decide))
      (spells_joined splits_listComma hps)
  have ho : Spells config (keyword "order by" :: text " " :: joined [text ", "] os)
      (phrase config "order by" ++ commaSep ols) :=
    spells_of_lex rfl (@lex_keyword_blank config "order by" (by decide))
      (spells_joined splits_listComma hos)
  have hboth := hp.append (splits_blank.spells ho)
  have hpls : pls.isEmpty = ps.isEmpty := by
    cases hps <;> rfl
  have hols : ols.isEmpty = os.isEmpty := by
    cases hos <;> rfl
  rw [listLexemes, listLexemes, hpls, hols]
  cases ps.isEmpty with
  | true =>
    cases os.isEmpty with
    | true => exact spells_nil
    | false => simpa [joined] using ho
  | false =>
    cases os.isEmpty with
    | true => simpa [joined] using hp
    | false => simpa [joined] using hboth

variable {bounded : Prop}

mutual

/-- **The text of an expression has the lexemes of the expression.** -/
theorem Expr.spells (hconfig : config.Readable) {n : Nat} (depth : Nat) (condition : Bool) :
    (e : Expr) → e.Wf True bounded n →
      Spells config (e.fragments depth condition) (e.lexemes config)
  | .column c, h => by
    rw [Expr.Wf] at h
    rw [Expr.fragments, Expr.lexemes]
    exact spells_dottedName hconfig h
  | .star (some q), h => by
    rw [Expr.Wf] at h
    rw [Expr.fragments, Expr.lexemes]
    exact spells_qualifiedStar hconfig (h q rfl)
  | .star none, h => by
    rw [Expr.fragments, Expr.lexemes]
    exact ⟨unbound_of_params rfl, fun rest _ _ => by simp⟩
  | .literal l, h => by
    rw [Expr.Wf] at h
    rw [Expr.fragments, Expr.lexemes]
    exact spells_literal h
  | .param p, h => by
    rw [Expr.Wf] at h
    obtain ⟨m, hm⟩ := Option.ne_none_iff_exists'.mp (h.2.2 trivial)
    rw [Expr.fragments, Expr.lexemes]
    refine ⟨fun q hq => ?_, fun rest hrest _ => lex_put_param hconfig hm (h.2.1 m hm) hrest.parts⟩
    obtain rfl : q = p := by simpa using hq
    exact ⟨h.2.2 trivial, h.1⟩
  | .call f args distinct filter window, h => by
    rw [Expr.Wf] at h
    obtain ⟨hf, -, hargs, hfilter, hwindow⟩ := h
    have hname : Spells config [function f] (functionLexemes f) :=
      ⟨unbound_of_params rfl,
        fun _ hrest _ => lex_put_function hconfig hf.splitName.1 hrest.parts⟩
    have hlist := trails_inParens (spells_distinct distinct
      (spells_joined splits_listComma (exprs_spells hconfig depth args hargs)))
    have hcondition := option_spells hconfig depth false splits_filterOpen splits_close.trails
      filter hfilter
    have hover := over_spells hconfig depth window hwindow
    have := hname.append (hlist.append (hcondition.append hover))
    rw [Expr.fragments, Expr.lexemes]
    simp only [inParens, List.append_assoc, List.cons_append, List.nil_append] at this ⊢
    exact this
  | .binary l op r, h => by
    rw [Expr.Wf] at h
    obtain ⟨hl, hr, hleft, hright⟩ := h
    rw [Expr.fragments, Expr.lexemes, operand_left hleft, operand_right hright, List.append_assoc]
    exact (Expr.spells hconfig depth _ l hl).append
      ((splits_operator hconfig depth op condition).spells (Expr.spells hconfig depth false r hr))
  | .unary op e, h => by
    rw [Expr.Wf] at h
    obtain ⟨-, he, hstrength⟩ := h
    have hbody := Expr.spells hconfig depth false e he
    rw [Expr.fragments, Expr.lexemes, operand_left hstrength]
    cases op with
    | not => exact spells_of_lex rfl (@lex_keyword_blank config "not" (by decide)) hbody
    | minus => exact spells_minus hbody (Expr.starts config he)
    | plus => exact spells_plus hbody
  | .isNull e negated, h => by
    rw [Expr.Wf] at h
    rw [Expr.fragments, Expr.lexemes, operand_left h.2]
    exact (Expr.spells hconfig depth false e h.1).append
      (trails_predicate (by decide) (by decide) negated)
  | .between e low high negated, h => by
    rw [Expr.Wf] at h
    obtain ⟨⟨he, hstrength⟩, ⟨hlow, hlowStrength⟩, hhigh, hhighStrength⟩ := h
    have hword := @trails_predicate config "between" "not between" (by decide) (by decide) negated
    have hbounds := (Expr.spells hconfig depth false low hlow).append
      ((@splits_word config "and" (by decide)).spells (Expr.spells hconfig depth false high hhigh))
    have := (Expr.spells hconfig depth false e he).append
      (hword.append (splits_blank.spells hbounds))
    rw [Expr.fragments, Expr.lexemes, operand_left hstrength, operand_left hlowStrength,
      operand_left hhighStrength]
    simp only [List.append_assoc, List.cons_append, List.nil_append]
    exact this
  | .inList e items negated, h => by
    rw [Expr.Wf] at h
    obtain ⟨⟨he, hstrength⟩, -, hitems⟩ := h
    have hword := @trails_predicate config "in" "not in" (by decide) (by decide) negated
    have hlist := splits_blankOpen.spells
      ((spells_joined splits_listComma (exprs_spells hconfig depth items hitems)).append
        (@splits_close config).trails)
    have := (Expr.spells hconfig depth false e he).append (hword.append hlist)
    rw [Expr.fragments, Expr.lexemes, operand_left hstrength]
    simp only [List.append_assoc, List.cons_append]
    exact this
  | .inQuery e s negated, h => by
    rw [Expr.Wf] at h
    obtain ⟨⟨he, hstrength⟩, -, hs, -⟩ := h
    have hword := @trails_predicate config "in" "not in" (by decide) (by decide) negated
    have hblock := trails_block hconfig depth (Statement.spells hconfig (depth + 1) s hs)
    have := (Expr.spells hconfig depth false e he).append
      (hword.append (splits_blank.spells hblock.spells))
    rw [Expr.fragments, Expr.lexemes, operand_left hstrength]
    simp only [List.append_assoc]
    exact this
  | .hasRows s, h => by
    rw [Expr.Wf] at h
    rw [Expr.fragments, Expr.lexemes]
    exact spells_of_lex rfl (@lex_keyword_blank config "exists" (by decide))
      (trails_block hconfig depth (Statement.spells hconfig (depth + 1) s h.2)).spells
  | .subquery s, h => by
    rw [Expr.Wf] at h
    rw [Expr.fragments, Expr.lexemes]
    exact (trails_block hconfig depth (Statement.spells hconfig (depth + 1) s h.2.1)).spells
  | .case scrutinee branches fallback, h => by
    rw [Expr.Wf] at h
    obtain ⟨hscrutinee, -, hbranches, hfallback⟩ := h
    have hvalue := option_spells hconfig depth false splits_blank trails_nil scrutinee hscrutinee
    have helse := option_spells hconfig depth false (@splits_word config "else" (by decide))
      trails_nil fallback hfallback
    have := (@spells_keyword config "case" (by decide)).append
      (hvalue.append ((branches_spells hconfig depth branches hbranches).append
        (helse.append (@trails_word config "end" (by decide)))))
    rw [Expr.fragments, Expr.lexemes]
    simp only [List.append_assoc, List.cons_append]
    exact this
  | .cast e type true, h => by
    rw [Expr.Wf] at h
    obtain ⟨⟨he, hstrength⟩, htype⟩ := h
    rw [Expr.fragments, Expr.lexemes, operand_left hstrength]
    exact (Expr.spells hconfig depth false e he).append (trails_colonType htype)
  | .cast e type false, h => by
    rw [Expr.Wf] at h
    obtain ⟨⟨-, he⟩, htype⟩ := h
    have := (@spells_keyword config "cast" (by decide)).append
      (splits_open.spells
        ((Expr.spells hconfig depth false e he).append (trails_asType htype)))
    rw [Expr.fragments, Expr.lexemes]
    simp only [List.append_assoc, List.cons_append, parenLexemes]
    exact this
  | .paren e, h => by
    rw [Expr.Wf] at h
    rw [Expr.fragments, Expr.lexemes]
    exact (trails_inParens (Expr.spells hconfig depth false e h.2)).spells

theorem option_spells (hconfig : config.Readable) {n : Nat} (depth : Nat) (condition : Bool)
    {before after : List Fragment} {ls ms : List Lexeme} (hbefore : Splits config before ls)
    (hafter : Trails config after ms) :
    (o : Option Expr) → optionWf True bounded n o →
      Trails config (optionFragments depth condition before after o)
        (optionLexemes config ls ms o)
  | some e, h => by
    rw [optionWf] at h
    rw [optionFragments, optionLexemes, List.append_assoc]
    exact hbefore.spells ((Expr.spells hconfig depth condition e h.2).append hafter)
  | none, h => by
    rw [optionFragments, optionLexemes]
    exact trails_nil

theorem exprs_spells (hconfig : config.Readable) {n : Nat} (depth : Nat) :
    (es : List Expr) → exprsWf True bounded n es →
      List.Forall₂ (Spells config) (exprFragments depth es) (exprLexemes config es)
  | [], _ => by
    rw [exprFragments, exprLexemes]
    exact .nil
  | e :: es, h => by
    rw [exprsWf] at h
    rw [exprFragments, exprLexemes]
    exact .cons (Expr.spells hconfig depth false e h.1.2) (exprs_spells hconfig depth es h.2)

theorem branches_spells (hconfig : config.Readable) {n : Nat} (depth : Nat) : (bs : List Branch) →
    branchesWf True bounded n bs →
      Trails config (branchFragments depth bs) (branchLexemes config bs)
  | [], _ => by
    rw [branchFragments, branchLexemes]
    exact trails_nil
  | ⟨c, r⟩ :: bs, h => by
    rw [branchesWf] at h
    obtain ⟨⟨-, hc, hr⟩, hbs⟩ := h
    have hresult := (@splits_word config "then" (by decide)).spells
      ((Expr.spells hconfig depth false r hr).append (branches_spells hconfig depth bs hbs))
    have := (@splits_word config "when" (by decide)).spells
      ((Expr.spells hconfig depth false c hc).append hresult)
    rw [branchFragments, branchLexemes]
    simp only [List.append_assoc, List.cons_append]
    exact this

theorem order_spells (hconfig : config.Readable) {n : Nat} (depth : Nat) :
    (os : List OrderItem) → orderWf True bounded n os →
      List.Forall₂ (Spells config) (orderFragments depth os) (orderLexemes config os)
  | [], _ => by
    rw [orderFragments, orderLexemes]
    exact .nil
  | ⟨e, d, nulls⟩ :: os, h => by
    rw [orderWf] at h
    rw [orderFragments, orderLexemes, List.append_assoc]
    exact .cons ((Expr.spells hconfig depth false e h.1.2).append
      ((trails_direction d).append (trails_nulls nulls))) (order_spells hconfig depth os h.2)

theorem over_spells (hconfig : config.Readable) {n : Nat} (depth : Nat) :
    (w : Option Window) → overWf True bounded n w →
      Trails config (overFragments depth w) (overLexemes config w)
  | none, _ => by
    rw [overFragments, overLexemes]
    exact trails_nil
  | some ⟨partitionBy, orderBy⟩, h => by
    rw [overWf] at h
    have hpartition : (exprFragments depth partitionBy).isEmpty = partitionBy.isEmpty := by
      cases partitionBy <;> rfl
    have horder : (orderFragments depth orderBy).isEmpty = orderBy.isEmpty := by
      cases orderBy with
      | nil => rfl
      | cons o os =>
        cases o
        rfl
    have hsections := spells_sections (exprs_spells hconfig depth partitionBy h.1)
      (order_spells hconfig depth orderBy h.2)
    rw [hpartition, horder] at hsections
    have := (@splits_wordOpen config "over" (by decide)).spells
      (hsections.append (@splits_close config).trails)
    rw [overFragments, overLexemes, Window.fragments, Window.lexemes]
    simp only [List.append_assoc, List.cons_append, List.nil_append, parenLexemes] at this ⊢
    exact this

theorem items_spells (hconfig : config.Readable) {n : Nat} (depth : Nat) : (is : List SelectItem) →
    itemsWf True bounded n is →
      List.Forall₂ (Spells config) (itemFragments depth is) (itemLexemes config is)
  | [], _ => by
    rw [itemFragments, itemLexemes]
    exact .nil
  | ⟨e, a⟩ :: is, h => by
    rw [itemsWf] at h
    obtain ⟨⟨⟨-, he⟩, ha, -⟩, his⟩ := h
    rw [itemFragments, itemLexemes]
    exact .cons ((Expr.spells hconfig depth false e he).append (trails_alias hconfig ha))
      (items_spells hconfig depth is his)

theorem Source.spells (hconfig : config.Readable) {n : Nat} (depth : Nat) :
    (s : Source) → s.Wf True bounded n →
      Spells config (s.fragments depth) (s.lexemes config)
  | .table path t a, h => by
    rw [Source.Wf] at h
    rw [Source.fragments, Source.lexemes]
    exact (spells_dottedName hconfig h.1).append (trails_alias hconfig h.2)
  | .subquery s a, h => by
    rw [Source.Wf] at h
    have halias : IsAlias (some a) := fun n hn => Option.mem_some.mp hn ▸ h.2
    rw [Source.fragments, Source.lexemes]
    exact ((trails_block hconfig depth (Statement.spells hconfig (depth + 1) s h.1.2)).append
      (trails_alias hconfig halias)).spells

theorem from_spells (hconfig : config.Readable) {n : Nat} (depth : Nat) :
    (s : Option Source) → fromWf True bounded n s →
      Trails config (fromFragments depth s) (fromLexemes config s)
  | none, _ => by
    rw [fromFragments, fromLexemes]
    exact trails_nil
  | some s, h => by
    rw [fromWf] at h
    rw [fromFragments, fromLexemes]
    exact (splits_clause hconfig depth (by decide)).spells (Source.spells hconfig depth s h)

theorem JoinConstraint.spells (hconfig : config.Readable) {n : Nat} (depth : Nat) :
    (c : JoinConstraint) → c.Wf True bounded n →
      Trails config (c.fragments depth) (c.lexemes config)
  | .on e, h => by
    rw [JoinConstraint.Wf] at h
    rw [JoinConstraint.fragments, JoinConstraint.lexemes]
    exact (splits_word (by decide)).spells (Expr.spells hconfig depth true e h.2)
  | .shared columns, h => by
    rw [JoinConstraint.Wf] at h
    have := (@splits_wordOpen config "using" (by decide)).spells
      ((spells_names hconfig h.2).append (@splits_close config).trails)
    rw [JoinConstraint.fragments, JoinConstraint.lexemes]
    simp only [List.cons_append]
    exact this
  | .none, _ => by
    rw [JoinConstraint.fragments, JoinConstraint.lexemes]
    exact trails_nil

theorem joins_spells (hconfig : config.Readable) {n : Nat} (depth : Nat) :
    (js : List Join) → joinsWf True bounded n js →
      Trails config (joinFragments depth js) (joinLexemes config js)
  | [], _ => by
    rw [joinFragments, joinLexemes]
    exact trails_nil
  | ⟨kind, right, constraint⟩ :: js, h => by
    rw [joinsWf] at h
    obtain ⟨⟨hright, hconstraint, -⟩, hjs⟩ := h
    have hsource := Source.spells hconfig depth right hright
    have hkind : isPhrase kind.keyword = true ∨ kind = .comma := by
      cases kind <;> decide
    rw [joinFragments, joinLexemes]
    refine Trails.append ?_ (joins_spells hconfig depth js hjs)
    split
    · exact splits_listComma.spells hsource
    · next hne =>
      exact (splits_clause hconfig depth (hkind.resolve_right hne)).spells
        (hsource.append (JoinConstraint.spells hconfig depth constraint hconstraint))

theorem Select.spells (hconfig : config.Readable) {n : Nat} (depth : Nat) :
    (q : Select) → q.Wf True bounded n →
      Spells config (q.fragments depth) (q.lexemes config)
  | ⟨distinct, items, source, joins, filter, groupBy, having, orderBy, limit, offset⟩, h => by
    rw [Select.Wf] at h
    obtain ⟨⟨-, hitems⟩, ⟨hsource, hjoins, -, -⟩, hfilter, hgroup, hhaving, horder, hlimit,
      hoffset⟩ := h
    have hclause : ∀ word, isPhrase word = true →
        Splits config (clauseFragments depth word []) (phrase config word) := fun word hword =>
      splits_clause hconfig depth hword
    have hpage := (option_spells hconfig depth false (hclause "limit" (by decide)) trails_nil
      limit hlimit).append
        (option_spells hconfig depth false (hclause "offset" (by decide)) trails_nil offset hoffset)
    have hgroups := (@trails_listClause config hconfig depth "group by" (by decide) _ _
      (exprs_spells hconfig depth groupBy hgroup)).append
        ((option_spells hconfig depth true (hclause "having" (by decide)) trails_nil having
          hhaving).append ((@trails_listClause config hconfig depth "order by" (by decide) _ _
            (order_spells hconfig depth orderBy horder)).append hpage))
    have hfilters := (option_spells hconfig depth true (hclause "where" (by decide)) trails_nil
      filter hfilter).append hgroups
    have hjoined : Trails config (if source.isSome then joinFragments depth joins else [])
        (if source.isSome then joinLexemes config joins else []) := by
      split
      · exact joins_spells hconfig depth joins hjoins
      · exact trails_nil
    have hsources := (from_spells hconfig depth source hsource).append hjoined
    have hlist := spells_joined (splits_comma hconfig depth)
      (items_spells hconfig depth items hitems)
    have := (@spells_keyword config "select" (by decide)).append
      ((@trails_flag config distinct "distinct" (by decide)).append
        (splits_blank.spells (hlist.append (hsources.append hfilters))))
    rw [Select.fragments, Select.lexemes]
    simp only [List.append_assoc, List.cons_append, List.nil_append] at this ⊢
    exact this

theorem ctes_spells (hconfig : config.Readable) {n : Nat} (depth : Nat) :
    (cs : List Cte) → ctesWf True bounded n cs →
      List.Forall₂ (Spells config) (cteFragments depth cs) (cteLexemes config cs)
  | [], _ => by
    rw [cteFragments, cteLexemes]
    exact .nil
  | ⟨c, columns, s⟩ :: cs, h => by
    rw [ctesWf] at h
    obtain ⟨⟨hc, hcolumns, -, hs⟩, hcs⟩ := h
    have hblock := (@splits_word config "as" (by decide)).spells
      (trails_block hconfig depth (Statement.spells hconfig (depth + 1) s hs)).spells
    have := (spells_name hconfig hc).append ((trails_columnList hconfig hcolumns).append hblock)
    rw [cteFragments, cteLexemes]
    refine .cons ?_ (ctes_spells hconfig depth cs hcs)
    simp only [List.cons_append, List.nil_append] at this ⊢
    exact this

theorem Body.spells (hconfig : config.Readable) {n : Nat} (depth : Nat) :
    (b : Body) → b.Wf True bounded n →
      Spells config (b.fragments depth) (b.lexemes config)
  | .select q, h => by
    rw [Body.Wf] at h
    rw [Body.fragments, Body.lexemes]
    exact Select.spells hconfig depth q h
  | .setOp l op r, h => by
    rw [Body.Wf] at h
    rw [Body.fragments, Body.lexemes, List.append_assoc]
    exact (Body.spells hconfig depth l h.1).append
      ((splits_setOperator hconfig depth op).spells (Body.spells hconfig depth r h.2.1))
  | .nested s, h => by
    rw [Body.Wf] at h
    rw [Body.fragments, Body.lexemes]
    exact (trails_block hconfig depth (Statement.spells hconfig (depth + 1) s h.2)).spells

/-- **The text of a statement has the lexemes of the statement.** -/
theorem Statement.spells (hconfig : config.Readable) {n : Nat} (depth : Nat) :
    (s : Statement) → s.Wf True bounded n →
      Spells config (s.fragments depth) (s.lexemes config)
  | ⟨none, body⟩, h => by
    rw [Statement.Wf] at h
    rw [Statement.fragments, Statement.lexemes, withLexemes]
    exact Body.spells hconfig depth body h.2
  | ⟨some ⟨recursive, ctes⟩, body⟩, h => by
    rw [Statement.Wf, withWf] at h
    have hlist := spells_joined (splits_cteComma hconfig depth)
      (ctes_spells hconfig depth ctes h.1.2.1)
    have hbody := (splits_lineEnd hconfig depth).spells (Body.spells hconfig depth body h.2)
    have := (@spells_keyword config "with" (by decide)).append
      ((@trails_flag config recursive "recursive" (by decide)).append
        (splits_blank.spells (hlist.append hbody)))
    rw [Statement.fragments, Statement.lexemes, withLexemes]
    simp only [List.append_assoc, List.cons_append, List.nil_append] at this ⊢
    exact this

end

/-! ## Printing -/

theorem startsWithSign_eq (pieces : List String) :
    startsWithSign pieces
      = startsWith (fun c => c == '-' || c == '+') (String.join pieces).toList := by
  rw [String.toList_join]
  induction pieces with
  | nil => rfl
  | cons s pieces ih =>
    rw [startsWithSign, List.flatMap_cons]
    cases hs : s.toList with
    | nil => simpa using ih
    | cons c cs => rfl

/-- Under names, the text of fragments does not depend on what was collected before. -/
theorem toList_render (hstyle : config.parameterStyle = .named) {fs : List Fragment}
    {c c' : Collected} {pieces : List String}
    (h : Fragment.render config fs c = .ok (pieces, c')) :
    (String.join pieces).toList = chars config fs [] := by
  have hcons : ∀ s pieces, (String.join (s :: pieces)).toList
      = s.toList ++ (String.join pieces).toList := fun s pieces => by
    rw [String.toList_join, String.toList_join, List.flatMap_cons]
  induction fs generalizing c c' pieces with
  | nil =>
    obtain ⟨rfl, rfl⟩ := Prod.mk.inj (Except.ok.inj h)
    rfl
  | cons f fs ih =>
    -- only a parameter is collected, so before any other fragment nothing changes
    have hplain : (∀ p, f ≠ param p) → ∃ rest, Fragment.render config fs c = .ok (rest, c')
        ∧ pieces = f.plainText config rest :: rest := fun hf => by
      rw [Fragment.render.eq_3 config c f fs fun p => hf p] at h
      cases hr : Fragment.render config fs c with
      | error e =>
        rw [hr] at h
        simp [bind, Except.bind] at h
      | ok r =>
        rw [hr] at h
        obtain ⟨rfl, rfl⟩ := Prod.mk.inj (Except.ok.inj h)
        exact ⟨r.1, rfl, rfl⟩
    cases f with
    | param p =>
      rw [Fragment.render, Collected.place, hstyle] at h
      cases hp : p.name with
      | none =>
        rw [hp] at h
        simp [bind, Except.bind] at h
      | some n =>
        rw [hp] at h
        simp only at h
        cases hm : Collected.mention n p.value c.named with
        | error e =>
          rw [hm] at h
          simp [bind, Except.bind] at h
        | ok named =>
          rw [hm] at h
          simp only [bind, Except.bind, pure, Except.pure] at h
          cases hr : Fragment.render config fs { c with named } with
          | error e =>
            rw [hr] at h
            simp at h
          | ok r =>
            rw [hr] at h
            obtain ⟨rfl, rfl⟩ := Prod.mk.inj (Except.ok.inj h)
            rw [hcons, ih hr, chars_cons, put, hp]
            rfl
    | sign s =>
      obtain ⟨rest, hr, rfl⟩ := hplain (by simp)
      rw [hcons, ih hr, chars_cons, put, plainText, startsWithSign_eq, ih hr]
      split
      · simp
      · rfl
    | _ =>
      obtain ⟨rest, hr, rfl⟩ := hplain (by simp)
      rw [hcons, ih hr, chars_cons]
      rfl

/-- What is printed for a readable dialect. -/
theorem formatFragments_toList (hconfig : config.Readable) {fs : List Fragment} {out : Formatted}
    (h : formatFragments config fs = .ok out) : out.sql.toList = chars config fs [] := by
  unfold formatFragments at h
  rw [DialectConfig.validate, hconfig.valid] at h
  simp only at h
  split at h
  · next hr =>
    rw [← Except.ok.inj h]
    exact toList_render hconfig.style hr
  · simp at h

/-- Parameters with names and without values are no reason not to print. -/
theorem Unbound.format (hconfig : config.Readable) {fs : List Fragment} (h : Unbound fs) :
    ∃ out, formatFragments config fs = .ok out := by
  have hplaced := (Collected.placeAll_named hconfig.style (fun p hp => (h p hp).1)
    (fun p hp v hv => by simp [(h p hp).2] at hv) [] [] 0).1
      (fun p hp n a b _ hb => by simp [(h p hp).2] at hb)
  have hrender := Fragment.render_eq config fs .empty
  rw [show Collected.empty = ⟨([] : List ParamUse).map ParamUse.pair, []⟩ from rfl, hplaced]
    at hrender
  unfold formatFragments
  rw [DialectConfig.validate, hconfig.valid,
    show Collected.empty = ⟨([] : List ParamUse).map ParamUse.pair, []⟩ from rfl, hrender]
  exact ⟨_, rfl⟩

/-- **Text that spells lexemes is printed, and reads as those lexemes.** -/
theorem Spells.format (hconfig : config.Readable) {fs : List Fragment} {ls : List Lexeme}
    (h : Spells config fs ls) :
    ∃ out, formatFragments config fs = .ok out ∧ lex out.sql.toList = some (ls ++ [.eof]) := by
  obtain ⟨out, hout⟩ := h.unbound.format hconfig
  refine ⟨out, hout, ?_⟩
  rw [formatFragments_toList hconfig hout, h.reads [] ends_nil (by rw [lex_nil]; rfl), lex_nil]
  rfl

end Sql
