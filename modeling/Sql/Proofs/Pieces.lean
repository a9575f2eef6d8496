import Mathlib.Data.String.Basic
import Sql.Format.Fragment
import Sql.Proofs.Lexing

/-!
# Pieces of printed text

A fragment is printed in front of the text of the fragments behind it (`Fragment.put`). For every
kind of fragment this module says which lexemes its text is read as: keywords word by word
(`lex_put_keyword`), names bare or between quotes (`lex_put_name`), parameters, signs, and the
layout, which is blank (`lex_put_lineEnd` and its neighbours).

The dialects are those whose text can be read back: `DialectConfig.Readable`.
-/

namespace Sql

/-! ## Dialects -/

/-- The reader knows the quotes and the placeholders of the dialect. -/
structure DialectConfig.Readable (c : DialectConfig) : Prop where
  quotes : c.identifierQuote = none ∨ c.identifierQuote = some ("\x22", "\x22")
    ∨ c.identifierQuote = some ("[", "]")
  symbol : c.parameterSymbol = ":" ∨ c.parameterSymbol = "@"
  style : c.parameterStyle = .named
  valid : c.fault? = none

/-- The newline and the indentation of a dialect without fault are blank. -/
theorem DialectConfig.blank_of_fault? {c : DialectConfig} (h : c.fault? = none) :
    c.newline ≠ "" ∧ c.newline.toList.all Text.isBlank = true
      ∧ c.indent.toList.all Text.isBlank = true := by
  unfold fault? at h
  split at h
  · simp at h
  split at h
  · simp at h
  split at h
  · simp at h
  next hnewline =>
  split at h
  · simp at h
  next hindent =>
  rw [not_or] at hnewline
  exact ⟨hnewline.1, by simpa using hnewline.2, by simpa using hindent⟩

/-- The end of a line is blank and not empty. -/
theorem DialectConfig.blank_lineEnd {config : DialectConfig} (h : config.fault? = none)
    (depth : Nat) :
    ∃ c cs, (config.lineEnd depth).toList = c :: cs ∧ (c :: cs).all Text.isBlank = true := by
  obtain ⟨hne, hnewline, hindent⟩ := blank_of_fault? h
  have hall : (config.lineEnd depth).toList.all Text.isBlank = true := by
    unfold lineEnd
    split
    · rw [String.toList_append, List.all_append, hnewline, Bool.true_and, String.toList_join]
      rw [List.all_flatMap, List.all_eq_true]
      intro s hs
      rw [List.eq_of_mem_replicate hs]
      exact hindent
    · exact hnewline
  have hstart : (config.lineEnd depth).toList ≠ [] := by
    unfold lineEnd
    split
    · simp [hne]
    · simpa using hne
  obtain ⟨c, cs, hcs⟩ := List.exists_cons_of_ne_nil hstart
  exact ⟨c, cs, hcs, hcs ▸ hall⟩

/-! ## Keywords -/

/-- A keyword as the dialect writes it. -/
def kw (config : DialectConfig) (word : String) : Lexeme := .word (config.keyword word)

/-- The words between the blanks of a text. -/
def phraseWords : List Char → List (List Char)
  | [] => [[]]
  | c :: cs => if c = ' ' then [] :: phraseWords cs else consFirst c (phraseWords cs)

/-- The words of a keyword, one lexeme each. -/
def phrase (config : DialectConfig) (words : String) : List Lexeme :=
  (phraseWords words.toList).map fun w => kw config (String.ofList w)

/-- The letters of the keywords. -/
def keywordLetters : List Char := "abcdefghijklmnopqrstuvwxyz".toList

/-- Words of small letters with one blank between them. -/
def isPhrase (words : String) : Bool :=
  (phraseWords words.toList).all fun w => !w.isEmpty && w.all keywordLetters.contains

theorem keywordLetters_wordStart : ∀ c ∈ keywordLetters,
    isWordStart c.toLower = true ∧ isWordStart c.toUpper = true := by
  have hall : keywordLetters.all (fun c => isWordStart c.toLower && isWordStart c.toUpper)
      = true := by
    decide +kernel
  intro c hc
  exact Bool.and_eq_true_iff.mp (List.all_eq_true.mp hall c hc)

theorem phraseWords_ne_nil (cs : List Char) : phraseWords cs ≠ [] := by
  cases cs with
  | nil => simp [phraseWords]
  | cons c cs =>
    unfold phraseWords
    split
    · simp
    · cases phraseWords cs <;> simp [consFirst]

theorem intercalate_phraseWords (cs : List Char) :
    [' '].intercalate (phraseWords cs) = cs := by
  induction cs with
  | nil => rfl
  | cons c cs ih =>
    obtain ⟨w, ws, hw⟩ := List.exists_cons_of_ne_nil (phraseWords_ne_nil cs)
    unfold phraseWords
    split
    · next hc =>
      subst hc
      rw [hw, List.intercalate_cons_cons, ← hw, ih]
      rfl
    · rw [hw] at ih ⊢
      rw [consFirst]
      cases ws with
      | nil => simpa using ih
      | cons v ws =>
        rw [List.intercalate_cons_cons] at ih ⊢
        rw [List.cons_append, List.cons_append, ih]

/-- How a dialect changes the letters of its keywords. -/
def DialectConfig.changeCase (c : DialectConfig) : Char → Char :=
  match c.keywordCase with
  | .upper => Char.toUpper
  | .lower => Char.toLower

theorem DialectConfig.toList_keyword (c : DialectConfig) (w : String) :
    (c.keyword w).toList = w.toList.map c.changeCase := by
  unfold keyword changeCase
  cases c.keywordCase <;> simp [raiseCase, foldCase]

theorem DialectConfig.keyword_ofList (c : DialectConfig) (w : List Char) :
    c.keyword (String.ofList w) = String.ofList (w.map c.changeCase) := by
  apply String.toList_injective
  rw [toList_keyword, String.toList_ofList, String.toList_ofList]

theorem DialectConfig.changeCase_wordStart (c : DialectConfig) {l : Char}
    (hl : l ∈ keywordLetters) : isWordStart (c.changeCase l) = true := by
  obtain ⟨hlower, hupper⟩ := keywordLetters_wordStart l hl
  unfold changeCase
  cases c.keywordCase
  · exact hlower
  · exact hupper

theorem isWord_keyword (config : DialectConfig) {w : List Char} (hne : w ≠ [])
    (hw : w.all keywordLetters.contains = true) : IsWord (config.keyword (String.ofList w)) := by
  obtain ⟨c, cs, rfl⟩ := List.exists_cons_of_ne_nil hne
  rw [List.all_cons, Bool.and_eq_true, List.contains_iff_mem] at hw
  refine ⟨config.changeCase c, cs.map config.changeCase, ?_, ?_, ?_⟩
  · rw [config.keyword_ofList, String.toList_ofList, List.map_cons]
  · exact config.changeCase_wordStart hw.1
  · rw [List.all_map, List.all_eq_true]
    intro d hd
    have := List.all_eq_true.mp hw.2 d hd
    exact isWordChar_of_isWordStart (config.changeCase_wordStart (List.contains_iff_mem.mp this))

/-- Words with blanks between them are read one by one. -/
theorem lex_words {ws : List String} (hws : ∀ w ∈ ws, IsWord w) (hne : ws ≠ []) {rest : List Char}
    (hrest : Parts rest) :
    lex ([' '].intercalate (ws.map String.toList) ++ rest)
      = (lex rest).map (ws.map Lexeme.word ++ ·) := by
  induction ws with
  | nil => exact absurd rfl hne
  | cons w ws ih =>
    rw [List.forall_mem_cons] at hws
    cases ws with
    | nil =>
      rw [List.map_singleton, List.intercalate_singleton, lex_word hws.1 hrest]
      rfl
    | cons v vs =>
      rw [List.map_cons, List.map_cons, List.intercalate_cons_cons, List.append_assoc,
        List.append_assoc, lex_word hws.1 (by simp; decide), List.singleton_append, lex_space,
        ← List.map_cons, ih hws.2 (by simp), Option.map_map]
      rfl

theorem lex_keyword (config : DialectConfig) {words : String} (h : isPhrase words = true)
    {rest : List Char} (hrest : Parts rest) :
    lex ((config.keyword words).toList ++ rest)
      = (lex rest).map (phrase config words ++ ·) := by
  have hblank : config.changeCase ' ' = ' ' := by
    unfold DialectConfig.changeCase
    cases config.keywordCase <;> decide
  -- changing the case goes word by word, since a blank has none
  have htext : (config.keyword words).toList = [' '].intercalate
      (((phraseWords words.toList).map fun w => config.keyword (String.ofList w)).map
        String.toList) := by
    rw [config.toList_keyword]
    conv_lhs => rw [← intercalate_phraseWords words.toList]
    generalize phraseWords words.toList = ws
    induction ws with
    | nil => rfl
    | cons w ws ih =>
      cases ws with
      | nil => simp [config.keyword_ofList]
      | cons v vs =>
        rw [List.map_cons, List.map_cons, List.map_cons, List.map_cons] at *
        rw [List.intercalate_cons_cons, List.intercalate_cons_cons, List.map_append,
          List.map_append, ih, List.map_singleton, hblank, config.keyword_ofList w,
          String.toList_ofList]
  rw [htext, lex_words ?_ ?_ hrest, phrase, List.map_map]
  · rfl
  · intro w hw
    obtain ⟨v, hv, rfl⟩ := List.mem_map.mp hw
    have := List.all_eq_true.mp h v hv
    rw [Bool.and_eq_true, Bool.not_eq_true', List.isEmpty_eq_false_iff] at this
    exact isWord_keyword config this.1 this.2
  · simpa using phraseWords_ne_nil words.toList

/-! ## Names -/

/-- A name as the dialect writes it: bare if it may be, else between quotes. -/
def nameLexeme (config : DialectConfig) (n : String) : Lexeme :=
  if config.identifierQuote = none ∧ isPlainName n = true then .word n else .quoted n

theorem isAlphabetic_of_isAlpha {c : Char} (h : c.isAlpha = true) : Text.isAlphabetic c = true := by
  have hcases : (decide (c.val ≥ 'A'.val ∧ c.val ≤ 'Z'.val)
      || (decide (c.val ≥ 'a'.val) && decide (c.val ≤ 'z'.val))) = true := h
  simp only [Bool.or_eq_true, Bool.and_eq_true, decide_eq_true_eq, UInt32.le_iff_toNat_le] at hcases
  -- the letters of ASCII are the first two ranges of the table
  rcases hcases with h | h
  · exact Text.inRanges_iff.mpr ⟨(0x0041, 0x005A), List.mem_cons_self, h⟩
  · exact Text.inRanges_iff.mpr ⟨(0x0061, 0x007A), List.mem_cons_of_mem _ List.mem_cons_self, h⟩

theorem isWordStart_of_isSimpleStart {c : Char} (h : isSimpleStart c = true) :
    isWordStart c = true := by
  simp only [isSimpleStart, Bool.or_eq_true] at h
  rcases h with h | h
  · simp [isWordStart, isAlphabetic_of_isAlpha h]
  · simp [isWordStart, h]

theorem isWordChar_of_isSimpleChar {c : Char} (h : isSimpleChar c = true) : isWordChar c = true := by
  simp only [isSimpleChar, Char.isAlphanum, Bool.or_eq_true] at h
  rcases h with (h | h) | h
  · simp [isWordChar, isAlphabetic_of_isAlpha h]
  · simp [isWordChar, Text.isNumeric_of_isDigit h]
  · simp [isWordChar, h]

theorem isWord_of_isSimpleName {n : String} (h : isSimpleName n = true) : IsWord n := by
  unfold isSimpleName at h
  obtain ⟨c, cs, hcs⟩ : ∃ c cs, n.toList = c :: cs := by
    cases hn : n.toList with
    | nil =>
      rw [hn] at h
      simp [isSimple] at h
    | cons c cs => exact ⟨c, cs, rfl⟩
  rw [hcs, isSimple, Bool.and_eq_true, List.all_eq_true] at h
  refine ⟨c, cs, hcs, isWordStart_of_isSimpleStart h.1, ?_⟩
  rw [List.all_eq_true]
  exact fun d hd => isWordChar_of_isSimpleChar (h.2 d hd)

theorem isSimpleName_of_isPlainName {n : String} (h : isPlainName n = true) :
    isSimpleName n = true := by
  unfold isPlainName at h
  rw [Bool.and_eq_true] at h
  exact h.1

theorem toList_quoteName (s : String) (o c : Char) :
    (quoteName s (String.singleton o) (String.singleton c)).toList
      = o :: (doubled [c] 0 s.toList ++ [c]) := by
  simp [quoteName]

/-- A name between quotes that the lexer knows. -/
theorem lex_quoteName {o q : Char} (hquotes : closingQuote? o = some q) {n : String} (hn : n ≠ "")
    {rest : List Char} (hrest : Parts rest) :
    lex ((quoteName n (String.singleton o) (String.singleton q)).toList ++ rest)
      = (lex rest).map (.quoted n :: ·) := by
  obtain ⟨hbreak, hdot⟩ := isBreak_of_closingQuote? hquotes
  rw [toList_quoteName, List.cons_append, List.append_assoc]
  exact lex_quoted hquotes (isBlank_of_closingQuote? hquotes).1 hn (hrest.head_ne hbreak hdot)

theorem lex_name {config : DialectConfig} (hconfig : config.Readable) {n : String} (hn : n ≠ "")
    {rest : List Char} (hrest : Parts rest) :
    lex ((config.name n).toList ++ rest) = (lex rest).map (nameLexeme config n :: ·) := by
  unfold DialectConfig.name nameLexeme
  rcases hconfig.quotes with h | h | h <;> rw [h]
  · by_cases hplain : isPlainName n = true
    · simp only [hplain, if_true, true_and]
      exact lex_word (isWord_of_isSimpleName (isSimpleName_of_isPlainName hplain)) hrest
    · simp only [hplain]
      exact lex_quoteName (o := '\x22') rfl hn hrest
  · exact lex_quoteName (o := '\x22') rfl hn hrest
  · exact lex_quoteName (o := '[') rfl hn hrest

/-- A written name does not start with a digit. -/
theorem name_not_digit {config : DialectConfig} (hconfig : config.Readable) (n : String)
    (rest : List Char) : startsWith Char.isDigit ((config.name n).toList ++ rest) = false := by
  have hquoted : ∀ opening closing : String,
      (opening, closing) = ("\x22", "\x22") ∨ (opening, closing) = ("[", "]") →
        startsWith Char.isDigit ((quoteName n opening closing).toList ++ rest) = false := by
    rintro opening closing (h | h) <;> obtain ⟨rfl, rfl⟩ := Prod.mk.inj h
    · simp [quoteName, startsWith]
    · simp [quoteName, startsWith]
  unfold DialectConfig.name
  rcases hconfig.quotes with h | h | h <;> rw [h]
  · by_cases hplain : isPlainName n = true
    · obtain ⟨c, cs, hcs, hc, -⟩ := isWord_of_isSimpleName (isSimpleName_of_isPlainName hplain)
      simp only [hplain, if_true, hcs]
      exact isDigit_of_isWordStart hc
    · simp only [hplain]
      exact hquoted _ _ (Or.inl rfl)
  · exact hquoted _ _ (Or.inl rfl)
  · exact hquoted _ _ (Or.inr rfl)

/-! ## Dotted names -/

/-- Lexemes with dots between them. -/
def dotSep : List Lexeme → List Lexeme
  | [] => []
  | l :: ls => l :: ls.flatMap fun m => [.symbol .dot, m]

/-- Texts with dots between them are read part by part. -/
theorem lex_dotted {α : Type} (write : α → String) (read : α → Lexeme) {parts : List α}
    (hparts : ∀ p ∈ parts, ∀ rest, Parts rest →
      lex ((write p).toList ++ rest) = (lex rest).map (read p :: ·))
    (hdigit : ∀ p ∈ parts, ∀ rest, startsWith Char.isDigit ((write p).toList ++ rest) = false)
    (hne : parts ≠ []) {rest : List Char} (hrest : Parts rest) :
    lex ((dotted (parts.map write)).toList ++ rest)
      = (lex rest).map (dotSep (parts.map read) ++ ·) := by
  unfold dotted
  rw [String.toList_intercalate, List.map_map, show ".".toList = ['.'] from rfl]
  induction parts with
  | nil => exact absurd rfl hne
  | cons p ps ih =>
    rw [List.forall_mem_cons] at hparts hdigit
    cases ps with
    | nil =>
      rw [List.map_singleton, List.intercalate_singleton]
      exact hparts.1 rest hrest
    | cons q qs =>
      have hq : startsWith Char.isDigit
          (['.'].intercalate ((q :: qs).map (String.toList ∘ write)) ++ rest) = false := by
        cases qs with
        | nil =>
          rw [List.map_singleton, List.intercalate_singleton]
          exact hdigit.2 q List.mem_cons_self rest
        | cons r rs =>
          rw [List.map_cons, List.map_cons, List.intercalate_cons_cons, List.append_assoc,
            List.append_assoc]
          exact hdigit.2 q List.mem_cons_self _
      have htail := ih hparts.2 hdigit.2 (by simp)
      rw [List.map_cons, List.map_cons, List.intercalate_cons_cons, List.append_assoc,
        List.append_assoc, ← List.map_cons, List.singleton_append, Function.comp_apply,
        hparts.1 _ (by simp), lex_dot hq, htail, Option.map_map, Option.map_map]
      rfl

/-- A qualified name. -/
def dottedLexemes (config : DialectConfig) (path : List String) (n : String) : List Lexeme :=
  dotSep ((path ++ [n]).map (nameLexeme config))

/-- A part of the name of a function: bare if it is simple. -/
def partLexeme (part : String) : Lexeme := if isSimpleName part then .word part else .quoted part

/-- The name of a function, part by part. -/
def functionLexemes (n : String) : List Lexeme := dotSep ((splitName n).map partLexeme)

theorem ne_empty_of_mem_splitName {n part : String} (h : part ∈ splitName n) : part ≠ "" := by
  unfold splitName at h
  simpa using (List.mem_filter.mp h).2

theorem lex_functionName {config : DialectConfig} (hconfig : config.Readable) {n : String}
    (hn : splitName n ≠ []) {rest : List Char} (hrest : Parts rest) :
    lex ((config.functionName n).toList ++ rest) = (lex rest).map (functionLexemes n ++ ·) := by
  refine lex_dotted _ partLexeme (fun part hpart rest hrest => ?_) (fun part hpart rest => ?_) hn
    hrest
  · unfold partLexeme
    by_cases hsimple : isSimpleName part = true
    · simp only [hsimple, if_true]
      exact lex_word (isWord_of_isSimpleName hsimple) hrest
    · -- a part that is not simple is no plain name either, so every dialect quotes it
      have hplain : isPlainName part = false := by
        rw [Bool.eq_false_iff]
        exact fun h => hsimple (isSimpleName_of_isPlainName h)
      have := lex_name hconfig (ne_empty_of_mem_splitName hpart) hrest
      simpa [hsimple, nameLexeme, hplain] using this
  · by_cases hsimple : isSimpleName part = true
    · obtain ⟨c, cs, hcs, hc, -⟩ := isWord_of_isSimpleName hsimple
      simp only [hsimple, if_true, hcs]
      exact isDigit_of_isWordStart hc
    · simp only [hsimple]
      exact name_not_digit hconfig part rest

/-- A parameter as the dialect writes it. -/
def paramLexeme (config : DialectConfig) (p : Param) : Lexeme :=
  .param (config.parameterSymbol.toList.headD ':') p.name

/-! ## Fragments in front of a text -/

namespace Fragment

/-- The text of a fragment in front of the text behind it. A sign is kept apart from another one. -/
def put (config : DialectConfig) (f : Fragment) (rest : List Char) : List Char :=
  match f with
  | sign s =>
    s.toList ++ if startsWith (fun c => c == '-' || c == '+') rest then ' ' :: rest else rest
  | param p => (config.parameterSymbol ++ p.name.getD "").toList ++ rest
  | f => (f.plainText config []).toList ++ rest

/-- The text of fragments in front of the text behind them. -/
def chars (config : DialectConfig) (fs : List Fragment) (rest : List Char) : List Char :=
  fs.foldr (put config) rest

variable (config : DialectConfig) (rest : List Char)

@[simp] theorem chars_nil : chars config [] rest = rest := rfl

@[simp] theorem chars_cons (f : Fragment) (fs : List Fragment) :
    chars config (f :: fs) rest = put config f (chars config fs rest) := rfl

@[simp] theorem chars_append (fs gs : List Fragment) :
    chars config (fs ++ gs) rest = chars config fs (chars config gs rest) := by
  simp [chars, List.foldr_append]

@[simp] theorem put_text (s : String) : put config (text s) rest = s.toList ++ rest := rfl

variable {config rest} (hconfig : config.Readable)
include hconfig

/-! ## Layout -/

theorem lex_lineEnd (depth : Nat) (rest : List Char) :
    lex ((config.lineEnd depth).toList ++ rest) = lex rest := by
  obtain ⟨c, cs, hcs, hall⟩ := DialectConfig.blank_lineEnd hconfig.valid depth
  rw [hcs]
  exact lex_blanks hall rest

theorem ends_lineEnd (depth : Nat) (rest : List Char) :
    Ends ((config.lineEnd depth).toList ++ rest) := by
  obtain ⟨c, cs, hcs, hall⟩ := DialectConfig.blank_lineEnd hconfig.valid depth
  rw [List.all_cons, Bool.and_eq_true] at hall
  rw [hcs, List.cons_append, ends_cons]
  exact isBreak_of_isBlank hall.1

theorem lex_put_lineEnd (depth : Nat) : lex (put config (lineEnd depth) rest) = lex rest :=
  lex_lineEnd hconfig depth rest

theorem ends_put_lineEnd (depth : Nat) : Ends (put config (lineEnd depth) rest) :=
  ends_lineEnd hconfig depth rest

theorem lex_put_edge (depth : Nat) : lex (put config (edge depth) rest) = lex rest := by
  show lex ((if config.isMultiline then config.lineEnd depth else "").toList ++ rest) = lex rest
  split
  · exact lex_lineEnd hconfig depth rest
  · rfl

theorem ends_put_edge (hrest : Ends rest) (depth : Nat) : Ends (put config (edge depth) rest) := by
  show Ends ((if config.isMultiline then config.lineEnd depth else "").toList ++ rest)
  split
  · exact ends_lineEnd hconfig depth rest
  · exact hrest

theorem lex_put_comma (depth : Nat) :
    lex (put config (comma depth) rest) = (lex rest).map (.symbol .comma :: ·) := by
  show lex ((config.comma depth).toList ++ rest) = _
  unfold DialectConfig.comma
  cases config.commaBreak with
  | none => simp
  | after => simp [lex_lineEnd hconfig]
  | before => simp [lex_lineEnd hconfig]

theorem ends_put_comma (depth : Nat) : Ends (put config (comma depth) rest) := by
  show Ends ((config.comma depth).toList ++ rest)
  unfold DialectConfig.comma
  cases config.commaBreak with
  | none =>
    simp
    decide
  | after =>
    simp
    decide
  | before =>
    rw [String.toList_append, List.append_assoc]
    exact ends_lineEnd hconfig _ _

theorem lex_put_conjunction (depth : Nat) :
    lex (put config (conjunction depth) rest) = (lex rest).map (kw config "and" :: ·) := by
  have hand : ∀ {rest}, Parts rest →
      lex ((config.keyword "and").toList ++ rest) = (lex rest).map (kw config "and" :: ·) :=
    fun h => lex_keyword config (by decide) h
  show lex ((config.conjunction depth).toList ++ rest) = _
  unfold DialectConfig.conjunction
  cases config.andBreak with
  | none =>
    have := @hand (' ' :: rest) (by simp; decide)
    simpa using this
  | after =>
    have := hand (ends_lineEnd hconfig (depth + 1) rest).parts
    simpa [lex_lineEnd hconfig] using this
  | before =>
    have := @hand (' ' :: rest) (by simp; decide)
    simpa [lex_lineEnd hconfig] using this

theorem ends_put_conjunction (depth : Nat) : Ends (put config (conjunction depth) rest) := by
  show Ends ((config.conjunction depth).toList ++ rest)
  unfold DialectConfig.conjunction
  cases config.andBreak with
  | none =>
    simp
    decide
  | after =>
    simp
    decide
  | before =>
    simp only [String.toList_append, List.append_assoc]
    exact ends_lineEnd hconfig _ _

/-! ## Words, names and parameters -/

omit hconfig in
theorem lex_put_keyword {words : String} (h : isPhrase words = true) (hrest : Parts rest) :
    lex (put config (keyword words) rest) = (lex rest).map (phrase config words ++ ·) :=
  lex_keyword config h hrest

theorem lex_put_name {n : String} (hn : n ≠ "") (hrest : Parts rest) :
    lex (put config (name n) rest) = (lex rest).map (nameLexeme config n :: ·) :=
  lex_name hconfig hn hrest

theorem lex_put_function {n : String} (hn : splitName n ≠ []) (hrest : Parts rest) :
    lex (put config (function n) rest) = (lex rest).map (functionLexemes n ++ ·) :=
  lex_functionName hconfig hn hrest

omit hconfig in
/-- The text of a qualified name is that of its parts with dots between them. -/
theorem chars_dottedName (path : List String) (n : String) (rest : List Char) :
    chars config (dottedName path n) rest
      = (dotted ((path ++ [n]).map config.name)).toList ++ rest := by
  unfold dottedName dotted joined
  rw [String.toList_intercalate, show ".".toList = ['.'] from rfl]
  generalize path ++ [n] = parts
  induction parts with
  | nil => rfl
  | cons p ps ih =>
    cases ps with
    | nil => simp [put, plainText]
    | cons q qs =>
      simp only [List.map_cons, List.intercalate_cons_cons, chars_append, List.append_assoc] at ih ⊢
      rw [ih]
      simp [put, plainText]

theorem lex_chars_dottedName {path : List String} {n : String} (h : ∀ p ∈ path ++ [n], p ≠ "")
    (hrest : Parts rest) :
    lex (chars config (dottedName path n) rest)
      = (lex rest).map (dottedLexemes config path n ++ ·) := by
  rw [chars_dottedName]
  exact lex_dotted config.name (nameLexeme config) (fun p hp _ => lex_name hconfig (h p hp))
    (fun p _ => name_not_digit hconfig p) (by simp) hrest

theorem lex_put_param {p : Param} {n : String} (hp : p.name = some n) (hn : IsParamName n)
    (hrest : Parts rest) :
    lex (put config (param p) rest) = (lex rest).map (paramLexeme config p :: ·) := by
  show lex ((config.parameterSymbol ++ p.name.getD "").toList ++ rest) = _
  unfold paramLexeme
  rw [hp]
  rcases hconfig.symbol with h | h <;> rw [h]
  · simpa using lex_param (Or.inl rfl) hn hrest
  · simpa using lex_param (Or.inr rfl) hn hrest

/-! ## Operators -/

omit hconfig in
/-- A text that starts with `>` is read as a comparison. -/
theorem head_ne_of_lex {l : Lexeme} {ls : List Lexeme} (h : lex rest = some (l :: ls))
    (hgt : l ≠ .symbol .gt) (hge : l ≠ .symbol .gtEq) : rest.head? ≠ some '>' := by
  intro hhead
  obtain ⟨cs, rfl⟩ : ∃ cs, rest = '>' :: cs := by
    cases rest with
    | nil => simp at hhead
    | cons c cs =>
      obtain rfl : c = '>' := by simpa using hhead
      exact ⟨cs, rfl⟩
  have hscan : ∃ s rest, (s = .gt ∨ s = .gtEq) ∧ scan '>' cs = .token (.symbol s) rest := by
    cases cs with
    | nil => exact ⟨.gt, [], Or.inl rfl, scan_symbol (by decide) (by simp [readSymbol])⟩
    | cons d ds =>
      by_cases hd : d = '='
      · subst hd
        exact ⟨.gtEq, ds, Or.inr rfl, scan_symbol (by decide) (by simp [readSymbol])⟩
      · exact ⟨.gt, d :: ds, Or.inl rfl, scan_symbol (by decide) (by simp [readSymbol, hd])⟩
  obtain ⟨s, rest, hs, hscan⟩ := hscan
  rw [lex_token hscan, Option.map_eq_some_iff] at h
  obtain ⟨ls', -, h⟩ := h
  obtain ⟨rfl, -⟩ := List.cons.inj h
  rcases hs with rfl | rfl
  · exact hgt rfl
  · exact hge rfl

omit hconfig in
/-- A minus sign before its operand. A second sign is kept apart, and an operand starts with no
comparison. -/
theorem lex_put_minus (h : rest.head? ≠ some '>') :
    lex (put config (sign "-") rest) = (lex rest).map (.symbol .minus :: ·) := by
  show lex ('-' :: if startsWith (fun c => c == '-' || c == '+') rest then ' ' :: rest else rest) = _
  split
  · rw [lex_minus (by simp) (by simp), lex_space]
  · next hsign =>
    refine lex_minus (fun hhead => hsign ?_) h
    cases rest with
    | nil => simp at hhead
    | cons c cs =>
      obtain rfl : c = '-' := by simpa using hhead
      rfl

omit hconfig in
theorem lex_put_plus : lex (put config (sign "+") rest) = (lex rest).map (.symbol .plus :: ·) := by
  show lex ('+' :: if startsWith (fun c => c == '-' || c == '+') rest then ' ' :: rest else rest) = _
  rw [lex_plus]
  split
  · rw [lex_space]
  · rfl

end Fragment

/-! ## Operators -/

/-- The lexemes of an operator. -/
def BinaryOp.lexemes (config : DialectConfig) : BinaryOp → List Lexeme
  | eq => [.symbol .eq]
  | notEq => [.symbol .notEq]
  | lt => [.symbol .lt]
  | ltEq => [.symbol .ltEq]
  | gt => [.symbol .gt]
  | gtEq => [.symbol .gtEq]
  | like => [kw config "like"]
  | notLike => [kw config "not", kw config "like"]
  | ilike => [kw config "ilike"]
  | notIlike => [kw config "not", kw config "ilike"]
  | and => [kw config "and"]
  | or => [kw config "or"]
  | add => [.symbol .plus]
  | sub => [.symbol .minus]
  | mul => [.symbol .star]
  | div => [.symbol .slash]
  | mod => [.symbol .percent]
  | concat => [.symbol .concat]
  | jsonGet => [.symbol .arrow]
  | jsonGetText => [.symbol .longArrow]

/-- An operator that is no word is one symbol. -/
theorem BinaryOp.exists_scan {config : DialectConfig} {op : BinaryOp} (h : ¬op.isWord = true)
    (rest : List Char) :
    ∃ c cs s, op.symbol.toList = c :: cs ∧ op.lexemes config = [.symbol s]
      ∧ scan c (cs ++ ' ' :: rest) = .token (.symbol s) (' ' :: rest) := by
  -- `-` and `/` may open a comment as well, so these are scanned step by step
  have hblank : Text.isBlank '-' = false ∧ Text.isBlank '/' = false := by decide
  have hminus := (marks_wordStart '-' (by decide)).1
  have hslash := (marks_wordStart '/' (by decide)).1
  cases op
  case eq =>
    exact ⟨'=', [], _, rfl, rfl, scan_symbol (by decide) (by simp [readSymbol])⟩
  case notEq =>
    exact ⟨'<', ['>'], _, rfl, rfl, scan_symbol (by decide) (by simp [readSymbol])⟩
  case lt =>
    exact ⟨'<', [], _, rfl, rfl, scan_symbol (by decide) (by simp [readSymbol])⟩
  case ltEq =>
    exact ⟨'<', ['='], _, rfl, rfl, scan_symbol (by decide) (by simp [readSymbol])⟩
  case gt =>
    exact ⟨'>', [], _, rfl, rfl, scan_symbol (by decide) (by simp [readSymbol])⟩
  case gtEq =>
    exact ⟨'>', ['='], _, rfl, rfl, scan_symbol (by decide) (by simp [readSymbol])⟩
  case add =>
    exact ⟨'+', [], _, rfl, rfl, scan_symbol (by decide) (by simp [readSymbol])⟩
  case mul =>
    exact ⟨'*', [], _, rfl, rfl, scan_symbol (by decide) (by simp [readSymbol])⟩
  case mod =>
    exact ⟨'%', [], _, rfl, rfl, scan_symbol (by decide) (by simp [readSymbol])⟩
  case concat =>
    exact ⟨'|', ['|'], _, rfl, rfl, scan_symbol (by decide) (by simp [readSymbol])⟩
  case sub =>
    refine ⟨'-', [], _, rfl, rfl, ?_⟩
    simp [scan, hblank, startsWith, closingQuote?, hminus, readSymbol]
  case div =>
    refine ⟨'/', [], _, rfl, rfl, ?_⟩
    simp [scan, hblank, startsWith, closingQuote?, hslash, readSymbol]
  case jsonGet =>
    refine ⟨'-', ['>'], _, rfl, rfl, ?_⟩
    simp [scan, hblank, startsWith, closingQuote?, hminus, readSymbol]
  case jsonGetText =>
    refine ⟨'-', ['>', '>'], _, rfl, rfl, ?_⟩
    simp [scan, hblank, startsWith, closingQuote?, hminus, readSymbol]
  all_goals exact absurd rfl h

open Fragment in
/-- An operator between blanks. -/
theorem BinaryOp.lex_fragments {config : DialectConfig} (op : BinaryOp) (rest : List Char) :
    lex (chars config [text " ", if op.isWord then keyword op.symbol else text op.symbol, text " "]
      rest) = (lex rest).map (op.lexemes config ++ ·) := by
  have hword : op.isWord = true →
      isPhrase op.symbol = true ∧ phrase config op.symbol = op.lexemes config := by
    cases op <;> simp [isWord] <;> exact ⟨by decide, rfl⟩
  by_cases h : op.isWord = true
  · rw [if_pos h]
    have := @lex_keyword config op.symbol (hword h).1 (' ' :: rest) (by simp; decide)
    rw [(hword h).2] at this
    simpa [put, plainText] using this
  · rw [if_neg h]
    obtain ⟨c, cs, s, htext, hlexemes, hscan⟩ := @exists_scan config op h rest
    rw [hlexemes]
    simp only [chars_cons, chars_nil, put_text, htext]
    rw [show " ".toList = [' '] from rfl, List.singleton_append, lex_space, List.cons_append,
      List.singleton_append, lex_token hscan, lex_space]
    rfl

end Sql
