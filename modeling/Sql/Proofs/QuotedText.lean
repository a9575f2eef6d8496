import Sql.Format
import Sql.Proofs.Grammar
import Sql.Proofs.TokenPlaces

/-!
# Names and strings stay between their quotes

A piece of text that one step of the lexer takes whole is one token at place 0, and the tokens of
the text behind it are moved by its bytes (`tokenize_piece`). What is written between quotes is such
a piece, whatever it contains (`tokenize_quoteName`, `tokenize_quotedString`), as long as the text
behind it does not start with the closing quote.
-/

namespace Sql

/-! ## A piece and the text behind it -/

/-- A token in front of the tokens of the text behind it. -/
theorem tokens_token {c : Char} {cs rest : List Char} {l : Lexeme} {ts : List Token}
    (hscan : scan c cs = .token l rest) (hts : tokens rest = .ok ts) :
    ∃ k, byteCount (c :: cs) = byteCount rest + k
      ∧ tokens (c :: cs) = .ok (⟨l, 0⟩ :: ts.map (Token.moved k)) := by
  have hleaves := scan_leaves c cs
  rw [hscan] at hleaves
  have hless := byteCount_lt_of_suffix (c := c) hleaves.1
  obtain ⟨k, hk⟩ := Nat.exists_eq_add_of_le (Nat.le_of_lt hless)
  refine ⟨k, hk, ?_⟩
  have hmoved : tokensFrom (byteCount (c :: cs)) rest = .ok (ts.map (Token.moved k)) := by
    rw [hk, tokensFrom_add k (Nat.le_refl _)]
    unfold tokens at hts
    rw [hts]
    rfl
  rw [tokens, tokensFrom_cons, hscan]
  dsimp only
  rw [hmoved, Nat.sub_self]

/-- **A piece that is one token,** in front of any text. -/
theorem tokenize_piece {piece t : String} {c : Char} {cs : List Char} {l : Lexeme} {ts : List Token}
    (hpiece : piece.toList = c :: cs) (hscan : scan c (cs ++ t.toList) = .token l t.toList)
    (ht : tokenize t = .ok ts) :
    tokenize (piece ++ t) = .ok (⟨l, 0⟩ :: ts.map (Token.moved piece.utf8ByteSize)) := by
  obtain ⟨k, hk, htokens⟩ := tokens_token hscan (tokens_of_tokenize ht)
  have htext : (piece ++ t).toList = c :: (cs ++ t.toList) := by
    rw [String.toList_append, hpiece, List.cons_append]
  have hbytes : k = piece.utf8ByteSize := by
    rw [← List.cons_append, ← hpiece, byteCount_append, byteCount_toList] at hk
    omega
  rw [tokenize, htext, htokens, hbytes]

theorem tokenize_empty : tokenize "" = .ok [⟨.eof, 0⟩] := by
  unfold tokenize tokens
  rw [String.toList_empty, tokensFrom_nil]
  rfl

/-! ## Between quotes -/

/-- The quotes that the lexer knows, as strings. -/
def IsQuotePair (opening closing : String) : Prop :=
  ∃ o c, closingQuote? o = some c ∧ opening = String.singleton o ∧ closing = String.singleton c

theorem isQuotePair_double : IsQuotePair "\x22" "\x22" := ⟨'\x22', '\x22', rfl, rfl, rfl⟩

/-- The lexer knows the quotes of every preset. -/
theorem Dialect.isQuotePair {d : Dialect} {opening closing : String}
    (h : d.config.identifierQuote = some (opening, closing)) : IsQuotePair opening closing := by
  cases d with
  | generic => cases h
  | postgres | sqlite =>
    obtain ⟨rfl, rfl⟩ := Prod.mk.inj (Option.some.inj h)
    exact isQuotePair_double
  | mysql =>
    obtain ⟨rfl, rfl⟩ := Prod.mk.inj (Option.some.inj h)
    exact ⟨'\x60', '\x60', rfl, rfl, rfl⟩
  | sqlserver =>
    obtain ⟨rfl, rfl⟩ := Prod.mk.inj (Option.some.inj h)
    exact ⟨'[', ']', rfl, rfl, rfl⟩

theorem toList_quotedString (s : String) :
    (quotedString s).toList = '\x27' :: (doubled ['\x27'] 0 s.toList ++ ['\x27']) := by
  simp [quotedString]

/-- The text does not start with a character that is no beginning of it. -/
theorem head?_ne_of_not_isPrefix {c : Char} {cs : List Char}
    (h : ¬ (String.singleton c).toList <+: cs) : cs.head? ≠ some c := by
  intro hhead
  obtain ⟨ds, rfl⟩ := List.head?_eq_some_iff.mp hhead
  exact h ⟨ds, by simp⟩

/-- A name between quotes in front of any text that does not start with the closing quote. -/
theorem tokenize_quoteName {opening closing : String} (hquotes : IsQuotePair opening closing)
    {s : String} (hs : s ≠ "") {t : String} (ht : ¬ closing.toList <+: t.toList) {ts : List Token}
    (hts : tokenize t = .ok ts) :
    tokenize (quoteName s opening closing ++ t)
      = .ok (⟨.quoted s, 0⟩
        :: ts.map (Token.moved (quoteName s opening closing).utf8ByteSize)) := by
  obtain ⟨o, c, hclose, rfl, rfl⟩ := hquotes
  refine tokenize_piece (toList_quoteName s o c) ?_ hts
  rw [List.append_assoc]
  exact scan_quoted hclose (isBlank_of_closingQuote? hclose).1 hs (head?_ne_of_not_isPrefix ht)

/-- A string between single quotes in front of any text that does not start with one. -/
theorem tokenize_quotedString (s : String) {t : String} (ht : ¬ "\x27".toList <+: t.toList)
    {ts : List Token} (hts : tokenize t = .ok ts) :
    tokenize (quotedString s ++ t)
      = .ok (⟨.string s, 0⟩ :: ts.map (Token.moved (quotedString s).utf8ByteSize)) := by
  refine tokenize_piece (toList_quotedString s) ?_ hts
  rw [List.append_assoc]
  exact scan_string s (head?_ne_of_not_isPrefix ht)

/-! ## Bare names -/

theorem tokenize_word {w : String} (hw : IsWord w) :
    tokenize w = .ok [⟨.word w, 0⟩, ⟨.eof, w.utf8ByteSize⟩] := by
  obtain ⟨c, cs, htext, hc, hcs⟩ := hw
  obtain ⟨htake, hdrop⟩ := @takeWhile_append_of_stop _ _ [] hcs rfl
  have hscan : scan c (cs ++ "".toList) = .token (.word w) "".toList := by
    rw [String.toList_empty, scan_word hc, htake, hdrop, ← htext, String.ofList_toList]
  simpa [Token.moved] using tokenize_piece htext hscan tokenize_empty

/-- **A name of the generic dialect is one name to the reader,** bare or between quotes. -/
theorem tokenize_generic_name {s : String} (hs : s ≠ "") :
    ∃ l, (l = .word s ∨ l = .quoted s) ∧ Parser.nameOf? l = some s
      ∧ tokenize (DialectConfig.generic.name s)
          = .ok [⟨l, 0⟩, ⟨.eof, (DialectConfig.generic.name s).utf8ByteSize⟩] := by
  by_cases hplain : isPlainName s = true
  · refine ⟨.word s, Or.inl rfl, ?_, ?_⟩
    · simp [Parser.nameOf?, isStopWord_of_isPlainName hplain]
    · have hname : DialectConfig.generic.name s = s := by
        simp [DialectConfig.name, DialectConfig.generic, hplain]
      rw [hname]
      exact tokenize_word (isWord_of_isSimpleName (isSimpleName_of_isPlainName hplain))
  · refine ⟨.quoted s, Or.inr rfl, rfl, ?_⟩
    have hname : DialectConfig.generic.name s = quoteName s "\x22" "\x22" := by
      simp [DialectConfig.name, DialectConfig.generic, hplain]
    rw [hname]
    simpa [Token.moved] using
      tokenize_quoteName isQuotePair_double hs (t := "") (by simp) tokenize_empty

/-! ## What the printer writes -/

theorem validate_of_fault? {config : DialectConfig} (h : config.fault? = none) :
    config.validate = .ok () := by
  rw [DialectConfig.validate, h]

/-- Every dialect writes a string alike. -/
theorem format_string {config : DialectConfig} (h : config.fault? = none) (s : String) :
    (Expr.literal (.string s)).format config = .ok (quotedString s) := by
  rw [Expr.format, formatFragments, validate_of_fault? h]
  rfl

/-- A column without namespaces is written as its name. -/
theorem format_column {config : DialectConfig} (h : config.fault? = none) (s : String) :
    (Expr.column ⟨[], s⟩).format config = .ok (config.name s) := by
  rw [Expr.format, formatFragments, validate_of_fault? h]
  rfl

/-- **Names and strings cannot break out of their quotes.** Whatever characters they consist of and
whatever text stands behind them, they are read as one token with these characters, and the tokens
of that text follow at their places. A name that the generic dialect writes without quotes is read
as that name all the same. -/
theorem quotes_hold (s : String) :
    (∀ (d : Dialect) (opening closing : String),
      d.config.identifierQuote = some (opening, closing) → s ≠ "" →
        ∀ (t : String) (ts : List Token), tokenize t = .ok ts → ¬ closing.toList <+: t.toList →
          tokenize (quoteName s opening closing ++ t)
            = .ok (⟨.quoted s, 0⟩
                :: ts.map (Token.moved (quoteName s opening closing).utf8ByteSize)))
      ∧ (∀ config : DialectConfig, config.fault? = none →
          (Expr.literal (.string s)).format config = .ok (quotedString s))
      ∧ (∀ (t : String) (ts : List Token), tokenize t = .ok ts → ¬ "\x27".toList <+: t.toList →
          tokenize (quotedString s ++ t)
            = .ok (⟨.string s, 0⟩ :: ts.map (Token.moved (quotedString s).utf8ByteSize)))
      ∧ (s ≠ "" → ∃ text, (Expr.column ⟨[], s⟩).format .generic = .ok text
          ∧ ∃ l, (l = .word s ∨ l = .quoted s) ∧ Parser.nameOf? l = some s
            ∧ tokenize text = .ok [⟨l, 0⟩, ⟨.eof, text.utf8ByteSize⟩]) := by
  refine ⟨?_, fun config h => format_string h s, ?_, fun hs => ?_⟩
  · intro d opening closing hquotes hs t ts hts ht
    exact tokenize_quoteName (d.isQuotePair hquotes) hs ht hts
  · exact fun t ts hts ht => tokenize_quotedString s ht hts
  · exact ⟨_, format_column rfl s, tokenize_generic_name hs⟩

/-- A text with quotes of every style, the openers of comments, a line break and letters of two
bytes. -/
def awkward : String := "]]é\x22\x60\x27\x27--/* ;\n["

theorem quotes_hold_awkward :
    tokenize (quoteName awkward "[" "]" ++ ".\x22x\x22")
        = .ok [⟨.quoted awkward, 0⟩, ⟨.symbol .dot, 20⟩, ⟨.quoted "x", 21⟩, ⟨.eof, 24⟩]
      ∧ (Expr.literal (.string awkward)).format .generic = .ok (quotedString awkward)
      ∧ tokenize (quotedString awkward ++ ".\x22x\x22")
          = .ok [⟨.string awkward, 0⟩, ⟨.symbol .dot, 20⟩, ⟨.quoted "x", 21⟩, ⟨.eof, 24⟩]
      ∧ ∃ text, (Expr.column ⟨[], awkward⟩).format .generic = .ok text
          ∧ ∃ l, (l = .word awkward ∨ l = .quoted awkward) ∧ Parser.nameOf? l = some awkward
            ∧ tokenize text = .ok [⟨l, 0⟩, ⟨.eof, text.utf8ByteSize⟩] := by
  have hbehind : tokenize ".\x22x\x22" = .ok [⟨.symbol .dot, 0⟩, ⟨.quoted "x", 1⟩, ⟨.eof, 4⟩] := by
    decide +kernel
  obtain ⟨hname, hformat, hstring, hcolumn⟩ := quotes_hold awkward
  refine ⟨?_, hformat .generic rfl, ?_, hcolumn (by decide)⟩
  · exact hname .sqlserver "[" "]" rfl (by decide) _ _ hbehind (by decide)
  · exact hstring _ _ hbehind (by decide)

end Sql
