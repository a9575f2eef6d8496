import Sql.Parser.Expr
import Sql.Proofs.Pieces

/-!
# Type names

A type is kept as text. `TypeSpelling` takes that text apart: dotted parts, words that continue the
name, and numbers in parentheses. The text of a spelling is read as its lexemes
(`TypeSpelling.lex_text`), so that the lexemes of a type are known from its text alone
(`typeLexemes`).
-/

namespace Sql

/-- Lists with commas between them. -/
def commaSep : List (List Lexeme) → List Lexeme
  | [] => []
  | ls :: rest => ls ++ rest.flatMap (.symbol .comma :: ·)

/-! ## Parts -/

/-- A part of a type name: a bare word, or a name that needs its quotes. -/
inductive TypePart
  | bare (w : String)
  | quoted (n : String)

namespace TypePart

/-- The part as it is kept. -/
def text : TypePart → String
  | bare w => w
  | quoted n => quoteName n "\x22" "\x22"

/-- The part as it is read. -/
def lexeme : TypePart → Lexeme
  | bare w => .word w
  | quoted n => .quoted n

/-- The part is what it claims to be. -/
def Valid : TypePart → Prop
  | bare w => IsWord w
  | quoted n => n ≠ "" ∧ isSimpleName n = false

theorem lex_text {p : TypePart} (hp : p.Valid) {rest : List Char} (hrest : Parts rest) :
    lex (p.text.toList ++ rest) = (lex rest).map (p.lexeme :: ·) := by
  cases p with
  | bare w => exact lex_word hp hrest
  | quoted n => exact lex_quoteName (o := '\x22') rfl hp.1 hrest

theorem text_not_digit {p : TypePart} (hp : p.Valid) (rest : List Char) :
    startsWith Char.isDigit (p.text.toList ++ rest) = false := by
  cases p with
  | bare w =>
    obtain ⟨c, cs, hcs, hc, -⟩ := hp
    rw [text, hcs]
    exact isDigit_of_isWordStart hc
  | quoted n => simp [text, quoteName, startsWith]

end TypePart

/-! ## Spellings -/

/-- A type name taken apart. -/
structure TypeSpelling where
  first : TypePart
  more : List TypePart
  words : List String
  modifiers : List String

namespace TypeSpelling

/-- The further parts, each after its dot. -/
def moreText (ps : List TypePart) : String := String.join (ps.map fun p => "." ++ p.text)

/-- The words that continue the name, each after a blank. -/
def wordsText (ws : List String) : String := String.join (ws.map fun w => " " ++ w)

/-- The numbers in parentheses, when there are any. -/
def modifiersText (ms : List String) : String :=
  if ms.isEmpty then "" else "(" ++ ", ".intercalate ms ++ ")"

/-- The type name as it is kept. -/
def text (s : TypeSpelling) : String :=
  s.first.text ++ moreText s.more ++ wordsText s.words ++ modifiersText s.modifiers

/-- The numbers in parentheses as they are read. -/
def modifierLexemes (ms : List String) : List Lexeme :=
  if ms.isEmpty then []
  else .symbol .leftParen :: commaSep (ms.map fun m => [.number m]) ++ [.symbol .rightParen]

/-- The type name as it is read. -/
def lexemes (s : TypeSpelling) : List Lexeme :=
  s.first.lexeme :: (s.more.flatMap fun p => [.symbol .dot, p.lexeme])
    ++ s.words.map Lexeme.word ++ modifierLexemes s.modifiers

/-- The parts, words and numbers are what they claim to be. -/
structure Valid (s : TypeSpelling) : Prop where
  first : s.first.Valid
  more : ∀ p ∈ s.more, p.Valid
  words : ∀ w ∈ s.words, IsWord w ∧ nameIn w typeWords = true
  modifiers : ∀ m ∈ s.modifiers, IsNumber m

theorem moreText_cons (p : TypePart) (ps : List TypePart) :
    moreText (p :: ps) = "." ++ p.text ++ moreText ps := by
  apply String.toList_injective
  simp [moreText]

theorem wordsText_cons (w : String) (ws : List String) :
    wordsText (w :: ws) = " " ++ w ++ wordsText ws := by
  apply String.toList_injective
  simp [wordsText]

theorem lex_moreText {ps : List TypePart} (hps : ∀ p ∈ ps, p.Valid) {rest : List Char}
    (hrest : Parts rest) :
    Parts ((moreText ps).toList ++ rest)
      ∧ lex ((moreText ps).toList ++ rest)
        = (lex rest).map ((ps.flatMap fun p => [.symbol .dot, p.lexeme]) ++ ·) := by
  induction ps with
  | nil => exact ⟨hrest, by simp [moreText]⟩
  | cons p ps ih =>
    rw [List.forall_mem_cons] at hps
    obtain ⟨hparts, hlex⟩ := ih hps.2
    have htext : (moreText (p :: ps)).toList ++ rest
        = '.' :: (p.text.toList ++ ((moreText ps).toList ++ rest)) := by
      simp [moreText]
    rw [htext]
    refine ⟨by simp, ?_⟩
    rw [lex_dot (TypePart.text_not_digit hps.1 _), TypePart.lex_text hps.1 hparts, hlex,
      Option.map_map, Option.map_map]
    rfl

theorem lex_wordsText {ws : List String} (hws : ∀ w ∈ ws, IsWord w) {rest : List Char}
    (hrest : Parts rest) :
    Parts ((wordsText ws).toList ++ rest)
      ∧ lex ((wordsText ws).toList ++ rest) = (lex rest).map (ws.map Lexeme.word ++ ·) := by
  induction ws with
  | nil => exact ⟨hrest, by simp [wordsText]⟩
  | cons w ws ih =>
    rw [List.forall_mem_cons] at hws
    obtain ⟨hparts, hlex⟩ := ih hws.2
    have htext : (wordsText (w :: ws)).toList ++ rest
        = ' ' :: (w.toList ++ ((wordsText ws).toList ++ rest)) := by
      simp [wordsText]
    rw [htext]
    refine ⟨by simp; decide, ?_⟩
    rw [lex_space, lex_word hws.1 hparts, hlex, Option.map_map]
    rfl

theorem lex_numbers {ms : List String} (hms : ∀ m ∈ ms, IsNumber m) (hne : ms ≠ [])
    {rest : List Char} (hrest : Ends rest) :
    lex ((", ".intercalate ms).toList ++ rest)
      = (lex rest).map (commaSep (ms.map fun m => [.number m]) ++ ·) := by
  rw [String.toList_intercalate, show ", ".toList = [',', ' '] from rfl]
  induction ms with
  | nil => exact absurd rfl hne
  | cons m ms ih =>
    rw [List.forall_mem_cons] at hms
    cases ms with
    | nil =>
      rw [List.map_singleton, List.intercalate_singleton, lex_number hms.1 hrest]
      rfl
    | cons k ks =>
      rw [List.map_cons, List.map_cons, List.intercalate_cons_cons, List.append_assoc,
        List.append_assoc, ← List.map_cons]
      show lex (m.toList ++ ',' :: ' ' :: _) = _
      rw [lex_number hms.1 (by simp; decide), lex_comma, lex_space]
      have htail := ih hms.2 (by simp)
      simp only [List.nil_append, List.append_eq] at htail ⊢
      rw [htail, Option.map_map, Option.map_map]
      rfl

theorem lex_modifiersText {ms : List String} (hms : ∀ m ∈ ms, IsNumber m) {rest : List Char}
    (hrest : Parts rest) :
    Parts ((modifiersText ms).toList ++ rest)
      ∧ lex ((modifiersText ms).toList ++ rest) = (lex rest).map (modifierLexemes ms ++ ·) := by
  unfold modifiersText modifierLexemes
  cases ms with
  | nil => exact ⟨hrest, by simp⟩
  | cons m ms =>
    have hnumbers := @lex_numbers (m :: ms) hms (by simp) (')' :: rest) (by simp; decide)
    refine ⟨by simp; decide, ?_⟩
    simp only [List.isEmpty_cons, Bool.false_eq_true, if_false, String.toList_append,
      List.append_assoc]
    show lex ('(' :: ((", ".intercalate (m :: ms)).toList ++ ')' :: rest)) = _
    rw [lex_leftParen, hnumbers, lex_rightParen, Option.map_map, Option.map_map]
    congr 1

/-- **The text of a type name is read as its lexemes.** -/
theorem lex_text {s : TypeSpelling} (hs : s.Valid) {rest : List Char} (hrest : Parts rest) :
    lex (s.text.toList ++ rest) = (lex rest).map (s.lexemes ++ ·) := by
  obtain ⟨hparts₁, hmodifiers⟩ := lex_modifiersText hs.modifiers hrest
  obtain ⟨hparts₂, hwords⟩ := lex_wordsText (fun w hw => (hs.words w hw).1) hparts₁
  obtain ⟨hparts₃, hmore⟩ := lex_moreText hs.more hparts₂
  unfold text
  simp only [String.toList_append, List.append_assoc]
  rw [TypePart.lex_text hs.first hparts₃, hmore, hwords, hmodifiers, Option.map_map,
    Option.map_map, Option.map_map]
  congr 1
  funext ls
  simp [lexemes]

end TypeSpelling

/-- A type name that the reader keeps. -/
def IsTypeName (type : String) : Prop := ∃ s : TypeSpelling, s.Valid ∧ s.text = type

/-- The lexemes of a type name. -/
def typeLexemes (type : String) : List Lexeme := ((lex type.toList).getD []).dropLast

theorem TypeSpelling.typeLexemes_text {s : TypeSpelling} (hs : s.Valid) :
    typeLexemes s.text = s.lexemes := by
  have h := @lex_text s hs [] parts_nil
  rw [List.append_nil, lex_nil, Option.map_some] at h
  rw [typeLexemes, h, Option.getD_some, List.dropLast_concat]

theorem lex_typeName {type : String} (ht : IsTypeName type) {rest : List Char}
    (hrest : Parts rest) :
    lex (type.toList ++ rest) = (lex rest).map (typeLexemes type ++ ·) := by
  obtain ⟨s, hs, rfl⟩ := ht
  rw [TypeSpelling.lex_text hs hrest, TypeSpelling.typeLexemes_text hs]

end Sql
