import Sql.Token.Lexer

/-!
# Lexemes of a text

`lex` is what the tokens of a text are without their places. It is computed from the front: one
step of `scan` either drops something (`lex_skip`) or puts a lexeme in front of those of the rest
(`lex_token`). What a printed piece is read as depends on the text behind it only through its first
character; `Ends` says that a piece cannot grow into that text.

* `lex_word`, `lex_quoted`, `lex_string`, `lex_number`, `lex_param`: the pieces with a text of their
  own.
-/

namespace Sql

/-! ## Lexemes without places -/

/-- The lexemes of a text, the end included; none when the text has a fault. -/
def lex (cs : List Char) : Option (List Lexeme) :=
  (tokensFrom 0 cs).toOption.map (List.map Token.lexeme)

/-- The places of the tokens depend on the length of the whole text, their lexemes do not. -/
theorem lexemes_tokensFrom (total : Nat) (cs : List Char) :
    (tokensFrom total cs).toOption.map (List.map Token.lexeme) = lex cs := by
  unfold lex
  induction h : cs.length using Nat.strongRecOn generalizing cs with
  | ind n ih =>
    subst h
    cases cs with
    | nil =>
      rw [tokensFrom_nil, tokensFrom_nil]
      rfl
    | cons c cs =>
      have hshort := scan_shortens c cs
      rw [tokensFrom_cons, tokensFrom_cons]
      cases hscan : scan c cs with
      | fault place f => rfl
      | skip rest =>
        rw [hscan] at hshort
        exact ih rest.length hshort rest rfl
      | token l rest =>
        rw [hscan] at hshort
        have := ih rest.length hshort rest rfl
        simp only
        cases h₁ : tokensFrom total rest <;> cases h₂ : tokensFrom 0 rest <;>
          simp_all [Except.toOption]

theorem lex_nil : lex [] = some [.eof] := by
  rw [lex, tokensFrom_nil]
  rfl

theorem lex_skip {c : Char} {cs rest : List Char} (h : scan c cs = .skip rest) :
    lex (c :: cs) = lex rest := by
  rw [lex, tokensFrom_cons, h]
  rfl

theorem lex_token {c : Char} {cs rest : List Char} {l : Lexeme} (h : scan c cs = .token l rest) :
    lex (c :: cs) = (lex rest).map (l :: ·) := by
  rw [← lexemes_tokensFrom 0 rest, lex, tokensFrom_cons, h]
  dsimp only
  cases tokensFrom 0 rest <;> simp [Except.toOption]

/-! ## Classes of characters -/

namespace Text

/-- No range of one list meets a range of the other. -/
def rangesDisjoint (as bs : List CharRange) : Bool :=
  as.all fun a => bs.all fun b => decide (a.2 < b.1) || decide (b.2 < a.1)

theorem inRanges_of_disjoint {as bs : List CharRange} (h : rangesDisjoint as bs = true) {c : Char}
    (hc : inRanges as c = true) : inRanges bs c = false := by
  rw [Bool.eq_false_iff]
  intro hb
  obtain ⟨a, ha, ha₁, ha₂⟩ := inRanges_iff.mp hc
  obtain ⟨b, hb, hb₁, hb₂⟩ := inRanges_iff.mp hb
  have := List.all_eq_true.mp (List.all_eq_true.mp h a ha) b hb
  rw [Bool.or_eq_true, decide_eq_true_eq, decide_eq_true_eq] at this
  omega

/-- The ten digits. -/
def digitRange : List CharRange := [(0x0030, 0x0039)]

theorem inRanges_digitRange {c : Char} (h : c.isDigit = true) : inRanges digitRange c = true := by
  simp only [Char.isDigit, Bool.and_eq_true, decide_eq_true_eq] at h
  refine inRanges_iff.mpr ⟨_, List.mem_cons_self, ?_, ?_⟩
  · exact UInt32.le_iff_toNat_le.mp h.1
  · exact UInt32.le_iff_toNat_le.mp h.2

/-- What the tables say of one another: blanks are neither alphabetic nor numeric, and digits are
numeric but neither alphabetic nor blank. -/
theorem tables_disjoint :
    rangesDisjoint blankRanges alphabeticRanges = true
      ∧ rangesDisjoint blankRanges numericRanges = true
      ∧ rangesDisjoint digitRange alphabeticRanges = true
      ∧ rangesDisjoint digitRange blankRanges = true
      ∧ (0x0030, 0x0039) ∈ numericRanges := by
  decide +kernel

theorem isAlphabetic_of_isBlank {c : Char} (h : isBlank c = true) : isAlphabetic c = false :=
  inRanges_of_disjoint tables_disjoint.1 h

theorem isNumeric_of_isBlank {c : Char} (h : isBlank c = true) : isNumeric c = false :=
  inRanges_of_disjoint tables_disjoint.2.1 h

theorem isAlphabetic_of_isDigit {c : Char} (h : c.isDigit = true) : isAlphabetic c = false :=
  inRanges_of_disjoint tables_disjoint.2.2.1 (inRanges_digitRange h)

theorem isBlank_of_isDigit {c : Char} (h : c.isDigit = true) : isBlank c = false :=
  inRanges_of_disjoint tables_disjoint.2.2.2.1 (inRanges_digitRange h)

/-- A digit is a number of Unicode. -/
theorem isNumeric_of_isDigit {c : Char} (h : c.isDigit = true) : isNumeric c = true := by
  obtain ⟨r, hr, h₁, h₂⟩ := inRanges_iff.mp (inRanges_digitRange h)
  obtain rfl := List.mem_singleton.mp hr
  exact inRanges_iff.mpr ⟨_, tables_disjoint.2.2.2.2, h₁, h₂⟩

end Text

/-- The characters that start a symbol, a comment, a string, a quoted name or a parameter. -/
def marks : List Char := "-/\x27\x22\x60[].:@$?,()*+%<>=|;!".toList

/-- None of them starts a word, and only the dollar sign continues one. -/
theorem marks_wordStart : ∀ c ∈ marks, isWordStart c = false ∧ (c ≠ '$' → isWordChar c = false) := by
  have hall : marks.all (fun c => !isWordStart c && (c == '$' || !isWordChar c)) = true := by
    decide +kernel
  intro c hc
  have h := List.all_eq_true.mp hall c hc
  rw [Bool.and_eq_true, Bool.not_eq_true', Bool.or_eq_true, Bool.not_eq_true'] at h
  exact ⟨h.1, fun hne => h.2.resolve_left fun heq => hne (beq_iff_eq.mp heq)⟩

/-- A character after which a word, a name or a number is complete. -/
def isBreak (c : Char) : Bool :=
  Text.isBlank c || c == ',' || c == '(' || c == ')' || c == ':'

/-- No piece can grow into the text: it is empty or starts with a break. -/
def Ends (rest : List Char) : Prop := ∀ c ∈ rest.head?, isBreak c = true

/-- No name can grow into the text; a dot may follow. -/
def Parts (rest : List Char) : Prop := ∀ c ∈ rest.head?, isBreak c = true ∨ c = '.'

@[simp] theorem ends_nil : Ends [] := by simp [Ends]

@[simp] theorem ends_cons (c : Char) (cs : List Char) : Ends (c :: cs) ↔ isBreak c = true := by
  simp [Ends]

@[simp] theorem parts_nil : Parts [] := by simp [Parts]

@[simp] theorem parts_cons (c : Char) (cs : List Char) :
    Parts (c :: cs) ↔ isBreak c = true ∨ c = '.' := by
  simp [Parts]

theorem Ends.parts {rest : List Char} (h : Ends rest) : Parts rest := fun c hc => Or.inl (h c hc)

theorem isBlank_of_closingQuote? {o q : Char} (h : closingQuote? o = some q) :
    Text.isBlank o = false ∧ Text.isBlank q = false := by
  rcases closingQuote?_eq_some h with ⟨rfl, rfl⟩ | ⟨rfl, rfl⟩ | ⟨rfl, rfl⟩ <;> decide

/-- A closing quote is none of the characters that may follow a name. -/
theorem isBreak_of_closingQuote? {o q : Char} (h : closingQuote? o = some q) :
    isBreak q = false ∧ q ≠ '.' := by
  rcases closingQuote?_eq_some h with ⟨-, rfl⟩ | ⟨-, rfl⟩ | ⟨-, rfl⟩ <;> decide

theorem isBreak_of_isBlank {c : Char} (h : Text.isBlank c = true) : isBreak c = true := by
  simp [isBreak, h]

/-- What is true of blanks and of the four other breaks is true of every break. -/
theorem of_isBreak {p : Char → Prop} (hblank : ∀ c, Text.isBlank c = true → p c) (h₁ : p ',')
    (h₂ : p '(') (h₃ : p ')') (h₄ : p ':') {c : Char} (h : isBreak c = true) : p c := by
  simp only [isBreak, Bool.or_eq_true, beq_iff_eq] at h
  rcases h with (((h | rfl) | rfl) | rfl) | rfl
  · exact hblank c h
  · exact h₁
  · exact h₂
  · exact h₃
  · exact h₄

theorem isWordStart_of_isBlank {c : Char} (h : Text.isBlank c = true) : isWordStart c = false := by
  rw [isWordStart, Text.isAlphabetic_of_isBlank h, Bool.or_false, beq_eq_false_iff_ne]
  rintro rfl
  exact absurd h (by decide)

theorem isWordChar_of_isBlank {c : Char} (h : Text.isBlank c = true) : isWordChar c = false := by
  have hunder : c ≠ '_' := by
    rintro rfl
    exact absurd h (by decide)
  have hdollar : c ≠ '$' := by
    rintro rfl
    exact absurd h (by decide)
  simp [isWordChar, hunder, hdollar, Text.isAlphabetic_of_isBlank h, Text.isNumeric_of_isBlank h]

theorem isDigit_of_isBlank {c : Char} (h : Text.isBlank c = true) : c.isDigit = false := by
  rw [Bool.eq_false_iff]
  intro hd
  rw [Text.isBlank_of_isDigit hd] at h
  simp at h

theorem isWordChar_of_isBreak {c : Char} (h : isBreak c = true) : isWordChar c = false :=
  of_isBreak (fun _ => isWordChar_of_isBlank) ((marks_wordStart ',' (by decide)).2 (by decide))
    ((marks_wordStart '(' (by decide)).2 (by decide))
    ((marks_wordStart ')' (by decide)).2 (by decide))
    ((marks_wordStart ':' (by decide)).2 (by decide)) h

theorem isWordStart_of_isBreak {c : Char} (h : isBreak c = true) : isWordStart c = false :=
  of_isBreak (fun _ => isWordStart_of_isBlank) (marks_wordStart ',' (by decide)).1
    (marks_wordStart '(' (by decide)).1 (marks_wordStart ')' (by decide)).1
    (marks_wordStart ':' (by decide)).1 h

theorem isDigit_of_isBreak {c : Char} (h : isBreak c = true) : c.isDigit = false :=
  of_isBreak (fun _ => isDigit_of_isBlank) (by decide) (by decide) (by decide) (by decide) h

/-- A character that is no break is not among them. -/
theorem ne_of_isBreak {c d : Char} (h : isBreak c = true) (hd : isBreak d = false) : c ≠ d := by
  rintro rfl
  rw [h] at hd
  simp at hd

theorem Parts.not_wordChar {rest : List Char} (h : Parts rest) :
    startsWith isWordChar rest = false := by
  cases rest with
  | nil => rfl
  | cons c cs =>
    rw [startsWith]
    rcases (parts_cons c cs).mp h with hc | rfl
    · exact isWordChar_of_isBreak hc
    · exact (marks_wordStart '.' (by decide)).2 (by decide)

theorem Ends.not_digit {rest : List Char} (h : Ends rest) : startsWith Char.isDigit rest = false := by
  cases rest with
  | nil => rfl
  | cons c cs => exact isDigit_of_isBreak ((ends_cons c cs).mp h)

/-- A quote, say, does not follow. -/
theorem Parts.head_ne {rest : List Char} (h : Parts rest) {d : Char} (hd : isBreak d = false)
    (hdot : d ≠ '.') : rest.head? ≠ some d := by
  intro hhead
  rcases h d (by rw [hhead]; rfl) with hc | hc
  · rw [hd] at hc
    simp at hc
  · exact hdot hc

/-! ## Words -/

theorem ne_of_isWordStart {c d : Char} (h : isWordStart c = true) (hd : d ∈ marks) : c ≠ d := by
  rintro rfl
  rw [(marks_wordStart c hd).1] at h
  simp at h

theorem isBlank_of_isWordStart {c : Char} (h : isWordStart c = true) : Text.isBlank c = false := by
  rw [Bool.eq_false_iff]
  intro hblank
  rw [isWordStart_of_isBlank hblank] at h
  simp at h

theorem isDigit_of_isWordStart {c : Char} (h : isWordStart c = true) : c.isDigit = false := by
  rw [Bool.eq_false_iff]
  intro hdigit
  rw [isWordStart, Text.isAlphabetic_of_isDigit hdigit, Bool.or_false, beq_iff_eq] at h
  rw [h] at hdigit
  exact absurd hdigit (by decide)

theorem isWordChar_of_isWordStart {c : Char} (h : isWordStart c = true) : isWordChar c = true := by
  simp only [isWordStart, Bool.or_eq_true] at h
  rcases h with h | h <;> simp [isWordChar, h]

/-- Nothing but the class stops a reader that takes as much as it can. -/
theorem takeWhile_append_of_stop {p : Char → Bool} {cs rest : List Char} (hcs : cs.all p = true)
    (hrest : startsWith p rest = false) :
    (cs ++ rest).takeWhile p = cs ∧ (cs ++ rest).dropWhile p = rest := by
  induction cs with
  | nil =>
    cases rest with
    | nil => simp
    | cons c rest =>
      have hc : p c = false := hrest
      simp [hc]
  | cons c cs ih =>
    rw [List.all_cons, Bool.and_eq_true] at hcs
    simp [hcs.1, ih hcs.2]

theorem scan_word {c : Char} {cs : List Char} (hc : isWordStart c = true) :
    scan c cs = .token (.word (String.ofList (c :: cs.takeWhile isWordChar)))
      (cs.dropWhile isWordChar) := by
  have hdash : c ≠ '-' := ne_of_isWordStart hc (by decide)
  have hslash : c ≠ '/' := ne_of_isWordStart hc (by decide)
  have hquote : c ≠ '\x27' := ne_of_isWordStart hc (by decide)
  have hdouble : c ≠ '\x22' := ne_of_isWordStart hc (by decide)
  have hback : c ≠ '\x60' := ne_of_isWordStart hc (by decide)
  have hbracket : c ≠ '[' := ne_of_isWordStart hc (by decide)
  have hdot : c ≠ '.' := ne_of_isWordStart hc (by decide)
  have hclosing : closingQuote? c = none := by simp [closingQuote?, hdouble, hback, hbracket]
  simp [scan, isBlank_of_isWordStart hc, hdash, hslash, hquote, hclosing,
    isDigit_of_isWordStart hc, hdot, hc]

/-- The characters of a word: one that may start it, and others that may continue it. -/
def IsWord (w : String) : Prop :=
  ∃ c cs, w.toList = c :: cs ∧ isWordStart c = true ∧ cs.all isWordChar = true

theorem lex_word {w : String} (hw : IsWord w) {rest : List Char} (hrest : Parts rest) :
    lex (w.toList ++ rest) = (lex rest).map (.word w :: ·) := by
  obtain ⟨c, cs, hwcs, hc, hcs⟩ := hw
  obtain ⟨htake, hdrop⟩ := takeWhile_append_of_stop hcs hrest.not_wordChar
  rw [hwcs, List.cons_append, lex_token (scan_word hc), htake, hdrop, ← hwcs, String.ofList_toList]

/-! ## Blanks -/

theorem lex_blank {c : Char} (hc : Text.isBlank c = true) (cs : List Char) :
    lex (c :: cs) = lex cs :=
  lex_skip (by simp [scan, hc])

theorem lex_blanks {cs : List Char} (hcs : cs.all Text.isBlank = true) (rest : List Char) :
    lex (cs ++ rest) = lex rest := by
  induction cs with
  | nil => rfl
  | cons c cs ih =>
    rw [List.all_cons, Bool.and_eq_true] at hcs
    rw [List.cons_append, lex_blank hcs.1, ih hcs.2]

@[simp] theorem lex_space (cs : List Char) : lex (' ' :: cs) = lex cs := lex_blank (by decide) cs

/-! ## Between quotes -/

theorem doubled_single (q : Char) (cs : List Char) :
    doubled [q] 0 cs = cs.flatMap fun c => if c = q then [q, q] else [c] := by
  induction cs with
  | nil => rfl
  | cons c cs ih =>
    rw [doubled, List.flatMap_cons]
    by_cases hc : c = q
    · subst hc
      simp [ih]
    · have hc' : ¬ q = c := fun h => hc h.symm
      simp [hc, hc', ih]

/-- What is doubled on writing is read as one, and the quote that is alone ends the name. -/
theorem readQuoted_doubled (q : Char) (cs : List Char) {rest : List Char}
    (hrest : rest.head? ≠ some q) :
    readQuoted q (doubled [q] 0 cs ++ q :: rest) = some (cs, rest) := by
  rw [doubled_single]
  induction cs with
  | nil =>
    cases rest with
    | nil => simp [readQuoted]
    | cons d rest =>
      have hd : d ≠ q := by simpa using hrest
      simp [readQuoted, hd]
  | cons c cs ih =>
    rw [List.flatMap_cons, List.append_assoc]
    by_cases hc : c = q
    · rw [if_pos hc]
      show readQuoted q (q :: q :: _) = _
      simp [readQuoted, ih, hc]
    · rw [if_neg hc]
      -- what follows is not empty, since the closing quote is there
      obtain ⟨d, ds, hds⟩ : ∃ d ds,
          (cs.flatMap fun c => if c = q then [q, q] else [c]) ++ q :: rest = d :: ds := by
        cases (cs.flatMap fun c => if c = q then [q, q] else [c]) with
        | nil => exact ⟨_, _, rfl⟩
        | cons d ds => exact ⟨_, _, rfl⟩
      rw [List.singleton_append, hds, readQuoted, if_neg hc, ← hds, ih]
      rfl

theorem scan_string (v : String) {rest : List Char} (hrest : rest.head? ≠ some '\x27') :
    scan '\x27' (doubled ['\x27'] 0 v.toList ++ '\x27' :: rest) = .token (.string v) rest := by
  have hblank : Text.isBlank '\x27' = false := by decide
  simp [scan, hblank, readQuoted_doubled _ _ hrest]

theorem lex_string (v : String) {rest : List Char} (hrest : rest.head? ≠ some '\x27') :
    lex ('\x27' :: (doubled ['\x27'] 0 v.toList ++ '\x27' :: rest))
      = (lex rest).map (.string v :: ·) :=
  lex_token (scan_string v hrest)

theorem scan_quoted {o q : Char} (ho : closingQuote? o = some q) (hblank : Text.isBlank o = false)
    {n : String} (hn : n ≠ "") {rest : List Char} (hrest : rest.head? ≠ some q) :
    scan o (doubled [q] 0 n.toList ++ q :: rest) = .token (.quoted n) rest := by
  have hdash : o ≠ '-' := by
    rintro rfl
    simp [closingQuote?] at ho
  have hslash : o ≠ '/' := by
    rintro rfl
    simp [closingQuote?] at ho
  have hquote : o ≠ '\x27' := by
    rintro rfl
    simp [closingQuote?] at ho
  obtain ⟨c, cs, hcs⟩ := List.exists_cons_of_ne_nil (show n.toList ≠ [] by simpa using hn)
  have hname : String.ofList (c :: cs) = n := by rw [← hcs, String.ofList_toList]
  have hread := readQuoted_doubled q n.toList hrest
  have hscan : ∀ ds, scan o ds = scanName (o :: ds) q ds := by
    intro ds
    simp [scan, hblank, hdash, hslash, hquote, ho]
  rw [hscan, scanName, hread, hcs]
  show Scan.token (.quoted (String.ofList (c :: cs))) rest = _
  rw [hname]

theorem lex_quoted {o q : Char} (ho : closingQuote? o = some q) (hblank : Text.isBlank o = false)
    {n : String} (hn : n ≠ "") {rest : List Char} (hrest : rest.head? ≠ some q) :
    lex (o :: (doubled [q] 0 n.toList ++ q :: rest)) = (lex rest).map (.quoted n :: ·) :=
  lex_token (scan_quoted ho hblank hn hrest)

/-! ## Numbers -/

theorem takeWhile_append_rest {p : Char → Bool} {rest : List Char}
    (hrest : startsWith p rest = false) (cs : List Char) :
    (cs ++ rest).takeWhile p = cs.takeWhile p ∧ (cs ++ rest).dropWhile p = cs.dropWhile p ++ rest := by
  induction cs with
  | nil => simpa using takeWhile_append_of_stop (List.all_nil) hrest
  | cons c cs ih =>
    cases hc : p c with
    | true => simp [hc, ih]
    | false => simp [hc]

theorem startsWith_append {p : Char → Bool} {cs rest : List Char}
    (hrest : startsWith p rest = false) : startsWith p (cs ++ rest) = startsWith p cs := by
  cases cs with
  | nil => exact hrest
  | cons c cs => rfl

/-- A break, and the end, is none of the characters that a number looks for. -/
theorem Ends.not_starts {rest : List Char} (h : Ends rest) {p : Char → Bool}
    (hp : ∀ c, isBreak c = true → p c = false) : startsWith p rest = false := by
  cases rest with
  | nil => rfl
  | cons c cs => exact hp c ((ends_cons c cs).mp h)

theorem Ends.readPoint {rest : List Char} (h : Ends rest) (cs : List Char) :
    Sql.readPoint (cs ++ rest) = ((Sql.readPoint cs).1, (Sql.readPoint cs).2 ++ rest) := by
  have hdot : startsWith (· == '.') rest = false :=
    h.not_starts fun c hc => by simpa using ne_of_isBreak hc (by decide)
  cases cs with
  | nil =>
    cases rest with
    | nil => rfl
    | cons c rest =>
      have hc : c ≠ '.' := ne_of_isBreak ((ends_cons c rest).mp h) (by decide)
      simp [Sql.readPoint, hc]
  | cons c cs =>
    rw [List.cons_append, Sql.readPoint, Sql.readPoint, startsWith_append hdot]
    obtain ⟨htake, hdrop⟩ := takeWhile_append_rest h.not_digit cs
    split
    · rw [htake, hdrop]
    · rfl

theorem Ends.readSign {rest : List Char} (h : Ends rest) (cs : List Char) :
    Sql.readSign (cs ++ rest) = ((Sql.readSign cs).1, (Sql.readSign cs).2 ++ rest) := by
  cases cs with
  | nil =>
    cases rest with
    | nil => rfl
    | cons c rest =>
      have hbreak := (ends_cons c rest).mp h
      have hplus : c ≠ '+' := ne_of_isBreak hbreak (by decide)
      have hminus : c ≠ '-' := ne_of_isBreak hbreak (by decide)
      simp [Sql.readSign, hplus, hminus]
  | cons c cs =>
    rw [List.cons_append, Sql.readSign, Sql.readSign]
    split <;> rfl

theorem Ends.readPower {rest : List Char} (h : Ends rest) (cs : List Char) :
    Sql.readPower (cs ++ rest) = ((Sql.readPower cs).1, (Sql.readPower cs).2 ++ rest) := by
  cases cs with
  | nil =>
    cases rest with
    | nil => rfl
    | cons c rest =>
      have hbreak := (ends_cons c rest).mp h
      have hlower : c ≠ 'e' := ne_of_isBreak hbreak (by decide)
      have hupper : c ≠ 'E' := ne_of_isBreak hbreak (by decide)
      simp [Sql.readPower, hlower, hupper]
  | cons c cs =>
    rw [List.cons_append, Sql.readPower, Sql.readPower, h.readSign]
    obtain ⟨htake, hdrop⟩ := takeWhile_append_rest h.not_digit (Sql.readSign cs).2
    simp only [startsWith_append h.not_digit]
    split
    · rw [htake, hdrop]
    · rfl

/-- A number is read the same with a break behind it. -/
theorem Ends.readNumber {rest : List Char} (h : Ends rest) (cs : List Char) :
    Sql.readNumber (cs ++ rest) = ((Sql.readNumber cs).1, (Sql.readNumber cs).2 ++ rest) := by
  obtain ⟨htake, hdrop⟩ := takeWhile_append_rest h.not_digit cs
  simp only [Sql.readNumber, htake, hdrop, h.readPoint, h.readPower]

/-- The text of a number: it is read as a number as a whole. -/
def IsNumber (t : String) : Prop :=
  readNumber t.toList = (t.toList, [])
    ∧ ∃ c cs, t.toList = c :: cs ∧ (c.isDigit = true ∨ c = '.' ∧ startsWith Char.isDigit cs = true)

theorem closingQuote?_of_isDigit {c : Char} (hc : c.isDigit = true) : closingQuote? c = none := by
  have hne : ∀ d : Char, d.isDigit = false → c ≠ d := by
    rintro _ hd rfl
    rw [hc] at hd
    cases hd
  rw [closingQuote?, if_neg (hne _ (by decide)), if_neg (hne _ (by decide)),
    if_neg (hne _ (by decide))]

theorem lex_number {t : String} (ht : IsNumber t) {rest : List Char} (hrest : Ends rest) :
    lex (t.toList ++ rest) = (lex rest).map (.number t :: ·) := by
  obtain ⟨hread, c, cs, hcs, hc⟩ := ht
  have hstart : startsWith isWordStart rest = false :=
    hrest.not_starts fun _ => isWordStart_of_isBreak
  have hc' : c.isDigit = true ∨ c = '.' ∧ startsWith Char.isDigit (cs ++ rest) = true := by
    rwa [startsWith_append hrest.not_digit]
  have hnumber : scanNumber (c :: (cs ++ rest)) = .token (.number t) rest := by
    rw [scanNumber, ← List.cons_append, ← hcs, hrest.readNumber, hread]
    simp only [List.nil_append, hstart, Bool.false_eq_true, if_false, String.ofList_toList]
  have hplain : Text.isBlank c = false ∧ c ≠ '-' ∧ c ≠ '/' ∧ c ≠ '\x27' ∧ closingQuote? c = none := by
    rcases hc with hd | ⟨rfl, -⟩
    · refine ⟨Text.isBlank_of_isDigit hd, ?_, ?_, ?_, closingQuote?_of_isDigit hd⟩
      · rintro rfl
        exact absurd hd (by decide)
      · rintro rfl
        exact absurd hd (by decide)
      · rintro rfl
        exact absurd hd (by decide)
    · exact ⟨by decide, by decide, by decide, by decide, by decide⟩
  obtain ⟨hblank, hdash, hslash, hquote, hclosing⟩ := hplain
  rw [hcs, List.cons_append]
  refine lex_token ?_
  simp only [scan, hblank, hdash, hslash, hquote, hclosing, Bool.false_eq_true, false_and, if_false]
  rw [if_pos (by simpa using hc'), hnumber]

/-! ## Parameters -/

/-- The name of a parameter that is introduced by a colon or an at sign. -/
def IsParamName (n : String) : Prop :=
  ∃ c cs, n.toList = c :: cs ∧ (isWordStart c || c.isDigit) = true ∧ cs.all isWordChar = true

theorem lex_param {c : Char} (hc : c = ':' ∨ c = '@') {n : String} (hn : IsParamName n)
    {rest : List Char} (hrest : Parts rest) :
    lex (c :: (n.toList ++ rest)) = (lex rest).map (.param c (some n) :: ·) := by
  obtain ⟨d, ds, hds, hd, hall⟩ := hn
  have hdword : isWordChar d = true := by
    rw [Bool.or_eq_true] at hd
    rcases hd with hd | hd
    · exact isWordChar_of_isWordStart hd
    · simp [isWordChar, Text.isNumeric_of_isDigit hd]
  have hword : n.toList.all isWordChar = true := by
    rw [hds, List.all_cons, hdword, hall]
    rfl
  obtain ⟨htake, hdrop⟩ := takeWhile_append_of_stop hword hrest.not_wordChar
  have hstart : startsWith (fun d => isWordStart d || d.isDigit) (n.toList ++ rest) = true := by
    rw [hds]
    exact hd
  have hplain : Text.isBlank c = false ∧ c ≠ '-' ∧ c ≠ '/' ∧ c ≠ '\x27' ∧ closingQuote? c = none
      ∧ c.isDigit = false ∧ c ≠ '.' ∧ isWordStart c = false := by
    rcases hc with rfl | rfl
    · exact ⟨by decide, by decide, by decide, by decide, by decide, by decide, by decide,
        (marks_wordStart _ (by decide)).1⟩
    · exact ⟨by decide, by decide, by decide, by decide, by decide, by decide, by decide,
        (marks_wordStart _ (by decide)).1⟩
  obtain ⟨hblank, hdash, hslash, hquote, hclosing, hdigit, hdot, hword⟩ := hplain
  refine lex_token ?_
  simp only [scan, hblank, hdash, hslash, hquote, hclosing, hdigit, hdot, hword,
    Bool.false_eq_true, false_and, or_self, if_false]
  rw [if_pos ⟨hc, hstart⟩, htake, hdrop, String.ofList_toList]

/-! ## Symbols -/

/-- A character that starts nothing but a symbol, whatever follows. -/
def isSymbolStart (c : Char) : Bool :=
  marks.contains c && !Text.isBlank c && !c.isDigit && (closingQuote? c).isNone
    && !"-/\x27.:@$?".toList.contains c

theorem scan_symbol {c : Char} (hc : isSymbolStart c = true) {cs rest : List Char} {s : Symbol}
    (h : readSymbol c cs = some (s, rest)) : scan c cs = .token (.symbol s) rest := by
  simp only [isSymbolStart, Bool.and_eq_true, Bool.not_eq_true', Option.isNone_iff_eq_none] at hc
  obtain ⟨⟨⟨⟨hmark, hblank⟩, hdigit⟩, hclosing⟩, hspecial⟩ := hc
  have hword := (marks_wordStart c (List.contains_iff_mem.mp hmark)).1
  have hne : ∀ d ∈ "-/\x27.:@$?".toList, c ≠ d := by
    rintro d hd rfl
    rw [List.contains_iff_mem.mpr hd] at hspecial
    simp at hspecial
  have hdash : c ≠ '-' := hne _ (by decide)
  have hslash : c ≠ '/' := hne _ (by decide)
  have hquote : c ≠ '\x27' := hne _ (by decide)
  have hdot : c ≠ '.' := hne _ (by decide)
  have hcolon : c ≠ ':' := hne _ (by decide)
  have hat : c ≠ '@' := hne _ (by decide)
  have hdollar : c ≠ '$' := hne _ (by decide)
  have hquestion : c ≠ '?' := hne _ (by decide)
  simp [scan, hblank, hdigit, hword, hclosing, hdash, hslash, hquote, hdot, hcolon, hat, hdollar,
    hquestion, h]

@[simp] theorem lex_leftParen (cs : List Char) :
    lex ('(' :: cs) = (lex cs).map (.symbol .leftParen :: ·) :=
  lex_token (scan_symbol (by decide) rfl)

@[simp] theorem lex_rightParen (cs : List Char) :
    lex (')' :: cs) = (lex cs).map (.symbol .rightParen :: ·) :=
  lex_token (scan_symbol (by decide) rfl)

@[simp] theorem lex_comma (cs : List Char) : lex (',' :: cs) = (lex cs).map (.symbol .comma :: ·) :=
  lex_token (scan_symbol (by decide) rfl)

@[simp] theorem lex_star (cs : List Char) : lex ('*' :: cs) = (lex cs).map (.symbol .star :: ·) :=
  lex_token (scan_symbol (by decide) rfl)

/-- A dot is a symbol unless a digit follows. -/
theorem lex_dot {cs : List Char} (h : startsWith Char.isDigit cs = false) :
    lex ('.' :: cs) = (lex cs).map (.symbol .dot :: ·) := by
  have hblank : Text.isBlank '.' = false := by decide
  have hword : isWordStart '.' = false := (marks_wordStart _ (by decide)).1
  refine lex_token ?_
  have hsymbol : readSymbol '.' cs = some (.dot, cs) := rfl
  simp [scan, hblank, hword, closingQuote?, h, hsymbol]

theorem lex_doubleColon (cs : List Char) :
    lex (':' :: ':' :: cs) = (lex cs).map (.symbol .doubleColon :: ·) := by
  have hblank : Text.isBlank ':' = false := by decide
  have hword : isWordStart ':' = false := (marks_wordStart _ (by decide)).1
  refine lex_token ?_
  have hsymbol : readSymbol ':' (':' :: cs) = some (.doubleColon, cs) := rfl
  simp [scan, hblank, hword, closingQuote?, startsWith, hsymbol]

/-- A sign, unless what follows makes a comment or an arrow of it. -/
theorem lex_minus {cs : List Char} (hminus : cs.head? ≠ some '-') (hgt : cs.head? ≠ some '>') :
    lex ('-' :: cs) = (lex cs).map (.symbol .minus :: ·) := by
  have hblank : Text.isBlank '-' = false := by decide
  have hword : isWordStart '-' = false := (marks_wordStart _ (by decide)).1
  have hstart : startsWith (· == '-') cs = false := by
    cases cs with
    | nil => rfl
    | cons c cs => simpa [startsWith] using hminus
  have hsymbol : readSymbol '-' cs = some (.minus, cs) := by
    cases cs with
    | nil => rfl
    | cons c cs =>
      have hc : c ≠ '>' := by simpa using hgt
      simp [readSymbol, hc]
  refine lex_token ?_
  simp [scan, hblank, hword, closingQuote?, hstart, hsymbol]

theorem lex_plus (cs : List Char) : lex ('+' :: cs) = (lex cs).map (.symbol .plus :: ·) :=
  lex_token (scan_symbol (by decide) rfl)

end Sql
