import Sql.Error
import Sql.Name.Quoted
import Sql.Text.Alphabetic
import Sql.Text.Blank
import Sql.Text.Numeric
import Sql.Token

/-!
# From text to tokens

`scan` reads what stands at the front of a text: a blank or comment, which is dropped, or one
token. It always leaves a shorter text (`scan_shortens`), so repeating it ends. The place of
a token is known from the text that is left when it starts: the total number of bytes less the
bytes that are left.

Comments run from two hyphens to the end of the line, or between `/*` and `*/`, nested. Strings and
quoted names end at a quote that is not doubled. A number may end in a point or have an exponent,
and no name may touch it.
-/

namespace Sql

/-! ## Character classes -/

/-- A character that may start a word. -/
def isWordStart (c : Char) : Bool := c == '_' || Text.isAlphabetic c

/-- A character that may continue a word. -/
def isWordChar (c : Char) : Bool :=
  c == '_' || c == '$' || Text.isAlphabetic c || Text.isNumeric c

/-- The text starts with a character of the class. -/
def startsWith (p : Char → Bool) : List Char → Bool
  | [] => false
  | c :: _ => p c

/-! ## Readers -/

/-- Why a text has no tokens. -/
inductive LexFault
  | unterminatedComment
  | unterminatedString
  | unterminatedName
  | emptyName
  | letterInNumber
  | unexpected (c : Char)
deriving DecidableEq, Repr

/-- The message of a fault. -/
def LexFault.message : LexFault → String
  | unterminatedComment => "unterminated block comment"
  | unterminatedString => "unterminated string literal"
  | unterminatedName => "unterminated quoted identifier"
  | emptyName => "empty quoted identifier"
  | letterInNumber => "invalid character in number"
  | unexpected c => "unexpected character '" ++ String.singleton c ++ "'"

/-- The text after a block comment of which so many levels are open. -/
def skipComment : Nat → List Char → Option (List Char)
  | 0, cs => some cs
  | _ + 1, [] => none
  | _ + 1, [_] => none
  | depth + 1, a :: b :: cs =>
    if a = '/' ∧ b = '*' then skipComment (depth + 2) cs
    else if a = '*' ∧ b = '/' then skipComment depth cs
    else skipComment (depth + 1) (b :: cs)

/-- What stands before the closing quote, a doubled quote standing for one, and the text after. -/
def readQuoted (close : Char) : List Char → Option (List Char × List Char)
  | [] => none
  | [c] => if c = close then some ([], []) else none
  | c :: d :: cs =>
    if c = close then
      if d = close then (readQuoted close cs).map fun (s, rest) => (close :: s, rest)
      else some ([], d :: cs)
    else (readQuoted close (d :: cs)).map fun (s, rest) => (c :: s, rest)

/-- A decimal point and the digits after it, unless a second point follows. -/
def readPoint : List Char → List Char × List Char
  | [] => ([], [])
  | c :: cs =>
    if c = '.' ∧ startsWith (· == '.') cs = false then
      (c :: cs.takeWhile Char.isDigit, cs.dropWhile Char.isDigit)
    else ([], c :: cs)

/-- A sign, when there is one. -/
def readSign : List Char → List Char × List Char
  | [] => ([], [])
  | c :: cs => if c = '+' ∨ c = '-' then ([c], cs) else ([], c :: cs)

/-- The exponent of a number, when it has digits. -/
def readPower : List Char → List Char × List Char
  | [] => ([], [])
  | c :: cs =>
    let (sign, rest) := readSign cs
    if (c = 'e' ∨ c = 'E') ∧ startsWith Char.isDigit rest then
      (c :: sign ++ rest.takeWhile Char.isDigit, rest.dropWhile Char.isDigit)
    else ([], c :: cs)

/-- The characters of a number: digits, point, exponent. -/
def readNumber (cs : List Char) : List Char × List Char :=
  let (point, rest) := readPoint (cs.dropWhile Char.isDigit)
  let (power, rest) := readPower rest
  (cs.takeWhile Char.isDigit ++ point ++ power, rest)

/-- The symbol at the front of a text; of two that fit, the longer. -/
def readSymbol : Char → List Char → Option (Symbol × List Char)
  | ':', ':' :: cs => some (.doubleColon, cs)
  | '<', '>' :: cs => some (.notEq, cs)
  | '!', '=' :: cs => some (.notEq, cs)
  | '<', '=' :: cs => some (.ltEq, cs)
  | '>', '=' :: cs => some (.gtEq, cs)
  | '|', '|' :: cs => some (.concat, cs)
  | '-', '>' :: '>' :: cs => some (.longArrow, cs)
  | '-', '>' :: cs => some (.arrow, cs)
  | '=', '=' :: cs => some (.eq, cs)
  | '(', cs => some (.leftParen, cs)
  | ')', cs => some (.rightParen, cs)
  | ',', cs => some (.comma, cs)
  | '.', cs => some (.dot, cs)
  | ';', cs => some (.semicolon, cs)
  | '*', cs => some (.star, cs)
  | '+', cs => some (.plus, cs)
  | '-', cs => some (.minus, cs)
  | '/', cs => some (.slash, cs)
  | '%', cs => some (.percent, cs)
  | '=', cs => some (.eq, cs)
  | '<', cs => some (.lt, cs)
  | '>', cs => some (.gt, cs)
  | _, _ => none

/-! ## One step -/

/-- What stands at the front of a text. -/
inductive Scan
  /-- Nothing that counts; the rest of the text follows. -/
  | skip (rest : List Char)
  /-- A token; the rest of the text follows. -/
  | token (l : Lexeme) (rest : List Char)
  /-- A fault, at the start of the given rest. -/
  | fault (place : List Char) (f : LexFault)

/-- A quoted name after its opening quote, or the fault at the opening quote. -/
def scanName (place : List Char) (close : Char) (cs : List Char) : Scan :=
  match readQuoted close cs with
  | none => .fault place .unterminatedName
  | some ([], _) => .fault place .emptyName
  | some (name, rest) => .token (.quoted (String.ofList name)) rest

/-- A number, or the fault at the letter that touches it. -/
def scanNumber (cs : List Char) : Scan :=
  let (number, rest) := readNumber cs
  if startsWith isWordStart rest then .fault rest .letterInNumber
  else .token (.number (String.ofList number)) rest

/-- What stands at the front of a text, given its first character. -/
def scan (c : Char) (cs : List Char) : Scan :=
  if Text.isBlank c then .skip cs
  -- comments go before the operators that start with the same character
  else if c = '-' ∧ startsWith (· == '-') cs then .skip (cs.dropWhile (· ≠ '\n'))
  else if c = '/' ∧ startsWith (· == '*') cs then
    match skipComment 1 (cs.drop 1) with
    | none => .fault (c :: cs) .unterminatedComment
    | some rest => .skip rest
  else if c = '\x27' then
    match readQuoted '\x27' cs with
    | none => .fault (c :: cs) .unterminatedString
    | some (s, rest) => .token (.string (String.ofList s)) rest
  else
    match closingQuote? c with
    | some close => scanName (c :: cs) close cs
    | none =>
      -- a point starts a number only when a digit follows; else it divides names
      if c.isDigit ∨ c = '.' ∧ startsWith Char.isDigit cs then scanNumber (c :: cs)
      else if isWordStart c then
        .token (.word (String.ofList (c :: cs.takeWhile isWordChar))) (cs.dropWhile isWordChar)
      else if (c = ':' ∨ c = '@') ∧ startsWith (fun d => isWordStart d || d.isDigit) cs then
        .token (.param c (some (String.ofList (cs.takeWhile isWordChar)))) (cs.dropWhile isWordChar)
      -- only an index follows a dollar sign, so a name after it starts a token of its own
      else if c = '$' ∧ startsWith Char.isDigit cs then
        .token (.param c (some (String.ofList (cs.takeWhile Char.isDigit))))
          (cs.dropWhile Char.isDigit)
      else if c = '?' then .token (.param c none) cs
      else
        match readSymbol c cs with
        | some (s, rest) => .token (.symbol s) rest
        | none => .fault (c :: cs) (.unexpected c)

/-! ## A step leaves a shorter text -/

theorem length_dropWhile_le {α : Type} (p : α → Bool) (l : List α) :
    (l.dropWhile p).length ≤ l.length :=
  (List.dropWhile_suffix p).length_le

theorem length_skipComment_le {depth : Nat} {cs rest : List Char}
    (h : skipComment depth cs = some rest) : rest.length ≤ cs.length := by
  fun_induction skipComment depth cs with
  | case1 cs => simp_all
  | case2 => simp at h
  | case3 => simp at h
  | case4 _ _ _ _ _ ih => have := ih h; simp only [List.length_cons]; omega
  | case5 _ _ _ _ _ _ ih => have := ih h; simp only [List.length_cons]; omega
  | case6 _ _ _ _ _ _ ih => have := ih h; simp only [List.length_cons] at *; omega

theorem length_readQuoted_lt {close : Char} {cs s rest : List Char}
    (h : readQuoted close cs = some (s, rest)) : rest.length < cs.length := by
  fun_induction readQuoted close cs generalizing s rest with
  | case1 => simp at h
  | case2 => simp_all
  | case3 => simp_all
  | case4 cs ih =>
    obtain ⟨⟨s', rest'⟩, h', h⟩ := Option.map_eq_some_iff.1 h
    have := ih h'
    simp only [Prod.mk.injEq] at h
    obtain ⟨-, rfl⟩ := h
    simp only [List.length_cons]; omega
  | case5 d cs =>
    simp only [Option.some.injEq, Prod.mk.injEq] at h
    obtain ⟨-, rfl⟩ := h
    simp
  | case6 c d cs _ ih =>
    obtain ⟨⟨s', rest'⟩, h', h⟩ := Option.map_eq_some_iff.1 h
    have := ih h'
    simp only [Prod.mk.injEq] at h
    obtain ⟨-, rfl⟩ := h
    simp only [List.length_cons] at *; omega

theorem readPoint_append (cs : List Char) : (readPoint cs).1 ++ (readPoint cs).2 = cs := by
  fun_cases readPoint cs <;> simp_all

theorem readSign_append (cs : List Char) : (readSign cs).1 ++ (readSign cs).2 = cs := by
  fun_cases readSign cs <;> simp_all

theorem readPower_append (cs : List Char) : (readPower cs).1 ++ (readPower cs).2 = cs := by
  fun_cases readPower cs with
  | case1 => rfl
  | case2 c cs sign rest hs h =>
    have := readSign_append cs
    rw [hs] at this
    simp [← this]
  | case3 => rfl

/-- A number and the text after it make up the whole text. -/
theorem readNumber_append (cs : List Char) : (readNumber cs).1 ++ (readNumber cs).2 = cs := by
  have h₁ := readPoint_append (cs.dropWhile Char.isDigit)
  have h₂ := readPower_append (readPoint (cs.dropWhile Char.isDigit)).2
  simp only [readNumber, List.append_assoc, h₂, h₁, List.takeWhile_append_dropWhile]

theorem length_readSymbol_le {c : Char} {cs rest : List Char} {s : Symbol}
    (h : readSymbol c cs = some (s, rest)) : rest.length ≤ cs.length := by
  unfold readSymbol at h
  split at h <;> simp only [Option.some.injEq, Prod.mk.injEq, reduceCtorEq] at h <;>
    obtain ⟨-, rfl⟩ := h <;> simp +arith

namespace Scan

/-- The text that is left is shorter than the text that was read. -/
def Shortens (n : Nat) : Scan → Prop
  | skip rest => rest.length < n
  | token _ rest => rest.length < n
  | fault .. => True

end Scan

theorem scanName_shortens (place : List Char) (close : Char) (cs : List Char) :
    (scanName place close cs).Shortens (cs.length + 1) := by
  unfold scanName
  split
  · trivial
  · trivial
  · next h => exact Nat.lt_succ_of_lt (length_readQuoted_lt h)

theorem readNumber_fst_ne_nil {c : Char} {cs : List Char}
    (h : c.isDigit ∨ c = '.' ∧ startsWith Char.isDigit cs) : (readNumber (c :: cs)).1 ≠ [] := by
  by_cases hd : c.isDigit
  · simp [readNumber, hd]
  · obtain ⟨rfl, h⟩ := h.resolve_left (by simpa using hd)
    cases cs with
    | nil => simp [startsWith] at h
    | cons d ds =>
      have hdot : (d == '.') = false := by
        cases hd' : d == '.' with
        | false => rfl
        | true =>
          rw [beq_iff_eq.1 hd'] at h
          simp [startsWith, Char.isDigit] at h
      simp [readNumber, hd, readPoint, startsWith, hdot]

theorem scan_shortens (c : Char) (cs : List Char) : (scan c cs).Shortens (cs.length + 1) := by
  unfold scan
  split
  · exact Nat.lt_succ_self _
  split
  · exact Nat.lt_succ_of_le (length_dropWhile_le _ _)
  split
  · split
    · trivial
    · next h =>
      have := length_skipComment_le h
      simp only [List.length_drop] at this
      simp only [Scan.Shortens]; omega
  split
  · split
    · trivial
    · next h => exact Nat.lt_succ_of_lt (length_readQuoted_lt h)
  split
  · exact scanName_shortens _ _ _
  split
  · next h =>
    simp only [scanNumber]
    split
    · trivial
    · have hne := readNumber_fst_ne_nil (by simpa using h)
      have happ := congrArg List.length (readNumber_append (c :: cs))
      have hpos := List.length_pos_iff.2 hne
      simp only [List.length_append, List.length_cons] at happ
      simp only [Scan.Shortens]; omega
  split
  · exact Nat.lt_succ_of_le (length_dropWhile_le _ _)
  split
  · exact Nat.lt_succ_of_le (length_dropWhile_le _ _)
  split
  · exact Nat.lt_succ_of_le (length_dropWhile_le _ _)
  split
  · exact Nat.lt_succ_self _
  split
  · next h => exact Nat.lt_succ_of_le (length_readSymbol_le h)
  · trivial

/-! ## The whole text -/

/-- The number of bytes of the characters. -/
def byteCount : List Char → Nat
  | [] => 0
  | c :: cs => c.utf8Size + byteCount cs

/-- A fault and the byte offset it is reported at. -/
structure LexFailure where
  offset : Nat
  fault : LexFault
deriving DecidableEq, Repr

/-- The tokens of the last part of a text of so many bytes. The list ends with `eof`. -/
def tokensFrom (total : Nat) (cs : List Char) : Except LexFailure (List Token) :=
  match cs with
  | [] => .ok [⟨.eof, total⟩]
  | c :: cs =>
    match _h : scan c cs with
    | .skip rest => tokensFrom total rest
    | .fault place f => .error ⟨total - byteCount place, f⟩
    | .token l rest =>
      match tokensFrom total rest with
      | .ok ts => .ok (⟨l, total - byteCount (c :: cs)⟩ :: ts)
      | .error e => .error e
termination_by cs.length
decreasing_by
  · have := scan_shortens c cs; rw [_h] at this; exact this
  · have := scan_shortens c cs; rw [_h] at this; exact this

theorem tokensFrom_nil (total : Nat) : tokensFrom total [] = .ok [⟨.eof, total⟩] := by
  rw [tokensFrom]

theorem tokensFrom_cons (total : Nat) (c : Char) (cs : List Char) :
    tokensFrom total (c :: cs) = match scan c cs with
      | .skip rest => tokensFrom total rest
      | .fault place f => .error ⟨total - byteCount place, f⟩
      | .token l rest =>
        match tokensFrom total rest with
        | .ok ts => .ok (⟨l, total - byteCount (c :: cs)⟩ :: ts)
        | .error e => .error e := by
  rw [tokensFrom]
  cases scan c cs with
  | skip rest => rfl
  | token l rest => rfl
  | fault place f => rfl

/-- The tokens of a text. -/
def tokens (cs : List Char) : Except LexFailure (List Token) := tokensFrom (byteCount cs) cs

/-- The tokens of a text; a fault is placed by line and column. -/
def tokenize (text : String) : Except Error (List Token) :=
  match tokens text.toList with
  | .ok ts => .ok ts
  | .error e => .error (Error.inText text e.offset e.fault.message)

end Sql
