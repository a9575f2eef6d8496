import Sql.Proofs.Lexing

/-!
# Lexemes in front of a divider

A parenthesis or a line break behind a text ends its last lexeme as the end of the text does, so the
text has the same lexemes in front of it. Only a comment that runs to the end of its line goes on
behind a parenthesis, if there is no such end (`endsInComment`).

* `skipComment_append`, `readQuoted_append`, `readSymbol_append`: the readers on a longer text.
* `scan_append`: one step in front of a divider.
* `lex_append_paren`: the whole text in front of a parenthesis.
-/

namespace Sql

/-! ## Readers on a longer text -/

theorem skipComment_append {depth : Nat} {cs left : List Char} (rest : List Char)
    (h : skipComment depth cs = some left) :
    skipComment depth (cs ++ rest) = some (left ++ rest) := by
  fun_induction skipComment depth cs with
  | case1 cs =>
    obtain rfl := Option.some.inj h
    rw [skipComment]
  | case2 => cases h
  | case3 => cases h
  | case4 depth a b cs hopens ih =>
    rw [List.cons_append, List.cons_append, skipComment, if_pos hopens]
    exact ih h
  | case5 depth a b cs hopens hcloses ih =>
    rw [List.cons_append, List.cons_append, skipComment, if_neg hopens, if_pos hcloses]
    exact ih h
  | case6 depth a b cs hopens hcloses ih =>
    rw [List.cons_append, List.cons_append, skipComment, if_neg hopens, if_neg hcloses]
    exact ih h

theorem readQuoted_append {close : Char} {cs s left rest : List Char}
    (h : readQuoted close cs = some (s, left)) (hrest : rest.head? ≠ some close) :
    readQuoted close (cs ++ rest) = some (s, left ++ rest) := by
  fun_induction readQuoted close cs generalizing s left with
  | case1 => cases h
  | case2 =>
    obtain ⟨rfl, rfl⟩ := Prod.mk.inj (Option.some.inj h)
    cases rest with
    | nil => simp [readQuoted]
    | cons d rest =>
      have hd : d ≠ close := by simpa using hrest
      simp [readQuoted, hd]
  | case3 => cases h
  | case4 cs ih =>
    obtain ⟨⟨s', left'⟩, h', h⟩ := Option.map_eq_some_iff.mp h
    obtain ⟨rfl, rfl⟩ := Prod.mk.inj h
    rw [List.cons_append, List.cons_append, readQuoted, if_pos rfl, if_pos rfl, ih h']
    rfl
  | case5 d cs hd =>
    obtain ⟨rfl, rfl⟩ := Prod.mk.inj (Option.some.inj h)
    rw [List.cons_append, List.cons_append, readQuoted, if_pos rfl, if_neg hd]
  | case6 c d cs hc ih =>
    obtain ⟨⟨s', left'⟩, h', h⟩ := Option.map_eq_some_iff.mp h
    obtain ⟨rfl, rfl⟩ := Prod.mk.inj h
    have hih := ih h'
    rw [List.cons_append] at hih
    rw [List.cons_append, List.cons_append, readQuoted, if_neg hc, hih]
    rfl

/-- A character that ends what stands in front of it and continues no symbol. -/
def IsDivider (p : Char) : Prop := isBreak p = true ∧ p ≠ ':'

theorem IsDivider.ends {p : Char} (hp : IsDivider p) (rest : List Char) : Ends (p :: rest) :=
  (ends_cons p rest).mpr hp.1

/-- The character is a parenthesis. -/
def IsParen (p : Char) : Prop := p = '(' ∨ p = ')'

theorem IsParen.isDivider {p : Char} (hp : IsParen p) : IsDivider p := by
  rcases hp with rfl | rfl <;> exact ⟨by decide, by decide⟩

theorem isDivider_newline : IsDivider '\n' := ⟨by decide, by decide⟩

theorem readSymbol_append {p c : Char} (hp : IsDivider p) {cs left : List Char} {s : Symbol}
    (rest : List Char) (h : readSymbol c cs = some (s, left)) :
    readSymbol c (cs ++ p :: rest) = some (s, left ++ p :: rest) := by
  have hgt : p ≠ '>' := ne_of_isBreak hp.1 (by decide)
  have heq : p ≠ '=' := ne_of_isBreak hp.1 (by decide)
  unfold readSymbol at h
  split at h
  case h_23 => cases h
  all_goals obtain ⟨rfl, rfl⟩ := Prod.mk.inj (Option.some.inj h)
  all_goals try rfl
  -- of two characters that may start a longer symbol, the second is none that continues it
  case h_8 cs hlong =>
    cases cs with
    | nil => simp [readSymbol, hgt]
    | cons d ds => simp_all [readSymbol]
  all_goals
    cases cs with
    | nil => simp [readSymbol, hgt, heq]
    | cons d ds => simp_all [readSymbol]

/-! ## One step on a longer text -/

/-- What stands at the front, with more text behind it. -/
def Scan.append (rest : List Char) : Scan → Scan
  | skip cs => skip (cs ++ rest)
  | token l cs => token l (cs ++ rest)
  | fault place f => fault (place ++ rest) f

/-- The text has no fault at its front. -/
def Scan.Succeeds : Scan → Prop
  | fault .. => False
  | _ => True

theorem scanName_append {place cs : List Char} {close : Char} {rest : List Char}
    (hrest : rest.head? ≠ some close) (h : (scanName place close cs).Succeeds) :
    scanName (place ++ rest) close (cs ++ rest) = (scanName place close cs).append rest := by
  unfold scanName at h ⊢
  cases hread : readQuoted close cs with
  | none =>
    rw [hread] at h
    cases h
  | some found =>
    obtain ⟨name, left⟩ := found
    rw [hread] at h
    rw [readQuoted_append hread hrest]
    cases name with
    | nil => cases h
    | cons c name => rfl

theorem scanNumber_append {cs rest : List Char} (hrest : Ends rest) :
    scanNumber (cs ++ rest) = (scanNumber cs).append rest := by
  have hstart : startsWith isWordStart rest = false :=
    hrest.not_starts fun _ => isWordStart_of_isBreak
  unfold scanNumber
  rw [hrest.readNumber]
  dsimp only
  rw [startsWith_append hstart]
  split <;> rfl

/-- A comment that runs to the end of its line, which is the end of the text. -/
def opensComment (c : Char) (cs : List Char) : Bool :=
  c == '-' && startsWith (· == '-') cs && !cs.contains '\n'

theorem dropWhile_append {p : Char → Bool} {cs : List Char} (rest : List Char)
    (h : ∃ c ∈ cs, p c = false) : (cs ++ rest).dropWhile p = cs.dropWhile p ++ rest := by
  induction cs with
  | nil => simp at h
  | cons c cs ih =>
    rw [List.cons_append, List.dropWhile_cons, List.dropWhile_cons]
    cases hc : p c with
    | false => simp
    | true =>
      obtain ⟨d, hd, hpd⟩ := h
      rcases List.mem_cons.mp hd with rfl | hd
      · rw [hc] at hpd
        cases hpd
      · simpa using ih ⟨d, hd, hpd⟩

/-- The line of a comment ends inside the text, or at the divider. -/
theorem dropLine_append {p : Char} {cs : List Char} (rest : List Char)
    (h : '\n' ∉ cs → p = '\n') :
    (cs ++ p :: rest).dropWhile (· ≠ '\n') = cs.dropWhile (· ≠ '\n') ++ p :: rest := by
  by_cases hnewline : '\n' ∈ cs
  · exact dropWhile_append _ ⟨'\n', hnewline, by decide⟩
  · obtain rfl := h hnewline
    exact (takeWhile_append_rest rfl cs).2

/-- **What stands at the front of a text also stands there if a divider follows the text,** unless
it is a comment that the end of the text ends and the divider does not. -/
theorem scan_append {p c : Char} (hp : IsDivider p) {cs : List Char} (rest : List Char)
    (h : (scan c cs).Succeeds) (hcomment : opensComment c cs = true → p = '\n') :
    scan c (cs ++ p :: rest) = (scan c cs).append (p :: rest) := by
  have hends : Ends (p :: rest) := hp.ends rest
  have hne : ∀ d, isBreak d = false → p ≠ d := fun d => ne_of_isBreak ((ends_cons p rest).mp hends)
  have hminus : startsWith (· == '-') (p :: rest) = false := beq_false_of_ne (hne '-' (by decide))
  have hstar : startsWith (· == '*') (p :: rest) = false := beq_false_of_ne (hne '*' (by decide))
  have hword : startsWith isWordChar (p :: rest) = false := hends.parts.not_wordChar
  have hparam : startsWith (fun d => isWordStart d || d.isDigit) (p :: rest) = false := by
    refine hends.not_starts fun d hd => ?_
    rw [isWordStart_of_isBreak hd, isDigit_of_isBreak hd]
    rfl
  -- a divider is a break, so that no run of characters goes on into it and all tests stay
  unfold scan at h ⊢
  rw [startsWith_append hminus, startsWith_append hstar, startsWith_append hends.not_digit,
    startsWith_append hparam, (takeWhile_append_rest hword cs).1,
    (takeWhile_append_rest hword cs).2, (takeWhile_append_rest hends.not_digit cs).1,
    (takeWhile_append_rest hends.not_digit cs).2]
  by_cases hblank : Text.isBlank c = true
  · simp only [if_pos hblank]
    rfl
  simp only [if_neg hblank] at h ⊢
  by_cases hline : c = '-' ∧ startsWith (· == '-') cs = true
  · simp only [if_pos hline]
    rw [dropLine_append rest fun hnone => hcomment (by simp [opensComment, hline, hnone])]
    rfl
  simp only [if_neg hline] at h ⊢
  by_cases hblock : c = '/' ∧ startsWith (· == '*') cs = true
  · simp only [if_pos hblock] at h ⊢
    have hdrop : (cs ++ p :: rest).drop 1 = cs.drop 1 ++ p :: rest := by
      cases cs with
      | nil => cases hblock.2
      | cons d cs => rfl
    rw [hdrop]
    cases hskip : skipComment 1 (cs.drop 1) with
    | none =>
      rw [hskip] at h
      cases h
    | some left =>
      rw [skipComment_append _ hskip]
      rfl
  simp only [if_neg hblock] at h ⊢
  by_cases hquote : c = '\x27'
  · simp only [if_pos hquote] at h ⊢
    cases hread : readQuoted '\x27' cs with
    | none =>
      rw [hread] at h
      cases h
    | some found =>
      rw [readQuoted_append hread (by simpa using hne '\x27' (by decide))]
      rfl
  simp only [if_neg hquote] at h ⊢
  cases hclosing : closingQuote? c with
  | some close =>
    rw [hclosing] at h
    have hother : (p :: rest).head? ≠ some close := by
      simpa using hne close (isBreak_of_closingQuote? hclosing).1
    exact scanName_append hother h
  | none =>
    rw [hclosing] at h
    dsimp only at h ⊢
    by_cases hnumber : c.isDigit = true ∨ c = '.' ∧ startsWith Char.isDigit cs = true
    · simp only [if_pos hnumber]
      rw [← List.cons_append]
      exact scanNumber_append hends
    simp only [if_neg hnumber] at h ⊢
    by_cases hstart : isWordStart c = true
    · simp only [if_pos hstart]
      rfl
    simp only [if_neg hstart] at h ⊢
    by_cases hnamed : (c = ':' ∨ c = '@')
        ∧ startsWith (fun d => isWordStart d || d.isDigit) cs = true
    · simp only [if_pos hnamed]
      rfl
    simp only [if_neg hnamed] at h ⊢
    by_cases hindexed : c = '$' ∧ startsWith Char.isDigit cs = true
    · simp only [if_pos hindexed]
      rfl
    simp only [if_neg hindexed] at h ⊢
    by_cases hanonymous : c = '?'
    · simp only [if_pos hanonymous]
      rfl
    simp only [if_neg hanonymous] at h ⊢
    cases hsymbol : readSymbol c cs with
    | none =>
      rw [hsymbol] at h
      cases h
    | some found =>
      rw [readSymbol_append hp rest hsymbol]
      rfl

/-! ## The whole text -/

/-- The text ends inside a comment that runs to the end of its line. -/
def endsInComment (cs : List Char) : Bool :=
  match cs with
  | [] => false
  | c :: cs =>
    opensComment c cs ||
      match _h : scan c cs with
      | .skip rest => endsInComment rest
      | .token _ rest => endsInComment rest
      | .fault .. => false
termination_by cs.length
decreasing_by
  · have := scan_shortens c cs
    rw [_h] at this
    exact this
  · have := scan_shortens c cs
    rw [_h] at this
    exact this

theorem scan_ne_eof {c : Char} {cs rest : List Char} {l : Lexeme} (h : scan c cs = .token l rest) :
    l ≠ .eof := by
  rintro rfl
  unfold scan scanName scanNumber at h
  repeat' split at h
  all_goals simp at h

theorem lex_fault {c : Char} {cs place : List Char} {f : LexFault}
    (h : scan c cs = .fault place f) : lex (c :: cs) = none := by
  rw [lex, tokensFrom_cons, h]
  rfl

/-- **The lexemes of a text stay the same in front of a parenthesis,** unless the text ends inside a
comment. -/
theorem lex_append_paren {p : Char} (hp : IsParen p) (cs rest : List Char) {ls : List Lexeme}
    (h : lex cs = some ls) (hcomment : endsInComment cs = false) :
    ∃ ks, ls = ks ++ [.eof] ∧ .eof ∉ ks
      ∧ lex (cs ++ p :: rest) = (lex (p :: rest)).map fun ms => ks ++ ms := by
  induction hn : cs.length using Nat.strongRecOn generalizing cs ls with
  | ind n ih =>
    subst hn
    cases cs with
    | nil =>
      obtain rfl := Option.some.inj (lex_nil.symm.trans h)
      exact ⟨[], rfl, by simp, by simp⟩
    | cons c cs =>
      have hshort := scan_shortens c cs
      -- the first step opens no comment that the end of the text ends, and no later step does
      rw [endsInComment, Bool.or_eq_false_iff] at hcomment
      obtain ⟨hopens, hcomment⟩ := hcomment
      cases hscan : scan c cs with
      | fault place f =>
        rw [lex_fault hscan] at h
        cases h
      | skip left =>
        rw [hscan] at hshort hcomment
        have hlonger := scan_append hp.isDivider rest (by rw [hscan]; trivial) (by simp [hopens])
        rw [hscan] at hlonger
        rw [lex_skip hscan] at h
        rw [List.cons_append, lex_skip hlonger]
        exact ih left.length hshort left h hcomment rfl
      | token l left =>
        rw [hscan] at hshort hcomment
        have hlonger := scan_append hp.isDivider rest (by rw [hscan]; trivial) (by simp [hopens])
        rw [hscan] at hlonger
        rw [lex_token hscan] at h
        obtain ⟨ls', hls', rfl⟩ := Option.map_eq_some_iff.mp h
        obtain ⟨ks, rfl, hks, hlex⟩ := ih left.length hshort left hls' hcomment rfl
        refine ⟨l :: ks, rfl, ?_, ?_⟩
        · simp [hks, (scan_ne_eof hscan).symm]
        · rw [List.cons_append, lex_token hlonger, hlex, Option.map_map]
          rfl

end Sql
