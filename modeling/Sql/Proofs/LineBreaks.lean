import Sql.Proofs.LexInFront
import Sql.Proofs.TextPositions

/-!
# Lines are read one by one

Behind a text that has tokens there may be a line break and any other text: no step of the lexer
looks across the break, so the tokens of the first text stand in front of those of the second, and a
fault of the second text is the same fault further down (`ReadsBelow`).

* `filler_iff`: the texts without tokens are those that consist of blanks and comments (`Filler`).
* `tokens_append_newline`: the tokens of two texts with a line break between them.
* `tokenize_lines`: the same with places and faults, and with blanks and comments in between.
-/

namespace Sql

/-! ## Blanks and comments -/

/-- The text up to the end of a block comment of which so many levels are open. -/
inductive Closes : Nat → List Char → Prop
  | done : Closes 0 []
  | opens {n : Nat} {cs : List Char} (h : Closes (n + 2) cs) : Closes (n + 1) ('/' :: '*' :: cs)
  | closes {n : Nat} {cs : List Char} (h : Closes n cs) : Closes (n + 1) ('*' :: '/' :: cs)
  | other {n : Nat} {c d : Char} {cs : List Char} (hopens : ¬(c = '/' ∧ d = '*'))
      (hcloses : ¬(c = '*' ∧ d = '/')) (h : Closes (n + 1) (d :: cs)) : Closes (n + 1) (c :: d :: cs)

/-- Blanks and comments. A comment runs to the end of its line, or is closed. -/
inductive Filler : List Char → Prop
  | nil : Filler []
  | blank {c : Char} {cs : List Char} (hc : Text.isBlank c = true) (h : Filler cs) : Filler (c :: cs)
  | line {w cs : List Char} (hw : '\n' ∉ w) (hcs : ∀ c ∈ cs.head?, c = '\n') (h : Filler cs) :
      Filler ('-' :: '-' :: (w ++ cs))
  | block {w cs : List Char} (hw : Closes 1 w) (h : Filler cs) : Filler ('/' :: '*' :: (w ++ cs))

theorem skipComment_eq_some {depth : Nat} {cs rest : List Char} :
    skipComment depth cs = some rest ↔ ∃ w, cs = w ++ rest ∧ Closes depth w := by
  constructor
  · intro h
    fun_induction skipComment depth cs with
    | case1 cs => exact ⟨[], by simpa using h, .done⟩
    | case2 => cases h
    | case3 => cases h
    | case4 depth a b cs hopens ih =>
      obtain ⟨rfl, rfl⟩ := hopens
      obtain ⟨w, rfl, hw⟩ := ih h
      exact ⟨_, rfl, .opens hw⟩
    | case5 depth a b cs hopens hcloses ih =>
      obtain ⟨rfl, rfl⟩ := hcloses
      obtain ⟨w, rfl, hw⟩ := ih h
      exact ⟨_, rfl, .closes hw⟩
    | case6 depth a b cs hopens hcloses ih =>
      obtain ⟨w, hcs, hw⟩ := ih h
      -- the empty text closes no comment that is open
      cases w with
      | nil => cases hw
      | cons d w =>
        obtain ⟨rfl, rfl⟩ := List.cons.inj hcs
        exact ⟨_, rfl, .other hopens hcloses hw⟩
  · rintro ⟨w, rfl, hw⟩
    induction hw with
    | done => rw [List.nil_append, skipComment]
    | opens h ih => rwa [List.cons_append, List.cons_append, skipComment, if_pos ⟨rfl, rfl⟩]
    | closes h ih =>
      rwa [List.cons_append, List.cons_append, skipComment, if_neg (by decide), if_pos ⟨rfl, rfl⟩]
    | other hopens hcloses h ih =>
      rwa [List.cons_append, List.cons_append, skipComment, if_neg hopens, if_neg hcloses]

/-- What the lexer skips in one step. -/
theorem scan_eq_skip {c : Char} {cs rest : List Char} (h : scan c cs = .skip rest) :
    (Text.isBlank c = true ∧ rest = cs)
      ∨ (c = '-' ∧ startsWith (· == '-') cs = true ∧ rest = cs.dropWhile (· ≠ '\n'))
      ∨ (c = '/' ∧ startsWith (· == '*') cs = true ∧ skipComment 1 (cs.drop 1) = some rest) := by
  unfold scan scanName scanNumber at h
  split at h
  · next hblank => exact Or.inl ⟨hblank, (Scan.skip.inj h).symm⟩
  split at h
  · next hline => exact Or.inr (Or.inl ⟨hline.1, hline.2, (Scan.skip.inj h).symm⟩)
  split at h
  · next hblock =>
    split at h
    · cases h
    · next hskip =>
      obtain rfl := Scan.skip.inj h
      exact Or.inr (Or.inr ⟨hblock.1, hblock.2, hskip⟩)
  repeat' split at h
  all_goals cases h

/-- A text that starts with a character is the character and the rest. -/
theorem exists_cons_of_startsWith {p : Char → Bool} {cs : List Char} (h : startsWith p cs = true) :
    ∃ d ds, cs = d :: ds ∧ p d = true := by
  cases cs with
  | nil => cases h
  | cons d ds => exact ⟨d, ds, rfl, h⟩

theorem Filler.of_scan {c : Char} {cs rest : List Char} (h : scan c cs = .skip rest)
    (hrest : Filler rest) : Filler (c :: cs) := by
  rcases scan_eq_skip h with ⟨hblank, rfl⟩ | ⟨rfl, hstart, rfl⟩ | ⟨rfl, hstart, hskip⟩
  · exact .blank hblank hrest
  · obtain ⟨d, ds, rfl, hd⟩ := exists_cons_of_startsWith hstart
    obtain rfl := beq_iff_eq.mp hd
    have hdash : ('-' :: ds).dropWhile (· ≠ '\n') = ds.dropWhile (· ≠ '\n') := by simp
    rw [hdash] at hrest
    rw [← List.takeWhile_append_dropWhile (p := (· ≠ '\n')) (l := ds)]
    refine .line ?_ ?_ hrest
    · intro hmem
      simpa using List.all_eq_true.mp List.all_takeWhile _ hmem
    · intro e he
      have := List.head?_dropWhile_not (· ≠ '\n') ds
      rw [Option.mem_def] at he
      rw [he] at this
      simpa using this
  · obtain ⟨d, ds, rfl, hd⟩ := exists_cons_of_startsWith hstart
    obtain rfl := beq_iff_eq.mp hd
    obtain ⟨w, rfl, hw⟩ := skipComment_eq_some.mp hskip
    exact .block hw hrest

theorem tokensFrom_skip (total : Nat) {c : Char} {cs rest : List Char}
    (h : scan c cs = .skip rest) : tokensFrom total (c :: cs) = tokensFrom total rest := by
  rw [tokensFrom_cons, h]

theorem Filler.tokensFrom {cs : List Char} (h : Filler cs) (total : Nat) :
    Sql.tokensFrom total cs = .ok [⟨.eof, total⟩] := by
  induction h with
  | nil => exact tokensFrom_nil total
  | blank hc h ih => rw [tokensFrom_skip total (by rw [scan, if_pos hc]), ih]
  | @line w cs hw hcs h ih =>
    have hall : ('-' :: w).all (fun c => decide (c ≠ '\n')) = true := by
      simpa using fun c hc => ne_of_mem_of_not_mem hc hw
    have hstop : startsWith (fun c => decide (c ≠ '\n')) cs = false := by
      cases cs with
      | nil => rfl
      | cons c cs => simpa [startsWith] using hcs c rfl
    have hscan : scan '-' ('-' :: (w ++ cs)) = .skip cs := by
      rw [scan, if_neg (by decide), if_pos ⟨rfl, rfl⟩]
      exact congrArg Scan.skip (takeWhile_append_of_stop hall hstop).2
    rw [tokensFrom_skip total hscan, ih]
  | @block w cs hw h ih =>
    have hskip : skipComment 1 (w ++ cs) = some cs := skipComment_eq_some.mpr ⟨w, rfl, hw⟩
    have hscan : scan '/' ('*' :: (w ++ cs)) = .skip cs := by
      rw [scan, if_neg (by decide), if_neg fun hline => absurd hline.1 (by decide),
        if_pos ⟨rfl, rfl⟩, List.drop_succ_cons, List.drop_zero, hskip]
    rw [tokensFrom_skip total hscan, ih]

theorem filler_of_tokensFrom {total : Nat} {cs : List Char}
    (h : tokensFrom total cs = .ok [⟨.eof, total⟩]) : Filler cs := by
  induction hn : cs.length using Nat.strongRecOn generalizing cs with
  | ind n ih =>
    subst hn
    cases cs with
    | nil => exact .nil
    | cons c cs =>
      have hshort := scan_shortens c cs
      rw [tokensFrom_cons] at h
      cases hscan : scan c cs with
      | fault place f =>
        rw [hscan] at h
        cases h
      | skip rest =>
        rw [hscan] at h hshort
        exact .of_scan hscan (ih rest.length hshort h rfl)
      | token l rest =>
        rw [hscan] at h
        dsimp only at h
        cases htail : tokensFrom total rest with
        | error e =>
          rw [htail] at h
          cases h
        | ok ts =>
          rw [htail] at h
          -- a token is not the end of the text
          have hhead := (List.cons.inj (Except.ok.inj h)).1
          exact absurd (congrArg Token.lexeme hhead) (scan_ne_eof hscan)

/-- **The texts without tokens are blanks and comments.** -/
theorem filler_iff {m : String} :
    Filler m.toList ↔ tokenize m = .ok [⟨.eof, m.utf8ByteSize⟩] := by
  constructor
  · intro h
    rw [tokenize, tokens, h.tokensFrom, byteCount_toList]
  · intro h
    have htokens := tokens_of_tokenize h
    rw [tokens, byteCount_toList] at htokens
    exact filler_of_tokensFrom htokens

/-! ## Tokens above and below a line break -/

theorem tokensFrom_append_newline {total : Nat} {cs : List Char} {ts : List Token}
    (h : tokensFrom total cs = .ok ts) :
    ∃ ks, ts = ks ++ [⟨.eof, total⟩] ∧ ∀ ds,
      tokensFrom (total + byteCount ('\n' :: ds)) (cs ++ '\n' :: ds)
        = (tokensFrom (total + byteCount ('\n' :: ds)) ds).map (ks ++ ·) := by
  induction hn : cs.length using Nat.strongRecOn generalizing cs ts with
  | ind n ih =>
    subst hn
    cases cs with
    | nil =>
      rw [tokensFrom_nil] at h
      obtain rfl := Except.ok.inj h
      refine ⟨[], rfl, fun ds => ?_⟩
      have hscan : scan '\n' ds = .skip ds := by rw [scan, if_pos Text.isBlank_newline]
      rw [List.nil_append, tokensFrom_skip _ hscan]
      cases tokensFrom (total + byteCount ('\n' :: ds)) ds <;> rfl
    | cons c cs =>
      have hshort := scan_shortens c cs
      have hlonger : (scan c cs).Succeeds → ∀ ds,
          scan c (cs ++ '\n' :: ds) = (scan c cs).append ('\n' :: ds) :=
        fun hok ds => scan_append isDivider_newline ds hok fun _ => rfl
      rw [tokensFrom_cons] at h
      cases hscan : scan c cs with
      | fault place f =>
        rw [hscan] at h
        cases h
      | skip rest =>
        rw [hscan] at h hshort hlonger
        obtain ⟨ks, hks, htokens⟩ := ih rest.length hshort h rfl
        refine ⟨ks, hks, fun ds => ?_⟩
        rw [List.cons_append, tokensFrom_skip _ (hlonger trivial ds), htokens]
      | token l rest =>
        rw [hscan] at h hshort hlonger
        dsimp only at h
        cases htail : tokensFrom total rest with
        | error e =>
          rw [htail] at h
          cases h
        | ok us =>
          rw [htail] at h
          obtain rfl := Except.ok.inj h
          obtain ⟨ks, rfl, htokens⟩ := ih rest.length hshort htail rfl
          refine ⟨⟨l, total - byteCount (c :: cs)⟩ :: ks, rfl, fun ds => ?_⟩
          -- the token starts as many bytes after the start of the longer text
          have hplace : total + byteCount ('\n' :: ds) - byteCount (c :: (cs ++ '\n' :: ds))
              = total - byteCount (c :: cs) := by
            rw [← List.cons_append, byteCount_append, Nat.add_sub_add_right]
          rw [List.cons_append, tokensFrom_cons, hlonger trivial ds]
          dsimp only [Scan.append]
          rw [htokens, hplace]
          cases tokensFrom (total + byteCount ('\n' :: ds)) ds <;> rfl

/-- **The tokens of two texts with a line break between them:** those of the first, and those of the
second, moved by the bytes in front of it. -/
theorem tokens_append_newline {cs : List Char} {ts : List Token} (h : tokens cs = .ok ts) :
    ∃ ks, ts = ks ++ [⟨.eof, byteCount cs⟩] ∧ ∀ ds,
      tokens (cs ++ '\n' :: ds)
        = (movedTokens (byteCount cs + 1) (tokens ds)).map (ks ++ ·) := by
  obtain ⟨ks, hks, htokens⟩ := tokensFrom_append_newline h
  refine ⟨ks, hks, fun ds => ?_⟩
  have htotal : byteCount cs + byteCount ('\n' :: ds) = byteCount ds + (byteCount cs + 1) := by
    have hbreak : byteCount ('\n' :: ds) = 1 + byteCount ds := rfl
    omega
  rw [tokens, byteCount_append, htokens, htotal, tokensFrom_add _ (Nat.le_refl _), tokens]

/-! ## Places below a line break -/

/-- The place in a text, when another text and a line break stand above it. -/
def Position.below (above : String) (p : Position) : Position where
  offset := p.offset + (above.utf8ByteSize + 1)
  line := p.line + (above.toList.count '\n' + 1)
  column := p.column

theorem lineColumnFrom_add (line column offset k : Nat) (cs : List Char) :
    lineColumnFrom (line + k) column offset cs
      = ((lineColumnFrom line column offset cs).1 + k, (lineColumnFrom line column offset cs).2) := by
  induction cs generalizing line column offset with
  | nil => rfl
  | cons c cs ih =>
    simp only [lineColumnFrom]
    split
    · rfl
    split
    · rw [Nat.add_right_comm, ih]
    · rw [ih]

theorem Position.inText_below (above text : String) (offset : Nat) :
    Position.inText (above ++ "\n" ++ text) (offset + (above.utf8ByteSize + 1))
      = (Position.inText text offset).below above := by
  have hfront : byteCount (above.toList ++ ['\n']) = above.utf8ByteSize + 1 := by
    rw [byteCount_append, byteCount_toList]
    rfl
  have hplace : lineColumn (above ++ "\n" ++ text) (offset + (above.utf8ByteSize + 1))
      = ((lineColumn text offset).1 + (above.toList.count '\n' + 1),
        (lineColumn text offset).2) := by
    rw [lineColumn, String.toList_append, String.toList_append, show "\n".toList = ['\n'] from rfl,
      Nat.add_comm offset, ← hfront, lineColumnFrom_append, List.count_append, List.foldl_append,
      lineColumnFrom_add]
    rfl
  simp only [Position.inText, hplace, Position.below]

/-! ## Texts -/

/-- Below the given tokens, a text is read as it is alone: its tokens follow at their places, and a
fault is the same one at its place. -/
def ReadsBelow (above : String) (ks : List Token) (text : String) : Prop :=
  (∀ us, tokenize text = .ok us → tokenize (above ++ "\n" ++ text)
      = .ok (ks ++ us.map (Token.moved (above.utf8ByteSize + 1))))
    ∧ ∀ e, tokenize text = .error e → ∃ place message, e = .malformed place message
      ∧ tokenize (above ++ "\n" ++ text) = .error (.malformed (place.below above) message)

theorem readsBelow_of_tokenize {above : String} {ts : List Token} (h : tokenize above = .ok ts) :
    ∃ ks, ts = ks ++ [⟨.eof, above.utf8ByteSize⟩] ∧ ∀ text, ReadsBelow above ks text := by
  obtain ⟨ks, hks, htokens⟩ := tokens_append_newline (tokens_of_tokenize h)
  rw [byteCount_toList] at hks htokens
  refine ⟨ks, hks, fun text => ?_⟩
  have hlonger : tokens (above ++ "\n" ++ text).toList
      = (movedTokens (above.utf8ByteSize + 1) (tokens text.toList)).map (ks ++ ·) := by
    rw [← htokens]
    simp
  constructor
  · intro us hus
    rw [tokenize, hlonger, tokens_of_tokenize hus]
    rfl
  · intro e he
    unfold tokenize at he
    split at he
    · cases he
    · next failure htext =>
      obtain rfl := Except.error.inj he
      refine ⟨_, _, rfl, ?_⟩
      rw [tokenize, hlonger, htext, ← Position.inText_below]
      rfl

/-- **Lines are read one by one.** Behind a text that has tokens and a line break, every text is read
as it is alone, its places moved by the bytes and lines above it; and so it is when blanks and
comments stand on lines in between, which add nothing. -/
theorem tokenize_lines {above : String} {ts : List Token} (h : tokenize above = .ok ts) :
    ∃ ks, ts = ks ++ [⟨.eof, above.utf8ByteSize⟩] ∧ ∀ text,
      ReadsBelow above ks text
        ∧ ∀ between, Filler between.toList → ReadsBelow (above ++ "\n" ++ between) ks text := by
  obtain ⟨ks, hks, hbelow⟩ := readsBelow_of_tokenize h
  refine ⟨ks, hks, fun text => ⟨hbelow text, fun between hfiller => ?_⟩⟩
  -- the lines in between leave the same tokens above the text
  have hlonger := (hbelow between).1 _ (filler_iff.mp hfiller)
  obtain ⟨ks', hks', hbelow'⟩ := readsBelow_of_tokenize hlonger
  obtain rfl := List.append_inj_left' hks' rfl
  exact hbelow' text

/-- A line that ends in a comment, above a name behind a line of comments, and above a string that
does not end. -/
theorem tokenize_lines_comments :
    tokenize "é /* */ -- \x27" = .ok [⟨.word "é", 0⟩, ⟨.eof, 13⟩]
      ∧ tokenize ("é /* */ -- \x27" ++ "\n" ++ "/* /* */\n*/ " ++ "\n" ++ "x")
        = .ok [⟨.word "é", 0⟩, ⟨.word "x", 27⟩, ⟨.eof, 28⟩]
      ∧ tokenize ("é /* */ -- \x27" ++ "\n" ++ " \x27x")
        = .error (.malformed ⟨15, 2, 2⟩ "unterminated string literal") := by
  have habove : tokenize "é /* */ -- \x27" = .ok [⟨.word "é", 0⟩, ⟨.eof, 13⟩] := by decide +kernel
  have hname : tokenize "x" = .ok [⟨.word "x", 0⟩, ⟨.eof, 1⟩] := by decide +kernel
  have hstring : tokenize " \x27x"
      = .error (.malformed ⟨1, 1, 2⟩ "unterminated string literal") := by decide +kernel
  have hfiller : Filler "/* /* */\n*/ ".toList := filler_iff.mpr (by decide +kernel)
  obtain ⟨ks, hks, hbelow⟩ := tokenize_lines habove
  have hks' : [⟨.word "é", 0⟩] ++ [⟨.eof, 13⟩] = ks ++ [⟨.eof, 13⟩] := hks
  obtain rfl := List.append_cancel_right hks'
  refine ⟨habove, ((hbelow "x").2 _ hfiller).1 _ hname, ?_⟩
  obtain ⟨place, message, heq, hfault⟩ := (hbelow " \x27x").1.2 _ hstring
  obtain ⟨rfl, rfl⟩ := Error.malformed.inj heq
  exact hfault

end Sql
