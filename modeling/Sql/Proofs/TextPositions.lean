import Sql.Proofs.KeptStatement
import Sql.Proofs.TokenPlaces

/-!
# Places in a text

Reading a text never leaves it. Its tokens start at different characters, in order, and are cut out
at characters; the parsers stay within the tokens (`Parser.StaysWithin`); and a fault is placed at a
character or at the end, by its bytes, its line and its column (`Error.IsPlacedIn`).

* `lineColumn_append`: line and column of the place behind a part of a text.
* `reading_places`: what is true of the tokens and of the faults of every text.
-/

namespace Sql

/-! ## Lines and columns -/

/-- The column after a character. -/
def nextColumn (column : Nat) (c : Char) : Nat := if c = '\n' then 1 else column + 1

/-- Behind a part of a text, lines and columns go on from those of its end. -/
theorem lineColumnFrom_append (line column offset : Nat) (cs ds : List Char) :
    lineColumnFrom line column (byteCount cs + offset) (cs ++ ds)
      = lineColumnFrom (line + cs.count '\n') (cs.foldl nextColumn column) offset ds := by
  induction cs generalizing line column with
  | nil => simp [byteCount]
  | cons c cs ih =>
    have hpos : byteCount (c :: cs) + offset ≠ 0 := by
      have := c.utf8Size_pos
      rw [byteCount]
      omega
    rw [List.cons_append, lineColumnFrom, if_neg hpos, byteCount, Nat.add_assoc,
      Nat.add_sub_cancel_left, ih, ih, List.foldl_cons, nextColumn]
    split
    · next h => simp [h, Nat.add_comm, Nat.add_left_comm]
    · next h => simp [h]

theorem lineColumnFrom_zero (line column : Nat) (cs : List Char) :
    lineColumnFrom line column 0 cs = (line, column) := by
  cases cs <;> simp [lineColumnFrom]

/-- A column counts the characters since the last line break. -/
theorem foldl_nextColumn (cs : List Char) :
    cs.foldl nextColumn 1 = (cs.reverse.takeWhile (· ≠ '\n')).length + 1 := by
  induction cs using List.reverseRecOn with
  | nil => rfl
  | append_singleton cs c ih =>
    rw [List.foldl_append, List.foldl_cons, List.foldl_nil, ih, nextColumn, List.reverse_append,
      List.reverse_singleton, List.singleton_append, List.takeWhile_cons]
    by_cases h : c = '\n' <;> simp [h]

/-- Line and column of what stands behind a part of a text. -/
theorem lineColumn_append (before after : String) :
    lineColumn (before ++ after) before.utf8ByteSize
      = (before.toList.count '\n' + 1,
        (before.toList.reverse.takeWhile (· ≠ '\n')).length + 1) := by
  rw [lineColumn, String.toList_append, ← byteCount_toList, ← Nat.add_zero (byteCount _),
    lineColumnFrom_append, lineColumnFrom_zero, foldl_nextColumn, Nat.add_comm]

/-! ## Places -/

/-- The place of a character of the text, or of its end: the bytes in front of it, its line, which
is one more than the line breaks in front of it, and its column, which is one more than the
characters between the last of them and the place. -/
def Position.StandsIn (text : String) (p : Position) : Prop :=
  ∃ before after : String, text = before ++ after ∧ p.offset = before.utf8ByteSize
    ∧ p.line = before.toList.count '\n' + 1
    ∧ p.column = (before.toList.reverse.takeWhile (· ≠ '\n')).length + 1

/-- The error is about the text at a place of it. -/
def Error.IsPlacedIn (text : String) (e : Error) : Prop :=
  ∃ place message, e = .malformed place message ∧ place.StandsIn text

/-- The token starts at a character of the text, or at its end. What is cut out for it is a part of
the text between two characters. -/
def Token.IsCutFrom (text : String) (t : Token) : Prop :=
  ∃ before after : String, text = before ++ after ∧ t.offset = before.utf8ByteSize
    ∧ ∀ p ∈ t.lexeme.cut?, ∃ behind : String, after = String.ofList p.1 ++ p.2 ++ behind

theorem Error.inText_isPlacedIn {text : String} {offset : Nat} (message : String)
    (h : ∃ before after : String, text = before ++ after ∧ offset = before.utf8ByteSize) :
    (Error.inText text offset message).IsPlacedIn text := by
  obtain ⟨before, after, rfl, rfl⟩ := h
  refine ⟨_, message, rfl, before, after, rfl, rfl, ?_, ?_⟩
  · simp [Position.inText, lineColumn_append]
  · simp [Position.inText, lineColumn_append]

/-! ## Tokens of a text -/

/-- The parts of a list of characters as texts. -/
theorem exists_strings {text : String} {front behind : List Char}
    (h : text.toList = front ++ behind) :
    text = String.ofList front ++ String.ofList behind := by
  rw [← String.ofList_append, ← h, String.ofList_toList]

theorem Token.StandsIn.isCutFrom {text : String} {t : Token} (h : t.StandsIn text.toList) :
    t.IsCutFrom text := by
  obtain ⟨front, behind, htext, hoffset, hcut⟩ := h
  refine ⟨.ofList front, .ofList behind, exists_strings htext, ?_, fun p hp => ?_⟩
  · rw [hoffset, byteCount_ofList]
  · obtain ⟨rest, rfl⟩ := hcut p hp
    exact ⟨.ofList rest, by simp [String.ofList_append, String.append_assoc]⟩

theorem tokenize_places {text : String} {ts : List Token} (h : tokenize text = .ok ts) :
    (∃ before, ts = before ++ [⟨.eof, text.utf8ByteSize⟩])
      ∧ ts.Pairwise (fun t u => t.offset < u.offset) ∧ ∀ t ∈ ts, t.IsCutFrom text := by
  obtain ⟨hend, hplaces, horder⟩ :=
    placed_of_tokensFrom (List.suffix_refl text.toList) (tokens_of_tokenize h)
  rw [byteCount_toList] at hend
  exact ⟨hend, horder, fun t ht => (hplaces t ht).1.isCutFrom⟩

theorem tokenize_error_placed {text : String} {e : Error} (h : tokenize text = .error e) :
    e.IsPlacedIn text := by
  unfold tokenize at h
  split at h
  · cases h
  · next failure htokens =>
    obtain rfl := Except.error.inj h
    obtain ⟨front, behind, htext, hoffset⟩ :=
      placed_of_tokensFrom_error (List.suffix_refl text.toList) htokens
    refine Error.inText_isPlacedIn _ ⟨.ofList front, .ofList behind, exists_strings htext, ?_⟩
    rw [hoffset, byteCount_ofList]

/-! ## Parsers on the tokens of a text -/

/-- The bounds of a run on these tokens: faults are placed at one of them, or at the start of the
text. -/
def Bounds.around (ts behind : List Token) : Bounds where
  places o := o = 0 ∨ ∃ t ∈ ts, o = t.offset
  behind := behind

/-- The parser does not look behind the end of the tokens, does not take the end, and places a fault
at one of the tokens, or at the start of the text. -/
def Parser.StaysWithin {α : Type} (p : Parser α) (ts : List Token) : Prop :=
  ∀ behind, (Bounds.around ts behind).KeepsOn (fun _ => False) ts p p

theorem Bounds.holds_around {ts : List Token} (h : ∃ before place, ts = before ++ [⟨.eof, place⟩])
    (behind : List Token) : (around ts behind).Holds ts :=
  ⟨h, fun t ht => .inr ⟨t, ht, rfl⟩⟩

/-- Faults of such a parser are placed in the text. -/
theorem Parser.StaysWithin.error_placed {α : Type} {p : Parser α} {text : String} {ts : List Token}
    (hp : p.StaysWithin ts) (hts : tokenize text = .ok ts) {e : Error}
    (h : p.runText text = .error e) : e.IsPlacedIn text := by
  have hrun := hp []
  unfold Bounds.KeepsOn at hrun
  simp only [runText, hts, Bind.bind, Except.bind, StateT.run] at h
  cases hfail : p ts with
  | ok r =>
    rw [hfail] at h
    cases h
  | error f =>
    rw [hfail] at hrun h
    obtain rfl := Except.error.inj h
    refine Error.inText_isPlacedIn _ ?_
    -- the start of the text is its first character, the start of a token one of its characters
    rcases hrun.2 with hzero | ⟨t, ht, hoffset⟩
    · exact ⟨"", text, by simp, by simpa using hzero⟩
    · obtain ⟨before, after, htext, hplace, -⟩ := (tokenize_places hts).2.2 t ht
      exact ⟨before, after, htext, by rw [hoffset, hplace]⟩

theorem runText_error_placed {α : Type} {p : Parser α} {text : String}
    (hp : ∀ ts, tokenize text = .ok ts → p.StaysWithin ts) {e : Error}
    (h : p.runText text = .error e) : e.IsPlacedIn text := by
  cases hts : tokenize text with
  | ok ts => exact (hp ts hts).error_placed hts h
  | error f =>
    rw [Parser.runText, hts] at h
    obtain rfl := Except.error.inj h
    exact tokenize_error_placed hts

/-- The two parsers of whole texts stay within the tokens of a text. -/
theorem staysWithin_of_tokenize {text : String} {ts : List Token} (h : tokenize text = .ok ts) :
    Parser.wholeStatement.StaysWithin ts ∧ Parser.wholeExpr.StaysWithin ts := by
  obtain ⟨⟨before, hend⟩, -, -⟩ := tokenize_places h
  have hholds := Bounds.holds_around ⟨before, text.utf8ByteSize, hend⟩
  have hstart : ∀ behind, (Bounds.around ts behind).places 0 := fun _ => Or.inl rfl
  refine ⟨fun behind => ?_, fun behind => ?_⟩
  · exact Bounds.keeps_wholeStatement (hstart behind) ts (hholds behind) (Nat.le_refl _) trivial
  · exact Bounds.keeps_wholeExpr (hstart behind) ts (hholds behind) (Nat.le_refl _) trivial

/-- **Reading stays within its text.** The tokens of a text start at different characters in order,
end with the end of the text and are cut out at characters; both parsers stay within them; and what
is refused is refused at a character of the text or at its end, with its line and column. -/
theorem reading_places (text : String) :
    (∀ ts, tokenize text = .ok ts →
      (∃ before, ts = before ++ [⟨.eof, text.utf8ByteSize⟩])
        ∧ ts.Pairwise (fun t u => t.offset < u.offset) ∧ (∀ t ∈ ts, t.IsCutFrom text)
        ∧ Parser.wholeStatement.StaysWithin ts ∧ Parser.wholeExpr.StaysWithin ts)
      ∧ (∀ e, tokenize text = .error e → e.IsPlacedIn text)
      ∧ (∀ e, parse text = .error e → e.IsPlacedIn text)
      ∧ ∀ e, parseExpression text = .error e → e.IsPlacedIn text := by
  refine ⟨fun ts hts => ?_, fun e => tokenize_error_placed, fun e h => ?_, fun e h => ?_⟩
  · obtain ⟨hend, horder, hcut⟩ := tokenize_places hts
    obtain ⟨hstatement, hexpr⟩ := staysWithin_of_tokenize hts
    exact ⟨hend, horder, hcut, hstatement, hexpr⟩
  · exact runText_error_placed (fun ts hts => (staysWithin_of_tokenize hts).1) h
  · exact runText_error_placed (fun ts hts => (staysWithin_of_tokenize hts).2) h

/-- A parameter of a text with letters of two bytes, and a clause without its expression on the
second line. -/
theorem reading_places_truncated :
    (∃ ts, tokenize "é = :é" = .ok ts ∧ ts.map Token.offset = [0, 3, 5, 8]
        ∧ ∀ t ∈ ts, t.IsCutFrom "é = :é")
      ∧ parse "select 'é'\nfrom ü where" = .error (.malformed ⟨25, 2, 13⟩
          "expected expression but found end of input")
      ∧ (Error.malformed ⟨25, 2, 13⟩ "expected expression but found end of input").IsPlacedIn
          "select 'é'\nfrom ü where" := by
  have htokens : tokenize "é = :é" = .ok [⟨.word "é", 0⟩, ⟨.symbol .eq, 3⟩,
      ⟨.param ':' (some "é"), 5⟩, ⟨.eof, 8⟩] := by
    decide +kernel
  have hparse : parse "select 'é'\nfrom ü where" = .error (.malformed ⟨25, 2, 13⟩
      "expected expression but found end of input") := by
    have h : (match parse "select 'é'\nfrom ü where" with
        | .ok _ => false
        | .error e => decide (e = .malformed ⟨25, 2, 13⟩
            "expected expression but found end of input")) = true := by
      decide +kernel
    -- statements cannot be compared, so the check says nothing about one
    cases hread : parse "select 'é'\nfrom ü where" with
    | ok s =>
      rw [hread] at h
      cases h
    | error e =>
      rw [hread] at h
      rw [of_decide_eq_true h]
  exact ⟨⟨_, htokens, rfl, ((reading_places _).1 _ htokens).2.2.1⟩, hparse,
    (reading_places _).2.2.1 _ hparse⟩

end Sql
