import Mathlib.Data.List.Infix
import Sql.Proofs.Lexing

/-!
# Places of tokens

The place of a token is the number of bytes in front of it.

* `scan_leaves`: a step of the lexer leaves an end of the text, so all places are those of
  characters. Words, numbers and parameters are cut out of the text as they stand.
* `tokensFrom_add`: behind another text, the tokens of a text are moved by the bytes of that text.
* `placed_of_tokensFrom`: tokens start at different characters, in order, and the last one is the
  end of the text.
-/

namespace Sql

/-! ## Bytes -/

theorem byteCount_append (cs ds : List Char) :
    byteCount (cs ++ ds) = byteCount cs + byteCount ds := by
  induction cs with
  | nil => simp [byteCount]
  | cons c cs ih => simp [byteCount, ih, Nat.add_assoc]

theorem byteCount_ofList (cs : List Char) : (String.ofList cs).utf8ByteSize = byteCount cs := by
  induction cs with
  | nil => rfl
  | cons c cs ih =>
    rw [String.ofList_cons, String.utf8ByteSize_append, String.utf8ByteSize_singleton, ih,
      byteCount]

theorem byteCount_toList (s : String) : byteCount s.toList = s.utf8ByteSize := by
  rw [← byteCount_ofList, String.ofList_toList]

theorem byteCount_le_of_suffix {cs ds : List Char} (h : cs <:+ ds) :
    byteCount cs ≤ byteCount ds := by
  obtain ⟨front, rfl⟩ := h
  rw [byteCount_append]
  omega

theorem byteCount_lt_of_suffix {c : Char} {cs rest : List Char} (h : rest <:+ cs) :
    byteCount rest < byteCount (c :: cs) := by
  have hle := byteCount_le_of_suffix h
  have hpos := c.utf8Size_pos
  rw [byteCount]
  omega

/-! ## What a step leaves -/

theorem suffix_of_skipComment {depth : Nat} {cs rest : List Char}
    (h : skipComment depth cs = some rest) : rest <:+ cs := by
  fun_induction skipComment depth cs with
  | case1 cs =>
    obtain rfl := Option.some.inj h
    exact List.suffix_refl cs
  | case2 => cases h
  | case3 => cases h
  | case4 depth a b cs _ ih => exact (ih h).trans (List.suffix_append [a, b] cs)
  | case5 depth a b cs _ _ ih => exact (ih h).trans (List.suffix_append [a, b] cs)
  | case6 depth a b cs _ _ ih => exact (ih h).trans (List.suffix_cons a _)

theorem suffix_of_readQuoted {close : Char} {cs s rest : List Char}
    (h : readQuoted close cs = some (s, rest)) : rest <:+ cs := by
  fun_induction readQuoted close cs generalizing s with
  | case1 => cases h
  | case2 =>
    obtain ⟨-, rfl⟩ := Prod.mk.inj (Option.some.inj h)
    exact List.nil_suffix
  | case3 => cases h
  | case4 cs ih =>
    obtain ⟨⟨s', rest'⟩, h', hs⟩ := Option.map_eq_some_iff.mp h
    obtain ⟨-, rfl⟩ := Prod.mk.inj hs
    exact (ih h').trans (List.suffix_append [close, close] cs)
  | case5 d cs _ =>
    obtain ⟨-, rfl⟩ := Prod.mk.inj (Option.some.inj h)
    exact List.suffix_cons close _
  | case6 c d cs _ ih =>
    obtain ⟨⟨s', rest'⟩, h', hs⟩ := Option.map_eq_some_iff.mp h
    obtain ⟨-, rfl⟩ := Prod.mk.inj hs
    exact (ih h').trans (List.suffix_cons c _)

theorem suffix_of_readSymbol {c : Char} {cs rest : List Char} {s : Symbol}
    (h : readSymbol c cs = some (s, rest)) : rest <:+ cs := by
  unfold readSymbol at h
  split at h <;> simp only [Option.some.injEq, Prod.mk.injEq, reduceCtorEq] at h <;>
    obtain ⟨-, rfl⟩ := h
  case h_7 => exact List.suffix_append ['>', '>'] _
  all_goals first | exact List.suffix_refl _ | exact List.suffix_cons _ _

/-- A number takes at least the first character. -/
theorem suffix_of_readNumber {c : Char} {cs : List Char}
    (h : c.isDigit = true ∨ c = '.' ∧ startsWith Char.isDigit cs = true) :
    (readNumber (c :: cs)).2 <:+ cs := by
  have hall := readNumber_append (c :: cs)
  obtain ⟨d, ds, hds⟩ := List.exists_cons_of_ne_nil (readNumber_fst_ne_nil h)
  rw [hds, List.cons_append] at hall
  exact ⟨ds, (List.cons.inj hall).2⟩

/-- What of a lexeme is cut out of the text as it stands there, behind the characters that
introduce it. -/
def Lexeme.cut? : Lexeme → Option (List Char × String)
  | word w => some ([], w)
  | number t => some ([], t)
  | param c (some n) => some ([c], n)
  | _ => none

/-- A step leaves what stands behind its first character, or less, and cuts its lexeme out of what
it takes. A fault is placed at an end of the text. -/
def Scan.Leaves (c : Char) (cs : List Char) : Scan → Prop
  | skip rest => rest <:+ cs
  | token l rest => rest <:+ cs ∧ ∀ w ∈ l.cut?, c :: cs = w.1 ++ w.2.toList ++ rest
  | fault place _ => place <:+ c :: cs

theorem scanName_leaves (c close : Char) (cs : List Char) :
    (scanName (c :: cs) close cs).Leaves c cs := by
  unfold scanName
  split
  · exact List.suffix_refl _
  · exact List.suffix_refl _
  · next h => exact ⟨suffix_of_readQuoted h, by simp [Lexeme.cut?]⟩

theorem scanNumber_leaves {c : Char} {cs : List Char}
    (h : c.isDigit = true ∨ c = '.' ∧ startsWith Char.isDigit cs = true) :
    (scanNumber (c :: cs)).Leaves c cs := by
  have hrest := suffix_of_readNumber h
  unfold scanNumber
  dsimp only
  split
  · exact hrest.trans (List.suffix_cons c cs)
  · exact ⟨hrest, by simp [Lexeme.cut?, readNumber_append]⟩

theorem scan_leaves (c : Char) (cs : List Char) : (scan c cs).Leaves c cs := by
  unfold scan
  split
  · exact List.suffix_refl _
  split
  · exact List.dropWhile_suffix _
  split
  · split
    · exact List.suffix_refl _
    · next h => exact (suffix_of_skipComment h).trans (List.drop_suffix 1 cs)
  split
  · split
    · exact List.suffix_refl _
    · next h => exact ⟨suffix_of_readQuoted h, by simp [Lexeme.cut?]⟩
  split
  · exact scanName_leaves c _ cs
  split
  · next h => exact scanNumber_leaves (by simpa using h)
  -- words and parameters end where their class of characters ends
  split
  · exact ⟨List.dropWhile_suffix _, by simp [Lexeme.cut?]⟩
  split
  · exact ⟨List.dropWhile_suffix _, by simp [Lexeme.cut?]⟩
  split
  · exact ⟨List.dropWhile_suffix _, by simp [Lexeme.cut?]⟩
  split
  · exact ⟨List.suffix_refl _, by simp [Lexeme.cut?]⟩
  split
  · next h => exact ⟨suffix_of_readSymbol h, by simp [Lexeme.cut?]⟩
  · exact List.suffix_refl _

/-! ## Moved tokens -/

/-- The token so many bytes further on. -/
def Token.moved (k : Nat) (t : Token) : Token := { t with offset := t.offset + k }

/-- The failure so many bytes further on. -/
def LexFailure.moved (k : Nat) (e : LexFailure) : LexFailure := { e with offset := e.offset + k }

/-- Tokens, or a failure, so many bytes further on. -/
def movedTokens (k : Nat) : Except LexFailure (List Token) → Except LexFailure (List Token)
  | .ok ts => .ok (ts.map (Token.moved k))
  | .error e => .error (e.moved k)

/-- **Places count from the start of the text,** so tokens move with what stands in front. -/
theorem tokensFrom_add {total : Nat} {cs : List Char} (k : Nat) (h : byteCount cs ≤ total) :
    tokensFrom (total + k) cs = movedTokens k (tokensFrom total cs) := by
  induction hn : cs.length using Nat.strongRecOn generalizing cs with
  | ind n ih =>
    subst hn
    cases cs with
    | nil =>
      rw [tokensFrom_nil, tokensFrom_nil]
      rfl
    | cons c cs =>
      have hleaves := scan_leaves c cs
      have hshort := scan_shortens c cs
      rw [tokensFrom_cons, tokensFrom_cons]
      cases hscan : scan c cs with
      | fault place f =>
        rw [hscan] at hleaves
        have hplace := byteCount_le_of_suffix hleaves
        simp only [movedTokens, LexFailure.moved]
        rw [Nat.sub_add_comm (hplace.trans h)]
      | skip rest =>
        rw [hscan] at hleaves hshort
        have hrest := byteCount_lt_of_suffix (c := c) hleaves
        exact ih rest.length hshort (by omega) rfl
      | token l rest =>
        rw [hscan] at hleaves hshort
        have hrest := byteCount_lt_of_suffix (c := c) hleaves.1
        simp only
        rw [ih rest.length hshort (by omega) rfl]
        cases tokensFrom total rest with
        | error e => rfl
        | ok ts =>
          simp only [movedTokens, List.map_cons, Token.moved]
          rw [Nat.sub_add_comm h]

/-! ## Tokens in their text -/

theorem tokens_of_tokenize {t : String} {ts : List Token} (h : tokenize t = .ok ts) :
    tokens t.toList = .ok ts := by
  unfold tokenize at h
  cases hts : tokens t.toList with
  | ok us =>
    rw [hts] at h
    rw [Except.ok.inj h]
  | error e =>
    rw [hts] at h
    cases h

/-- The token starts at a character of the text, or at its end, and what is cut out is what stands
there. -/
def Token.StandsIn (text : List Char) (t : Token) : Prop :=
  ∃ front behind, text = front ++ behind ∧ t.offset = byteCount front
    ∧ ∀ w ∈ t.lexeme.cut?, w.1 ++ w.2.toList <+: behind

/-- The places of the tokens of a text, from an end of it on. -/
theorem placed_of_tokensFrom {text cs : List Char} {ts : List Token} (hcs : cs <:+ text)
    (h : tokensFrom (byteCount text) cs = .ok ts) :
    (∃ before, ts = before ++ [⟨.eof, byteCount text⟩])
      ∧ (∀ t ∈ ts, t.StandsIn text ∧ byteCount text - byteCount cs ≤ t.offset)
      ∧ ts.Pairwise fun t u => t.offset < u.offset := by
  -- what a step leaves is an end of the text again, and shorter
  induction hn : cs.length using Nat.strongRecOn generalizing cs ts with
  | ind n ih =>
    subst hn
    cases cs with
    | nil =>
      rw [tokensFrom_nil] at h
      obtain rfl := Except.ok.inj h
      refine ⟨⟨[], rfl⟩, ?_, List.pairwise_singleton _ _⟩
      intro t ht
      obtain rfl := List.mem_singleton.mp ht
      exact ⟨⟨text, [], by simp, rfl, by simp [Lexeme.cut?]⟩, Nat.sub_le _ _⟩
    | cons c cs =>
      have hleaves := scan_leaves c cs
      have hshort := scan_shortens c cs
      have htail : cs <:+ text := (List.suffix_cons c cs).trans hcs
      rw [tokensFrom_cons] at h
      cases hscan : scan c cs with
      | fault place f =>
        rw [hscan] at h
        cases h
      | skip rest =>
        rw [hscan] at h hleaves hshort
        have hrest := byteCount_lt_of_suffix (c := c) hleaves
        obtain ⟨hend, hplaces, horder⟩ := ih rest.length hshort (hleaves.trans htail) h rfl
        refine ⟨hend, fun t ht => ⟨(hplaces t ht).1, ?_⟩, horder⟩
        have := (hplaces t ht).2
        omega
      | token l rest =>
        rw [hscan] at h hleaves hshort
        dsimp only at h
        cases htokens : tokensFrom (byteCount text) rest with
        | error e =>
          rw [htokens] at h
          cases h
        | ok us =>
          rw [htokens] at h
          obtain rfl := Except.ok.inj h
          have hrest := byteCount_lt_of_suffix (c := c) hleaves.1
          have hwhole := byteCount_le_of_suffix hcs
          obtain ⟨⟨before, hend⟩, hplaces, horder⟩ :=
            ih rest.length hshort (hleaves.1.trans htail) htokens rfl
          -- the token starts where the text that is left starts, in front of all others
          refine ⟨⟨_ :: before, by rw [hend]; rfl⟩, ?_, List.pairwise_cons.mpr ⟨?_, horder⟩⟩
          · rw [List.forall_mem_cons]
            refine ⟨⟨?_, Nat.le_refl _⟩, fun t ht => ⟨(hplaces t ht).1, ?_⟩⟩
            · obtain ⟨front, rfl⟩ := hcs
              refine ⟨front, c :: cs, rfl, by simp [byteCount_append], fun w hw => ?_⟩
              exact ⟨rest, (hleaves.2 w hw).symm⟩
            · have := (hplaces t ht).2
              omega
          · intro t ht
            have := (hplaces t ht).2
            dsimp only
            omega

/-- A failure is placed at an end of the text. -/
theorem placed_of_tokensFrom_error {text cs : List Char} {e : LexFailure} (hcs : cs <:+ text)
    (h : tokensFrom (byteCount text) cs = .error e) :
    ∃ front behind, text = front ++ behind ∧ e.offset = byteCount front := by
  fun_induction tokensFrom (byteCount text) cs with
  | case1 => cases h
  | case2 c cs rest hscan ih =>
    have hleaves := scan_leaves c cs
    rw [hscan] at hleaves
    exact ih ((hleaves.trans (List.suffix_cons c cs)).trans hcs) h
  | case3 c cs place f hscan =>
    have hleaves := scan_leaves c cs
    rw [hscan] at hleaves
    obtain rfl := Except.error.inj h
    obtain ⟨front, hfront⟩ := List.IsSuffix.trans hleaves hcs
    exact ⟨front, place, hfront.symm, by simp [← hfront, byteCount_append]⟩
  | case4 c cs l rest hscan ts hts ih => cases h
  | case5 c cs l rest hscan e' htokens ih =>
    have hleaves := scan_leaves c cs
    rw [hscan] at hleaves
    obtain rfl := Except.error.inj h
    exact ih ((hleaves.1.trans (List.suffix_cons c cs)).trans hcs) htokens

end Sql
