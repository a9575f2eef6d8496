import Sql.Proofs.Grammar

/-!
# What texts tokens have

Every token that the lexer reads has a text of the form that its kind has: words are words, numbers
are read as numbers as a whole, and names are not empty (`wf_of_tokenize`).
-/

namespace Sql

/-- The text of the lexeme has the form that its kind has. -/
def Lexeme.Wf : Lexeme → Prop
  | .word w => IsWord w
  | .quoted n => n ≠ ""
  | .number t => IsNumber t
  | .param _ n => ∀ m ∈ n, IsParamName m
  | _ => True

/-! ## Numbers -/

/-- What an exponent may be: nothing, or a letter, a sign or none, and digits. -/
theorem readPower_fst (cs : List Char) :
    (readPower cs).1 = [] ∨ ∃ c sign digits, (readPower cs).1 = c :: sign ++ digits
      ∧ (c = 'e' ∨ c = 'E') ∧ (sign = [] ∨ ∃ s, (s = '+' ∨ s = '-') ∧ sign = [s])
      ∧ startsWith Char.isDigit digits = true ∧ digits.all Char.isDigit = true := by
  fun_cases readPower cs with
  | case1 => exact Or.inl rfl
  | case3 => exact Or.inl rfl
  | case2 c cs sign rest hsign h =>
    refine Or.inr ⟨c, sign, rest.takeWhile Char.isDigit, rfl, h.1, ?_, ?_, List.all_takeWhile⟩
    · unfold readSign at hsign
      split at hsign
      · exact Or.inl (Prod.mk.inj hsign).1.symm
      · next d ds =>
        split at hsign
        · next hd => exact Or.inr ⟨d, hd, (Prod.mk.inj hsign).1.symm⟩
        · exact Or.inl (Prod.mk.inj hsign).1.symm
    · cases rest with
      | nil => exact absurd h.2 (by simp [startsWith])
      | cons d ds =>
        have hd : d.isDigit = true := h.2
        rw [List.takeWhile_cons_of_pos hd]
        exact hd

theorem isDigit_sign {s : Char} (h : s = '+' ∨ s = '-') : s.isDigit = false := by
  rcases h with rfl | rfl <;> decide

/-- An exponent is read as a whole. -/
theorem readPower_again (cs : List Char) : readPower (readPower cs).1 = ((readPower cs).1, []) := by
  rcases readPower_fst cs with h | ⟨c, sign, digits, h, hc, hsign, hstart, hall⟩
  · rw [h]
    rfl
  · rw [h]
    have hread : readSign (sign ++ digits) = (sign, digits) := by
      rcases hsign with rfl | ⟨s, hs, rfl⟩
      · cases digits with
        | nil => rfl
        | cons d ds =>
          have hd : d.isDigit = true := hstart
          have hne : ¬(d = '+' ∨ d = '-') := fun hd' => by
            rw [isDigit_sign hd'] at hd
            exact absurd hd Bool.false_ne_true
          simp [readSign, hne]
      · simp [readSign, hs]
    have htake : digits.takeWhile Char.isDigit = digits ∧ digits.dropWhile Char.isDigit = [] := by
      have := takeWhile_append_of_stop hall (show startsWith Char.isDigit [] = false from rfl)
      rwa [List.append_nil] at this
    simp [readPower, hread, hc, hstart, htake.1, htake.2]

/-- Neither a digit nor a point starts an exponent. -/
theorem readPower_fst_head (cs : List Char) {p : Char → Bool} (hp : p 'e' = false ∧ p 'E' = false) :
    startsWith p (readPower cs).1 = false := by
  rcases readPower_fst cs with h | ⟨c, sign, digits, h, hc, -⟩
  · rw [h]
    rfl
  · rw [h]
    rcases hc with rfl | rfl
    · exact hp.1
    · exact hp.2

/-- A point with its digits is read as a whole, in front of an exponent. -/
theorem readPoint_again (cs ds : List Char) :
    readPoint ((readPoint cs).1 ++ (readPower ds).1) = ((readPoint cs).1, (readPower ds).1) := by
  have hdigit := @readPower_fst_head ds Char.isDigit ⟨by decide, by decide⟩
  have hdot := @readPower_fst_head ds (· == '.') ⟨by decide, by decide⟩
  have hnone : readPoint (readPower ds).1 = ([], (readPower ds).1) := by
    cases h : (readPower ds).1 with
    | nil => rfl
    | cons c cs =>
      rw [h] at hdot
      have hc : c ≠ '.' := by simpa [startsWith] using hdot
      simp [readPoint, hc]
  fun_cases readPoint cs with
  | case1 | case3 => exact hnone
  | case2 c cs h =>
    obtain ⟨rfl, hcs⟩ := h
    obtain ⟨htake, hdrop⟩ := takeWhile_append_of_stop
      (show (cs.takeWhile Char.isDigit).all Char.isDigit = true from List.all_takeWhile) hdigit
    have hnext : startsWith (· == '.') (cs.takeWhile Char.isDigit ++ (readPower ds).1) = false := by
      cases cs with
      | nil => exact hdot
      | cons d ds' =>
        by_cases hd : d.isDigit = true
        · rw [List.takeWhile_cons_of_pos hd]
          exact hcs
        · rw [List.takeWhile_cons_of_neg hd]
          exact hdot
    simp [readPoint, hnext, htake, hdrop]

/-- **What is read as a number is read as one as a whole.** -/
theorem readNumber_again (cs : List Char) :
    readNumber (readNumber cs).1 = ((readNumber cs).1, []) := by
  have hpoint := readPoint_again (cs.dropWhile Char.isDigit) (readPoint (cs.dropWhile Char.isDigit)).2
  have hpower := readPower_again (readPoint (cs.dropWhile Char.isDigit)).2
  have hstart : startsWith Char.isDigit ((readPoint (cs.dropWhile Char.isDigit)).1
      ++ (readPower (readPoint (cs.dropWhile Char.isDigit)).2).1) = false := by
    fun_cases readPoint (cs.dropWhile Char.isDigit) with
    | case1 => rfl
    | case3 => exact readPower_fst_head _ ⟨by decide, by decide⟩
    | case2 c ds h =>
      obtain ⟨rfl, -⟩ := h
      rfl
  obtain ⟨htake, hdrop⟩ := takeWhile_append_of_stop
    (show (cs.takeWhile Char.isDigit).all Char.isDigit = true from List.all_takeWhile) hstart
  simp only [readNumber, htake, hdrop, hpoint, hpower, List.append_assoc]

/-! ## Tokens -/

theorem isWord_takeWhile {c : Char} {cs : List Char} (hc : isWordStart c = true) :
    IsWord (String.ofList (c :: cs.takeWhile isWordChar)) :=
  ⟨c, cs.takeWhile isWordChar, String.toList_ofList, hc, List.all_takeWhile⟩

theorem isNumber_readNumber {c : Char} {cs : List Char}
    (h : c.isDigit = true ∨ c = '.' ∧ startsWith Char.isDigit cs = true) :
    IsNumber (String.ofList (readNumber (c :: cs)).1) := by
  refine ⟨by rw [String.toList_ofList]; exact readNumber_again (c :: cs), ?_⟩
  rw [String.toList_ofList]
  by_cases hd : c.isDigit = true
  · have hread : (readNumber (c :: cs)).1 = c :: (cs.takeWhile Char.isDigit
        ++ (readPoint (cs.dropWhile Char.isDigit)).1
        ++ (readPower (readPoint (cs.dropWhile Char.isDigit)).2).1) := by
      simp [readNumber, hd]
    exact ⟨c, _, hread, Or.inl hd⟩
  · obtain ⟨rfl, hstart⟩ := h.resolve_left hd
    cases cs with
    | nil => exact absurd hstart Bool.false_ne_true
    | cons d ds =>
      have hdigit : d.isDigit = true := hstart
      have hdot : d ≠ '.' := by
        rintro rfl
        exact absurd hdigit (by decide)
      refine ⟨'.', d :: (ds.takeWhile Char.isDigit ++ (readPower (ds.dropWhile Char.isDigit)).1), ?_,
        Or.inr ⟨rfl, hdigit⟩⟩
      simp [readNumber, readPoint, startsWith, hdot, hdigit, show Char.isDigit '.' = false by decide]

theorem isWordChar_of_isDigit {c : Char} (h : c.isDigit = true) : isWordChar c = true := by
  simp [isWordChar, Text.isNumeric_of_isDigit h]

theorem isParamName_takeWhile {cs : List Char}
    (h : startsWith (fun d => isWordStart d || d.isDigit) cs = true) :
    IsParamName (String.ofList (cs.takeWhile isWordChar)) := by
  cases cs with
  | nil => exact absurd h Bool.false_ne_true
  | cons d ds =>
    have hd : (isWordStart d || d.isDigit) = true := h
    have hword : isWordChar d = true := by
      rw [Bool.or_eq_true] at hd
      rcases hd with hd | hd
      · exact isWordChar_of_isWordStart hd
      · exact isWordChar_of_isDigit hd
    refine ⟨d, ds.takeWhile isWordChar, ?_, hd, List.all_takeWhile⟩
    rw [String.toList_ofList, List.takeWhile_cons_of_pos hword]

/-- The index of a parameter is a name as well. -/
theorem isParamName_index {cs : List Char} (h : startsWith Char.isDigit cs = true) :
    IsParamName (String.ofList (cs.takeWhile Char.isDigit)) := by
  cases cs with
  | nil => exact absurd h Bool.false_ne_true
  | cons d ds =>
    have hd : d.isDigit = true := h
    refine ⟨d, ds.takeWhile Char.isDigit, ?_, by rw [hd, Bool.or_true], ?_⟩
    · rw [String.toList_ofList, List.takeWhile_cons_of_pos hd]
    · rw [List.all_eq_true]
      intro c hc
      exact isWordChar_of_isDigit (List.all_eq_true.mp List.all_takeWhile c hc)

/-- A step of the lexer hands out tokens whose text has the right form. -/
theorem wf_of_scan {c : Char} {cs rest : List Char} {l : Lexeme} (h : scan c cs = .token l rest) :
    l.Wf := by
  unfold scan at h
  split at h
  · exact absurd h (by simp)
  split at h
  · exact absurd h (by simp)
  split at h
  · split at h <;> exact absurd h (by simp)
  split at h
  · split at h
    · exact absurd h (by simp)
    · obtain ⟨rfl, -⟩ := Scan.token.inj h
      trivial
  split at h
  -- quoted names
  · unfold scanName at h
    split at h
    · exact absurd h (by simp)
    · exact absurd h (by simp)
    · next name after hempty hread =>
      obtain ⟨rfl, -⟩ := Scan.token.inj h
      have hne : name ≠ [] := hempty
      simpa [Lexeme.Wf, String.ofList_eq_empty_iff] using hne
  split at h
  -- numbers
  · next hnumber =>
    unfold scanNumber at h
    dsimp only at h
    split at h
    · exact absurd h (by simp)
    · obtain ⟨rfl, -⟩ := Scan.token.inj h
      exact isNumber_readNumber (by simpa using hnumber)
  split at h
  · next hword =>
    obtain ⟨rfl, -⟩ := Scan.token.inj h
    exact isWord_takeWhile hword
  -- parameters
  split at h
  · next hparam =>
    obtain ⟨rfl, -⟩ := Scan.token.inj h
    intro m hm
    obtain rfl := Option.mem_some.mp hm
    exact isParamName_takeWhile hparam.2
  split at h
  · next hparam =>
    obtain ⟨rfl, -⟩ := Scan.token.inj h
    intro m hm
    obtain rfl := Option.mem_some.mp hm
    exact isParamName_index hparam.2
  split at h
  · obtain ⟨rfl, -⟩ := Scan.token.inj h
    intro m hm
    simp at hm
  split at h
  · obtain ⟨rfl, -⟩ := Scan.token.inj h
    trivial
  · exact absurd h (by simp)

/-- **The tokens of a text have texts of the right form.** -/
theorem wf_of_tokensFrom {total : Nat} {cs : List Char} {ts : List Token}
    (h : tokensFrom total cs = .ok ts) : ∀ t ∈ ts, t.lexeme.Wf := by
  fun_induction tokensFrom total cs generalizing ts with
  | case1 =>
    obtain rfl := Except.ok.inj h
    simp [Lexeme.Wf]
  | case2 c cs rest hscan ih => exact ih h
  | case3 c cs place f hscan => exact absurd h (by simp)
  | case4 c cs l rest hscan ts' hts ih =>
    obtain rfl := Except.ok.inj h
    rw [List.forall_mem_cons]
    exact ⟨wf_of_scan hscan, ih hts⟩
  | case5 c cs l rest hscan e hts ih => exact absurd h (by simp)

theorem wf_of_tokenize {text : String} {ts : List Token} (h : tokenize text = .ok ts) :
    ∀ t ∈ ts, t.lexeme.Wf := by
  unfold tokenize tokens at h
  split at h
  · next hts =>
    obtain rfl := Except.ok.inj h
    exact wf_of_tokensFrom hts
  · exact absurd h (by simp)

end Sql
