import Sql.Proofs.Lexing

/-!
# Where dotted names are cut

A dotted name is cut at the dots in front of which no quote is open. The scan looks at one character
at a time: a doubled closing quote closes the quotes, and its second half opens them again, if it is
an opening quote as well.

* `dotParts_kept`: a text whose dots all stand between quotes stays in one part.
* `dotParts_cut`: the first part of any other text ends at a dot.
* `dotParts_intercalate`: texts with dots between them are cut into these texts.
* `unquoteName_opened`: what a part that starts with a quote stands for.
-/

namespace Sql

/-! ## Open quotes -/

/-- The quote that is open behind a character, by the one that is open in front of it. -/
def quoteStep : Option Char → Char → Option Char
  | some q, c => if c = q then none else some q
  | none, c => closingQuote? c

/-- The quote that is open behind a text. -/
def quoteAfter (s : Option Char) (cs : List Char) : Option Char := cs.foldl quoteStep s

/-- Every dot of the text stands between quotes. -/
def dotsQuoted : Option Char → List Char → Bool
  | _, [] => true
  | s, c :: cs => (s.isSome || c != '.') && dotsQuoted (quoteStep s c) cs

@[simp] theorem quoteAfter_nil (s : Option Char) : quoteAfter s [] = s := rfl

@[simp] theorem quoteAfter_cons (s : Option Char) (c : Char) (cs : List Char) :
    quoteAfter s (c :: cs) = quoteAfter (quoteStep s c) cs := rfl

@[simp] theorem quoteAfter_append (s : Option Char) (cs ds : List Char) :
    quoteAfter s (cs ++ ds) = quoteAfter (quoteAfter s cs) ds := List.foldl_append

@[simp] theorem dotsQuoted_nil (s : Option Char) : dotsQuoted s [] = true := by
  rw [dotsQuoted]

@[simp] theorem dotsQuoted_cons (s : Option Char) (c : Char) (cs : List Char) :
    dotsQuoted s (c :: cs) = ((s.isSome || c != '.') && dotsQuoted (quoteStep s c) cs) := by
  rw [dotsQuoted]

theorem dotsQuoted_append (s : Option Char) (cs ds : List Char) :
    dotsQuoted s (cs ++ ds) = (dotsQuoted s cs && dotsQuoted (quoteAfter s cs) ds) := by
  induction cs generalizing s with
  | nil => simp
  | cons c cs ih => simp [ih, Bool.and_assoc]

/-! ## Cuts -/

theorem foldr_consFirst (cs part : List Char) (parts : List (List Char)) :
    cs.foldr consFirst (part :: parts) = (cs ++ part) :: parts := by
  induction cs with
  | nil => rfl
  | cons c cs ih => rw [List.foldr_cons, ih, consFirst, List.cons_append]

theorem dotParts_nil (s : Option Char) : dotParts s [] = [[]] := by
  cases s <;> rfl

theorem dotParts_dot (cs : List Char) : dotParts none ('.' :: cs) = [] :: dotParts none cs := by
  rw [dotParts, if_pos rfl]

/-- A character that is not cut at belongs to the first part. -/
theorem dotParts_cons {s : Option Char} {c : Char} (h : (s.isSome || c != '.') = true)
    (cs : List Char) : dotParts s (c :: cs) = consFirst c (dotParts (quoteStep s c) cs) := by
  cases s with
  | some q => rw [dotParts, quoteStep]
  | none =>
    have hdot : c ≠ '.' := by simpa using h
    rw [dotParts, if_neg hdot, quoteStep]

theorem dotParts_ne_nil (s : Option Char) (cs : List Char) : dotParts s cs ≠ [] := by
  cases cs with
  | nil => simp [dotParts_nil]
  | cons c cs =>
    by_cases h : (s.isSome || c != '.') = true
    · rw [dotParts_cons h]
      cases dotParts (quoteStep s c) cs <;> simp [consFirst]
    · cases s with
      | some q => simp at h
      | none =>
        obtain rfl : c = '.' := by simpa using h
        simp [dotParts_dot]

/-- **A text whose dots all stand between quotes stays in one part.** -/
theorem dotParts_kept {s : Option Char} {cs : List Char} (h : dotsQuoted s cs = true)
    (rest : List Char) :
    dotParts s (cs ++ rest) = cs.foldr consFirst (dotParts (quoteAfter s cs) rest) := by
  induction cs generalizing s with
  | nil => rfl
  | cons c cs ih =>
    rw [dotsQuoted_cons, Bool.and_eq_true] at h
    rw [List.cons_append, dotParts_cons h.1, ih h.2, quoteAfter_cons, List.foldr_cons]

/-- **The first part of any other text ends at a dot.** -/
theorem dotParts_cut {s : Option Char} {cs : List Char} (h : dotsQuoted s cs = false) :
    ∃ front behind, cs = front ++ '.' :: behind ∧ dotsQuoted s front = true
      ∧ quoteAfter s front = none
      ∧ ∀ rest, dotParts s (cs ++ rest) = front :: dotParts none (behind ++ rest) := by
  induction cs generalizing s with
  | nil => simp at h
  | cons c cs ih =>
    by_cases hc : (s.isSome || c != '.') = true
    · rw [dotsQuoted_cons, hc, Bool.true_and] at h
      obtain ⟨front, behind, rfl, hfront, hafter, hparts⟩ := ih h
      refine ⟨c :: front, behind, rfl, by rw [dotsQuoted_cons, hc, hfront]; rfl, hafter,
        fun rest => ?_⟩
      rw [List.cons_append, dotParts_cons hc, hparts, consFirst]
    · cases s with
      | some q => simp at hc
      | none =>
        obtain rfl : c = '.' := by simpa using hc
        exact ⟨[], cs, rfl, rfl, rfl, fun rest => dotParts_dot _⟩

/-- **Texts with dots between them are cut into these texts,** if their own dots stand between
quotes and each but the last closes its quotes. -/
theorem dotParts_intercalate {texts : List (List Char)} (hne : texts ≠ [])
    (hwhole : ∀ t ∈ texts, dotsQuoted none t = true)
    (hclosed : ∀ t ∈ texts.dropLast, quoteAfter none t = none) :
    dotParts none (['.'].intercalate texts) = texts := by
  induction texts with
  | nil => exact absurd rfl hne
  | cons t ts ih =>
    rw [List.forall_mem_cons] at hwhole
    cases ts with
    | nil =>
      have h := dotParts_kept hwhole.1 []
      rw [List.append_nil, dotParts_nil, foldr_consFirst, List.append_nil] at h
      simpa using h
    | cons u us =>
      rw [List.dropLast_cons_cons, List.forall_mem_cons] at hclosed
      rw [List.intercalate_cons_cons, List.append_assoc, List.singleton_append,
        dotParts_kept hwhole.1, hclosed.1, dotParts_dot, ih (by simp) hwhole.2 hclosed.2,
        foldr_consFirst, List.append_nil]

/-! ## Texts without quotes, and between quotes -/

/-- Characters without dots and quotes. -/
theorem dotsQuoted_plain {cs : List Char} (hcs : ∀ c ∈ cs, c ≠ '.' ∧ closingQuote? c = none) :
    dotsQuoted none cs = true ∧ quoteAfter none cs = none := by
  induction cs with
  | nil => exact ⟨rfl, rfl⟩
  | cons c cs ih =>
    rw [List.forall_mem_cons] at hcs
    have hstep : quoteStep none c = none := hcs.1.2
    simpa [hstep, hcs.1.1] using ih hcs.2

/-- Where both quotes are the same, a doubled quote closes the quotes and opens them again. -/
theorem dotsQuoted_doubled {q : Char} (hq : closingQuote? q = some q) (cs : List Char) :
    dotsQuoted (some q) (doubled [q] 0 cs ++ [q]) = true
      ∧ quoteAfter (some q) (doubled [q] 0 cs ++ [q]) = none := by
  have hopen : quoteStep none q = some q := hq
  have hclose : quoteStep (some q) q = none := if_pos rfl
  have hdot : q ≠ '.' := by
    rintro rfl
    exact absurd hq (by decide)
  rw [doubled_single]
  induction cs with
  | nil => simp [hclose]
  | cons c cs ih =>
    rw [List.flatMap_cons, List.append_assoc]
    by_cases hc : c = q
    · subst hc
      simpa [hopen, hclose, hdot] using ih
    · have hstay : quoteStep (some q) c = some q := if_neg hc
      simpa [hc, hstay] using ih

/-! ## Parts without their quotes -/

/-- Doubled quotes are read as single ones, whatever stands behind them. -/
theorem undoubled_doubled_append (q : Char) (cs rest : List Char) :
    undoubled q (doubled [q] 0 cs ++ rest) = cs ++ undoubled q rest := by
  rw [doubled_single]
  induction cs with
  | nil => rfl
  | cons c cs ih =>
    rw [List.flatMap_cons, List.append_assoc]
    by_cases hc : c = q
    · subst hc
      rw [if_pos rfl, List.cons_append, List.singleton_append, undoubled, if_pos ⟨rfl, rfl⟩, ih]
      rfl
    · rw [if_neg hc, List.singleton_append]
      cases hds : (cs.flatMap fun c => if c = q then [q, q] else [c]) ++ rest with
      | nil =>
        rw [hds] at ih
        rw [List.cons_append, ← ih]
        simp [undoubled]
      | cons d ds => rw [undoubled, if_neg (fun h => hc h.1), ← hds, ih, List.cons_append]

theorem undoubled_doubled (q : Char) (cs : List Char) : undoubled q (doubled [q] 0 cs) = cs := by
  simpa [undoubled] using undoubled_doubled_append q cs []

/-- The text without the blanks at its end. -/
def trimEnd (cs : List Char) : List Char := (cs.reverse.dropWhile Text.isBlank).reverse

/-- Only what stands behind a character that is no blank is cut. -/
theorem trimEnd_append {c : Char} (hc : Text.isBlank c = false) (cs ds : List Char) :
    trimEnd (cs ++ c :: ds) = cs ++ c :: trimEnd ds := by
  have hstop : (c :: cs.reverse).dropWhile Text.isBlank = c :: cs.reverse := by
    rw [List.dropWhile_cons, if_neg (by simp [hc])]
  have hreverse : (cs ++ c :: ds).reverse = ds.reverse ++ c :: cs.reverse := by simp
  rw [trimEnd, hreverse, List.dropWhile_append, hstop, trimEnd]
  split
  · next hall =>
    rw [List.isEmpty_iff.mp hall]
    simp
  · simp

theorem trimEnd_isPrefix (cs : List Char) : trimEnd cs <+: cs := by
  rw [trimEnd, ← List.reverse_suffix, List.reverse_reverse]
  exact List.dropWhile_suffix _

theorem trimEnd_plain {cs : List Char} (h : ∀ c ∈ cs, Text.isBlank c = false) :
    trimEnd cs = cs := by
  have hreverse : cs.reverse.dropWhile Text.isBlank = cs.reverse := by
    cases hcs : cs.reverse with
    | nil => rfl
    | cons c ds =>
      have hc := h c (List.mem_reverse.mp (by rw [hcs]; exact List.mem_cons_self))
      rw [List.dropWhile_cons, if_neg (by simp [hc])]
  rw [trimEnd, hreverse, List.reverse_reverse]

theorem trimBlank_cons {c : Char} (hc : Text.isBlank c = false) (cs : List Char) :
    Text.trimBlank (String.ofList (c :: cs)) = String.ofList (c :: trimEnd cs) := by
  have h := trimEnd_append hc [] cs
  rw [Text.trimBlank, String.toList_ofList, List.dropWhile_cons, if_neg (by simp [hc])]
  exact congrArg String.ofList h

/-- A part that starts with a quote stands for the text between the quotes if it ends with one too,
and else for itself. -/
theorem unquoteName_opened {o q : Char} (ho : closingQuote? o = some q) (cs : List Char) :
    unquoteName (String.ofList (o :: cs))
      = String.ofList (if (trimEnd cs).getLast? = some q then undoubled q (trimEnd cs).dropLast
          else o :: trimEnd cs) := by
  unfold unquoteName
  rw [trimBlank_cons (isBlank_of_closingQuote? ho).1, String.toList_ofList]
  simp only [enclosed?, ho]
  by_cases hlast : (trimEnd cs).getLast? = some q
  · simp only [if_pos hlast]
  · simp only [if_neg hlast]

/-- A name between quotes stands for the name. -/
theorem unquoteName_quoted {o q : Char} (ho : closingQuote? o = some q) (name : String) :
    unquoteName (String.ofList (o :: (doubled [q] 0 name.toList ++ [q]))) = name := by
  have htrim : trimEnd (doubled [q] 0 name.toList ++ [q]) = doubled [q] 0 name.toList ++ [q] :=
    trimEnd_append (isBlank_of_closingQuote? ho).2 _ []
  rw [unquoteName_opened ho, htrim, if_pos List.getLast?_concat, List.dropLast_concat,
    undoubled_doubled, String.ofList_toList]

end Sql
