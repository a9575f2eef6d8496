import Sql.Proofs.NameCuts
import Sql.Proofs.QuotedText
import Sql.Proofs.ReadTree

/-!
# Quoted names with dots between them

The lexer reads names between quotes with dots between them as these names. Taking the text apart at
its dots gives the same names if both quotes of every name are the same character. In square
brackets a closing bracket of the name is written twice, and the first of the two closes the brackets
for good: what stands behind it is scanned as if it stood outside (`QuotedPart.exposed`). The names
come back exactly if nothing there cuts or opens anything (`KeptApart`).

* `QuotedPart.scan_text`: what the scan for dots sees of a quoted name.
* `QuotedPart.lost_of_cut`, `QuotedPart.lost_of_open`: a name that is cut, or runs on, is lost.
* `splitName_quotedParts`: what both readers make of quoted names.
-/

namespace Sql

/-! ## Quoted names -/

/-- A name between two quotes of one style. -/
structure QuotedPart where
  name : String
  opening : Char
  closing : Char
  name_ne : name ≠ ""
  quotes : closingQuote? opening = some closing

/-- What stands behind the first closing bracket of a text. -/
def behindBracket (cs : List Char) : List Char := (cs.dropWhile (· ≠ ']')).drop 1

namespace QuotedPart

/-- The name as it is written. -/
def text (p : QuotedPart) : String :=
  quoteName p.name (String.singleton p.opening) (String.singleton p.closing)

/-- What of the name is scanned as if it stood outside of the quotes. -/
def exposed (p : QuotedPart) : List Char :=
  if p.closing = ']' then behindBracket p.name.toList else []

end QuotedPart

/-- No name has an exposed dot, and none but the last leaves an exposed quote open. -/
structure KeptApart (parts : List QuotedPart) : Prop where
  whole : ∀ p ∈ parts, dotsQuoted none p.exposed = true
  closed : ∀ p ∈ parts.dropLast, quoteAfter none (p.exposed ++ [']']) = none

/-! ## Brackets -/

/-- The two quotes are the same, or they are brackets. -/
theorem closingQuote?_cases {o q : Char} (h : closingQuote? o = some q) :
    (o = q ∧ q ≠ ']') ∨ (o = '[' ∧ q = ']') := by
  rcases closingQuote?_eq_some h with ⟨rfl, rfl⟩ | ⟨rfl, rfl⟩ | ⟨rfl, rfl⟩ <;> simp

/-- Behind one closing bracket, a second one changes nothing. -/
theorem quoteStep_bracket_bracket (s : Option Char) :
    quoteStep (quoteStep s ']') ']' = quoteStep s ']' := by
  cases s with
  | none => rfl
  | some q =>
    by_cases hq : ']' = q
    · subst hq
      rfl
    · have hstay : quoteStep (some q) ']' = some q := if_neg hq
      rw [hstay, hstay]

theorem scan_doubledBracket (s : Option Char) (cs : List Char) :
    dotsQuoted s (doubled [']'] 0 cs) = dotsQuoted s cs
      ∧ quoteAfter s (doubled [']'] 0 cs) = quoteAfter s cs := by
  rw [doubled_single]
  induction cs generalizing s with
  | nil => exact ⟨rfl, rfl⟩
  | cons c cs ih =>
    rw [List.flatMap_cons]
    by_cases hc : c = ']'
    · subst hc
      simp [quoteStep_bracket_bracket, ih]
    · simp [hc, ih]

/-- Within brackets nothing is seen up to the first closing bracket. -/
theorem scan_bracket (cs : List Char) :
    dotsQuoted (some ']') (cs ++ [']']) = dotsQuoted none (behindBracket cs)
      ∧ quoteAfter (some ']') (cs ++ [']']) = quoteAfter none (behindBracket cs ++ [']']) := by
  induction cs with
  | nil => exact ⟨rfl, rfl⟩
  | cons c cs ih =>
    by_cases hc : c = ']'
    · subst hc
      have hclose : quoteStep (some ']') ']' = none := rfl
      have hbehind : behindBracket (']' :: cs) = cs := rfl
      simp [hclose, hbehind, dotsQuoted_append]
    · have hstay : quoteStep (some ']') c = some ']' := if_neg hc
      have hbehind : behindBracket (c :: cs) = behindBracket cs := by simp [behindBracket, hc]
      simpa [hstay, hbehind] using ih

namespace QuotedPart

theorem toList_text (p : QuotedPart) :
    p.text.toList = p.opening :: (doubled [p.closing] 0 p.name.toList ++ [p.closing]) :=
  toList_quoteName p.name p.opening p.closing

theorem unquoteName_text (p : QuotedPart) : unquoteName (String.ofList p.text.toList) = p.name := by
  rw [p.toList_text, unquoteName_quoted p.quotes]

theorem unquoteName_text_ne (p : QuotedPart) : unquoteName (String.ofList p.text.toList) ≠ "" := by
  rw [p.unquoteName_text]
  exact p.name_ne

theorem opening_ne_dot (p : QuotedPart) : p.opening ≠ '.' := by
  intro h
  have hquotes := p.quotes
  rw [h] at hquotes
  cases hquotes

/-- Behind its first character, the scan of a quoted name is within the quotes. -/
theorem scan_opening (p : QuotedPart) (cs : List Char) :
    dotsQuoted none (p.opening :: cs) = dotsQuoted (some p.closing) cs
      ∧ quoteAfter none (p.opening :: cs) = quoteAfter (some p.closing) cs := by
  have hstep : quoteStep none p.opening = some p.closing := p.quotes
  simp [hstep, p.opening_ne_dot]

/-- **What the scan for dots sees of a quoted name** is what is exposed. -/
theorem scan_text (p : QuotedPart) :
    dotsQuoted none p.text.toList = dotsQuoted none p.exposed
      ∧ quoteAfter none p.text.toList = quoteAfter none (p.exposed ++ [']']) := by
  obtain ⟨hdots, hafter⟩ := p.scan_opening (doubled [p.closing] 0 p.name.toList ++ [p.closing])
  rw [p.toList_text, hdots, hafter]
  rcases closingQuote?_cases p.quotes with ⟨hsame, hother⟩ | ⟨-, hbracket⟩
  · have hquotes : closingQuote? p.closing = some p.closing := by rw [← p.quotes, hsame]
    obtain ⟨hdots, hafter⟩ := dotsQuoted_doubled hquotes p.name.toList
    rw [hdots, hafter, exposed, if_neg hother]
    exact ⟨rfl, rfl⟩
  · obtain ⟨hdots, hafter⟩ := scan_doubledBracket (some ']') p.name.toList
    rw [hbracket, exposed, if_pos hbracket, ← (scan_bracket _).1, ← (scan_bracket _).2,
      dotsQuoted_append, dotsQuoted_append, quoteAfter_append, quoteAfter_append, hdots, hafter]
    exact ⟨rfl, rfl⟩

end QuotedPart

/-! ## Doubled quotes, cut somewhere -/

theorem doubled_append (q : Char) (cs ds : List Char) :
    doubled [q] 0 (cs ++ ds) = doubled [q] 0 cs ++ doubled [q] 0 ds := by
  simp [doubled_single]

theorem doubled_of_not_mem {q : Char} {cs : List Char} (h : q ∉ cs) : doubled [q] 0 cs = cs := by
  rw [doubled_single]
  induction cs with
  | nil => rfl
  | cons c cs ih =>
    rw [List.mem_cons, not_or] at h
    rw [List.flatMap_cons, if_neg (Ne.symm h.1), ih h.2, List.singleton_append]

theorem length_le_doubled (q : Char) (cs : List Char) :
    cs.length ≤ (doubled [q] 0 cs).length := by
  rw [doubled_single]
  induction cs with
  | nil => exact Nat.le_refl _
  | cons c cs ih =>
    rw [List.flatMap_cons, List.length_append, List.length_cons]
    split <;> simp only [List.length_cons, List.length_nil] <;> omega

/-- A dot between the quotes is a dot of the name. -/
theorem doubled_cut {q : Char} (hq : q ≠ '.') {cs front behind : List Char}
    (h : doubled [q] 0 cs ++ [q] = front ++ '.' :: behind) :
    ∃ ds rest, cs = ds ++ '.' :: rest ∧ front = doubled [q] 0 ds := by
  simp only [doubled_single] at h ⊢
  induction cs generalizing front with
  | nil =>
    cases front with
    | nil => exact absurd (List.cons.inj h).1 hq
    | cons d front => simp at h
  | cons c cs ih =>
    rw [List.flatMap_cons, List.append_assoc] at h
    by_cases hc : c = q
    · rw [if_pos hc, List.cons_append, List.singleton_append] at h
      -- both quotes are in front of the dot
      match front, h with
      | [], h => exact absurd (List.cons.inj h).1 hq
      | [d], h => exact absurd (List.cons.inj (List.cons.inj h).2).1 hq
      | d :: e :: front, h =>
        rw [List.cons_append, List.cons_append, List.cons.injEq, List.cons.injEq] at h
        obtain ⟨ds, rest, rfl, rfl⟩ := ih h.2.2
        exact ⟨c :: ds, rest, rfl, by simp [hc, ← h.1, ← h.2.1]⟩
    · rw [if_neg hc, List.singleton_append] at h
      cases front with
      | nil =>
        obtain ⟨rfl, -⟩ := List.cons.inj h
        exact ⟨[], cs, rfl, rfl⟩
      | cons d front =>
        rw [List.cons_append, List.cons.injEq] at h
        obtain ⟨ds, rest, rfl, rfl⟩ := ih h.2
        exact ⟨c :: ds, rest, rfl, by simp [hc, ← h.1]⟩

theorem undoubled_ne_nil {q : Char} {cs : List Char} (h : cs ≠ []) : undoubled q cs ≠ [] := by
  match cs with
  | [] => exact absurd rfl h
  | [c] => simp [undoubled]
  | c :: d :: cs =>
    rw [undoubled]
    split <;> simp

/-- Undoubling the start of a doubled text gives no more characters than the text has. -/
theorem length_undoubled_le {q : Char} {cs ds : List Char} (h : ds <+: doubled [q] 0 cs) :
    (undoubled q ds).length ≤ cs.length := by
  rw [doubled_single] at h
  induction cs generalizing ds with
  | nil =>
    obtain rfl := List.prefix_nil.mp h
    simp [undoubled]
  | cons c cs ih =>
    rw [List.flatMap_cons] at h
    by_cases hc : c = q
    · subst hc
      rw [if_pos rfl, List.cons_append, List.singleton_append, List.prefix_cons_iff] at h
      rcases h with rfl | ⟨ds, rfl, h⟩
      · simp [undoubled]
      rw [List.prefix_cons_iff] at h
      rcases h with rfl | ⟨ds, rfl, h⟩
      · simp [undoubled]
      · simpa [undoubled] using ih h
    · rw [if_neg hc, List.singleton_append, List.prefix_cons_iff] at h
      rcases h with rfl | ⟨ds, rfl, h⟩
      · simp [undoubled]
      have hlength := ih h
      cases ds with
      | nil => simp [undoubled]
      | cons d ds =>
        rw [undoubled, if_neg fun hboth => hc hboth.1, List.length_cons, List.length_cons]
        omega

/-! ## Names that are lost -/

theorem quoteAfter_of_not_mem {q : Char} {cs : List Char} (h : q ∉ cs) :
    quoteAfter (some q) cs = some q := by
  induction cs with
  | nil => rfl
  | cons c cs ih =>
    rw [List.mem_cons, not_or] at h
    have hstay : quoteStep (some q) c = some q := if_neg (Ne.symm h.1)
    rw [quoteAfter_cons, hstay, ih h.2]

/-- What is left of a name in brackets that is cut at a dot is neither nothing nor the name. -/
theorem unquoteName_front {front behind : List Char} (hclose : ']' ∈ front) :
    unquoteName (String.ofList ('[' :: doubled [']'] 0 front)) ≠ ""
      ∧ unquoteName (String.ofList ('[' :: doubled [']'] 0 front))
        ≠ String.ofList (front ++ '.' :: behind) := by
  have hbracket : Text.isBlank ']' = false := by decide
  obtain ⟨x, z, rfl, hx⟩ := List.eq_append_cons_of_mem hclose
  -- the first closing bracket and its double are no blanks at the end
  have htrim : trimEnd (doubled [']'] 0 (x ++ ']' :: z))
      = x ++ ']' :: ']' :: trimEnd (doubled [']'] 0 z) := by
    have hdoubled : doubled [']'] 0 (x ++ ']' :: z) = x ++ ']' :: ']' :: doubled [']'] 0 z := by
      rw [doubled_append, doubled_of_not_mem hx]
      simp [doubled_single]
    rw [hdoubled, trimEnd_append hbracket]
    exact congrArg (x ++ ']' :: ·) (trimEnd_append hbracket [] _)
  rw [unquoteName_opened rfl]
  split
  · -- the part ends with a bracket, which is taken for the closing one
    have hprefix : (trimEnd (doubled [']'] 0 (x ++ ']' :: z))).dropLast
        <+: doubled [']'] 0 (x ++ ']' :: z) :=
      (List.dropLast_prefix _).trans (trimEnd_isPrefix _)
    have hne : (trimEnd (doubled [']'] 0 (x ++ ']' :: z))).dropLast ≠ [] := by
      rw [htrim, ← List.length_pos_iff]
      simp
    have hlength := length_undoubled_le hprefix
    refine ⟨by simpa using undoubled_ne_nil hne, fun heq => ?_⟩
    rw [String.ofList_injective heq] at hlength
    simp at hlength
  · -- the opening bracket stays, and no name starts like this
    refine ⟨by simp, fun heq => ?_⟩
    have hchars := String.ofList_injective heq
    rw [htrim, List.append_assoc, List.cons_append] at hchars
    have hfront := congrArg (List.takeWhile (· ≠ ']')) hchars
    have hall : x.all (· ≠ ']') = true := by
      simpa using fun c hc => ne_of_mem_of_not_mem hc hx
    have hstop : ∀ cs, startsWith (fun c => decide (c ≠ ']')) (']' :: cs) = false := fun _ => rfl
    rw [← List.cons_append, (takeWhile_append_of_stop (by simpa using hall) (hstop _)).1,
      (takeWhile_append_of_stop hall (hstop _)).1] at hfront
    simpa using congrArg List.length hfront

namespace QuotedPart

/-- A name that is cut is lost. -/
theorem lost_of_cut (p : QuotedPart) (hcut : dotsQuoted none p.text.toList = false)
    {front behind : List Char} (htext : p.text.toList = front ++ '.' :: behind)
    (hafter : quoteAfter none front = none) :
    unquoteName (String.ofList front) ≠ "" ∧ unquoteName (String.ofList front) ≠ p.name := by
  rcases closingQuote?_cases p.quotes with ⟨-, hother⟩ | ⟨hopening, hclosing⟩
  · rw [p.scan_text.1, exposed, if_neg hother] at hcut
    cases hcut
  rw [p.toList_text] at htext
  cases front with
  | nil => exact absurd (List.cons.inj htext).1 p.opening_ne_dot
  | cons c front =>
    rw [List.cons_append, List.cons.injEq, hclosing] at htext
    obtain ⟨rfl, htext⟩ := htext
    rw [(p.scan_opening front).2, hclosing] at hafter
    obtain ⟨ds, rest, hname, rfl⟩ := doubled_cut (by decide) htext
    have hmem : ']' ∈ ds := by
      by_contra hnot
      rw [doubled_of_not_mem hnot, quoteAfter_of_not_mem hnot] at hafter
      cases hafter
    have hlost := @unquoteName_front ds rest hmem
    rwa [← hname, String.ofList_toList, ← hopening] at hlost

/-- A name that runs on behind its quotes is lost. -/
theorem lost_of_open (p : QuotedPart) (cs : List Char) :
    unquoteName (String.ofList (p.text.toList ++ '.' :: cs)) ≠ ""
      ∧ unquoteName (String.ofList (p.text.toList ++ '.' :: cs)) ≠ p.name := by
  have hlonger : p.name.toList.length
      < (unquoteName (String.ofList (p.text.toList ++ '.' :: cs))).toList.length := by
    have hdot : Text.isBlank '.' = false := by decide
    have htrim : trimEnd (doubled [p.closing] 0 p.name.toList ++ p.closing :: '.' :: cs)
        = doubled [p.closing] 0 p.name.toList ++ p.closing :: '.' :: trimEnd cs := by
      rw [trimEnd_append (isBlank_of_closingQuote? p.quotes).2]
      exact congrArg (_ ++ p.closing :: ·) (trimEnd_append hdot [] cs)
    rw [p.toList_text, List.cons_append, List.append_assoc, List.singleton_append,
      unquoteName_opened p.quotes, String.toList_ofList, htrim]
    split
    · rw [List.dropLast_append_of_ne_nil (by simp), undoubled_doubled_append, List.length_append]
      have hmore := List.length_pos_iff.mpr
        (@undoubled_ne_nil p.closing (p.closing :: '.' :: trimEnd cs).dropLast (by simp))
      omega
    · have hdoubled := length_le_doubled p.closing p.name.toList
      simp only [List.length_cons, List.length_append]
      omega
  refine ⟨fun hempty => ?_, fun hsame => ?_⟩
  · rw [hempty] at hlonger
    simp at hlonger
  · rw [hsame] at hlonger
    exact absurd hlonger (Nat.lt_irrefl _)

end QuotedPart

/-! ## Taking quoted names apart -/

/-- The names that parts stand for. -/
def namesOf (parts : List (List Char)) : List String :=
  (parts.map fun part => unquoteName (String.ofList part)).filter (· ≠ "")

theorem splitName_eq (name : String) : splitName name = namesOf (dotParts none name.toList) := rfl

theorem namesOf_cons {part : List Char} (h : unquoteName (String.ofList part) ≠ "")
    (parts : List (List Char)) :
    namesOf (part :: parts) = unquoteName (String.ofList part) :: namesOf parts := by
  simp [namesOf, h]

namespace QuotedPart

/-- A name that is cut is not the first that comes back. -/
theorem namesOf_cut (p : QuotedPart) (hcut : dotsQuoted none p.text.toList = false)
    (rest : List Char) (names : List String) :
    namesOf (dotParts none (p.text.toList ++ rest)) ≠ p.name :: names := by
  obtain ⟨front, behind, htext, -, hafter, hparts⟩ := dotParts_cut hcut
  obtain ⟨hne, hother⟩ := p.lost_of_cut hcut htext hafter
  rw [hparts, namesOf_cons hne]
  exact fun h => hother (List.cons.inj h).1

/-- Nor is a name that runs on behind its quotes. -/
theorem namesOf_open (p : QuotedPart) (hwhole : dotsQuoted none p.text.toList = true)
    (hopen : quoteAfter none p.text.toList ≠ none) (rest : List Char) (names : List String) :
    namesOf (dotParts none (p.text.toList ++ '.' :: rest)) ≠ p.name :: names := by
  obtain ⟨q, hq⟩ := Option.ne_none_iff_exists'.mp hopen
  obtain ⟨part, parts, hparts⟩ :=
    List.exists_cons_of_ne_nil (dotParts_ne_nil (quoteStep (some q) '.') rest)
  obtain ⟨hne, hother⟩ := p.lost_of_open part
  rw [dotParts_kept hwhole, hq, dotParts_cons rfl, hparts, consFirst, foldr_consFirst,
    namesOf_cons hne]
  exact fun h => hother (List.cons.inj h).1

theorem namesOf_last (p : QuotedPart) (hwhole : dotsQuoted none p.text.toList = true) :
    namesOf (dotParts none p.text.toList) = [p.name] := by
  have hparts := dotParts_kept hwhole []
  rw [List.append_nil, dotParts_nil, foldr_consFirst, List.append_nil] at hparts
  rw [hparts, namesOf_cons p.unquoteName_text_ne, p.unquoteName_text]
  rfl

theorem namesOf_kept (p : QuotedPart) (hwhole : dotsQuoted none p.text.toList = true)
    (hclosed : quoteAfter none p.text.toList = none) (rest : List Char) :
    namesOf (dotParts none (p.text.toList ++ '.' :: rest))
      = p.name :: namesOf (dotParts none rest) := by
  rw [dotParts_kept hwhole, hclosed, dotParts_dot, foldr_consFirst, List.append_nil,
    namesOf_cons p.unquoteName_text_ne, p.unquoteName_text]

end QuotedPart

theorem keptApart_singleton (p : QuotedPart) :
    KeptApart [p] ↔ dotsQuoted none p.text.toList = true := by
  rw [p.scan_text.1]
  exact ⟨fun h => h.whole p List.mem_cons_self, fun h => ⟨by simpa using h, by simp⟩⟩

theorem keptApart_cons_cons (p q : QuotedPart) (ps : List QuotedPart) :
    KeptApart (p :: q :: ps) ↔ (dotsQuoted none p.text.toList = true
      ∧ quoteAfter none p.text.toList = none) ∧ KeptApart (q :: ps) := by
  rw [p.scan_text.1, p.scan_text.2]
  constructor
  · rintro ⟨hwhole, hclosed⟩
    rw [List.forall_mem_cons] at hwhole
    rw [List.dropLast_cons_cons, List.forall_mem_cons] at hclosed
    exact ⟨⟨hwhole.1, hclosed.1⟩, hwhole.2, hclosed.2⟩
  · rintro ⟨⟨hwhole, hclosed⟩, h⟩
    refine ⟨List.forall_mem_cons.mpr ⟨hwhole, h.whole⟩, ?_⟩
    rw [List.dropLast_cons_cons]
    exact List.forall_mem_cons.mpr ⟨hclosed, h.closed⟩

/-- **The names come back exactly if they are kept apart.** -/
theorem namesOf_quotedParts {parts : List QuotedPart} (hne : parts ≠ []) :
    namesOf (dotParts none (['.'].intercalate (parts.map fun p => p.text.toList)))
      = parts.map QuotedPart.name ↔ KeptApart parts := by
  induction parts with
  | nil => exact absurd rfl hne
  | cons p ps ih =>
    cases ps with
    | nil =>
      rw [List.map_singleton, List.intercalate_singleton, List.map_singleton, keptApart_singleton]
      cases hwhole : dotsQuoted none p.text.toList with
      | true => simp [p.namesOf_last hwhole]
      | false =>
        have hlost := p.namesOf_cut hwhole [] []
        rw [List.append_nil] at hlost
        simp [hlost]
    | cons q ps =>
      have htexts : ['.'].intercalate ((p :: q :: ps).map fun p => p.text.toList)
          = p.text.toList ++ '.' :: ['.'].intercalate ((q :: ps).map fun p => p.text.toList) := by
        rw [List.map_cons, List.map_cons, List.intercalate_cons_cons, List.append_assoc,
          List.singleton_append]
      rw [htexts, List.map_cons, keptApart_cons_cons, ← ih (by simp)]
      -- the first part is cut inside, or runs on into the second, or is kept
      cases hwhole : dotsQuoted none p.text.toList with
      | false =>
        have hlost := p.namesOf_cut hwhole
        simp [hlost]
      | true =>
        by_cases hclosed : quoteAfter none p.text.toList = none
        · rw [p.namesOf_kept hwhole hclosed]
          simp [hclosed]
        · have hlost := p.namesOf_open hwhole hclosed
          simp [hlost, hclosed]

theorem behindBracket_of_not_mem {cs : List Char} (h : ']' ∉ cs) : behindBracket cs = [] := by
  induction cs with
  | nil => rfl
  | cons c cs ih =>
    rw [List.mem_cons, not_or] at h
    have hbehind : behindBracket (c :: cs) = behindBracket cs := by
      simp [behindBracket, Ne.symm h.1]
    rw [hbehind, ih h.2]

/-- Names without closing brackets in brackets have nothing exposed. -/
theorem keptApart_of_not_mem {parts : List QuotedPart}
    (h : ∀ p ∈ parts, p.closing = ']' → ']' ∉ p.name.toList) : KeptApart parts := by
  have hexposed : ∀ p ∈ parts, p.exposed = [] := by
    intro p hp
    unfold QuotedPart.exposed
    split
    · next hclosing => exact behindBracket_of_not_mem (h p hp hclosing)
    · rfl
  refine ⟨fun p hp => ?_, fun p hp => ?_⟩
  · rw [hexposed p hp]
    rfl
  · rw [hexposed p (List.dropLast_subset _ hp)]
    rfl

/-! ## Reading quoted names -/

theorem lex_quotedParts {parts : List QuotedPart} (hne : parts ≠ []) :
    lex (dotted (parts.map QuotedPart.text)).toList
      = some (dotSep (parts.map fun p => .quoted p.name) ++ [.eof]) := by
  have hread : ∀ p ∈ parts, ∀ rest, Parts rest →
      lex (p.text.toList ++ rest) = (lex rest).map (Lexeme.quoted p.name :: ·) :=
    fun p _ rest hrest => lex_quoteName p.quotes p.name_ne hrest
  have hdigit : ∀ p ∈ parts, ∀ rest, startsWith Char.isDigit (p.text.toList ++ rest) = false := by
    intro p _ rest
    rw [p.toList_text, List.cons_append, startsWith]
    rcases closingQuote?_eq_some p.quotes with ⟨h, -⟩ | ⟨h, -⟩ | ⟨h, -⟩ <;> rw [h] <;> decide
  have h := lex_dotted QuotedPart.text (fun p => .quoted p.name) hread hdigit hne parts_nil
  rwa [List.append_nil, lex_nil] at h

theorem splitName_iff (parts : List QuotedPart) :
    splitName (dotted (parts.map QuotedPart.text)) = parts.map QuotedPart.name
      ↔ KeptApart parts := by
  cases parts with
  | nil => exact ⟨fun _ => ⟨by simp, by simp⟩, fun _ => by decide⟩
  | cons p ps =>
    rw [splitName_eq, dotted, String.toList_intercalate, List.map_map,
      show ".".toList = ['.'] from rfl]
    exact namesOf_quotedParts (by simp)

theorem tokenize_quotedParts (parts : List QuotedPart) :
    ∃ ts, tokenize (dotted (parts.map QuotedPart.text)) = .ok ts
      ∧ ts.map Token.lexeme = dotSep (parts.map fun p => .quoted p.name) ++ [.eof] := by
  cases parts with
  | nil => exact ⟨_, tokenize_empty, rfl⟩
  | cons p ps => exact tokenize_of_lex (lex_quotedParts (by simp))

/-- **Quoted names with dots between them.** Taking them apart at the dots gives the names exactly if
they are kept apart, and always if no name in brackets has a closing bracket; the lexer always reads
the names with dots between them. -/
theorem splitName_quotedParts (parts : List QuotedPart) :
    (splitName (dotted (parts.map QuotedPart.text)) = parts.map QuotedPart.name ↔ KeptApart parts)
      ∧ ((∀ p ∈ parts, p.closing = ']' → ']' ∉ p.name.toList) →
        splitName (dotted (parts.map QuotedPart.text)) = parts.map QuotedPart.name)
      ∧ ∃ ts, tokenize (dotted (parts.map QuotedPart.text)) = .ok ts
        ∧ ts.map Token.lexeme = dotSep (parts.map fun p => .quoted p.name) ++ [.eof] := by
  refine ⟨splitName_iff parts, fun h => ?_, tokenize_quotedParts parts⟩
  exact (splitName_iff parts).mpr (keptApart_of_not_mem h)

/-- Names with dots and quotes of every style, the last with a dot between quotes behind a closing
bracket. -/
def styledParts : List QuotedPart :=
  [⟨"x.\x22y", '\x22', '\x22', by decide, rfl⟩, ⟨"[\x60.", '\x60', '\x60', by decide, rfl⟩,
    ⟨"a]\x22b.c\x22", '[', ']', by decide, rfl⟩]

/-- A name with a dot behind a closing bracket. -/
def cutPart : QuotedPart := ⟨"a].b", '[', ']', by decide, rfl⟩

theorem splitName_quotedParts_styled :
    splitName "\x22x.\x22\x22y\x22.\x60[\x60\x60.\x60.[a]]\x22b.c\x22]"
        = ["x.\x22y", "[\x60.", "a]\x22b.c\x22"]
      ∧ splitName "[a]].b]" ≠ ["a].b"]
      ∧ ∃ ts, tokenize "[a]].b]" = .ok ts ∧ ts.map Token.lexeme = [.quoted "a].b", .eof] :=
  ⟨(splitName_quotedParts styledParts).1.mpr ⟨by decide, by decide⟩,
    fun h => absurd ((splitName_quotedParts [cutPart]).1.mp h).whole (by decide),
    (splitName_quotedParts [cutPart]).2.2⟩

/-- The dot cuts the name, although it stands between the quotes. -/
example : splitName "[a]].b]" = ["a]", "b]"] := by decide +kernel

end Sql
