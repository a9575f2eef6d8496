import Sql.Proofs.Blocks
import Sql.Proofs.Placeholders
import Sql.Proofs.PrintedText

/-!
# Layout is blank

Two dialects that differ in their layout only print the same text up to blanks: every run of them
counts as one space, and there is none beside a parenthesis or comma (`plainLayout`). They hand out
the same values, or refuse the tree for the same reason (`Statement.format_layout`).

The text is compared from its end. `PrintAlike` says that two dialects print the last fragments
alike; one more fragment in front keeps this, and so does a whole block, whose edges may be printed
by one dialect only.

A condition may end a line at each of its conjunctions. Apart from what stands there, it is printed
as any expression is (`Expr.condition_fragments`).
-/

namespace Sql

open Fragment

/-! ## Texts up to layout -/

/-- Every maximal run of blanks as one space. -/
def oneSpace : List Char → List Char
  | [] => []
  | c :: cs =>
    if Text.isBlank c then
      if startsWith Text.isBlank cs then oneSpace cs else ' ' :: oneSpace cs
    else c :: oneSpace cs

/-- A character beside which no space is kept. -/
def isTight (c : Char) : Bool := c == '(' || c == ')' || c == ','

/-- The text without the spaces that stand beside a parenthesis or comma, given whether there is one
right before the text. -/
def noSpaceBeside (tight : Bool) : List Char → List Char
  | [] => []
  | c :: cs =>
    if c = ' ' ∧ (tight || startsWith isTight cs) then noSpaceBeside false cs
    else c :: noSpaceBeside (isTight c) cs

/-- The characters without their layout. -/
def plainChars (cs : List Char) : List Char := noSpaceBeside false (oneSpace cs)

/-- The text without its layout. -/
def plainLayout (text : String) : String := String.ofList (plainChars text.toList)

/-- The text without a space at its front. -/
def dropSpace : List Char → List Char
  | [] => []
  | c :: cs => if c = ' ' then cs else c :: cs

/-- One character in front of a text without layout. -/
def putPlain (c : Char) (cs : List Char) : List Char :=
  if Text.isBlank c then
    if startsWith (fun d => d == ' ' || isTight d) cs then cs else ' ' :: cs
  else if isTight c then c :: dropSpace cs
  else c :: cs

theorem isBlank_of_isTight {c : Char} (h : isTight c = true) : Text.isBlank c = false := by
  simp only [isTight, Bool.or_eq_true, beq_iff_eq] at h
  rcases h with (rfl | rfl) | rfl <;> decide

theorem ne_space_of_isTight {c : Char} (h : isTight c = true) : c ≠ ' ' := by
  rintro rfl
  exact absurd h (by decide)

theorem ne_space_of_not_isBlank {c : Char} (h : Text.isBlank c = false) : c ≠ ' ' := by
  rintro rfl
  rw [Text.isBlank_space] at h
  cases h

theorem startsWith_oneSpace (cs : List Char) :
    startsWith (· == ' ') (oneSpace cs) = startsWith Text.isBlank cs := by
  induction cs with
  | nil => rfl
  | cons c cs ih =>
    rw [oneSpace, startsWith]
    cases hc : Text.isBlank c with
    | false => simpa [startsWith] using ne_space_of_not_isBlank hc
    | true =>
      rw [if_pos rfl]
      split
      · next h => rw [ih, h]
      · rfl

/-- What stands at the front stays there, unless it is a space. -/
theorem noSpaceBeside_cons {c : Char} (h : c ≠ ' ') (tight : Bool) (cs : List Char) :
    noSpaceBeside tight (c :: cs) = c :: noSpaceBeside (isTight c) cs := by
  rw [noSpaceBeside, if_neg (fun hc => h hc.1)]

theorem noSpaceBeside_true (cs : List Char) :
    noSpaceBeside true cs = dropSpace (noSpaceBeside false cs) := by
  cases cs with
  | nil => rfl
  | cons c cs =>
    by_cases hc : c = ' '
    · subst hc
      rw [noSpaceBeside, if_pos ⟨rfl, rfl⟩, noSpaceBeside]
      simp only [true_and, Bool.false_or]
      split
      · next h =>
        -- the space stands before another tight character, which is no space
        cases cs with
        | nil => rfl
        | cons d cs =>
          have hd := ne_space_of_isTight (c := d) h
          rw [noSpaceBeside_cons hd, dropSpace, if_neg hd]
      · rfl
    · rw [noSpaceBeside_cons hc, noSpaceBeside_cons hc, dropSpace, if_neg hc]

/-- **Layout is taken away from the end of a text to its front.** -/
theorem plainChars_cons (c : Char) (cs : List Char) :
    plainChars (c :: cs) = putPlain c (plainChars cs) := by
  unfold plainChars putPlain
  rw [oneSpace]
  have hspace := startsWith_oneSpace cs
  cases hc : Text.isBlank c with
  | false =>
    have hne := ne_space_of_not_isBlank hc
    simp only [Bool.false_eq_true, if_false, noSpaceBeside_cons hne]
    cases isTight c with
    | false => rfl
    | true => simp [noSpaceBeside_true]
  | true =>
    rw [if_pos rfl, if_pos rfl]
    cases hblank : startsWith Text.isBlank cs with
    | true =>
      -- the run of blanks goes on, and its space is there or is not wanted
      rw [hblank] at hspace
      rw [if_pos rfl, if_pos]
      cases hk : oneSpace cs with
      | nil => rw [hk] at hspace; cases hspace
      | cons d ds =>
        rw [hk] at hspace
        obtain rfl : d = ' ' := by simpa [startsWith] using hspace
        rw [noSpaceBeside]
        simp only [true_and, Bool.false_or]
        split
        · next htight =>
          cases ds with
          | nil => cases htight
          | cons e ds =>
            have he : isTight e = true := htight
            simp [noSpaceBeside_cons (ne_space_of_isTight he), startsWith, he]
        · rfl
    | false =>
      rw [hblank] at hspace
      rw [if_neg (by simp), noSpaceBeside]
      simp only [true_and, Bool.false_or]
      cases hk : oneSpace cs with
      | nil => rfl
      | cons d ds =>
        rw [hk] at hspace
        have hd : d ≠ ' ' := by simpa [startsWith] using hspace
        rw [noSpaceBeside_cons hd]
        have htight : isTight ' ' = false := by decide
        simp [startsWith, hd, htight, noSpaceBeside_cons hd]

theorem plainChars_append (cs ds : List Char) :
    plainChars (cs ++ ds) = cs.foldr putPlain (plainChars ds) := by
  induction cs with
  | nil => rfl
  | cons c cs ih => rw [List.cons_append, plainChars_cons, ih, List.foldr_cons]

/-! ## Blanks in front of a text -/

section

variable {c : Char} (cs : List Char)

theorem putPlain_blank (hc : Text.isBlank c = true) : putPlain c cs = putPlain ' ' cs := by
  rw [putPlain, putPlain, hc, Text.isBlank_space, if_pos rfl, if_pos rfl]

theorem putPlain_space_space : putPlain ' ' (putPlain ' ' cs) = putPlain ' ' cs := by
  have h : startsWith (fun d => d == ' ' || isTight d) (putPlain ' ' cs) = true := by
    rw [putPlain, Text.isBlank_space, if_pos rfl]
    split
    · assumption
    · rfl
  rw [putPlain, Text.isBlank_space, if_pos rfl, if_pos h]

/-- A run of blanks counts as one space. -/
theorem foldr_putPlain_blanks {ws : List Char} (hne : ws ≠ []) (hws : ws.all Text.isBlank = true) :
    ws.foldr putPlain cs = putPlain ' ' cs := by
  induction ws with
  | nil => exact absurd rfl hne
  | cons w ws ih =>
    rw [List.all_cons, Bool.and_eq_true] at hws
    rw [List.foldr_cons, putPlain_blank _ hws.1]
    cases ws with
    | nil => rfl
    | cons v ws => rw [ih (by simp) hws.2, putPlain_space_space]

theorem putPlain_tight (hc : isTight c = true) : putPlain c cs = c :: dropSpace cs := by
  rw [putPlain, isBlank_of_isTight hc, hc]
  rfl

/-- A space before a parenthesis or comma does not count, -/
theorem putPlain_space_tight (hc : isTight c = true) :
    putPlain ' ' (putPlain c cs) = putPlain c cs := by
  rw [putPlain_tight cs hc, putPlain, Text.isBlank_space]
  simp [startsWith, hc]

/-- and neither does one behind it. -/
theorem putPlain_tight_space (hc : isTight c = true) :
    putPlain c (putPlain ' ' cs) = putPlain c cs := by
  rw [putPlain_tight _ hc, putPlain_tight _ hc, putPlain, Text.isBlank_space]
  cases cs with
  | nil => rfl
  | cons d cs =>
    by_cases hd : d = ' '
    · subst hd
      rfl
    · cases ht : isTight d <;> simp [startsWith, dropSpace, hd, ht]

end

/-- Layout takes away no sign and puts none in front. -/
theorem startsWith_plainChars {p : Char → Bool} (hblank : ∀ c, Text.isBlank c = true → p c = false)
    (htight : ∀ c, isTight c = true → p c = false) (cs : List Char) :
    startsWith p (plainChars cs) = startsWith p cs := by
  cases cs with
  | nil => rfl
  | cons c cs =>
    rw [plainChars_cons, putPlain]
    split
    · next hc =>
      have hnot : startsWith p (c :: cs) = false := hblank c hc
      rw [hnot]
      split
      · next h =>
        cases hcs : plainChars cs with
        | nil => rfl
        | cons d ds =>
          rw [hcs] at h
          have hd : (d == ' ' || isTight d) = true := h
          rw [Bool.or_eq_true, beq_iff_eq] at hd
          rcases hd with rfl | hd
          · exact hblank ' ' Text.isBlank_space
          · exact htight d hd
      · exact hblank ' ' Text.isBlank_space
    · split <;> rfl

/-! ## Dialects that differ in their layout -/

/-- The dialects differ at most in what stands between clauses, the indentation and the places where
lines end. -/
def DialectConfig.SameButLayout (c d : DialectConfig) : Prop :=
  d = { c with newline := d.newline, indent := d.indent, commaBreak := d.commaBreak,
               andBreak := d.andBreak }

namespace DialectConfig.SameButLayout

variable {c d : DialectConfig}

theorem keyword (h : c.SameButLayout d) (word : String) : c.keyword word = d.keyword word := by
  rw [h]
  rfl

theorem name (h : c.SameButLayout d) (n : String) : c.name n = d.name n := by
  rw [h]
  rfl

theorem functionName (h : c.SameButLayout d) (n : String) :
    c.functionName n = d.functionName n := by
  rw [h]
  rfl

theorem placeAll (h : c.SameButLayout d) (ps : List Param) (k : Collected) :
    Collected.placeAll c ps k = Collected.placeAll d ps k := by
  induction ps generalizing k with
  | nil => rfl
  | cons p ps ih =>
    have hplace : k.place c p = k.place d p := by
      rw [h]
      rfl
    simp only [Collected.placeAll, hplace, ih]

theorem toParams (h : c.SameButLayout d) (k : Collected) : k.toParams c = k.toParams d := by
  rw [h]
  rfl

end DialectConfig.SameButLayout

/-! ## Fragments in front of others -/

/-- The pieces of a text without their layout. -/
def plainPieces (pieces : List String) : List Char := plainChars (String.join pieces).toList

theorem plainPieces_cons (s : String) (pieces : List String) :
    plainPieces (s :: pieces) = s.toList.foldr putPlain (plainPieces pieces) := by
  rw [plainPieces, plainPieces, String.toList_join, String.toList_join, List.flatMap_cons,
    plainChars_append]

theorem startsWithSign_plainPieces (pieces : List String) :
    startsWithSign pieces = startsWith (fun c => c == '-' || c == '+') (plainPieces pieces) := by
  rw [startsWithSign_eq, plainPieces, startsWith_plainChars]
  · intro c hc
    rw [Bool.or_eq_false_iff, beq_eq_false_iff_ne, beq_eq_false_iff_ne]
    constructor <;>
    · rintro rfl
      exact absurd hc (by decide)
  · intro c hc
    simp only [isTight, Bool.or_eq_true, beq_iff_eq] at hc
    rcases hc with (rfl | rfl) | rfl <;> rfl

/-- Two dialects print the fragments alike but for the layout, whatever the placeholders are. -/
def PrintAlike (c d : DialectConfig) (fs : List Fragment) : Prop :=
  ∀ placeholders, plainPieces (fill c fs placeholders) = plainPieces (fill d fs placeholders)

section

variable {c d : DialectConfig} (hc : c.fault? = none) (hd : d.fault? = none)
  (h : c.SameButLayout d)

include hc in
/-- The end of a line counts as one space. -/
theorem foldr_putPlain_lineEnd (depth : Nat) (cs : List Char) :
    (c.lineEnd depth).toList.foldr putPlain cs = putPlain ' ' cs := by
  obtain ⟨w, ws, htext, hblank⟩ := DialectConfig.blank_lineEnd hc depth
  rw [htext]
  exact foldr_putPlain_blanks cs (by simp) hblank

include hc in
/-- A comma counts as a comma wherever the line ends. -/
theorem foldr_putPlain_comma (depth : Nat) (cs : List Char) :
    (c.comma depth).toList.foldr putPlain cs = putPlain ',' cs := by
  have htight : isTight ',' = true := by decide
  have hspace : ", ".toList.foldr putPlain cs = putPlain ',' cs := putPlain_tight_space cs htight
  unfold DialectConfig.comma
  cases c.commaBreak with
  | none => exact hspace
  | after =>
    rw [String.toList_append, List.foldr_append, foldr_putPlain_lineEnd hc]
    exact putPlain_tight_space cs htight
  | before =>
    rw [String.toList_append, List.foldr_append, foldr_putPlain_lineEnd hc, hspace]
    exact putPlain_space_tight cs htight

include hc in
/-- A conjunction counts as its keyword between spaces. -/
theorem foldr_putPlain_conjunction (depth : Nat) (cs : List Char) :
    (c.conjunction depth).toList.foldr putPlain cs
      = putPlain ' ' ((c.keyword "and").toList.foldr putPlain (putPlain ' ' cs)) := by
  unfold DialectConfig.conjunction
  cases c.andBreak <;>
    simp [List.foldr_append, foldr_putPlain_lineEnd hc]

include hc hd h in
/-- One fragment more is printed alike if it is no edge. -/
theorem PrintAlike.cons {f : Fragment} {fs : List Fragment} (hf : f.isEdge = false)
    (hfs : PrintAlike c d fs) : PrintAlike c d (f :: fs) := by
  intro placeholders
  -- only a parameter takes a placeholder
  have hplain : (∀ p, f ≠ .param p) →
      (∀ r r', plainPieces r = plainPieces r' →
        plainPieces (f.plainText c r :: r) = plainPieces (f.plainText d r' :: r')) →
        plainPieces (fill c (f :: fs) placeholders)
          = plainPieces (fill d (f :: fs) placeholders) := by
    intro hparam hstep
    rw [fill, fill]
    · exact hstep _ _ (hfs placeholders)
    all_goals exact fun p _ _ _ hp => hparam p hp
  have hsame : ∀ s, ∀ r r', plainPieces r = plainPieces r' →
      plainPieces (s :: r) = plainPieces (s :: r') := by
    intro s r r' hr
    rw [plainPieces_cons, plainPieces_cons, hr]
  cases f with
  | edge depth => cases hf
  | param p =>
    cases placeholders with
    | nil => exact hsame "" _ _ (hfs [])
    | cons s placeholders => exact hsame s _ _ (hfs placeholders)
  | text s => exact hplain (by simp) (hsame s)
  | keyword w =>
    refine hplain (by simp) fun r r' hr => ?_
    rw [plainText, plainText, h.keyword]
    exact hsame _ r r' hr
  | name n =>
    refine hplain (by simp) fun r r' hr => ?_
    rw [plainText, plainText, h.name]
    exact hsame _ r r' hr
  | function n =>
    refine hplain (by simp) fun r r' hr => ?_
    rw [plainText, plainText, h.functionName]
    exact hsame _ r r' hr
  | sign s =>
    refine hplain (by simp) fun r r' hr => ?_
    rw [plainText, plainText, startsWithSign_plainPieces, startsWithSign_plainPieces, hr]
    exact hsame _ r r' hr
  | lineEnd depth =>
    refine hplain (by simp) fun r r' hr => ?_
    rw [plainPieces_cons, plainPieces_cons, plainText, plainText, foldr_putPlain_lineEnd hc,
      foldr_putPlain_lineEnd hd, hr]
  | comma depth =>
    refine hplain (by simp) fun r r' hr => ?_
    rw [plainPieces_cons, plainPieces_cons, plainText, plainText, foldr_putPlain_comma hc,
      foldr_putPlain_comma hd, hr]
  | conjunction depth =>
    refine hplain (by simp) fun r r' hr => ?_
    rw [plainPieces_cons, plainPieces_cons, plainText, plainText, foldr_putPlain_conjunction hc,
      foldr_putPlain_conjunction hd, h.keyword, hr]

include hc in
/-- Behind an opening parenthesis an edge does not count, -/
theorem plainPieces_opened (depth : Nat) (pieces : List String) :
    plainPieces ("(" :: (edge depth).plainText c pieces :: pieces)
      = plainPieces ("(" :: pieces) := by
  have htight : isTight '(' = true := by decide
  have hopen : "(".toList = ['('] := rfl
  simp only [plainPieces_cons, plainText, hopen, List.foldr_cons, List.foldr_nil]
  split
  · rw [foldr_putPlain_lineEnd hc, putPlain_tight_space _ htight]
  · rfl

include hc in
/-- and neither does one before a closing parenthesis. -/
theorem plainPieces_closed (depth : Nat) (pieces : List String) :
    plainPieces ((edge depth).plainText c (")" :: pieces) :: ")" :: pieces)
      = plainPieces (")" :: pieces) := by
  have htight : isTight ')' = true := by decide
  simp only [plainPieces_cons, plainText]
  split
  · rw [foldr_putPlain_lineEnd hc]
    exact putPlain_space_tight _ htight
  · rfl

include hc hd h in
/-- **Fragments with paired edges are printed alike,** in front of others that are. -/
theorem PrintAlike.append {fs gs : List Fragment} (hfs : Blocks fs) (hgs : PrintAlike c d gs) :
    PrintAlike c d (fs ++ gs) := by
  induction hfs generalizing gs with
  | nil => exact hgs
  | cons hedge _ ih => exact (ih hgs).cons hc hd h hedge
  | @block inner behind depth _ _ ihinner ihbehind =>
    have hclosed : PrintAlike c d (text ")" :: (behind ++ gs)) := (ihbehind hgs).cons hc hd h rfl
    have hedge : PrintAlike c d (edge depth :: text ")" :: (behind ++ gs)) := by
      intro placeholders
      simp only [fill]
      exact (plainPieces_closed hc depth _).trans
        ((hclosed placeholders).trans (plainPieces_closed hd depth _).symm)
    have hopened : PrintAlike c d
        (text "(" :: (inner ++ edge depth :: text ")" :: (behind ++ gs))) :=
      (ihinner hedge).cons hc hd h rfl
    have hall : PrintAlike c d
        (text "(" :: edge (depth + 1) :: (inner ++ edge depth :: text ")" :: (behind ++ gs))) := by
      intro placeholders
      simp only [fill]
      exact (plainPieces_opened hc (depth + 1) _).trans
        ((hopened placeholders).trans (plainPieces_opened hd (depth + 1) _).symm)
    simpa [block] using hall

include hc hd h in
/-- Fragments with paired edges are refused for the same reason, or printed alike with the same
values. -/
theorem formatFragments_layout {fs : List Fragment} (hfs : Blocks fs) :
    (∃ e, formatFragments c fs = .error e ∧ formatFragments d fs = .error e)
      ∨ ∃ out out', formatFragments c fs = .ok out ∧ formatFragments d fs = .ok out'
          ∧ out.params = out'.params ∧ plainLayout out.sql = plainLayout out'.sql := by
  have halike : PrintAlike c d fs := by
    have hnil : PrintAlike c d [] := fun _ => rfl
    simpa using PrintAlike.append hc hd h hfs hnil
  unfold formatFragments
  rw [DialectConfig.validate, DialectConfig.validate, hc, hd, Fragment.render_eq,
    Fragment.render_eq, h.placeAll]
  cases Collected.placeAll d (params fs) .empty with
  | error e => exact .inl ⟨_, rfl, rfl⟩
  | ok r =>
    refine .inr ⟨_, _, rfl, rfl, h.toParams r.2, ?_⟩
    exact congrArg String.ofList (halike r.1)

end

/-! ## Conditions -/

/-- The operands of the conjunctions that an expression consists of, from left to right. Only the
left operand of a conjunction is looked into. -/
def Expr.andOperands : Expr → List Expr
  | .binary l .and r => l.andOperands ++ [r]
  | e => [e]

/-- The operands of a chain of conjunctions as they are printed. Only the first one may bind as
tightly as a conjunction without standing in parentheses. -/
def Expr.andParts (depth : Nat) (e : Expr) : List (List Fragment) :=
  e.andOperands.mapIdx fun i x =>
    operand BinaryOp.and.strength (decide (0 < i)) x (x.fragments depth false)

theorem Expr.andOperands_ne_nil (e : Expr) : e.andOperands ≠ [] := by
  fun_cases Expr.andOperands e <;> simp

theorem joined_append_singleton (separator : List Fragment) {parts : List (List Fragment)}
    (h : parts ≠ []) (last : List Fragment) :
    joined separator (parts ++ [last]) = joined separator parts ++ separator ++ last := by
  unfold joined
  induction parts with
  | nil => exact absurd rfl h
  | cons p parts ih =>
    cases parts with
    | nil => simp [List.intercalate]
    | cons q parts =>
      rw [List.cons_append, List.cons_append, List.intercalate_cons_cons, ← List.cons_append,
        ih (by simp), List.intercalate_cons_cons]
      simp

/-- Only a conjunction is printed in a way of its own as a condition. -/
theorem Expr.fragments_condition (depth : Nat) {e : Expr} (h : ∀ l r, e ≠ .binary l .and r) :
    e.fragments depth true = e.fragments depth false := by
  cases e with
  | binary l op r =>
    have hop : (op == .and) = false := by
      rw [beq_eq_false_iff_ne]
      rintro rfl
      exact h l r rfl
    simp [Expr.fragments, hop]
  | star q => cases q <;> rfl
  | cast e type short => cases short <;> simp [Expr.fragments]
  | _ => simp [Expr.fragments]

theorem Expr.andParts_and (depth : Nat) (l r : Expr) :
    (Expr.binary l .and r).andParts depth
      = l.andParts depth ++ [operand BinaryOp.and.strength true r (r.fragments depth false)] := by
  have hpos : 0 < l.andOperands.length := List.length_pos_iff.mpr l.andOperands_ne_nil
  simp [andParts, andOperands, List.mapIdx_append, hpos]

/-- A chain of conjunctions is printed operand by operand, at the front of another one too. -/
theorem Expr.operand_andParts (depth : Nat) (e : Expr) :
    operand BinaryOp.and.strength false e (e.fragments depth true)
        = joined [conjunction depth] (e.andParts depth)
      ∧ operand BinaryOp.and.strength false e (e.fragments depth false)
        = joined BinaryOp.and.fragments (e.andParts depth) := by
  fun_induction Expr.andOperands e with
  | case1 l r ih =>
    have hne : l.andParts depth ≠ [] := by simpa [andParts] using l.andOperands_ne_nil
    have hself : ∀ fs, operand BinaryOp.and.strength false (.binary l .and r) fs = fs :=
      fun fs => rfl
    rw [hself, hself, andParts_and, joined_append_singleton _ hne, joined_append_singleton _ hne,
      ← ih.1, ← ih.2]
    exact ⟨by simp [Expr.fragments], by simp [Expr.fragments]⟩
  | case2 e h =>
    have hparts : e.andParts depth
        = [operand BinaryOp.and.strength false e (e.fragments depth false)] := by
      simp [andParts, andOperands]
    rw [fragments_condition depth h, hparts]
    exact ⟨by simp [joined, List.intercalate], by simp [joined, List.intercalate]⟩

/-- **A condition is printed as any expression is,** but for what stands between its conjuncts: the
same operands, in the same order and the same parentheses. -/
theorem Expr.fragments_chain (depth : Nat) (l r : Expr) :
    (Expr.binary l .and r).fragments depth true
        = joined [conjunction depth] ((Expr.binary l .and r).andParts depth)
      ∧ (Expr.binary l .and r).fragments depth false
        = joined BinaryOp.and.fragments ((Expr.binary l .and r).andParts depth) :=
  (Expr.binary l .and r).operand_andParts depth

/-! ## Statements -/

/-- **Layout is only blanks.** Under two dialects without fault that differ in their layout only, a
statement is refused for the same reason, or printed with the same values and with texts that are
equal up to layout. In particular a condition is printed as any expression is: a chain of
conjunctions has the same operands in the same parentheses, any other condition the same
fragments. -/
theorem Statement.format_layout (s : Statement) {c d : DialectConfig} (hc : c.fault? = none)
    (hd : d.fault? = none) (h : c.SameButLayout d) :
    ((∃ e, s.format c = .error e ∧ s.format d = .error e)
      ∨ ∃ out out', s.format c = .ok out ∧ s.format d = .ok out'
          ∧ out.params = out'.params ∧ plainLayout out.sql = plainLayout out'.sql)
      ∧ (∀ depth l r, (Expr.binary l .and r).fragments depth true
            = joined [conjunction depth] ((Expr.binary l .and r).andParts depth)
          ∧ (Expr.binary l .and r).fragments depth false
            = joined BinaryOp.and.fragments ((Expr.binary l .and r).andParts depth))
      ∧ ∀ (depth : Nat) (e : Expr), (∀ l r, e ≠ .binary l .and r) →
          e.fragments depth true = e.fragments depth false :=
  ⟨formatFragments_layout hc hd h (s.blocks_fragments 0), Expr.fragments_chain,
    fun depth _ => Expr.fragments_condition depth⟩

/-- Conditions on a line of their own, and indented select lists. -/
def DialectConfig.spread : DialectConfig :=
  { DialectConfig.generic with newline := "\n", indent := "  ", commaBreak := .after,
                               andBreak := .before }

/-- Two items, a nested statement and a parameter in a chain of conjunctions. -/
def layoutSample : Statement :=
  let inner : Select := ⟨false, [⟨.star none, none⟩], some (.table [] "u" none), [], none, [], none,
    [], none, none⟩
  let a : Expr := .column ⟨[], "a"⟩
  ⟨none, .select ⟨false, [⟨a, none⟩, ⟨.column ⟨[], "b"⟩, none⟩], some (.table [] "t" none), [],
    some (.binary (.hasRows ⟨none, .select inner⟩) .and
      (.binary a .eq (.param (.bound "x" (.nat 1))))), [], none, [], none, none⟩⟩

theorem format_layout_spread :
    ∃ out out', layoutSample.format .generic = .ok out ∧ layoutSample.format .spread = .ok out'
      ∧ out.sql = "SELECT a, b FROM t WHERE EXISTS (SELECT * FROM u) AND a = :x"
      ∧ out'.sql = "SELECT a,\n  b\nFROM t\nWHERE EXISTS (\n  SELECT *\n  FROM u\n)\n  AND a = :x"
      ∧ out.params = out'.params ∧ plainLayout out.sql = plainLayout out'.sql := by
  have hone : (layoutSample.format .generic).map Formatted.sql
      = .ok "SELECT a, b FROM t WHERE EXISTS (SELECT * FROM u) AND a = :x" := by
    decide +kernel
  have hmany : (layoutSample.format .spread).map Formatted.sql
      = .ok "SELECT a,\n  b\nFROM t\nWHERE EXISTS (\n  SELECT *\n  FROM u\n)\n  AND a = :x" := by
    decide +kernel
  obtain ⟨hlayout, -, -⟩ := layoutSample.format_layout (c := .generic) (d := .spread) rfl rfl rfl
  obtain ⟨e, he, -⟩ | ⟨out, out', hout, hout', hparams, hsql⟩ := hlayout
  · rw [he] at hone
    cases hone
  · rw [hout] at hone
    rw [hout'] at hmany
    exact ⟨out, out', hout, hout', Except.ok.inj hone, Except.ok.inj hmany, hparams, hsql⟩

end Sql
