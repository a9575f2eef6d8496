import Mathlib.Data.List.Forall2
import Sql.Parser
import Sql.Proofs.Grammar

/-!
# What parsers read

`Reads fits p ls a follow` says that the parser `p` takes tokens with the lexemes `ls` and hands
back `a`, whatever stands behind them, as long as the first lexeme behind them is as `follow`
says. A parser looks one token ahead, so that lexeme is all that counts of the rest. A tree that
is too deep for the bound on nesting is refused for that reason and for no other; `fits` says that
it is not too deep.

* `Reads.bind` and its neighbours: one rule for each way that the parsers are put together.
* `reads_commaList`, `reads_name`, `reads_typeName`: the parsers that do not nest.
-/

namespace Sql

/-! ## The first lexeme behind an expression -/

/-- How tightly the lexeme binds to an expression in front of it: the strength of the operator
that it starts, or that of an atom when it would belong to the atom, or nothing. -/
def Lexeme.tight : Lexeme → Nat
  | .word w =>
    if sameName w "or" then 1
    else if sameName w "and" then 2
    else if nameIn w ["is", "not", "like", "ilike", "between", "in"] then strengthComparison
    else if nameIn w ["filter", "over"] || nameIn w typeWords then strengthAtom
    else 0
  | .symbol s =>
    match s with
    | .eq | .notEq | .lt | .ltEq | .gt | .gtEq => strengthComparison
    | .concat | .arrow | .longArrow => 5
    | .plus | .minus => 6
    | .star | .slash | .percent => 7
    | .doubleColon => strengthCast
    | .dot | .leftParen => strengthAtom
    | _ => 0
  | .string _ => strengthAtom
  | _ => 0

theorem tight_congr {a b : String} (h : foldCase a = foldCase b) :
    (Lexeme.word a).tight = (Lexeme.word b).tight := by
  simp only [Lexeme.tight, sameName_congr h, nameIn_congr h]

@[simp] theorem tight_kw (config : DialectConfig) (w : String) :
    (kw config w).tight = (Lexeme.word w).tight :=
  tight_congr (foldCase_keyword config w)

/-- A keyword that binds more tightly than the lexeme is another one. -/
theorem not_keyword_of_tight {l : Lexeme} {k : String} (h : l.tight < (Lexeme.word k).tight) :
    l.isKeyword k = false := by
  cases l with
  | word w =>
    rw [Lexeme.isKeyword, Bool.eq_false_iff]
    intro hw
    rw [tight_congr (sameName_iff.mp hw)] at h
    exact Nat.lt_irrefl _ h
  | _ => rfl

theorem ne_symbol_of_tight {l : Lexeme} {s : Symbol} (h : l.tight < (Lexeme.symbol s).tight) :
    l ≠ .symbol s := by
  rintro rfl
  exact Nat.lt_irrefl _ h

theorem headD_append (ls ms : List Lexeme) (l : Lexeme) :
    (ls ++ ms).headD l = ls.headD (ms.headD l) := by
  cases ls <;> rfl

theorem lexeme_firstToken_append (ts rest : List Token) :
    (firstToken (ts ++ rest)).lexeme
      = (ts.map Token.lexeme).headD (firstToken rest).lexeme := by
  cases ts <;> rfl

/-! ## Outcomes -/

/-- The parser hands back the value and the rest, unless the tree is too deep. -/
def Outcome (fits : Prop) {α : Type} (r : Except ParseFailure α) (a : α) : Prop :=
  r = .ok a ∨ (¬ fits ∧ ∃ offset, r = .error ⟨offset, .tooDeep⟩)

/-- The parser takes the lexemes and hands back the value, whatever follows. -/
def Reads (fits : Prop) {α : Type} (p : Parser α) (ls : List Lexeme) (a : α)
    (follow : Lexeme → Prop) : Prop :=
  ∀ ts rest : List Token, ts.map Token.lexeme = ls → follow (firstToken rest).lexeme →
    Outcome fits (p (ts ++ rest)) (a, rest)

section

open Sql.Parser

variable {fits : Prop} {α β : Type} {ls ms : List Lexeme} {a : α} {b : β}
  {follow follow' : Lexeme → Prop}

theorem Outcome.bind {r : Except ParseFailure α} {f : α → Except ParseFailure β}
    (hr : Outcome fits r a) (hf : Outcome fits (f a) b) : Outcome fits (r >>= f) b := by
  rcases hr with rfl | ⟨hfits, offset, rfl⟩
  · exact hf
  · exact Or.inr ⟨hfits, offset, rfl⟩

theorem Reads.pure : Reads fits (Pure.pure a : Parser α) [] a follow := by
  intro ts rest hts _
  rw [List.map_eq_nil_iff] at hts
  exact Or.inl (by rw [hts]; rfl)

/-- **What one parser reads after another.** The first lexeme of the second part, or else what
follows, is what follows the first part. -/
theorem Reads.bind {p : Parser α} {f : α → Parser β} (hp : Reads fits p ls a follow')
    (hf : Reads fits (f a) ms b follow) (hfollow : ∀ l, follow l → follow' (ms.headD l)) :
    Reads fits (p >>= f) (ls ++ ms) b follow := by
  intro ts rest hts hrest
  obtain ⟨ts₁, ts₂, rfl, rfl, rfl⟩ := List.map_eq_append_iff.mp hts
  rw [List.append_assoc]
  refine Outcome.bind (hp ts₁ (ts₂ ++ rest) rfl ?_) (hf ts₂ rest rfl hrest)
  rw [lexeme_firstToken_append]
  exact hfollow _ hrest

theorem Reads.weaken {p : Parser α} (hp : Reads fits p ls a follow')
    (hfollow : ∀ l, follow l → follow' l) : Reads fits p ls a follow :=
  fun ts rest hts hrest => hp ts rest hts (hfollow _ hrest)

theorem Reads.map {p : Parser α} (hp : Reads fits p ls a follow) (f : α → β) :
    Reads fits (f <$> p) ls (f a) follow := by
  intro ts rest hts hrest
  rcases hp ts rest hts hrest with h | ⟨hfits, offset, h⟩
  · exact Or.inl (by show (p >>= fun a => Pure.pure (f a)) _ = _; show (p _ >>= _) = _; rw [h]; rfl)
  · exact Or.inr ⟨hfits, offset, by show (p _ >>= _) = _; rw [h]; rfl⟩

theorem Reads.discard {p : Parser α} (hp : Reads fits p ls a follow) :
    Reads fits (discard p) ls () follow :=
  Reads.map hp fun _ => ()

/-! ## Looking ahead -/

theorem Reads.peek {f : Token → Parser β}
    (h : ∀ t, (∃ l, follow l ∧ t.lexeme = ls.headD l) → Reads fits (f t) ls b follow) :
    Reads fits (peek >>= f) ls b follow := by
  intro ts rest hts hrest
  refine h (firstToken (ts ++ rest)) ⟨_, hrest, ?_⟩ ts rest hts hrest
  rw [lexeme_firstToken_append, hts]

theorem Reads.peekSecond {l : Lexeme} {f : Token → Parser β}
    (h : ∀ t, (∃ l', follow l' ∧ t.lexeme = ls.headD l') → Reads fits (f t) (l :: ls) b follow) :
    Reads fits (peekSecond >>= f) (l :: ls) b follow := by
  intro ts rest hts hrest
  refine h (firstToken (ts ++ rest).tail) ⟨_, hrest, ?_⟩ ts rest hts hrest
  obtain ⟨t, ts, rfl, -, hts⟩ := List.map_eq_cons_iff.mp hts
  rw [List.cons_append, List.tail_cons, lexeme_firstToken_append, hts]

/-- The token after the next does not matter. -/
theorem Reads.peekSecond_any {f : Token → Parser β} (h : ∀ t, Reads fits (f t) ls b follow) :
    Reads fits (Parser.peekSecond >>= f) ls b follow :=
  fun ts rest hts hrest => h (firstToken (ts ++ rest).tail) ts rest hts hrest

theorem Reads.remaining {f : Nat → Parser β} (h : ∀ n, ls.length ≤ n → Reads fits (f n) ls b follow) :
    Reads fits (remaining >>= f) ls b follow := by
  intro ts rest hts hrest
  refine h (ts ++ rest).length ?_ ts rest hts hrest
  rw [← hts, List.length_map, List.length_append]
  exact Nat.le_add_right _ _

/-- A parser that takes one token, and then another parser. -/
theorem Reads.token {l : Lexeme} {p : Parser α} {f : α → Parser β}
    (hp : Reads fits p [l] a fun _ => True) (hf : Reads fits (f a) ms b follow) :
    Reads fits (p >>= f) (l :: ms) b follow :=
  Reads.bind hp hf fun _ _ => trivial

/-- A parser that takes nothing, and then another parser. -/
theorem Reads.look {p : Parser α} {f : α → Parser β} (hp : Reads fits p [] a follow')
    (hfollow : ∀ l, follow l → follow' (ms.headD l)) (hf : Reads fits (f a) ms b follow) :
    Reads fits (p >>= f) ms b follow :=
  Reads.bind hp hf hfollow

theorem Reads.pure_bind {f : α → Parser β} (h : Reads fits (f a) ls b follow) :
    Reads fits (Pure.pure a >>= f) ls b follow := h

/-- A parser whose value is only changed. -/
theorem Reads.finish {p : Parser α} {f : α → Parser β} (hp : Reads fits p ls a follow)
    (hf : f a = Pure.pure b) : Reads fits (p >>= f) ls b follow := by
  have hpure : Reads fits (f a) [] b follow := by
    rw [hf]
    exact Reads.pure
  have := Reads.bind hp hpure fun _ h => h
  rwa [List.append_nil] at this

/-! ## Single tokens -/

/-- What a parser does with one token, whatever follows. -/
theorem reads_of_cons {l : Lexeme} {p : Parser α}
    (h : ∀ t rest, t.lexeme = l → p (t :: rest) = .ok (a, rest)) : Reads fits p [l] a follow := by
  intro ts rest hts _
  obtain ⟨t, ts, rfl, ht, hts⟩ := List.map_eq_cons_iff.mp hts
  rw [List.map_eq_nil_iff.mp hts]
  exact Or.inl (h t rest ht)

/-- What a parser does without taking a token. -/
theorem reads_of_nil {p : Parser α}
    (h : ∀ rest, follow (firstToken rest).lexeme → p rest = .ok (a, rest)) :
    Reads fits p [] a follow := by
  intro ts rest hts hrest
  rw [List.map_eq_nil_iff.mp hts]
  exact Or.inl (h rest hrest)

theorem reads_skip {l : Lexeme} : Reads fits skip [l] () follow :=
  reads_of_cons fun _ _ _ => rfl

theorem reads_isNext {l : Lexeme} (value : Bool) :
    Reads fits (isNext l) [] value fun l' => (l' == l) = value := by
  refine reads_of_nil fun rest hrest => ?_
  show Except.ok ((firstToken rest).lexeme == l, rest) = _
  rw [hrest]

theorem reads_isNextKeyword {k : String} (value : Bool) :
    Reads fits (isNextKeyword k) [] value fun l => l.isKeyword k = value := by
  refine reads_of_nil fun rest hrest => ?_
  show Except.ok ((firstToken rest).lexeme.isKeyword k, rest) = _
  rw [hrest]

theorem reads_eat {l : Lexeme} : Reads fits (eat l) [l] true follow := by
  refine reads_of_cons fun t rest ht => ?_
  show (if (t.lexeme == l) = true then _ else _ : Parser Bool) _ = _
  rw [if_pos (beq_iff_eq.mpr ht)]
  rfl

theorem reads_not_eat {l : Lexeme} : Reads fits (eat l) [] false (· ≠ l) := by
  refine reads_of_nil fun rest hrest => ?_
  show (if ((firstToken rest).lexeme == l) = true then _ else _ : Parser Bool) _ = _
  rw [if_neg fun h => hrest (beq_iff_eq.mp h)]
  rfl

theorem reads_eatKeyword {k : String} {l : Lexeme} (hl : l.isKeyword k = true) :
    Reads fits (eatKeyword k) [l] true follow := by
  refine reads_of_cons fun t rest ht => ?_
  show (if t.lexeme.isKeyword k = true then _ else _ : Parser Bool) _ = _
  rw [ht, if_pos hl]
  rfl

theorem reads_not_eatKeyword {k : String} :
    Reads fits (eatKeyword k) [] false fun l => l.isKeyword k = false := by
  refine reads_of_nil fun rest hrest => ?_
  show (if (firstToken rest).lexeme.isKeyword k = true then _ else _ : Parser Bool) _ = _
  rw [hrest]
  rfl

theorem reads_expect {l : Lexeme} {what : String} : Reads fits (expect l what) [l] () follow :=
  Reads.token reads_eat Reads.pure

theorem reads_expectKeyword {k : String} {l : Lexeme} (hl : l.isKeyword k = true) :
    Reads fits (expectKeyword k) [l] () follow :=
  Reads.token (reads_eatKeyword hl) Reads.pure

theorem reads_closeParen {opened : Nat} :
    Reads fits (closeParen opened) [.symbol .rightParen] () follow :=
  Reads.token reads_eat Reads.pure

/-! ## Names and lists -/

theorem reads_name {what : String} {l : Lexeme} {n : String} (hn : nameOf? l = some n) :
    Reads fits (name what) [l] n follow := by
  refine Reads.peek fun t ht => ?_
  obtain ⟨_, _, ht⟩ := ht
  rw [ht, List.headD_cons, hn]
  exact Reads.token reads_skip Reads.pure

theorem reads_alias_none :
    Reads fits optionalAlias [] none fun l => l.isKeyword "as" = false ∧ nameOf? l = none := by
  refine Reads.look reads_not_eatKeyword (fun l hl => hl.1) (Reads.peek fun t ht => ?_)
  obtain ⟨l, hl, ht⟩ := ht
  rw [ht, List.headD_nil, hl.2]
  exact Reads.pure

theorem reads_alias_some {as l : Lexeme} {n : String} (has : as.isKeyword "as" = true)
    (hn : nameOf? l = some n) : Reads fits optionalAlias [as, l] (some n) follow :=
  Reads.token (reads_eatKeyword has) (Reads.token (reads_name hn) Reads.pure)

theorem reads_commaTail {item : Parser α} {lss : List (List Lexeme)} {as : List α}
    (hitems : List.Forall₂ (fun ls a => Reads fits item ls a follow') lss as)
    (hcomma : follow' (.symbol .comma)) (hfollow : ∀ l, follow l → follow' l)
    (hend : ∀ l, follow l → l ≠ .symbol .comma) {n : Nat}
    (hn : (lss.flatMap (.symbol .comma :: ·)).length ≤ n) :
    Reads fits (commaTail item n) (lss.flatMap (.symbol .comma :: ·)) as follow := by
  induction hitems generalizing n with
  | nil =>
    cases n with
    | zero => exact Reads.pure
    | succ n => exact Reads.look reads_not_eat hend Reads.pure
  | @cons ls a lss as hitem hitems ih =>
    rw [List.flatMap_cons] at hn ⊢
    simp only [List.length_append, List.length_cons] at hn
    cases n with
    | zero => omega
    | succ n =>
      have htail := ih (n := n) (by omega)
      refine Reads.token reads_eat (Reads.bind hitem (Reads.finish htail rfl) fun l hl => ?_)
      -- behind an item stands a comma, or what follows the list
      cases lss with
      | nil => exact hfollow l hl
      | cons _ _ => exact hcomma

/-- **A list is read item by item.** -/
theorem reads_commaList {item : Parser α} {lss : List (List Lexeme)} {as : List α}
    (hitems : List.Forall₂ (fun ls a => Reads fits item ls a follow') lss as) (hne : as ≠ [])
    (hcomma : follow' (.symbol .comma)) (hfollow : ∀ l, follow l → follow' l)
    (hend : ∀ l, follow l → l ≠ .symbol .comma) :
    Reads fits (commaList item) (commaSep lss) as follow := by
  cases hitems with
  | nil => exact absurd rfl hne
  | @cons ls a lss as hitem hitems =>
    refine Reads.bind hitem (Reads.remaining fun n hn => Reads.finish
      (reads_commaTail hitems hcomma hfollow hend hn) rfl) fun l hl => ?_
    cases lss with
    | nil => exact hfollow l hl
    | cons _ _ => exact hcomma

theorem nameOf?_nameLexeme (config : DialectConfig) (n : String) :
    nameOf? (nameLexeme config n) = some n := by
  unfold nameLexeme
  split
  · next h =>
    simp [nameOf?, isStopWord_of_isPlainName h.2]
  · rfl

theorem reads_nameList (config : DialectConfig) {ns : List String} (hne : ns ≠ [])
    {what : String} :
    Reads fits (nameList what) (parenLexemes (nameLexemes config ns)) ns follow := by
  have hnames : List.Forall₂ (fun ls n => Reads fits (name what) ls n fun _ => True)
      (ns.map fun n => [nameLexeme config n]) ns := by
    rw [List.forall₂_map_left_iff, List.forall₂_same]
    exact fun n _ => reads_name (nameOf?_nameLexeme config n)
  have hlist : Reads fits (commaList (name what)) (nameLexemes config ns) ns
      (· = .symbol .rightParen) := by
    refine reads_commaList hnames hne trivial (fun _ _ => trivial) ?_
    rintro _ rfl
    simp
  refine Reads.token reads_expect (Reads.bind hlist (Reads.finish reads_expect rfl) ?_)
  exact fun _ _ => rfl

/-! ## Type names -/

theorem reads_typePart {p : TypePart} (hp : p.Valid) :
    Reads fits typePart [p.lexeme] p.text follow := by
  refine Reads.peek fun t ht => ?_
  obtain ⟨_, _, ht⟩ := ht
  rw [ht, List.headD_cons]
  cases p with
  | bare w => exact Reads.token reads_skip Reads.pure
  | quoted n =>
    have hn : writtenPart n = quoteName n "\x22" "\x22" := by
      simp [writtenPart, hp.2]
    rw [TypePart.text, ← hn]
    exact Reads.token reads_skip Reads.pure

theorem reads_typeParts {ps : List TypePart} (hps : ∀ p ∈ ps, p.Valid) {n : Nat}
    (hn : (ps.flatMap fun p => [.symbol .dot, p.lexeme]).length ≤ n) :
    Reads fits (typeParts n) (ps.flatMap fun p => [.symbol .dot, p.lexeme])
      (TypeSpelling.moreText ps) (· ≠ .symbol .dot) := by
  induction ps generalizing n with
  | nil =>
    cases n with
    | zero => exact Reads.pure
    | succ n => exact Reads.look reads_not_eat (fun _ h => h) Reads.pure
  | cons p ps ih =>
    rw [List.forall_mem_cons] at hps
    rw [List.flatMap_cons] at hn ⊢
    simp only [List.length_append, List.length_cons, List.length_nil] at hn
    cases n with
    | zero => omega
    | succ n =>
      exact Reads.token reads_eat (Reads.token (reads_typePart hps.1)
        (Reads.finish (ih hps.2 (n := n) (by omega)) (by rw [TypeSpelling.moreText_cons])))

theorem reads_typeTail {ws : List String} (hws : ∀ w ∈ ws, nameIn w typeWords = true) {n : Nat}
    (hn : ws.length ≤ n) :
    Reads fits (typeTail n) (ws.map Lexeme.word) (TypeSpelling.wordsText ws)
      fun l => ∀ w, l = .word w → nameIn w typeWords = false := by
  induction ws generalizing n with
  | nil =>
    cases n with
    | zero => exact Reads.pure
    | succ n =>
      refine Reads.peek fun t ht => ?_
      obtain ⟨l, hl, ht⟩ := ht
      rw [ht, List.map_nil, List.headD_nil]
      cases l with
      | word w =>
        simp only [hl w rfl]
        exact Reads.pure
      | _ => exact Reads.pure
  | cons w ws ih =>
    rw [List.forall_mem_cons] at hws
    cases n with
    | zero => simp at hn
    | succ n =>
      have htail := ih hws.2 (n := n) (by simpa using hn)
      refine Reads.peek fun t ht => ?_
      obtain ⟨_, _, ht⟩ := ht
      rw [ht, List.map_cons, List.headD_cons]
      simp only [hws.1, if_true]
      exact Reads.token reads_skip (Reads.finish htail (by rw [TypeSpelling.wordsText_cons]))

theorem reads_typeModifier {t : String} : Reads fits typeModifier [.number t] t follow := by
  refine Reads.peek fun tok htok => ?_
  obtain ⟨_, _, htok⟩ := htok
  rw [htok, List.headD_cons]
  exact Reads.token reads_skip Reads.pure

theorem not_typeWord_of_tight {l : Lexeme} (h : l.tight < strengthAtom) (w : String)
    (hw : l = .word w) : nameIn w typeWords = false := by
  subst hw
  rw [Bool.eq_false_iff]
  intro hin
  simp only [nameIn, List.any_eq_true] at hin
  obtain ⟨k, hk, hsame⟩ := hin
  have hwords : ∀ k ∈ typeWords, (Lexeme.word k).tight = strengthAtom := by decide
  rw [tight_congr (sameName_iff.mp hsame), hwords k hk] at h
  exact Nat.lt_irrefl _ h

/-- The numbers in parentheses, when there are any. -/
theorem reads_modifiers (s : TypeSpelling) :
    Reads fits (do
        if ← eat (.symbol .leftParen) then
          let modifiers ← commaList typeModifier
          expect (.symbol .rightParen) "')' after type modifiers"
          return s.first.text ++ TypeSpelling.moreText s.more ++ TypeSpelling.wordsText s.words
            ++ "(" ++ ", ".intercalate modifiers ++ ")"
        else
          return s.first.text ++ TypeSpelling.moreText s.more ++ TypeSpelling.wordsText s.words)
      (TypeSpelling.modifierLexemes s.modifiers) s.text fun l => l.tight < strengthAtom := by
  have hitems : List.Forall₂ (fun ls m => Reads fits typeModifier ls m fun _ => True)
      (s.modifiers.map fun m => [.number m]) s.modifiers := by
    rw [List.forall₂_map_left_iff, List.forall₂_same]
    exact fun m _ => reads_typeModifier
  unfold TypeSpelling.text TypeSpelling.modifiersText TypeSpelling.modifierLexemes
  cases hm : s.modifiers with
  | nil =>
    refine Reads.look reads_not_eat (fun l hl => ne_symbol_of_tight hl) ?_
    simp only [List.isEmpty_nil, if_true, String.append_empty]
    exact Reads.pure
  | cons m ms =>
    have hlist : Reads fits (commaList typeModifier) (commaSep (s.modifiers.map fun m => [.number m]))
        s.modifiers (· = .symbol .rightParen) := by
      refine reads_commaList hitems (by simp [hm]) trivial (fun _ _ => trivial) ?_
      rintro _ rfl
      simp
    rw [hm] at hlist
    refine Reads.token reads_eat (Reads.bind hlist (Reads.finish reads_expect ?_) fun _ _ => rfl)
    simp [String.append_assoc]

/-- **A type name is read as it is kept.** -/
theorem reads_typeName {type : String} (htype : IsTypeName type) :
    Reads fits typeName (typeLexemes type) type fun l => l.tight < strengthAtom := by
  obtain ⟨s, hs, rfl⟩ := htype
  rw [TypeSpelling.typeLexemes_text hs, TypeSpelling.lexemes, List.append_assoc, List.cons_append]
  refine Reads.token (reads_typePart hs.first) (Reads.remaining fun n hn => ?_)
  refine Reads.bind (reads_typeParts hs.more ?_) (Reads.remaining fun k hk => ?_) fun l hl => ?_
  · rw [List.length_append] at hn
    omega
  · refine Reads.bind (reads_typeTail (fun w hw => (hs.words w hw).2) ?_) ?_ fun l hl w hw => ?_
    · rw [List.length_append, List.length_map] at hk
      omega
    · exact reads_modifiers s
    · unfold TypeSpelling.modifierLexemes at hw
      split at hw
      · exact not_typeWord_of_tight hl w hw
      · simp at hw
  · cases hwords : s.words with
    | nil =>
      unfold TypeSpelling.modifierLexemes
      split
      · exact ne_symbol_of_tight hl
      · simp
    | cons w ws => simp

end

end Sql
