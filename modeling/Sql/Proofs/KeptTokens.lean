import Sql.Parser

/-!
# Parsers keep to their tokens

A parser looks at tokens up to the end of the text and takes tokens before it. So its run does not
change when further tokens stand behind the end, the end is among the tokens it leaves, and a fault
is placed at one of its tokens. `Bounds.KeepsIf` says this of two parsers, one for the tokens and
one for the tokens with others behind them: they differ in the numbers that bound their loops.

* `Bounds.KeepsIf.bind` and its neighbours: one rule for each way that the parsers are put together.
  Nothing is taken before it was looked at, which is what `pre` is for, and a loop takes a token in
  each turn, which is what `took` and the number of tokens are for.
* `Bounds.keeps_commaList`, `Bounds.keeps_name`, `Bounds.keeps_chain`: the parsers that do not nest.
-/

namespace Sql

/-- What surrounds a run of a parser: the places that a fault may have, and the tokens that stand
behind the end. -/
structure Bounds where
  places : Nat → Prop
  behind : List Token

namespace Bounds

/-- The tokens end with the end of the text, and stand where a fault may be placed. -/
structure Holds (w : Bounds) (ts : List Token) : Prop where
  ended : ∃ before place, ts = before ++ [⟨.eof, place⟩]
  places : ∀ t ∈ ts, w.places t.offset

/-- The second parser does with the tokens behind the end what the first one does without them. If
it hands back something, the end is left, and something else was taken when `took` says so. -/
def KeepsOn (w : Bounds) {α : Type} (took : α → Prop) (ts : List Token) (p p' : Parser α) : Prop :=
  match p ts with
  | .ok (a, rest) => p' (ts ++ w.behind) = .ok (a, rest ++ w.behind) ∧ rest <:+ ts ∧ rest ≠ []
      ∧ (took a → rest.length < ts.length)
  | .error e => p' (ts ++ w.behind) = .error e ∧ w.places e.offset

/-- The same for all lists of at most `m` tokens that start with a token that satisfies `pre`. -/
def KeepsIf (w : Bounds) {α : Type} (pre : Token → Prop) (m : Nat) (took : α → Prop)
    (p p' : Parser α) : Prop :=
  ∀ ts, w.Holds ts → ts.length ≤ m → pre (firstToken ts) → w.KeepsOn took ts p p'

/-- The same for all lists of at most `m` tokens. -/
abbrev Keeps (w : Bounds) {α : Type} (m : Nat) (p p' : Parser α) : Prop :=
  w.KeepsIf (fun _ => True) m (fun _ => False) p p'

/-- A parser that takes a token whenever it finds what it looks for. -/
abbrev Steps (w : Bounds) {α : Type} (m : Nat) (p p' : Parser (Option α)) : Prop :=
  w.KeepsIf (fun _ => True) m (fun o => o ≠ none) p p'

section

open Sql.Parser

variable {w : Bounds} {α β : Type} {pre : Token → Prop} {m : Nat} {took : α → Prop}
  {took' : β → Prop} {ts : List Token} {p p' q q' : Parser α}

/-! ## Tokens up to the end -/

theorem Holds.ne_nil (h : w.Holds ts) : ts ≠ [] := by
  obtain ⟨before, place, rfl⟩ := h.ended
  simp

theorem Holds.length_pos (h : w.Holds ts) : 0 < ts.length := List.length_pos_iff.mpr h.ne_nil

theorem Holds.suffix {rest : List Token} (h : w.Holds ts) (hrest : rest <:+ ts) (hne : rest ≠ []) :
    w.Holds rest := by
  refine ⟨?_, fun t ht => h.places t (hrest.subset ht)⟩
  obtain ⟨before, place, hts⟩ := h.ended
  obtain ⟨front, rfl⟩ := hrest
  obtain ⟨init, last, rfl⟩ := List.eq_nil_or_concat rest |>.resolve_left hne
  rw [List.concat_eq_append, ← List.append_assoc] at hts
  obtain ⟨-, hlast⟩ := List.append_inj' hts rfl
  exact ⟨init, place, by rw [List.concat_eq_append, hlast]⟩

theorem Holds.place (h : w.Holds ts) : w.places (firstToken ts).offset := by
  obtain ⟨t, ts', rfl⟩ := List.exists_cons_of_ne_nil h.ne_nil
  exact h.places t List.mem_cons_self

/-- Behind a token that is not the end there are more. -/
theorem Holds.tail (h : w.Holds ts) (hfirst : (firstToken ts).lexeme ≠ .eof) :
    w.Holds ts.tail := by
  refine h.suffix (List.tail_suffix ts) ?_
  obtain ⟨before, place, rfl⟩ := h.ended
  cases before with
  | nil => exact absurd rfl hfirst
  | cons t before => simp

theorem firstToken_append (h : ts ≠ []) (us : List Token) :
    firstToken (ts ++ us) = firstToken ts := by
  obtain ⟨t, ts', rfl⟩ := List.exists_cons_of_ne_nil h
  rfl

/-- Before the end, the second token is one of the tokens too. -/
theorem Holds.second (h : w.Holds ts) (hfirst : (firstToken ts).lexeme ≠ .eof) :
    firstToken (ts ++ w.behind).tail = firstToken ts.tail := by
  rw [List.tail_append_of_ne_nil h.ne_nil, firstToken_append (h.tail hfirst).ne_nil]

/-! ## Rules -/

theorem KeepsIf.mono {n : Nat} (h : w.KeepsIf pre n took p p') (hm : m ≤ n) :
    w.KeepsIf pre m took p p' :=
  fun ts hts hlen hpre => h ts hts (Nat.le_trans hlen hm) hpre

theorem KeepsOn.weaken {less : α → Prop} (h : w.KeepsOn took ts p p')
    (hless : ∀ a, less a → took a) : w.KeepsOn less ts p p' := by
  unfold KeepsOn at h ⊢
  split at h
  · exact ⟨h.1, h.2.1, h.2.2.1, fun ha => h.2.2.2 (hless _ ha)⟩
  · exact h

theorem KeepsIf.weaken {less : α → Prop} (h : w.KeepsIf pre m took p p')
    (hless : ∀ a, less a → took a) : w.KeepsIf pre m less p p' :=
  fun ts hts hlen hpre => (h ts hts hlen hpre).weaken hless

theorem Keeps.given (h : w.Keeps m p p') : w.KeepsIf pre m (fun _ => False) p p' :=
  fun ts hts hlen _ => h ts hts hlen trivial

/-- There is always a token left, the end. -/
theorem keepsIf_zero : w.KeepsIf pre 0 took p p' :=
  fun _ hts hlen _ => absurd hts.length_pos (by omega)

theorem KeepsOn.pure {a : α} (hts : w.Holds ts) (h : ¬ took a) :
    w.KeepsOn took ts (Pure.pure a) (Pure.pure a) :=
  ⟨rfl, List.suffix_refl _, hts.ne_nil, fun ha => absurd ha h⟩

theorem KeepsIf.pure {a : α} (h : ¬ took a) :
    w.KeepsIf pre m took (Pure.pure a) (Pure.pure a) :=
  fun _ hts _ _ => .pure hts h

theorem keeps_pure {a : α} : w.KeepsIf pre m (fun _ => False) (Pure.pure a) (Pure.pure a) :=
  KeepsIf.pure id

/-- What happens after a run on the tokens that it leaves. -/
theorem KeepsOn.bind {f f' : α → Parser β} (hts : w.Holds ts) (hp : w.KeepsOn took ts p p')
    (hf : ∀ a rest, w.Holds rest → rest <:+ ts → (took a → rest.length < ts.length) →
      w.KeepsOn (fun b => took' b ∧ ¬ took a) rest (f a) (f' a)) :
    w.KeepsOn took' ts (p >>= f) (p' >>= f') := by
  unfold KeepsOn at hp
  cases hrun : p ts with
  | error e =>
    rw [hrun] at hp
    have h : (p >>= f) ts = .error e := by
      change (p ts >>= fun r => f r.1 r.2) = _
      rw [hrun]
      rfl
    have h' : (p' >>= f') (ts ++ w.behind) = .error e := by
      change (p' (ts ++ w.behind) >>= fun r => f' r.1 r.2) = _
      rw [hp.1]
      rfl
    rw [KeepsOn, h]
    exact ⟨h', hp.2⟩
  | ok r =>
    obtain ⟨a, rest⟩ := r
    rw [hrun] at hp
    obtain ⟨hrun', hsuffix, hne, htook⟩ := hp
    have h : (p >>= f) ts = f a rest := by
      change (p ts >>= fun r => f r.1 r.2) = _
      rw [hrun]
      rfl
    have h' : (p' >>= f') (ts ++ w.behind) = f' a (rest ++ w.behind) := by
      change (p' (ts ++ w.behind) >>= fun r => f' r.1 r.2) = _
      rw [hrun']
      rfl
    have hcont := hf a rest (hts.suffix hsuffix hne) hsuffix htook
    unfold KeepsOn at hcont
    rw [KeepsOn, h, h']
    cases hb : f a rest with
    | error e =>
      rw [hb] at hcont
      exact hcont
    | ok s =>
      obtain ⟨b, rest'⟩ := s
      rw [hb] at hcont
      refine ⟨hcont.1, hcont.2.1.trans hsuffix, hcont.2.2.1, fun hb => ?_⟩
      have hle := hcont.2.1.length_le
      -- a token was taken by one parser or the other
      by_cases ha : took a
      · exact Nat.lt_of_le_of_lt hle (htook ha)
      · exact Nat.lt_of_lt_of_le (hcont.2.2.2 ⟨hb, ha⟩) hsuffix.length_le

/-- **One parser after another.** -/
theorem KeepsIf.bind {f f' : α → Parser β} (hp : w.KeepsIf pre m took p p')
    (hf : ∀ a, w.KeepsIf (fun _ => True) m took' (f a) (f' a)) :
    w.KeepsIf pre m took' (p >>= f) (p' >>= f') := by
  intro ts hts hlen hpre
  refine (hp ts hts hlen hpre).bind hts fun a rest hrest hsuffix _ => ?_
  exact (hf a rest hrest (Nat.le_trans hsuffix.length_le hlen) trivial).weaken fun _ h => h.1

theorem KeepsIf.map {f : α → β} (hp : w.KeepsIf pre m took p p') :
    w.KeepsIf pre m (fun _ => False) (f <$> p) (f <$> p') :=
  hp.bind fun _ => keeps_pure

theorem KeepsIf.discard (hp : w.KeepsIf pre m took p p') :
    w.KeepsIf pre m (fun _ => False) (discard p) (discard p') :=
  hp.map

/-- A parser that takes a token in any case, and what is done then. -/
theorem KeepsIf.after {f f' : α → Parser β} (hp : w.KeepsIf pre m (fun _ => True) p p')
    (hf : ∀ a, w.Keeps (m - 1) (f a) (f' a)) :
    w.KeepsIf pre m took' (p >>= f) (p' >>= f') := by
  intro ts hts hlen hpre
  refine (hp ts hts hlen hpre).bind hts fun a rest hrest _ htook => ?_
  have hless := htook trivial
  exact (hf a rest hrest (by omega) trivial).weaken fun _ h => absurd trivial h.2

/-- A parser that says whether it took a token, and what is done in either case. -/
theorem KeepsIf.flag {b b' : Parser Bool} {f f' : Bool → Parser β}
    (hb : w.KeepsIf pre m (fun t => t = true) b b') (htrue : w.Keeps (m - 1) (f true) (f' true))
    (hfalse : w.KeepsIf (fun _ => True) m took' (f false) (f' false)) :
    w.KeepsIf pre m took' (b >>= f) (b' >>= f') := by
  intro ts hts hlen hpre
  refine (hb ts hts hlen hpre).bind hts fun t rest hrest hsuffix htook => ?_
  cases t with
  | true =>
    have hless := htook rfl
    exact (htrue rest hrest (by omega) trivial).weaken fun _ h => absurd rfl h.2
  | false =>
    exact (hfalse rest hrest (Nat.le_trans hsuffix.length_le hlen) trivial).weaken fun _ h => h.1

/-- A parser that takes a token whenever it finds what it looks for, and what is done in either
case. -/
theorem KeepsIf.step {s s' : Parser (Option α)} {f f' : Option α → Parser β} (hs : w.Steps m s s')
    (hsome : ∀ a, w.Keeps (m - 1) (f (some a)) (f' (some a)))
    (hnone : w.KeepsIf (fun _ => True) m took' (f none) (f' none)) :
    w.KeepsIf pre m took' (s >>= f) (s' >>= f') := by
  intro ts hts hlen _
  refine (hs ts hts hlen trivial).bind hts fun o rest hrest hsuffix htook => ?_
  cases o with
  | some a =>
    have hless := htook (by simp)
    exact (hsome a rest hrest (by omega) trivial).weaken fun _ h => absurd (by simp) h.2
  | none =>
    exact (hnone rest hrest (Nat.le_trans hsuffix.length_le hlen) trivial).weaken fun _ h => h.1

theorem KeepsIf.ite {c : Prop} [Decidable c] (hp : c → w.KeepsIf pre m took p p')
    (hq : ¬ c → w.KeepsIf pre m took q q') :
    w.KeepsIf pre m took (if c then p else q) (if c then p' else q') := by
  split
  · next h => exact hp h
  · next h => exact hq h

/-! ## Single tokens -/

theorem KeepsIf.peek {f f' : Token → Parser β}
    (hf : ∀ t, pre t → w.places t.offset → w.KeepsIf (fun u => u = t) m took' (f t) (f' t)) :
    w.KeepsIf pre m took' (peek >>= f) (peek >>= f') := by
  intro ts hts hlen hpre
  have h := hf (firstToken ts) hpre hts.place ts hts hlen rfl
  change w.KeepsOn took' ts (fun us => f (firstToken us) us) (fun us => f' (firstToken us) us)
  simpa only [KeepsOn, firstToken_append hts.ne_nil] using h

theorem KeepsOn.skip {f f' : Unit → Parser β} (hts : w.Holds ts)
    (hf : w.KeepsOn (fun _ => False) ts.tail (f ()) (f' ())) :
    w.KeepsOn took' ts (skip >>= f) (skip >>= f') := by
  have hrun : (Parser.skip >>= f) ts = f () ts.tail := rfl
  have hrun' : (Parser.skip >>= f') (ts ++ w.behind) = f' () (ts.tail ++ w.behind) := by
    rw [← List.tail_append_of_ne_nil hts.ne_nil]
    rfl
  unfold KeepsOn at hf ⊢
  rw [hrun, hrun']
  split
  · next h =>
    rw [h] at hf
    refine ⟨hf.1, hf.2.1.trans (List.tail_suffix ts), hf.2.2.1, fun _ => ?_⟩
    have hle := hf.2.1.length_le
    have hpos := hts.length_pos
    rw [List.length_tail] at hle
    omega
  · next h =>
    rw [h] at hf
    exact hf

/-- Only what is not the end is taken. -/
theorem KeepsIf.skip {f f' : Unit → Parser β} (hpre : ∀ t, pre t → t.lexeme ≠ .eof)
    (hf : w.Keeps (m - 1) (f ()) (f' ())) :
    w.KeepsIf pre m took' (skip >>= f) (skip >>= f') := by
  intro ts hts hlen hfirst
  have hne := hpre _ hfirst
  exact .skip hts (hf ts.tail (hts.tail hne) (by rw [List.length_tail]; omega) trivial)

/-- Behind the end nothing is looked at. -/
theorem KeepsIf.peekSecond {f f' : Token → Parser β} (hpre : ∀ t, pre t → t.lexeme ≠ .eof)
    (hf : ∀ u, w.KeepsIf pre m took' (f u) (f' u)) :
    w.KeepsIf pre m took' (peekSecond >>= f) (peekSecond >>= f') := by
  intro ts hts hlen hfirst
  have h := hf (firstToken ts.tail) ts hts hlen hfirst
  have hsecond := hts.second (hpre _ hfirst)
  change w.KeepsOn took' ts (fun us => f (firstToken us.tail) us)
    (fun us => f' (firstToken us.tail) us)
  simpa only [KeepsOn, hsecond] using h

/-- The number of tokens bounds a loop, and more tokens behind the end are a looser bound. -/
theorem KeepsIf.remaining {f f' : Nat → Parser β}
    (hf : ∀ k n n', k ≤ n → k ≤ n' → w.KeepsIf pre k took' (f n) (f' n')) :
    w.KeepsIf pre m took' (remaining >>= f) (remaining >>= f') := by
  intro ts hts _ hpre
  have h := hf ts.length ts.length (ts ++ w.behind).length (Nat.le_refl _) (by simp) ts hts
    (Nat.le_refl _) hpre
  exact h

/-- **A loop that takes a token in each turn.** Its bound is never what ends it. -/
theorem keeps_loop {σ : Type} (loop : Nat → σ → Parser α)
    (hturn : ∀ k n n', (∀ s, w.Keeps k (loop n s) (loop n' s)) →
      ∀ s, w.Keeps (k + 1) (loop (n + 1) s) (loop (n' + 1) s)) {k n n' : Nat} (hn : k ≤ n)
    (hn' : k ≤ n') (s : σ) : w.Keeps k (loop n s) (loop n' s) := by
  -- on the number of tokens: where none is left there is no end, and each turn takes one
  induction k generalizing n n' s with
  | zero => exact keepsIf_zero
  | succ k ih =>
    obtain ⟨n, rfl⟩ := Nat.exists_eq_add_of_le' hn
    obtain ⟨n', rfl⟩ := Nat.exists_eq_add_of_le' hn'
    exact hturn k (n + k) (n' + k) (fun s => ih (Nat.le_add_left k n) (Nat.le_add_left k n') s) s

theorem keepsIf_failAt {offset : Nat} {f : ParseFault} (h : w.places offset) :
    w.KeepsIf pre m took (failAt offset f) (failAt offset f) :=
  fun _ _ _ _ => ⟨rfl, h⟩

theorem keepsIf_failHere {f : ParseFault} : w.KeepsIf pre m took (failHere f) (failHere f) := by
  intro ts hts _ _
  refine ⟨?_, hts.place⟩
  rw [failHere, firstToken_append hts.ne_nil]

theorem keepsIf_unexpected {what : String} :
    w.KeepsIf pre m took (unexpected what) (unexpected what) := by
  intro ts hts _ _
  refine ⟨?_, hts.place⟩
  rw [unexpected, firstToken_append hts.ne_nil]

theorem keepsIf_isNext {l : Lexeme} :
    w.KeepsIf pre m (fun _ => False) (isNext l) (isNext l) :=
  .peek fun _ _ _ => keeps_pure

theorem keepsIf_isNextKeyword {k : String} :
    w.KeepsIf pre m (fun _ => False) (isNextKeyword k) (isNextKeyword k) :=
  .peek fun _ _ _ => keeps_pure

theorem ne_eof_of_isKeyword {l : Lexeme} {k : String} (h : l.isKeyword k = true) : l ≠ .eof := by
  rintro rfl
  cases h

/-- Take the next token if it is as described. -/
theorem keepsIf_eatIf {c : Lexeme → Bool} (hc : ∀ l, c l = true → l ≠ .eof) :
    w.KeepsIf pre m (fun b => b = true)
      (do if c (← Parser.peek).lexeme then Parser.skip; return true else return false)
      (do if c (← Parser.peek).lexeme then Parser.skip; return true else return false) := by
  refine .peek fun t _ _ => .ite (fun h => ?_) fun _ => .pure (by simp)
  refine .skip (fun u hu => ?_) keeps_pure
  rw [hu]
  exact hc _ h

theorem keepsIf_eat {l : Lexeme} (hl : l ≠ .eof) :
    w.KeepsIf pre m (fun b => b = true) (eat l) (eat l) :=
  keepsIf_eatIf (c := (· == l)) fun _ h => (beq_iff_eq.mp h) ▸ hl

theorem keepsIf_eatKeyword {k : String} :
    w.KeepsIf pre m (fun b => b = true) (eatKeyword k) (eatKeyword k) :=
  keepsIf_eatIf (c := Lexeme.isKeyword k) fun _ => ne_eof_of_isKeyword

/-- Take the next token, which was asked for, or stop. -/
theorem keepsIf_demand {b : Parser Bool} {p : Parser Unit}
    (hb : w.KeepsIf pre m (fun b => b = true) b b)
    (hp : w.KeepsIf (fun _ => True) m (fun _ => True) p p) :
    w.KeepsIf pre m (fun _ => True) (do if ← b then return () else p)
      (do if ← b then return () else p) :=
  .flag hb keeps_pure hp

theorem KeepsIf.expect {l : Lexeme} {what : String} {f f' : Unit → Parser β} (hl : l ≠ .eof)
    (hf : w.Keeps (m - 1) (f ()) (f' ())) :
    w.KeepsIf pre m took' (expect l what >>= f) (expect l what >>= f') :=
  .after (keepsIf_demand (keepsIf_eat hl) keepsIf_unexpected) fun _ => hf

theorem KeepsIf.expectKeyword {k : String} {f f' : Unit → Parser β}
    (hf : w.Keeps (m - 1) (f ()) (f' ())) :
    w.KeepsIf pre m took' (expectKeyword k >>= f) (expectKeyword k >>= f') :=
  .after (keepsIf_demand keepsIf_eatKeyword keepsIf_unexpected) fun _ => hf

theorem KeepsIf.closeParen {opened : Nat} {f f' : Unit → Parser β} (hopened : w.places opened)
    (hf : w.Keeps (m - 1) (f ()) (f' ())) :
    w.KeepsIf pre m took' (closeParen opened >>= f) (closeParen opened >>= f') :=
  .after (keepsIf_demand (keepsIf_eat (by simp)) (keepsIf_failAt hopened)) fun _ => hf

/-! ## Two tokens at once -/

/-- Two tokens are taken when both were looked at. -/
theorem KeepsOn.skipTwo {r r' : Parser β} (hts : w.Holds ts) (hlen : ts.length ≤ m)
    (hfirst : (firstToken ts).lexeme ≠ .eof) (hsecond : (firstToken ts.tail).lexeme ≠ .eof)
    (hr : w.Keeps m r r') :
    w.KeepsOn took' ts (do Parser.skip; Parser.skip; r) (do Parser.skip; Parser.skip; r') := by
  have htail := hts.tail hfirst
  refine .skip hts (.skip htail ?_)
  exact hr _ (htail.tail hsecond) (by simp only [List.length_tail]; omega) trivial

/-- A keyword, and something about the token behind it. -/
theorem KeepsIf.keywordAnd {k : String} {c : Token → Bool} {q q' r r' : Parser β}
    (hyes : ∀ ts, w.Holds ts → ts.length ≤ m → (firstToken ts).lexeme ≠ .eof →
      c (firstToken ts.tail) = true → w.KeepsOn took' ts r r')
    (hno : w.KeepsIf (fun _ => True) m took' q q') :
    w.KeepsIf pre m took'
      (do if (← isNextKeyword k) && c (← Parser.peekSecond) then r else q)
      (do if (← isNextKeyword k) && c (← Parser.peekSecond) then r' else q') := by
  intro ts hts hlen _
  have hfirst := firstToken_append hts.ne_nil w.behind
  -- what the parser does, on either list of tokens
  change w.KeepsOn took' ts
    (fun us => (if ((firstToken us).lexeme.isKeyword k && c (firstToken us.tail)) = true
      then r else q) us)
    (fun us => (if ((firstToken us).lexeme.isKeyword k && c (firstToken us.tail)) = true
      then r' else q') us)
  cases hk : (firstToken ts).lexeme.isKeyword k with
  | false =>
    have h := hno ts hts hlen trivial
    simpa only [KeepsOn, hfirst, hk, Bool.false_and, Bool.false_eq_true, if_false] using h
  | true =>
    have hne := ne_eof_of_isKeyword hk
    have hsecond := hts.second hne
    cases hc : c (firstToken ts.tail) with
    | false =>
      have h := hno ts hts hlen trivial
      simpa only [KeepsOn, hfirst, hsecond, hk, hc, Bool.and_false, Bool.false_eq_true,
        if_false] using h
    | true =>
      have h := hyes ts hts hlen hne hc
      simpa only [KeepsOn, hfirst, hsecond, hk, hc, Bool.and_true, if_true] using h

/-! ## Names and lists -/

theorem ne_eof_of_nameOf? {l : Lexeme} {n : String} (h : nameOf? l = some n) : l ≠ .eof := by
  rintro rfl
  cases h

/-- What is made of the next token, if it is a name. -/
theorem KeepsIf.nameOf {f f' : String → Parser β} {q q' : Token → Parser β}
    (hsome : ∀ n, w.Keeps (m - 1) (f n) (f' n))
    (hnone : ∀ t, w.KeepsIf (fun u => u = t) m took' (q t) (q' t)) :
    w.KeepsIf pre m took'
      (do
        let t ← Parser.peek
        match nameOf? t.lexeme with
        | some n =>
          Parser.skip
          f n
        | none => q t)
      (do
        let t ← Parser.peek
        match nameOf? t.lexeme with
        | some n =>
          Parser.skip
          f' n
        | none => q' t) := by
  refine .peek fun t _ _ => ?_
  cases hn : nameOf? t.lexeme with
  | some n => exact .skip (fun u hu => hu ▸ ne_eof_of_nameOf? hn) (hsome n)
  | none => exact hnone t

theorem keepsIf_name {what : String} : w.KeepsIf pre m (fun _ => True) (name what) (name what) :=
  .nameOf (fun _ => keeps_pure) fun _ => keepsIf_unexpected

theorem keeps_optionalAlias : w.Keeps m optionalAlias optionalAlias :=
  .flag keepsIf_eatKeyword (.bind keepsIf_name fun _ => keeps_pure)
    (.nameOf (fun _ => keeps_pure) fun _ => keeps_pure)

theorem keeps_commaTail {item : Parser α} (hitem : ∀ m, w.Keeps m item item) {k n n' : Nat}
    (hn : k ≤ n) (hn' : k ≤ n') : w.Keeps k (commaTail item n) (commaTail item n') := by
  refine keeps_loop (fun n (_ : Unit) => commaTail item n) (fun k n n' ih _ => ?_) hn hn' ()
  exact .flag (keepsIf_eat (by simp))
    (.bind (hitem k) fun _ => .bind (ih ()) fun _ => keeps_pure) keeps_pure

theorem keeps_commaList {item : Parser α} (hitem : ∀ m, w.Keeps m item item) :
    w.Keeps m (commaList item) (commaList item) :=
  .bind (hitem m) fun _ => .remaining fun _ _ _ hn hn' =>
    .bind (keeps_commaTail hitem hn hn') fun _ => keeps_pure

theorem keeps_nameList {what : String} : w.Keeps m (nameList what) (nameList what) :=
  .expect (by simp) (.bind (keeps_commaList fun _ => keepsIf_name.weaken fun _ h => h.elim) fun _ =>
    .expect (by simp) keeps_pure)

/-! ## Chains -/

theorem keeps_chainTail {operator : Lexeme → Option BinaryOp} (hoperator : operator .eof = none)
    {operand : Parser Expr} (hoperand : ∀ m, w.Keeps m operand operand) {k n n' : Nat}
    (hn : k ≤ n) (hn' : k ≤ n') (left : Expr) :
    w.Keeps k (chainTail operator operand n left) (chainTail operator operand n' left) := by
  refine keeps_loop (chainTail operator operand) (fun k n n' ih left => ?_) hn hn' left
  refine .peek fun t _ _ => ?_
  cases hop : operator t.lexeme with
  | none => exact keeps_pure
  | some op =>
    have hne : t.lexeme ≠ .eof := by
      intro h
      rw [h, hoperator] at hop
      cases hop
    exact .skip (fun u hu => hu ▸ hne) (.bind (hoperand k) fun _ => ih _)

theorem keeps_chain {operator : Lexeme → Option BinaryOp} (hoperator : operator .eof = none)
    {operand : Parser Expr} (hoperand : ∀ m, w.Keeps m operand operand) :
    w.Keeps m (chain operator operand) (chain operator operand) :=
  .bind (hoperand m) fun left => .remaining fun _ _ _ hn hn' =>
    keeps_chainTail hoperator hoperand hn hn' left

end

end Bounds

end Sql
