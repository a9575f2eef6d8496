import Sql.Proofs.Reading
import Sql.Proofs.Yields

/-!
# Parsers in front of a closing parenthesis

Where a parser succeeds on tokens up to their end, it does the same if a closing parenthesis stands
in place of the end: it asks for neither of them until it is done. `Carries fits m p p'` says this
of fewer than `m` tokens, with `p` in front of the end and `p'` in front of the parenthesis. The
two may have different numbers of levels left; `p'` may refuse what `p` takes only for its depth,
and not if `fits` holds.

* `Advances.bind` and its neighbours: one rule for each way that the parsers are put together.
  The bound `m` is for the loops: each turn takes a token, and with it one from the bound.
* `carries_commaList`, `carries_name`, `carries_typeName`: the parsers that do not nest.
-/

namespace Sql

/-! ## Two lists of tokens -/

/-- The two lists have the same lexemes up to a place where the first one ends, and the second one
goes on with a closing parenthesis. -/
structure Parted (ls : List Lexeme) (ts us : List Token) : Prop where
  ends : ts.map Token.lexeme = ls ++ [.eof]
  closes : ∃ ms, us.map Token.lexeme = ls ++ .symbol .rightParen :: ms
  inside : .eof ∉ ls

namespace Parted

variable {ls : List Lexeme} {l : Lexeme} {ts us : List Token}

theorem drop (h : Parted ls ts us) {k : Nat} (hk : k ≤ ls.length) :
    Parted (ls.drop k) (ts.drop k) (us.drop k) := by
  obtain ⟨ms, hms⟩ := h.closes
  refine ⟨?_, ⟨ms, ?_⟩, fun hmem => h.inside (List.mem_of_mem_drop hmem)⟩
  · rw [List.map_drop, h.ends, List.drop_append_of_le_length hk]
  · rw [List.map_drop, hms, List.drop_append_of_le_length hk]

theorem length_left (h : Parted ls ts us) : ts.length = ls.length + 1 := by
  rw [← List.length_map, h.ends, List.length_append]
  rfl

theorem length_right (h : Parted ls ts us) : ls.length + 1 ≤ us.length := by
  obtain ⟨ms, hms⟩ := h.closes
  rw [← List.length_map Token.lexeme, hms, List.length_append, List.length_cons]
  omega

theorem at_end (h : Parted [] ts us) :
    ∃ o o' us', ts = [⟨.eof, o⟩] ∧ us = ⟨.symbol .rightParen, o'⟩ :: us' := by
  obtain ⟨ms, hms⟩ := h.closes
  obtain ⟨⟨_, o⟩, ts', rfl, rfl, hts⟩ := List.map_eq_cons_iff.mp h.ends
  obtain ⟨⟨_, o'⟩, us', rfl, rfl, -⟩ := List.map_eq_cons_iff.mp hms
  obtain rfl := List.map_eq_nil_iff.mp hts
  exact ⟨o, o', us', rfl, rfl⟩

theorem at_token (h : Parted (l :: ls) ts us) :
    ∃ o ts' o' us', ts = ⟨l, o⟩ :: ts' ∧ us = ⟨l, o'⟩ :: us' ∧ Parted ls ts' us' := by
  obtain ⟨ms, hms⟩ := h.closes
  obtain ⟨⟨_, o⟩, ts', rfl, rfl, hts⟩ := List.map_eq_cons_iff.mp h.ends
  obtain ⟨⟨_, o'⟩, us', rfl, hl, hus⟩ := List.map_eq_cons_iff.mp hms
  cases hl
  exact ⟨o, ts', o', us', rfl, rfl, hts, ⟨ms, hus⟩, fun hmem =>
    h.inside (List.mem_cons_of_mem _ hmem)⟩

end Parted

/-! ## Carrying over -/

/-- What `p` does with tokens of these lexemes up to the end, `p'` does up to a closing
parenthesis. At least so many of the tokens are taken. -/
def CarriesAt (fits : Prop) {α : Type} (ls : List Lexeme) (taken : α → Nat) (p p' : Parser α) :
    Prop :=
  ∀ ts us a rest, Parted ls ts us → p ts = .ok (a, rest) →
    ∃ k, taken a ≤ k ∧ k ≤ ls.length ∧ rest = ts.drop k ∧ Outcome fits (p' us) (a, us.drop k)

/-- The same for any fewer than `m` tokens. -/
def Advances (fits : Prop) {α : Type} (m : Nat) (taken : α → Nat) (p p' : Parser α) : Prop :=
  ∀ ls, ls.length < m → CarriesAt fits ls taken p p'

/-- What `p` does with fewer than `m` tokens up to the end, `p'` does up to a closing
parenthesis. -/
def Carries (fits : Prop) {α : Type} (m : Nat) (p p' : Parser α) : Prop :=
  Advances fits m (fun _ => 0) p p'

/-- A parser that looks for something to go on with, and takes a token where it finds it. -/
def Steps (fits : Prop) {α : Type} (m : Nat) (p p' : Parser (Option α)) : Prop :=
  Advances fits m (fun o => o.isSome.toNat) p p'

section

open Sql.Parser

variable {fits : Prop} {α β : Type} {m : Nat} {ls : List Lexeme} {l : Lexeme} {p p' q q' : Parser α}
  {taken : α → Nat} {taken' : β → Nat}

/-! ## Rules -/

theorem CarriesAt.weaken {less : α → Nat} (h : CarriesAt fits ls taken p p')
    (hless : ∀ a, less a ≤ taken a) : CarriesAt fits ls less p p' := by
  intro ts us a rest hparted hrun
  obtain ⟨k, hk, hkls, hrest, hrun'⟩ := h ts us a rest hparted hrun
  exact ⟨k, Nat.le_trans (hless a) hk, hkls, hrest, hrun'⟩

theorem Advances.carries (h : Advances fits m taken p p') : Carries fits m p p' :=
  fun ls hls => (h ls hls).weaken fun _ => Nat.zero_le _

theorem CarriesAt.pure {a : α} (h : taken a = 0) :
    CarriesAt fits ls taken (Pure.pure a) (Pure.pure a) := by
  intro ts us a' rest _ hrun
  obtain ⟨rfl, rfl⟩ := Prod.mk.inj (Except.ok.inj hrun)
  exact ⟨0, Nat.le_of_eq h, Nat.zero_le _, rfl, Or.inl rfl⟩

theorem Carries.pure {a : α} : Carries fits m (Pure.pure a) (Pure.pure a) :=
  fun _ _ => CarriesAt.pure rfl

/-- A parser that stops with a fault. -/
theorem CarriesAt.of_error (h : ∀ ts, ∃ e, p ts = .error e) : CarriesAt fits ls taken p p' := by
  intro ts us a rest _ hrun
  obtain ⟨e, he⟩ := h ts
  cases he.symm.trans hrun

theorem carries_failAt {offset : Nat} {f : ParseFault} :
    Advances fits m taken (failAt offset f) p' :=
  fun _ _ => CarriesAt.of_error fun _ => ⟨_, rfl⟩

theorem carries_failHere {f : ParseFault} : Advances fits m taken (failHere f) p' :=
  fun _ _ => CarriesAt.of_error fun _ => ⟨_, rfl⟩

theorem carries_unexpected {what : String} : Advances fits m taken (unexpected what) p' :=
  fun _ _ => CarriesAt.of_error fun _ => ⟨_, rfl⟩

/-- **One parser after another.** What the first one takes is no longer there for the second. -/
theorem Advances.bind {f f' : α → Parser β} (hp : Advances fits m taken p p')
    (hf : ∀ a, Advances fits (m - taken a) (fun b => taken' b - taken a) (f a) (f' a)) :
    Advances fits m taken' (p >>= f) (p' >>= f') := by
  intro ls hls ts us b rest hparted hrun
  obtain ⟨a, between, ha, hb⟩ := bind_eq_ok hrun
  obtain ⟨k, htaken, hk, rfl, ha'⟩ := hp ls hls ts us a between hparted ha
  -- the bound shrinks by what the first parser is known to take, which is at most what it took
  have hlength : (ls.drop k).length < m - taken a := by
    rw [List.length_drop]
    omega
  obtain ⟨j, htaken', hj, rfl, hb'⟩ := hf a _ hlength _ _ b rest (hparted.drop hk) hb
  rw [List.length_drop] at hj
  dsimp only at htaken'
  refine ⟨k + j, by omega, by omega, List.drop_drop, ?_⟩
  rw [← List.drop_drop]
  exact Outcome.bind ha' hb'

/-- One parser after another, where it does not matter how many tokens the first one takes. -/
theorem Carries.bind {f f' : α → Parser β} (hp : Carries fits m p p')
    (hf : ∀ a, Advances fits m taken' (f a) (f' a)) :
    Advances fits m taken' (p >>= f) (p' >>= f') :=
  Advances.bind hp hf

theorem Carries.map (f : α → β) (hp : Carries fits m p p') : Carries fits m (f <$> p) (f <$> p') :=
  Carries.bind hp fun _ => Carries.pure

theorem Carries.discard (hp : Carries fits m p p') : Carries fits m (discard p) (discard p') :=
  Carries.map _ hp

/-- A parser that says yes or no, and what is done in either case. -/
theorem Carries.flag {b b' : Parser Bool} {f f' : Bool → Parser β} (hb : Carries fits m b b')
    (htrue : Advances fits m taken' (f true) (f' true))
    (hfalse : Advances fits m taken' (f false) (f' false)) :
    Advances fits m taken' (b >>= f) (b' >>= f') :=
  Carries.bind hb fun b => by
    cases b with
    | true => exact htrue
    | false => exact hfalse

theorem Advances.ite {c : Prop} [Decidable c] (hp : c → Advances fits m taken p p')
    (hq : ¬ c → Advances fits m taken q q') :
    Advances fits m taken (if c then p else q) (if c then p' else q') := by
  split
  · next h => exact hp h
  · next h => exact hq h

/-! ## Looking ahead -/

/-- A look at the next token: there is one for both, or there is the end for the one and the
closing parenthesis for the other. -/
theorem Advances.look {f f' : Token → Parser α}
    (hmore : ∀ l o o' ls, (l :: ls).length < m →
      CarriesAt fits (l :: ls) taken (f ⟨l, o⟩) (f' ⟨l, o'⟩))
    (hend : ∀ o o', CarriesAt fits [] taken (f ⟨.eof, o⟩) (f' ⟨.symbol .rightParen, o'⟩)) :
    Advances fits m taken (peek >>= f) (peek >>= f') := by
  intro ls hls ts us a rest hparted hrun
  cases ls with
  | nil =>
    obtain ⟨o, o', us', rfl, rfl⟩ := hparted.at_end
    exact hend o o' _ _ a rest hparted hrun
  | cons l ls =>
    obtain ⟨o, ts', o', us', rfl, rfl, -⟩ := hparted.at_token
    exact hmore l o o' ls hls _ _ a rest hparted hrun

/-- A look at the place of the next token. -/
theorem Advances.place {f f' : Token → Parser α}
    (h : ∀ t t', Advances fits m taken (f t) (f' t')) :
    Advances fits m taken (peek >>= f) (peek >>= f') := by
  intro ls hls ts us a rest hparted hrun
  exact h (firstToken ts) (firstToken us) ls hls ts us a rest hparted hrun

/-- The next token is taken. -/
theorem CarriesAt.skip {g g' : Parser α} (h : CarriesAt fits ls (fun a => taken a - 1) g g') :
    CarriesAt fits (l :: ls) taken (skip >>= fun _ => g) (skip >>= fun _ => g') := by
  intro ts us a rest hparted hrun
  obtain ⟨o, ts', o', us', rfl, rfl, hparted'⟩ := hparted.at_token
  obtain ⟨k, htaken, hk, hrest, hrun'⟩ := h ts' us' a rest hparted' hrun
  dsimp only at htaken
  exact ⟨k + 1, by omega, Nat.succ_le_succ hk, hrest, hrun'⟩

theorem Carries.skip {g g' : Parser α} (h : Carries fits m g g') (hls : (l :: ls).length < m)
    (htaken : ∀ a, taken a ≤ 1) :
    CarriesAt fits (l :: ls) taken (skip >>= fun _ => g) (skip >>= fun _ => g') := by
  refine CarriesAt.skip ((h ls (Nat.lt_of_succ_lt hls)).weaken fun a => ?_)
  have := htaken a
  omega

/-- The number of tokens that are left bounds them. -/
theorem Advances.remaining {f f' : Nat → Parser α}
    (h : ∀ n n', n ≤ n' → Advances fits n taken (f n) (f' n')) :
    Advances fits m taken (remaining >>= f) (remaining >>= f') := by
  intro ls hls ts us a rest hparted hrun
  have hle : ts.length ≤ us.length := hparted.length_left ▸ hparted.length_right
  have hlt : ls.length < ts.length := by
    rw [hparted.length_left]
    omega
  exact h _ _ hle ls hlt ts us a rest hparted hrun

/-! ## Single tokens -/

theorem carries_isNext (hend : l ≠ .eof) (hparen : l ≠ .symbol .rightParen) :
    Carries fits m (isNext l) (isNext l) := by
  refine Advances.look (fun _ _ _ _ _ => CarriesAt.pure rfl) fun _ _ => ?_
  dsimp only
  rw [beq_false_of_ne hend.symm, beq_false_of_ne hparen.symm]
  exact CarriesAt.pure rfl

theorem carries_isNextKeyword {k : String} :
    Carries fits m (isNextKeyword k) (isNextKeyword k) :=
  Advances.look (fun _ _ _ _ _ => CarriesAt.pure rfl) fun _ _ => CarriesAt.pure rfl

/-- What takes the next token if it passes a test that neither the end nor a closing parenthesis
passes. -/
theorem advances_test {b : Parser Bool} (test : Lexeme → Bool)
    (hb : b = peek >>= fun t =>
      if test t.lexeme = true then skip >>= fun _ => Pure.pure true else Pure.pure false)
    (hend : test .eof = false) (hparen : test (.symbol .rightParen) = false) :
    Advances fits m Bool.toNat b b := by
  rw [hb]
  refine Advances.look (fun l _ _ ls _ => ?_) fun _ _ => ?_
  · dsimp only
    split
    · exact CarriesAt.skip (CarriesAt.pure rfl)
    · exact CarriesAt.pure rfl
  · dsimp only
    rw [hend, hparen]
    exact CarriesAt.pure rfl

theorem advances_eat (hend : l ≠ .eof) (hparen : l ≠ .symbol .rightParen) :
    Advances fits m Bool.toNat (eat l) (eat l) :=
  advances_test (· == l) rfl (beq_false_of_ne hend.symm) (beq_false_of_ne hparen.symm)

theorem advances_eatKeyword {k : String} :
    Advances fits m Bool.toNat (eatKeyword k) (eatKeyword k) :=
  advances_test (·.isKeyword k) rfl rfl rfl

theorem carries_eat (hend : l ≠ .eof) (hparen : l ≠ .symbol .rightParen) :
    Carries fits m (eat l) (eat l) :=
  (advances_eat hend hparen).carries

theorem carries_eatKeyword {k : String} : Carries fits m (eatKeyword k) (eatKeyword k) :=
  advances_eatKeyword.carries

theorem carries_expect {what : String} (hend : l ≠ .eof) (hparen : l ≠ .symbol .rightParen) :
    Carries fits m (expect l what) (expect l what) :=
  Carries.flag (carries_eat hend hparen) Carries.pure carries_unexpected

theorem advances_expectKeyword {k : String} :
    Advances fits m (fun _ => 1) (expectKeyword k) (expectKeyword k) :=
  Advances.bind advances_eatKeyword fun b => by
    cases b with
    | true => exact fun _ _ => CarriesAt.pure rfl
    | false => exact carries_unexpected

theorem carries_expectKeyword {k : String} :
    Carries fits m (expectKeyword k) (expectKeyword k) :=
  advances_expectKeyword.carries

/-- A closing parenthesis that has to be there is none that stands in place of the end. -/
theorem Carries.closing {f f' : Bool → Parser β} (htrue : Carries fits m (f true) (f' true))
    (hfalse : ∀ ts, ∃ e, f false ts = .error e) :
    Carries fits m (eat (.symbol .rightParen) >>= f) (eat (.symbol .rightParen) >>= f') := by
  intro ls hls ts us a rest hparted hrun
  cases ls with
  | nil =>
    -- what closes is not there at the end, so the parser has not succeeded
    obtain ⟨o, o', us', rfl, rfl⟩ := hparted.at_end
    obtain ⟨e, he⟩ := hfalse [⟨.eof, o⟩]
    cases he.symm.trans hrun
  | cons l ls =>
    obtain ⟨o, ts', o', us', rfl, rfl, hparted'⟩ := hparted.at_token
    by_cases hl : l = .symbol .rightParen
    · subst hl
      obtain ⟨k, htaken, hk, hrest, hrun'⟩ :=
        htrue ls (Nat.lt_of_succ_lt hls) ts' us' a rest hparted' hrun
      exact ⟨k + 1, Nat.zero_le _, Nat.succ_le_succ hk, hrest, hrun'⟩
    · obtain ⟨b, between, hb, hrun⟩ := bind_eq_ok hrun
      have hfail : eat (.symbol .rightParen) (⟨l, o⟩ :: ts') = .ok (false, ⟨l, o⟩ :: ts') := by
        show (if (l == .symbol .rightParen) = true then _ else _ : Parser Bool) _ = _
        rw [if_neg fun h => hl (beq_iff_eq.mp h)]
        rfl
      obtain ⟨rfl, rfl⟩ := Prod.mk.inj (Except.ok.inj (hfail.symm.trans hb))
      obtain ⟨e, he⟩ := hfalse (⟨l, o⟩ :: ts')
      cases he.symm.trans hrun

theorem carries_closeParen {opened opened' : Nat} :
    Carries fits m (closeParen opened) (closeParen opened') :=
  Carries.closing Carries.pure fun _ => ⟨_, rfl⟩

theorem carries_expectClosing {what : String} :
    Carries fits m (expect (.symbol .rightParen) what) (expect (.symbol .rightParen) what) :=
  Carries.closing Carries.pure fun _ => ⟨_, rfl⟩

/-! ## Turns of loops -/

theorem Advances.mono {n : Nat} (h : Advances fits m taken p p') (hle : n ≤ m) :
    Advances fits n taken p p' :=
  fun ls hls => h ls (Nat.lt_of_lt_of_le hls hle)

/-- **A loop carries over if its turns do.** It may have more turns left on the right, and it takes
a token in each turn, so that it is not ended by the number of its turns. -/
theorem carries_turns {σ : Type} {p p' : Nat → σ → Parser α}
    (hturn : ∀ n n', (∀ s, Carries fits n (p n s) (p' n' s)) →
      ∀ s, Carries fits (n + 1) (p (n + 1) s) (p' (n' + 1) s)) (n n' : Nat) (hn : n ≤ n') (s : σ) :
    Carries fits n (p n s) (p' n' s) := by
  induction n generalizing n' s with
  -- with no turn left, there are fewer tokens than none
  | zero => exact fun _ hls => absurd hls (Nat.not_lt_zero _)
  | succ n ih =>
    cases n' with
    | zero => exact absurd hn (Nat.not_succ_le_zero n)
    | succ n' => exact hturn n n' (ih n' (Nat.le_of_succ_le_succ hn)) s

/-- The same for a loop that only collects. -/
theorem carries_repeated {p p' : Nat → Parser α}
    (hturn : ∀ n n', Carries fits n (p n) (p' n') →
      Carries fits (n + 1) (p (n + 1)) (p' (n' + 1))) (n n' : Nat) (hn : n ≤ n') :
    Carries fits n (p n) (p' n') :=
  @carries_turns fits α Unit (fun n _ => p n) (fun n _ => p' n)
    (fun n n' h _ => hturn n n' (h ())) n n' hn ()

/-- A turn of a loop that starts with a token to be taken. -/
theorem Carries.turn {b b' : Parser Bool} {f f' : Bool → Parser β}
    (hb : Advances fits (m + 1) Bool.toNat b b') (htrue : Carries fits m (f true) (f' true))
    (hfalse : Carries fits (m + 1) (f false) (f' false)) :
    Carries fits (m + 1) (b >>= f) (b' >>= f') :=
  Advances.bind hb fun b => by
    cases b with
    | true => exact htrue
    | false => exact hfalse

/-- A turn of a loop that starts with a step. -/
theorem Carries.turnStep {p p' : Parser (Option α)} {f f' : Option α → Parser β}
    (hp : Steps fits (m + 1) p p') (hsome : ∀ a, Carries fits m (f (some a)) (f' (some a)))
    (hnone : Carries fits (m + 1) (f none) (f' none)) :
    Carries fits (m + 1) (p >>= f) (p' >>= f') :=
  Advances.bind hp fun o => by
    cases o with
    | some a => exact hsome a
    | none => exact hnone

theorem Steps.none : Steps fits m (Pure.pure none : Parser (Option α)) (Pure.pure none) :=
  fun _ _ => CarriesAt.pure rfl

/-- A step that starts with a token to be taken. -/
theorem Steps.flag {b b' : Parser Bool} {f f' : Bool → Parser (Option α)}
    (hb : Advances fits m Bool.toNat b b') (htrue : Carries fits m (f true) (f' true))
    (hfalse : Steps fits m (f false) (f' false)) : Steps fits m (b >>= f) (b' >>= f') :=
  Advances.bind hb fun b => by
    cases b with
    | true =>
      refine fun ls hls => (htrue.mono (Nat.sub_le _ _) ls hls).weaken fun o => ?_
      cases o <;> exact Nat.le_refl 0
    | false => exact hfalse

/-! ## Names and lists -/

theorem carries_name {what : String} : Carries fits m (name what) (name what) := by
  refine Advances.look (fun l _ _ ls hls => ?_) fun _ _ => CarriesAt.of_error fun _ => ⟨_, rfl⟩
  dsimp only
  cases nameOf? l with
  | none => exact carries_unexpected _ hls
  | some n => exact Carries.pure.skip hls fun _ => Nat.zero_le _

theorem carries_optionalAlias : Carries fits m optionalAlias optionalAlias := by
  refine Carries.flag carries_eatKeyword (Carries.bind carries_name fun _ => Carries.pure) ?_
  refine Advances.look (fun l _ _ ls hls => ?_) fun _ _ => CarriesAt.pure rfl
  dsimp only
  cases nameOf? l with
  | none => exact CarriesAt.pure rfl
  | some n => exact Carries.pure.skip hls fun _ => Nat.zero_le _

theorem carries_commaTail {item item' : Parser α} (hitem : ∀ m, Carries fits m item item') :
    ∀ n n', n ≤ n' → Carries fits n (commaTail item n) (commaTail item' n') :=
  carries_repeated fun n _ hrest => Carries.turn (advances_eat (by decide) (by decide))
    (Carries.bind (hitem n) fun _ => Carries.bind hrest fun _ => Carries.pure) Carries.pure

theorem carries_commaList {item item' : Parser α} (hitem : ∀ m, Carries fits m item item') :
    Carries fits m (commaList item) (commaList item') :=
  Carries.bind (hitem m) fun _ => Advances.remaining fun n n' hn =>
    Carries.bind (carries_commaTail hitem n n' hn) fun _ => Carries.pure

theorem carries_nameList {what : String} : Carries fits m (nameList what) (nameList what) :=
  Carries.bind (carries_expect (by decide) (by decide)) fun _ =>
    Carries.bind (carries_commaList fun _ => carries_name) fun _ =>
      Carries.bind carries_expectClosing fun _ => Carries.pure

/-! ## Type names -/

theorem carries_typePart : Carries fits m typePart typePart := by
  refine Advances.look (fun l _ _ ls hls => ?_) fun _ _ => CarriesAt.of_error fun _ => ⟨_, rfl⟩
  cases l with
  | word w => exact Carries.pure.skip hls fun _ => Nat.zero_le _
  | quoted n => exact Carries.pure.skip hls fun _ => Nat.zero_le _
  | _ => exact carries_unexpected _ hls

theorem carries_typeParts : ∀ n n', n ≤ n' → Carries fits n (typeParts n) (typeParts n') :=
  carries_repeated fun _ _ hrest => Carries.turn (advances_eat (by decide) (by decide))
    (Carries.bind carries_typePart fun _ => Carries.bind hrest fun _ => Carries.pure) Carries.pure

theorem carries_typeTail : ∀ n n', n ≤ n' → Carries fits n (typeTail n) (typeTail n') := by
  refine carries_repeated fun n n' hrest => ?_
  refine Advances.look (fun l _ _ ls hls => ?_) fun _ _ => CarriesAt.pure rfl
  cases l with
  | word w =>
    dsimp only
    split
    · have hmore : Carries fits n (do return " " ++ w ++ (← typeTail n))
          (do return " " ++ w ++ (← typeTail n')) :=
        Carries.bind hrest fun _ => Carries.pure
      exact CarriesAt.skip (hmore ls (Nat.lt_of_succ_lt_succ hls))
    · exact CarriesAt.pure rfl
  | _ => exact CarriesAt.pure rfl

theorem carries_typeModifier : Carries fits m typeModifier typeModifier := by
  refine Advances.look (fun l _ _ ls hls => ?_) fun _ _ => CarriesAt.of_error fun _ => ⟨_, rfl⟩
  cases l with
  | number t => exact Carries.pure.skip hls fun _ => Nat.zero_le _
  | _ => exact carries_unexpected _ hls

theorem carries_typeName : Carries fits m typeName typeName := by
  refine Carries.bind carries_typePart fun _ => Advances.remaining fun n n' hn => ?_
  refine Carries.bind (carries_typeParts n n' hn) fun _ => Advances.remaining fun k k' hk => ?_
  refine Carries.bind (carries_typeTail k k' hk) fun _ => ?_
  refine Carries.flag (carries_eat (by decide) (by decide)) ?_ Carries.pure
  exact Carries.bind (carries_commaList fun _ => carries_typeModifier) fun _ =>
    Carries.bind carries_expectClosing fun _ => Carries.pure

end

end Sql
