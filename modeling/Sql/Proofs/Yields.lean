import Sql.Parser
import Sql.Proofs.TokenTexts

/-!
# What parsers hand back

`Yields p Q` says that whatever the parser `p` hands back satisfies `Q`, given tokens with texts of
the right form. It says nothing about which tokens the parser takes, nor when it stops with a fault.

* `Yields.bind` and its neighbours: one rule for each way that the parsers are put together.
* `yields_commaList`, `yields_name`, `yields_typeName`: the parsers that do not nest.
-/

namespace Sql

/-- All tokens have texts of the right form. -/
def Clean (ts : List Token) : Prop := ∀ t ∈ ts, t.lexeme.Wf

theorem Clean.tail {ts : List Token} (h : Clean ts) : Clean ts.tail :=
  fun t ht => h t (List.mem_of_mem_tail ht)

theorem Clean.first {ts : List Token} (h : Clean ts) : (firstToken ts).lexeme.Wf := by
  cases ts with
  | nil => trivial
  | cons t ts => exact h t List.mem_cons_self

/-- Whatever the parser hands back satisfies the condition, and it leaves tokens of the right form. -/
def Yields {α : Type} (p : Parser α) (Q : α → Prop) : Prop :=
  ∀ ts a rest, Clean ts → p ts = .ok (a, rest) → Q a ∧ Clean rest

section

open Sql.Parser

variable {α β : Type} {p q : Parser α} {Q : α → Prop} {R : β → Prop}

/-! ## Rules -/

theorem Yields.pure {a : α} (h : Q a) : Yields (Pure.pure a : Parser α) Q := by
  intro ts a' rest hts hrun
  obtain ⟨rfl, rfl⟩ := Prod.mk.inj (Except.ok.inj hrun)
  exact ⟨h, hts⟩

theorem Yields.weaken {Q' : α → Prop} (hp : Yields p Q) (h : ∀ a, Q a → Q' a) : Yields p Q' :=
  fun ts a rest hts hrun => ⟨h a (hp ts a rest hts hrun).1, (hp ts a rest hts hrun).2⟩

/-- What one parser after another hands back comes from what the first hands back. -/
theorem bind_eq_ok {f : α → Parser β} {ts rest : List Token} {b : β}
    (h : (p >>= f) ts = .ok (b, rest)) :
    ∃ a between, p ts = .ok (a, between) ∧ f a between = .ok (b, rest) := by
  change (p ts >>= fun r => f r.1 r.2) = .ok (b, rest) at h
  cases hr : p ts with
  | error e =>
    rw [hr] at h
    exact absurd h (by simp [Bind.bind, Except.bind])
  | ok r =>
    rw [hr] at h
    exact ⟨r.1, r.2, rfl, h⟩

/-- **One parser after another.** -/
theorem Yields.bind {f : α → Parser β} (hp : Yields p Q) (hf : ∀ a, Q a → Yields (f a) R) :
    Yields (p >>= f) R := by
  intro ts b rest hts hrun
  obtain ⟨a, between, ha, hb⟩ := bind_eq_ok hrun
  obtain ⟨hQ, hclean⟩ := hp ts a between hts ha
  exact hf a hQ between b rest hclean hb

theorem Yields.map {f : α → β} (hp : Yields p fun a => R (f a)) : Yields (f <$> p) R :=
  Yields.bind hp fun _ h => Yields.pure h

/-- A parser of which only the tokens that it leaves matter. -/
theorem Yields.any (hp : Yields p Q) : Yields p fun _ => True := hp.weaken fun _ _ => trivial

theorem Yields.discard (hp : Yields p Q) : Yields (discard p) fun _ => True := Yields.map hp.any

/-- A parser that says yes or no, and what is done in either case. -/
theorem Yields.flag {b : Parser Bool} {f : Bool → Parser β} (hb : Yields b fun _ => True)
    (htrue : Yields (f true) R) (hfalse : Yields (f false) R) : Yields (b >>= f) R :=
  Yields.bind hb fun b _ => by
    cases b with
    | true => exact htrue
    | false => exact hfalse

theorem Yields.ite {c : Prop} [Decidable c] (hp : c → Yields p Q) (hq : ¬ c → Yields q Q) :
    Yields (if c then p else q) Q := by
  split
  · next h => exact hp h
  · next h => exact hq h

/-! ## Single tokens -/

theorem Yields.peek {f : Token → Parser β} (hf : ∀ t, t.lexeme.Wf → Yields (f t) R) :
    Yields (peek >>= f) R :=
  fun ts b rest hts hrun => hf (firstToken ts) hts.first ts b rest hts hrun

theorem Yields.peekSecond {f : Token → Parser β} (hf : ∀ t, t.lexeme.Wf → Yields (f t) R) :
    Yields (peekSecond >>= f) R :=
  fun ts b rest hts hrun => hf (firstToken ts.tail) hts.tail.first ts b rest hts hrun

theorem yields_skip : Yields skip fun _ => True := by
  intro ts a rest hts hrun
  obtain ⟨-, rfl⟩ := Prod.mk.inj (Except.ok.inj hrun)
  exact ⟨trivial, hts.tail⟩

theorem Yields.skip {f : Unit → Parser β} (hf : Yields (f ()) R) : Yields (skip >>= f) R :=
  Yields.bind yields_skip fun _ _ => hf

theorem Yields.remaining {f : Nat → Parser β} (hf : ∀ n, Yields (f n) R) :
    Yields (remaining >>= f) R :=
  fun ts b rest hts hrun => hf ts.length ts b rest hts hrun

theorem yields_failAt {offset : Nat} {f : ParseFault} : Yields (failAt offset f) Q :=
  fun _ _ _ _ hrun => absurd hrun (by simp [failAt])

theorem yields_failHere {f : ParseFault} : Yields (failHere f) Q :=
  fun _ _ _ _ hrun => absurd hrun (by simp [failHere])

theorem yields_unexpected {what : String} : Yields (unexpected what) Q :=
  fun _ _ _ _ hrun => absurd hrun (by simp [unexpected])

theorem yields_isNext {l : Lexeme} : Yields (isNext l) fun _ => True :=
  Yields.peek fun _ _ => Yields.pure trivial

theorem yields_isNextKeyword {k : String} : Yields (isNextKeyword k) fun _ => True :=
  Yields.peek fun _ _ => Yields.pure trivial

theorem yields_eat {l : Lexeme} : Yields (eat l) fun _ => True :=
  Yields.flag yields_isNext (Yields.skip (Yields.pure trivial)) (Yields.pure trivial)

theorem yields_eatKeyword {k : String} : Yields (eatKeyword k) fun _ => True :=
  Yields.flag yields_isNextKeyword (Yields.skip (Yields.pure trivial)) (Yields.pure trivial)

theorem Yields.expect {l : Lexeme} {what : String} {f : Unit → Parser β} (hf : Yields (f ()) R) :
    Yields (expect l what >>= f) R :=
  Yields.bind (Yields.flag yields_eat (Yields.pure trivial) yields_unexpected)
    fun _ (_ : True) => hf

theorem Yields.expectKeyword {k : String} {f : Unit → Parser β} (hf : Yields (f ()) R) :
    Yields (expectKeyword k >>= f) R :=
  Yields.bind (Yields.flag yields_eatKeyword (Yields.pure trivial) yields_unexpected)
    fun _ (_ : True) => hf

theorem Yields.closeParen {opened : Nat} {f : Unit → Parser β} (hf : Yields (f ()) R) :
    Yields (closeParen opened >>= f) R :=
  Yields.bind (Yields.flag yields_eat (Yields.pure trivial) yields_failAt)
    fun _ (_ : True) => hf

/-! ## Names and lists -/

theorem IsWord.ne_empty {w : String} (h : IsWord w) : w ≠ "" := by
  obtain ⟨c, cs, hcs, -⟩ := h
  rintro rfl
  simp at hcs

theorem nameOf?_ne_empty {l : Lexeme} {n : String} (hl : l.Wf) (hn : nameOf? l = some n) :
    n ≠ "" := by
  cases l with
  | quoted m =>
    obtain rfl := Option.some.inj hn
    exact hl
  | word w =>
    rw [nameOf?] at hn
    split at hn
    · exact absurd hn (by simp)
    · obtain rfl := Option.some.inj hn
      exact IsWord.ne_empty hl
  | _ => exact absurd hn (by simp [nameOf?])

theorem yields_name {what : String} : Yields (name what) (· ≠ "") := by
  refine Yields.peek fun t ht => ?_
  cases hn : nameOf? t.lexeme with
  | none => exact yields_unexpected
  | some n => exact Yields.skip (Yields.pure (nameOf?_ne_empty ht hn))

theorem yields_optionalAlias : Yields optionalAlias IsAlias := by
  have hsome : ∀ n : String, n ≠ "" → IsAlias (some n) := fun n hn m hm => by
    obtain rfl := Option.mem_some.mp hm
    exact hn
  have hnone : IsAlias none := fun m hm => by simp at hm
  refine Yields.flag yields_eatKeyword
    (Yields.bind yields_name fun n hn => Yields.pure (hsome n hn)) ?_
  refine Yields.peek fun t ht => ?_
  cases hn : nameOf? t.lexeme with
  | none => exact Yields.pure hnone
  | some n => exact Yields.skip (Yields.pure (hsome n (nameOf?_ne_empty ht hn)))

theorem yields_commaTail {item : Parser α} (hitem : Yields item Q) (n : Nat) :
    Yields (commaTail item n) fun as => ∀ a ∈ as, Q a := by
  induction n with
  | zero => exact Yields.pure fun a ha => by simp at ha
  | succ n ih =>
    refine Yields.flag yields_eat ?_ (Yields.pure fun a ha => by simp at ha)
    exact Yields.bind hitem fun a ha => Yields.bind ih fun as has =>
      Yields.pure (List.forall_mem_cons.mpr ⟨ha, has⟩)

theorem yields_commaList {item : Parser α} (hitem : Yields item Q) :
    Yields (commaList item) fun as => as ≠ [] ∧ ∀ a ∈ as, Q a :=
  Yields.bind hitem fun a ha => Yields.remaining fun n => Yields.bind (yields_commaTail hitem n)
    fun as has => Yields.pure ⟨List.cons_ne_nil a as, List.forall_mem_cons.mpr ⟨ha, has⟩⟩

theorem yields_nameList {what : String} :
    Yields (nameList what) fun ns => ns ≠ [] ∧ AreNames ns :=
  Yields.expect (Yields.bind (yields_commaList yields_name) fun _ hns =>
    Yields.expect (Yields.pure hns))

/-! ## Type names -/

theorem yields_typePart : Yields typePart fun t => ∃ p : TypePart, p.Valid ∧ p.text = t := by
  refine Yields.peek fun t ht => ?_
  cases hl : t.lexeme with
  | word w =>
    rw [hl] at ht
    exact Yields.skip (Yields.pure ⟨.bare w, ht, rfl⟩)
  | quoted n =>
    rw [hl] at ht
    refine Yields.skip (Yields.pure ?_)
    unfold writtenPart
    split
    · next h => exact ⟨.bare n, isWord_of_isSimpleName h, rfl⟩
    · next h => exact ⟨.quoted n, ⟨ht, Bool.eq_false_iff.mpr h⟩, rfl⟩
  | _ => exact yields_unexpected

theorem yields_typeParts (n : Nat) : Yields (typeParts n)
    fun t => ∃ ps : List TypePart, (∀ p ∈ ps, p.Valid) ∧ TypeSpelling.moreText ps = t := by
  induction n with
  | zero => exact Yields.pure ⟨[], by simp, rfl⟩
  | succ n ih =>
    refine Yields.flag yields_eat ?_ (Yields.pure ⟨[], by simp, rfl⟩)
    refine Yields.bind yields_typePart fun t ⟨p, hp, hpt⟩ => Yields.bind ih fun u ⟨ps, hps, hpu⟩ => ?_
    exact Yields.pure ⟨p :: ps, List.forall_mem_cons.mpr ⟨hp, hps⟩,
      by rw [TypeSpelling.moreText_cons, hpt, hpu]⟩

theorem yields_typeTail (n : Nat) : Yields (typeTail n)
    fun t => ∃ ws : List String, (∀ w ∈ ws, IsWord w ∧ nameIn w typeWords = true)
      ∧ TypeSpelling.wordsText ws = t := by
  induction n with
  | zero => exact Yields.pure ⟨[], by simp, rfl⟩
  | succ n ih =>
    refine Yields.peek fun t ht => ?_
    cases hl : t.lexeme with
    | word w =>
      rw [hl] at ht
      refine Yields.ite (fun hw => ?_) fun _ => Yields.pure ⟨[], by simp, rfl⟩
      refine Yields.skip (Yields.bind ih fun u ⟨ws, hws, hu⟩ => Yields.pure ?_)
      exact ⟨w :: ws, List.forall_mem_cons.mpr ⟨⟨ht, hw⟩, hws⟩, by
        rw [TypeSpelling.wordsText_cons, hu]⟩
    | _ => exact Yields.pure ⟨[], by simp, rfl⟩

theorem yields_typeModifier : Yields typeModifier IsNumber := by
  refine Yields.peek fun t ht => ?_
  cases hl : t.lexeme with
  | number m =>
    rw [hl] at ht
    exact Yields.skip (Yields.pure ht)
  | _ => exact yields_unexpected

/-- **A type name that is read can be taken apart again.** -/
theorem yields_typeName : Yields typeName IsTypeName := by
  refine Yields.bind yields_typePart fun _ ⟨p, hp, hpt⟩ => Yields.remaining fun n => ?_
  refine Yields.bind (yields_typeParts n) fun _ ⟨ps, hps, hpst⟩ => Yields.remaining fun k => ?_
  refine Yields.bind (yields_typeTail k) fun _ ⟨ws, hws, hwst⟩ => ?_
  subst hpt hpst hwst
  refine Yields.flag yields_eat ?_ (Yields.pure ?_)
  · refine Yields.bind (yields_commaList yields_typeModifier) fun ms ⟨hne, hms⟩ =>
      Yields.expect (Yields.pure ⟨⟨p, ps, ws, ms⟩, ⟨hp, hps, hws, hms⟩, ?_⟩)
    cases ms with
    | nil => exact absurd rfl hne
    | cons m ms => simp [TypeSpelling.text, TypeSpelling.modifiersText, String.append_assoc]
  · exact ⟨⟨p, ps, ws, []⟩, ⟨hp, hps, hws, by simp⟩, by
      simp [TypeSpelling.text, TypeSpelling.modifiersText]⟩

end

end Sql
