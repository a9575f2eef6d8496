import Sql.Proofs.ReadStatement

/-!
# Reading well-formed trees

The parsers for `n` more levels read every tree that is well formed within `n` levels from its
lexemes. `Readable`, `ReachesBody` and the like say of each kind of tree how it is read; the
induction is over the tree, and what stands one level further in has one level less.
-/

namespace Sql

open Sql.Parser

section

variable {fits : Prop} {config : DialectConfig}

/-! ## First lexemes of statements -/

/-- A body starts with SELECT, or with a parenthesis. -/
theorem Body.head (config : DialectConfig) : (b : Body) →
    (b.startsBare = true ∧ ∃ tail, b.lexemes config = kw config "select" :: tail)
      ∨ (b.startsBare = false ∧ ∃ tail, b.lexemes config = .symbol .leftParen :: tail)
  | .select ⟨_, _, _, _, _, _, _, _, _, _⟩ => by
    rw [Body.lexemes, Select.lexemes]
    exact Or.inl ⟨rfl, _, rfl⟩
  | .setOp left op right => by
    rw [Body.lexemes, Body.startsBare]
    rcases Body.head config left with ⟨h, tail, htail⟩ | ⟨h, tail, htail⟩
    · exact Or.inl ⟨h, _, by rw [htail, List.cons_append]⟩
    · exact Or.inr ⟨h, _, by rw [htail, List.cons_append]⟩
  | .nested s => by
    rw [Body.lexemes]
    exact Or.inr ⟨rfl, _, rfl⟩

theorem Body.starts (b : Body) : StartsStatement (b.lexemes config) := by
  rcases Body.head config b with ⟨-, tail, htail⟩ | ⟨-, tail, htail⟩
  · exact Or.inl ⟨_, tail, htail, by simp⟩
  · exact Or.inr ⟨tail, htail⟩

theorem Statement.starts (s : Statement) : StartsStatement (s.lexemes config) := by
  obtain ⟨w, b⟩ := s
  rw [Statement.lexemes]
  cases w with
  | none =>
    rw [withLexemes]
    exact b.starts
  | some w =>
    obtain ⟨recursive, ctes⟩ := w
    rw [withLexemes]
    exact Or.inl ⟨_, _, rfl, by simp⟩

theorem Statement.isQuery {s : Statement} (h : s.startsBare = true) :
    IsQuery (s.lexemes config) := by
  obtain ⟨w, b⟩ := s
  rw [Statement.lexemes]
  cases w with
  | none =>
    rw [withLexemes, List.nil_append]
    rcases Body.head config b with ⟨-, tail, htail⟩ | ⟨hbare, -⟩
    · exact ⟨_, tail, htail, by simp⟩
    · rw [Statement.startsBare, hbare] at h
      exact absurd h Bool.false_ne_true
  | some w =>
    obtain ⟨recursive, ctes⟩ := w
    rw [withLexemes]
    exact ⟨_, _, rfl, by simp⟩

/-! ## One level further in -/

variable {n : Nat} {e : Expr} {s : Statement} {ls : List Lexeme}

theorem Expr.strength_pos (e : Expr) : 1 ≤ e.strength := by
  unfold Expr.strength
  split
  · next op _ => cases op <;> decide
  all_goals decide

/-- Without a level left, nothing is read for want of levels. -/
theorem reads_tooDeep {α : Type} {a : α} {follow : Lexeme → Prop} (h : ¬ fits) :
    Reads fits (failHere .tooDeep) ls a follow :=
  fun _ _ _ _ => Or.inr ⟨h, _, rfl⟩

/-- An expression that is readable with one level less is read one level further in. -/
theorem nested_of_readable (hpos : fits → 0 < n) (hwf : e.Wf True fits (n - 1))
    (h : Readable fits (Inner.within (n - 1)) e.strength (e.lexemes config) e) :
    Nested fits (Inner.within n) (e.lexemes config) e := by
  refine ⟨⟨_, Expr.starts config hwf⟩, ?_⟩
  cases n with
  | zero => exact reads_tooDeep fun hfits => Nat.lt_irrefl 0 (hpos hfits)
  | succ n => exact h.reads 1 e.strength_pos

theorem reads_negated (hpos : fits → 0 < n) (hstrength : strengthNot ≤ e.strength)
    (h : Readable fits (Inner.within (n - 1)) e.strength (e.lexemes config) e) :
    Reads fits (Inner.within n).negated (e.lexemes config) e fun l => l.tight < strengthNot := by
  cases n with
  | zero => exact reads_tooDeep fun hfits => Nat.lt_irrefl 0 (hpos hfits)
  | succ n => exact h.reads strengthNot hstrength

theorem reads_signed (hpos : fits → 0 < n) (hstrength : strengthSign ≤ e.strength)
    (h : Readable fits (Inner.within (n - 1)) e.strength (e.lexemes config) e) :
    Reads fits (Inner.within n).signed (e.lexemes config) e fun l => l.tight < strengthSign := by
  cases n with
  | zero => exact reads_tooDeep fun hfits => Nat.lt_irrefl 0 (hpos hfits)
  | succ n => exact h.reads strengthSign hstrength

/-- A statement that is read with one level less is read one level further in. -/
theorem reads_nestedStatement (hpos : fits → 0 < n)
    (h : Reads fits (statement (Inner.within (n - 1))) (s.lexemes config) s fun l => 10 ≤ l.stage) :
    Reads fits (Inner.within n).statement (s.lexemes config) s (· = .symbol .rightParen) := by
  cases n with
  | zero => exact reads_tooDeep fun hfits => Nat.lt_irrefl 0 (hpos hfits)
  | succ n =>
    refine Reads.weaken h ?_
    rintro _ rfl
    decide

/-! ## Kinds of expressions -/

variable {inner : Inner}

/-- An expression without an outer operator. -/
theorem Parser.Readable.of_primary (hstarts : Starts strengthAtom ls)
    (h : Reads fits (primary inner) ls e fun l => l.tight < strengthAtom) :
    Readable fits inner strengthAtom ls e :=
  Readable.of_own hstarts h fun hgroups => absurd hgroups (by decide)

/-- What extends an expression of the same level, or of a stronger one, is readable. -/
theorem Parser.Readable.step {strength operatorStrength : Nat} {ms : List Lexeme} {e' : Expr}
    (h : Readable fits inner strength ls e) (hle : operatorStrength ≤ strength)
    (hgroups : groupsLeft operatorStrength = true)
    (hstarts : Starts operatorStrength (ls ++ ms))
    (hstep : Reads fits (levelStep inner operatorStrength e) ms (some e')
      fun l => l.tight ≤ operatorStrength)
    (hhead : ∃ l tail, ms = l :: tail ∧ l.tight ≤ operatorStrength) :
    Readable fits inner operatorStrength (ls ++ ms) e' := by
  have hreaches := (h.reaches _ hgroups hle).step hstep hhead
  exact Readable.of_own hstarts (hreaches.reads hgroups) fun _ => hreaches

/-- A predicate or an operator behind its left operand. -/
theorem Parser.Readable.predicate {strength : Nat} {ms : List Lexeme} {e' : Expr}
    (h : Readable fits inner strength ls e) (hle : strengthComparison ≤ strength)
    (hstarts : Starts strengthComparison (ls ++ ms))
    (hstep : Reads fits (predicate? inner e) ms (some e') fun l => l.tight ≤ strengthComparison)
    (hhead : ∃ l tail, ms = l :: tail ∧ l.tight ≤ strengthComparison) :
    Readable fits inner strengthComparison (ls ++ ms) e' :=
  h.step hle rfl hstarts hstep hhead

theorem predicateLexemes_head {word negatedWord : String} {negated : Bool} {ms : List Lexeme}
    (h : ∃ w tail, phrase config word = kw config w :: tail
      ∧ (Lexeme.word w).tight ≤ strengthComparison)
    (hnegated : ∃ w tail, phrase config negatedWord = kw config w :: tail
      ∧ (Lexeme.word w).tight ≤ strengthComparison) :
    ∃ l tail, predicateLexemes config word negatedWord negated ++ ms = l :: tail
      ∧ l.tight ≤ strengthComparison := by
  unfold predicateLexemes
  cases negated with
  | false =>
    obtain ⟨w, tail, hwords, htight⟩ := h
    rw [if_neg Bool.false_ne_true, hwords]
    exact ⟨_, _, rfl, by rwa [tight_kw]⟩
  | true =>
    obtain ⟨w, tail, hwords, htight⟩ := hnegated
    rw [if_pos rfl, hwords]
    exact ⟨_, _, rfl, by rwa [tight_kw]⟩

end

/-! ## The induction -/

section

variable {fits : Prop} {config : DialectConfig}

mutual

/-- **A well-formed expression is read from its lexemes** by the parsers of all levels that it may
stand on. -/
theorem Expr.readable {n : Nat} : (e : Expr) → e.Wf True fits n →
    Readable fits (Inner.within n) e.strength (e.lexemes config) e
  | .column c, h => by
    have hstarts := Expr.starts config h
    rw [Expr.lexemes] at hstarts ⊢
    exact Readable.of_primary hstarts (reads_column c)
  | .star (some q), h => by
    have hstarts := Expr.starts config h
    rw [Expr.lexemes] at hstarts ⊢
    exact Readable.of_primary hstarts (reads_qualifiedStar q)
  | .star none, h => by
    have hstarts := Expr.starts config h
    rw [Expr.lexemes] at hstarts ⊢
    exact Readable.of_primary hstarts reads_star
  | .literal l, h => by
    have hstarts := Expr.starts config h
    rw [Expr.Wf] at h
    rw [Expr.lexemes] at hstarts ⊢
    refine Readable.of_primary hstarts ?_
    cases l with
    | number t => exact reads_number
    | string v => exact reads_string
    | boolean b => exact reads_boolean b
    | null => exact reads_null
    | typed type v => exact reads_typed h
  | .param p, h => by
    have hstarts := Expr.starts config h
    rw [Expr.Wf] at h
    rw [Expr.lexemes] at hstarts ⊢
    obtain ⟨m, v⟩ := p
    obtain rfl : v = none := h.1
    exact Readable.of_primary hstarts reads_param
  | .call f args distinct filter window, h => by
    have hstarts := Expr.starts config h
    rw [Expr.Wf] at h
    obtain ⟨hf, hdistinct, hargs, hfilter, hwindow⟩ := h
    rw [Expr.lexemes] at hstarts ⊢
    exact Readable.of_primary hstarts (reads_function hf
      (reads_call (exprs_nested args hargs) hdistinct (option_nested filter hfilter)
        (over_reads window hwindow)))
  | .binary l op r, h => by
    have hstarts := Expr.starts config h
    rw [Expr.Wf] at h
    obtain ⟨hl, hr, hleft, hright⟩ := h
    have hgroups : groupsLeft op.strength = true := by cases op <;> rfl
    obtain ⟨l', tail, hop, htight⟩ := operator_head config op
    rw [Expr.lexemes] at hstarts ⊢
    refine (Expr.readable l hl).step hleft hgroups hstarts (reads_levelStep_binary op ?_) ?_
    · exact Reads.weaken ((Expr.readable r hr).reads _ hright) fun _ hl => Nat.lt_succ_of_le hl
    · exact ⟨l', _, by rw [hop, List.cons_append], Nat.le_of_eq htight⟩
  | .unary op e, h => by
    have hstarts := Expr.starts config h
    rw [Expr.Wf] at h
    obtain ⟨hpos, he, hstrength⟩ := h
    rw [Expr.lexemes] at hstarts ⊢
    have hread := Expr.readable e he
    cases op with
    | not =>
      refine Readable.of_own hstarts ?_ fun hgroups => absurd hgroups Bool.false_ne_true
      exact Reads.token (reads_eatKeyword (isKeyword_kw_self config "not"))
        (Reads.finish (reads_negated hpos hstrength hread) rfl)
    | minus | plus =>
      -- the parser looks at the sign before it takes it
      refine Readable.of_own hstarts ?_ fun hgroups => absurd hgroups Bool.false_ne_true
      refine Reads.peek fun t ht => ?_
      obtain ⟨_, _, ht⟩ := ht
      rw [ht]
      exact Reads.token reads_skip (Reads.finish (reads_signed hpos hstrength hread) rfl)
  | .isNull e negated, h => by
    have hstarts := Expr.starts config h
    rw [Expr.Wf] at h
    rw [Expr.lexemes] at hstarts ⊢
    refine (Expr.readable e h.1).predicate h.2 hstarts (reads_isNull negated) ?_
    rw [← List.append_nil (predicateLexemes config _ _ _)]
    exact predicateLexemes_head ⟨"is", _, rfl, by decide⟩ ⟨"is", _, rfl, by decide⟩
  | .between e low high negated, h => by
    have hstarts := Expr.starts config h
    rw [Expr.Wf] at h
    obtain ⟨⟨he, hstrength⟩, ⟨hlow, hlowStrength⟩, hhigh, hhighStrength⟩ := h
    rw [Expr.lexemes] at hstarts ⊢
    refine (Expr.readable e he).predicate hstrength hstarts (reads_between negated
      ((Expr.readable low hlow).reads 5 hlowStrength)
      (Reads.weaken ((Expr.readable high hhigh).reads 5 hhighStrength)
        fun _ hl => Nat.lt_succ_of_le hl)) ?_
    exact predicateLexemes_head ⟨"between", _, rfl, by decide⟩ ⟨"not", _, rfl, by decide⟩
  | .inList e items negated, h => by
    have hstarts := Expr.starts config h
    rw [Expr.Wf] at h
    obtain ⟨⟨he, hstrength⟩, hne, hitems⟩ := h
    rw [Expr.lexemes] at hstarts ⊢
    refine (Expr.readable e he).predicate hstrength hstarts
      (reads_in negated (reads_inList hne (exprs_nested items hitems))) ?_
    exact predicateLexemes_head ⟨"in", _, rfl, by decide⟩ ⟨"not", _, rfl, by decide⟩
  | .inQuery e s negated, h => by
    have hstarts := Expr.starts config h
    rw [Expr.Wf] at h
    obtain ⟨⟨he, hstrength⟩, hpos, hs, hbare⟩ := h
    rw [Expr.lexemes] at hstarts ⊢
    refine (Expr.readable e he).predicate hstrength hstarts (reads_in negated
      (reads_inQuery (Statement.isQuery hbare)
        (reads_nestedStatement hpos (Statement.reads s hs)))) ?_
    exact predicateLexemes_head ⟨"in", _, rfl, by decide⟩ ⟨"not", _, rfl, by decide⟩
  | .hasRows s, h => by
    have hstarts := Expr.starts config h
    rw [Expr.Wf] at h
    rw [Expr.lexemes] at hstarts ⊢
    exact Readable.of_primary hstarts
      (reads_exists (reads_nestedStatement h.1 (Statement.reads s h.2)))
  | .subquery s, h => by
    have hstarts := Expr.starts config h
    rw [Expr.Wf] at h
    obtain ⟨hpos, hs, hbare⟩ := h
    rw [Expr.lexemes] at hstarts ⊢
    exact Readable.of_primary hstarts (reads_subquery (Statement.isQuery hbare)
      (reads_nestedStatement hpos (Statement.reads s hs)))
  | .case scrutinee branches fallback, h => by
    have hstarts := Expr.starts config h
    rw [Expr.Wf] at h
    obtain ⟨hscrutinee, hne, hbranches, hfallback⟩ := h
    rw [Expr.lexemes] at hstarts ⊢
    exact Readable.of_primary hstarts (reads_case (option_nested scrutinee hscrutinee) hne
      (branches_nested branches hbranches) (option_nested fallback hfallback))
  | .cast e type true, h => by
    have hstarts := Expr.starts config h
    rw [Expr.Wf] at h
    obtain ⟨⟨he, hstrength⟩, htype⟩ := h
    rw [Expr.lexemes] at hstarts ⊢
    refine (Expr.readable e he).step hstrength rfl hstarts ?_ ⟨_, _, rfl, Nat.le_refl _⟩
    exact Reads.token reads_eat (Reads.finish (Reads.weaken (reads_typeName htype)
      fun _ hl => Nat.lt_of_le_of_lt hl (show strengthCast < strengthAtom by decide)) rfl)
  | .cast e type false, h => by
    have hstarts := Expr.starts config h
    rw [Expr.Wf] at h
    obtain ⟨⟨hpos, he⟩, htype⟩ := h
    rw [Expr.lexemes] at hstarts ⊢
    exact Readable.of_primary hstarts
      (reads_cast (nested_of_readable hpos he (Expr.readable e he)) htype)
  | .paren e, h => by
    have hstarts := Expr.starts config h
    rw [Expr.Wf] at h
    rw [Expr.lexemes] at hstarts ⊢
    exact Readable.of_primary hstarts
      (reads_paren (nested_of_readable h.1 h.2 (Expr.readable e h.2)))

theorem option_nested {n : Nat} : (o : Option Expr) → optionWf True fits n o →
    ∀ e ∈ o, Nested fits (Inner.within n) (e.lexemes config) e
  | some e, h => by
    rw [optionWf] at h
    intro e' he
    obtain rfl := Option.mem_some.mp he
    exact nested_of_readable h.1 h.2 (Expr.readable e h.2)
  | none, _ => fun _ he => by simp at he

theorem exprs_nested {n : Nat} : (es : List Expr) → exprsWf True fits n es →
    List.Forall₂ (Nested fits (Inner.within n)) (exprLexemes config es) es
  | [], _ => by
    rw [exprLexemes]
    exact List.Forall₂.nil
  | e :: es, h => by
    rw [exprsWf] at h
    rw [exprLexemes]
    exact List.Forall₂.cons (nested_of_readable h.1.1 h.1.2 (Expr.readable e h.1.2))
      (exprs_nested es h.2)

theorem branches_nested {n : Nat} : (bs : List Branch) → branchesWf True fits n bs →
    ∀ b ∈ bs, Nested fits (Inner.within n) (b.condition.lexemes config) b.condition
      ∧ Nested fits (Inner.within n) (b.result.lexemes config) b.result
  | [], _ => fun _ hb => by simp at hb
  | ⟨c, r⟩ :: bs, h => by
    rw [branchesWf] at h
    obtain ⟨⟨hpos, hc, hr⟩, hbs⟩ := h
    rw [List.forall_mem_cons]
    exact ⟨⟨nested_of_readable hpos hc (Expr.readable c hc),
      nested_of_readable hpos hr (Expr.readable r hr)⟩, branches_nested bs hbs⟩

theorem order_reads {n : Nat} : (os : List OrderItem) → orderWf True fits n os →
    List.Forall₂ (fun ls i => Reads fits (orderItem (Inner.within n)) ls i EndsOrderItem)
      (orderLexemes config os) os
  | [], _ => by
    rw [orderLexemes]
    exact List.Forall₂.nil
  | ⟨e, d, nulls⟩ :: os, h => by
    rw [orderWf] at h
    rw [orderLexemes]
    exact List.Forall₂.cons
      (reads_orderItem (nested_of_readable h.1.1 h.1.2 (Expr.readable e h.1.2)))
      (order_reads os h.2)

theorem over_reads {n : Nat} : (w : Option Window) → overWf True fits n w →
    ∀ w' ∈ w, WindowReads fits (Inner.within n) config w'
  | some ⟨partitionBy, orderBy⟩, h => by
    rw [overWf] at h
    intro w' hw
    obtain rfl := Option.mem_some.mp hw
    exact ⟨exprs_nested partitionBy h.1, order_reads orderBy h.2⟩
  | none, _ => fun _ hw => by simp at hw

theorem items_reads {n : Nat} : (is : List SelectItem) → itemsWf True fits n is →
    List.Forall₂ (fun ls i => Reads fits (selectItem (Inner.within n)) ls i fun l => 0 < l.stage)
      (itemLexemes config is) is
  | [], _ => by
    rw [itemLexemes]
    exact List.Forall₂.nil
  | ⟨e, a⟩ :: is, h => by
    rw [itemsWf] at h
    obtain ⟨⟨⟨hpos, he⟩, -, hstar⟩, his⟩ := h
    rw [itemLexemes]
    exact List.Forall₂.cons
      (reads_selectItem (nested_of_readable hpos he (Expr.readable e he)) hstar)
      (items_reads is his)

theorem Source.reads {n : Nat} : (s : Source) → s.Wf True fits n →
    Reads fits (source (Inner.within n)) (s.lexemes config) s fun l => 0 < l.stage
  | .table path t a, _ => by
    rw [Source.lexemes]
    exact reads_table path t a
  | .subquery s a, h => by
    rw [Source.Wf] at h
    rw [Source.lexemes]
    exact reads_subquerySource a s.starts (reads_nestedStatement h.1.1 (Statement.reads s h.1.2))

theorem JoinConstraint.reads {n : Nat} : (c : JoinConstraint) → c.Wf True fits n →
    ConstraintReads fits (Inner.within n) config c
  | .on e, h => by
    rw [JoinConstraint.Wf] at h
    exact nested_of_readable h.1 h.2 (Expr.readable e h.2)
  | .shared columns, h => by
    rw [JoinConstraint.Wf] at h
    exact h.1
  | .none, _ => trivial

theorem joins_reads {n : Nat} : (js : List Join) → joinsWf True fits n js →
    ∀ j ∈ js, JoinReads fits (Inner.within n) config j
  | [], _ => fun _ hj => by simp at hj
  | ⟨kind, right, c⟩ :: js, h => by
    rw [joinsWf] at h
    obtain ⟨⟨hright, hc, htakes⟩, hjs⟩ := h
    rw [List.forall_mem_cons]
    exact ⟨⟨Source.reads right hright, JoinConstraint.reads c hc, htakes⟩, joins_reads js hjs⟩

theorem Select.reads {n : Nat} : (q : Select) → q.Wf True fits n →
    Reads fits (select (Inner.within n)) (q.lexemes config) q fun l => 9 ≤ l.stage
  | ⟨distinct, items, source, joins, filter, groupBy, having, orderBy, limit, offset⟩, h => by
    rw [Select.Wf] at h
    obtain ⟨⟨hne, hitems⟩, ⟨hsource, hjoins, hnone, hnames⟩, hfilter, hgroup, hhaving, horder,
      hlimit, hoffset⟩ := h
    refine reads_select
      { items := items_reads items hitems
        nonempty := hne
        starts := ?_
        source := from_reads source hsource
        joins := joins_reads joins hjoins
        noSource := hnone
        names := hnames
        filter := option_nested filter hfilter
        groupBy := exprs_nested groupBy hgroup
        having := option_nested having hhaving
        orderBy := order_reads orderBy horder
        limit := option_nested limit hlimit
        offset := option_nested offset hoffset }
    obtain ⟨⟨e, a⟩, is, rfl⟩ := List.exists_cons_of_ne_nil hne
    rw [itemsWf] at hitems
    rw [itemLexemes]
    exact ⟨_, ((Expr.starts config hitems.1.1.2).append _).commaSep _⟩

theorem from_reads {n : Nat} : (s : Option Source) → fromWf True fits n s →
    ∀ s' ∈ s, Reads fits (source (Inner.within n)) (s'.lexemes config) s' fun l => 0 < l.stage
  | some s, h => by
    rw [fromWf] at h
    intro s' hs
    obtain rfl := Option.mem_some.mp hs
    exact Source.reads s h
  | none, _ => fun _ hs => by simp at hs

theorem ctes_reads {n : Nat} : (cs : List Cte) → ctesWf True fits n cs →
    ∀ c ∈ cs, CteReads fits (Inner.within n) config c
  | [], _ => fun _ hc => by simp at hc
  | ⟨c, columns, s⟩ :: cs, h => by
    rw [ctesWf] at h
    obtain ⟨⟨-, -, hpos, hs⟩, hcs⟩ := h
    rw [List.forall_mem_cons]
    exact ⟨reads_nestedStatement hpos (Statement.reads s hs), ctes_reads cs hcs⟩

theorem with_reads {n : Nat} : (w : Option With) → withWf True fits n w →
    ∀ w' ∈ w, WithReads fits (Inner.within n) config w'
  | some ⟨recursive, cs⟩, h => by
    rw [withWf] at h
    obtain ⟨hne, hcs, hnames⟩ := h
    intro w' hw
    obtain rfl := Option.mem_some.mp hw
    exact ⟨hne, ctes_reads cs hcs, hnames⟩
  | none, _ => fun _ hw => by simp at hw

theorem Body.reaches {n : Nat} : (b : Body) → b.Wf True fits n →
    ReachesBody fits (Inner.within n) (b.lexemes config) b
      ∧ (b.isTerm = true → Reads fits (bodyTerm (Inner.within n)) (b.lexemes config) b
        fun l => 9 ≤ l.stage)
  | .select q, h => by
    rw [Body.Wf] at h
    have hterm : Reads fits (bodyTerm (Inner.within n)) ((Body.select q).lexemes config) (.select q)
        fun l => 9 ≤ l.stage := by
      have hread := Select.reads q h
      obtain ⟨distinct, items, source, joins, filter, groupBy, having, orderBy, limit, offset⟩ := q
      rw [Body.lexemes]
      refine reads_bodyTerm_select ?_ hread
      rw [Select.lexemes]
      exact ⟨_, _, rfl, by simp⟩
    exact ⟨ReachesBody.of_term hterm, fun _ => hterm⟩
  | .setOp left op right, h => by
    rw [Body.Wf] at h
    obtain ⟨hleft, hright, hterm⟩ := h
    rw [Body.lexemes]
    -- operands are collected from the left, so the right one is a single term
    refine ⟨(Body.reaches left hleft).1.setOp op right.starts ((Body.reaches right hright).2 hterm),
      fun habs => absurd habs Bool.false_ne_true⟩
  | .nested s, h => by
    rw [Body.Wf] at h
    have hterm : Reads fits (bodyTerm (Inner.within n)) (parenLexemes (s.lexemes config)) (.nested s)
        fun l => 9 ≤ l.stage :=
      reads_bodyTerm_nested s.starts (reads_nestedStatement h.1 (Statement.reads s h.2))
    rw [Body.lexemes]
    exact ⟨ReachesBody.of_term hterm, fun _ => hterm⟩

/-- **A well-formed statement is read from its lexemes.** -/
theorem Statement.reads {n : Nat} : (s : Statement) → s.Wf True fits n →
    Reads fits (statement (Inner.within n)) (s.lexemes config) s fun l => 10 ≤ l.stage
  | ⟨w, b⟩, h => by
    rw [Statement.Wf] at h
    rw [Statement.lexemes]
    refine reads_statement (with_reads w h.1) (Body.reaches b h.2).1 ?_
    rcases Body.head config b with ⟨-, hhead⟩ | ⟨-, hhead⟩
    · exact Or.inl hhead
    · exact Or.inr hhead

end

/-! ## Whole texts -/

variable {text : String}

theorem tokenize_of_lex {ls : List Lexeme} (h : lex text.toList = some ls) :
    ∃ ts, tokenize text = .ok ts ∧ ts.map Token.lexeme = ls := by
  rw [← lexemes_tokensFrom (byteCount text.toList)] at h
  unfold tokenize tokens
  cases htokens : tokensFrom (byteCount text.toList) text.toList with
  | error e => simp [htokens, Except.toOption] at h
  | ok ts =>
    refine ⟨ts, rfl, ?_⟩
    rw [htokens] at h
    exact Option.some.inj h

theorem lex_of_tokenize {ts : List Token} (h : tokenize text = .ok ts) :
    lex text.toList = some (ts.map Token.lexeme) := by
  rw [← lexemes_tokensFrom (byteCount text.toList)]
  unfold tokenize tokens at h
  split at h
  · next hts =>
    obtain rfl := Except.ok.inj h
    rw [hts]
    rfl
  · cases h

/-- A parser that takes the whole of a text, up to its end. -/
theorem runText_of_reads {α : Type} {p : Parser α} {ls : List Lexeme} {a : α}
    (hp : Reads fits p ls a (· = .eof)) (h : lex text.toList = some (ls ++ [.eof])) :
    p.runText text = .ok a ∨ (¬ fits ∧ ∃ offset,
      p.runText text = .error (Error.inText text offset ParseFault.tooDeep.message)) := by
  obtain ⟨ts, hts, hlexemes⟩ := tokenize_of_lex h
  obtain ⟨ts, last, rfl, hls, hlast⟩ := List.map_eq_append_iff.mp hlexemes
  obtain ⟨t, rest, rfl, ht, -⟩ := List.map_eq_cons_iff.mp hlast
  simp only [Parser.runText, hts, Bind.bind, Except.bind, StateT.run]
  rcases hp ts (t :: rest) hls ht with hrun | ⟨hfits, offset, hrun⟩
  · refine Or.inl ?_
    rw [hrun]
    rfl
  · refine Or.inr ⟨hfits, offset, ?_⟩
    rw [hrun]
    rfl

theorem reads_atEnd {after : String} : Reads fits (atEnd after) [] () (· = .eof) := by
  refine Reads.peek fun t ht => ?_
  obtain ⟨_, rfl, ht⟩ := ht
  rw [ht, List.headD_nil]
  exact Reads.pure

/-- A statement of which the lexemes are read is what a text of these lexemes is. -/
theorem parse_of_reads {s : Statement} {ls : List Lexeme} (hstarts : StartsStatement ls)
    (hs : Reads fits (Inner.within maxNesting).statement ls s fun l => 10 ≤ l.stage)
    (h : lex text.toList = some (ls ++ [.eof])) :
    parse text = .ok s ∨ (¬ fits ∧ ∃ offset,
      parse text = .error (Error.inText text offset ParseFault.tooDeep.message)) := by
  refine runText_of_reads (p := wholeStatement) ?_ h
  refine Reads.look (reads_isNext false) (fun l _ => ?_) ?_
  · rcases hstarts with ⟨l', tail, rfl, hl⟩ | ⟨tail, rfl⟩
    · rw [List.headD_cons, beq_eq_false_iff_ne]
      rintro rfl
      exact absurd hl (by decide)
    · rfl
  · have hend : Reads fits (do
          discard (eat (.symbol .semicolon))
          atEnd "end of statement"
          return s : Parser Statement) [] s (· = .eof) := by
      refine Reads.look (Reads.discard reads_not_eat) ?_
        (Reads.look reads_atEnd (fun _ hl => hl) Reads.pure)
      rintro _ rfl
      simp
    rw [← List.append_nil ls]
    refine Reads.bind hs hend ?_
    rintro _ rfl
    decide

/-- **The text of a well-formed statement is read as the statement.** -/
theorem parse_of_lex {s : Statement} (hs : s.Wf True fits (maxNesting - 1))
    (h : lex text.toList = some (s.lexemes config ++ [.eof])) :
    parse text = .ok s ∨ (¬ fits ∧ ∃ offset,
      parse text = .error (Error.inText text offset ParseFault.tooDeep.message)) := by
  have hread : Reads fits (Inner.within maxNesting).statement (s.lexemes config) s
      fun l => 10 ≤ l.stage := Statement.reads s hs
  exact parse_of_reads s.starts hread h

/-- **The text of a well-formed expression is read as the expression.** -/
theorem parseExpression_of_lex {e : Expr} (he : e.Wf True fits (maxNesting - 1))
    (h : lex text.toList = some (e.lexemes config ++ [.eof])) :
    parseExpression text = .ok e ∨ (¬ fits ∧ ∃ offset,
      parseExpression text = .error (Error.inText text offset ParseFault.tooDeep.message)) := by
  refine runText_of_reads (p := wholeExpr) ?_ h
  refine Reads.look (reads_isNext false) (fun l _ => ?_) ?_
  · exact beq_eq_false_iff_ne.mpr ((Expr.starts config he).head_ne rfl l)
  · have hbody : Reads fits (Inner.within maxNesting).expr (e.lexemes config) e
        fun l => l.tight < 1 := (Expr.readable e he).reads 1 e.strength_pos
    have hend : Reads fits (do
          atEnd "expression"
          return e : Parser Expr) [] e (· = .eof) :=
      Reads.look reads_atEnd (fun _ hl => hl) Reads.pure
    rw [← List.append_nil (e.lexemes config)]
    refine Reads.bind hbody hend ?_
    rintro _ rfl
    decide

end

end Sql
