import Sql.Proofs.RoundTrip

/-!
# Set operations without parentheses

A set operation is printed as its left operand, its operator and its right operand. Nothing is put
around an operand, and the reader groups to the left, so a set operation that is the right operand
of another one comes back with its operands moved to the left.

* `Body.regrouped` is the body that comes back: the same selects and operators in the same order,
  grouped to the left.
* `Body.Parenthesized` are the bodies that lose no group: every right operand is a select or stands
  in parentheses.
* `Body.ungrouped` is a body without the parentheses that hold no WITH clause. Two bodies with the
  same one combine the same selects in the same way.
-/

namespace Sql

/-! ## Grouping to the left -/

/-- A body, an operator and the operands of a second body, grouped to the left. -/
def Body.followedBy (left : Body) (op : SetOperator) : Body → Body
  | .setOp l op' r => .setOp (left.followedBy op l) op' r
  | b => .setOp left op b

/-- The body with its set operations grouped to the left, also within parentheses. -/
def Body.regrouped : Body → Body
  | .select q => .select q
  | .setOp left op right => left.regrouped.followedBy op right.regrouped
  | .nested ⟨w, b⟩ => .nested ⟨w, b.regrouped⟩

/-- The statement with the set operations of its body grouped to the left. -/
def Statement.regrouped (s : Statement) : Statement := ⟨s.withClause, s.body.regrouped⟩

/-- The body without the parentheses around statements that have no WITH clause. -/
def Body.ungrouped : Body → Body
  | .select q => .select q
  | .setOp left op right => .setOp left.ungrouped op right.ungrouped
  | .nested ⟨none, b⟩ => b.ungrouped
  | .nested ⟨some w, b⟩ => .nested ⟨some w, b.ungrouped⟩

/-- The statement with the parentheses taken off its body. -/
def Statement.ungrouped (s : Statement) : Statement := ⟨s.withClause, s.body.ungrouped⟩

/-- No set operation is the right operand of another one, unless it stands in parentheses. -/
def Body.Parenthesized : Body → Prop
  | .select _ => True
  | .setOp left _ right => left.Parenthesized ∧ right.Parenthesized ∧ right.isTerm = true
  | .nested ⟨_, b⟩ => b.Parenthesized

/-- The body is put together from well-formed selects, in any grouping, at most `n` levels deep. -/
def Body.Assembled (n : Nat) : Body → Prop
  | .select q => q.Wf True True n
  | .setOp left _ right => left.Assembled n ∧ right.Assembled n
  | .nested ⟨w, b⟩ => 0 < n ∧ withWf True True (n - 1) w ∧ b.Assembled (n - 1)

/-! ## The text does not show the grouping -/

section

variable {left b : Body} {op : SetOperator}

theorem Body.followedBy_of_isTerm (h : b.isTerm = true) :
    left.followedBy op b = .setOp left op b := by
  cases b with
  | setOp l op' r => exact absurd h Bool.false_ne_true
  | select q => rfl
  | nested s => rfl

theorem Body.fragments_followedBy {left : Body} {op : SetOperator} (depth : Nat) : (b : Body) →
    (left.followedBy op b).fragments depth = (Body.setOp left op b).fragments depth
  | .select q => rfl
  | .nested s => rfl
  | .setOp l op' r => by
    have ih : (left.followedBy op l).fragments depth = (Body.setOp left op l).fragments depth :=
      Body.fragments_followedBy depth l
    rw [Body.fragments] at ih
    rw [Body.followedBy, Body.fragments, ih, Body.fragments, Body.fragments]
    simp only [List.append_assoc]

/-- The fragments of a statement hold those of its body as they are. -/
theorem Statement.fragments_body {depth : Nat} {w : Option With} {b b' : Body}
    (h : b.fragments depth = b'.fragments depth) :
    (⟨w, b⟩ : Statement).fragments depth = (⟨w, b'⟩ : Statement).fragments depth := by
  cases w with
  | none => rw [Statement.fragments, Statement.fragments, h]
  | some w =>
    obtain ⟨recursive, ctes⟩ := w
    rw [Statement.fragments, Statement.fragments, h]

/-- **A body is printed like the one that groups to the left.** -/
theorem Body.fragments_regrouped (depth : Nat) : (b : Body) →
    b.regrouped.fragments depth = b.fragments depth
  | .select q => rfl
  | .setOp left op right => by
    rw [Body.regrouped, Body.fragments_followedBy, Body.fragments, Body.fragments,
      Body.fragments_regrouped depth left, Body.fragments_regrouped depth right]
  | .nested ⟨w, b⟩ => by
    rw [Body.regrouped, Body.fragments, Body.fragments,
      Statement.fragments_body (Body.fragments_regrouped (depth + 1) b)]

theorem Statement.format_regrouped (s : Statement) (config : DialectConfig) :
    s.regrouped.format config = s.format config := by
  obtain ⟨w, b⟩ := s
  rw [Statement.format, Statement.format, Statement.regrouped,
    Statement.fragments_body (Body.fragments_regrouped 0 b)]

end

/-! ## What groups to the left can be read -/

theorem Body.wf_followedBy {n : Nat} {left : Body} {op : SetOperator} (hleft : left.Wf True True n) :
    (b : Body) → b.Wf True True n → (left.followedBy op b).Wf True True n
  | .select q, h => by
    rw [Body.followedBy, Body.Wf]
    · exact ⟨hleft, h, rfl⟩
    · exact fun _ _ _ h => Body.noConfusion h
  | .nested s, h => by
    rw [Body.followedBy, Body.Wf]
    · exact ⟨hleft, h, rfl⟩
    · exact fun _ _ _ h => Body.noConfusion h
  | .setOp l op' r, h => by
    rw [Body.Wf] at h
    rw [Body.followedBy, Body.Wf]
    exact ⟨Body.wf_followedBy hleft l h.1, h.2⟩

/-- **A body put together in any grouping is well formed once it groups to the left.** -/
theorem Body.Assembled.wf {n : Nat} : (b : Body) → b.Assembled n → b.regrouped.Wf True True n
  | .select q, h => by
    rw [Body.Assembled] at h
    rwa [Body.regrouped, Body.Wf]
  | .setOp left op right, h => by
    rw [Body.Assembled] at h
    rw [Body.regrouped]
    exact Body.wf_followedBy (Body.Assembled.wf left h.1) right.regrouped
      (Body.Assembled.wf right h.2)
  | .nested ⟨w, b⟩, h => by
    rw [Body.Assembled] at h
    obtain ⟨hn, hw, hb⟩ := h
    rw [Body.regrouped, Body.Wf, Statement.Wf]
    exact ⟨fun _ => hn, hw, Body.Assembled.wf b hb⟩

/-! ## The groups that are lost

The operators of a right operand are counted. Where that operand was a set operation without
parentheses, only its last operand is left on the right, with fewer operators.
-/

/-- How many set operators a body has outside of statements with a WITH clause. -/
def Body.operators : Body → Nat
  | .select _ => 0
  | .setOp left _ right => left.operators + right.operators + 1
  | .nested ⟨none, b⟩ => b.operators
  | .nested ⟨some _, _⟩ => 0

theorem Body.operators_ungrouped : (b : Body) → b.ungrouped.operators = b.operators
  | .select q => rfl
  | .setOp left op right => by
    rw [Body.ungrouped, Body.operators, Body.operators, Body.operators_ungrouped left,
      Body.operators_ungrouped right]
  | .nested ⟨none, b⟩ => by
    rw [Body.ungrouped, Body.operators, Body.operators_ungrouped b]
  | .nested ⟨some w, b⟩ => rfl

theorem Body.operators_followedBy {left : Body} {op : SetOperator} : (b : Body) →
    (left.followedBy op b).operators = left.operators + b.operators + 1
  | .select q => rfl
  | .nested s => by
    rw [Body.followedBy_of_isTerm rfl, Body.operators]
  | .setOp l op' r => by
    rw [Body.followedBy, Body.operators, Body.operators, Body.operators_followedBy l]
    omega

theorem Body.operators_regrouped : (b : Body) → b.regrouped.operators = b.operators
  | .select q => rfl
  | .setOp left op right => by
    rw [Body.regrouped, Body.operators_followedBy, Body.operators, Body.operators_regrouped left,
      Body.operators_regrouped right]
  | .nested ⟨none, b⟩ => by
    rw [Body.regrouped, Body.operators, Body.operators, Body.operators_regrouped b]
  | .nested ⟨some w, b⟩ => rfl

/-- A body behind another one is a set operation of which the right operand is its own last one. -/
theorem Body.followedBy_eq_setOp (left : Body) (op : SetOperator) : (b : Body) →
    ∃ l op' r, left.followedBy op b = .setOp l op' r ∧ r.operators ≤ b.operators
      ∧ (b.isTerm = false → r.operators < b.operators)
  | .select q => ⟨left, op, .select q, rfl, Nat.le_refl _, fun h => Bool.noConfusion h⟩
  | .nested s => ⟨left, op, .nested s, rfl, Nat.le_refl _, fun h => Bool.noConfusion h⟩
  | .setOp l op' r => by
    refine ⟨left.followedBy op l, op', r, rfl, ?_, fun _ => ?_⟩
    · show r.operators ≤ l.operators + r.operators + 1
      omega
    · show r.operators < l.operators + r.operators + 1
      omega

theorem Body.isTerm_regrouped (b : Body) : b.regrouped.isTerm = b.isTerm := by
  cases b with
  | select q => rfl
  | nested s =>
    obtain ⟨w, b⟩ := s
    rfl
  | setOp left op right =>
    obtain ⟨l, op', r, h, -⟩ := Body.followedBy_eq_setOp left.regrouped op right.regrouped
    rw [Body.regrouped, h]
    rfl

theorem Body.Parenthesized.regrouped : (b : Body) → b.Parenthesized → b.regrouped = b
  | .select q, _ => rfl
  | .setOp left op right, h => by
    rw [Body.Parenthesized] at h
    obtain ⟨hleft, hright, hterm⟩ := h
    rw [Body.regrouped, Body.Parenthesized.regrouped left hleft,
      Body.Parenthesized.regrouped right hright, Body.followedBy_of_isTerm hterm]
  | .nested ⟨w, b⟩, h => by
    rw [Body.Parenthesized] at h
    rw [Body.regrouped, Body.Parenthesized.regrouped b h]

/-- A body that combines its selects as before, after it was grouped to the left, lost no group. -/
theorem Body.parenthesized_of_ungrouped : (b : Body) → b.regrouped.ungrouped = b.ungrouped →
    b.Parenthesized
  | .select q, _ => by
    rw [Body.Parenthesized]
    trivial
  | .nested ⟨none, b⟩, h => by
    rw [Body.regrouped, Body.ungrouped, Body.ungrouped] at h
    rw [Body.Parenthesized]
    exact Body.parenthesized_of_ungrouped b h
  | .nested ⟨some w, b⟩, h => by
    rw [Body.regrouped, Body.ungrouped, Body.ungrouped] at h
    rw [Body.Parenthesized]
    exact Body.parenthesized_of_ungrouped b (by injection h with h; injection h)
  | .setOp left op right, h => by
    rw [Body.regrouped, Body.ungrouped] at h
    rw [Body.Parenthesized]
    cases hterm : right.isTerm with
    | true =>
      rw [Body.followedBy_of_isTerm (by rw [Body.isTerm_regrouped, hterm]), Body.ungrouped] at h
      injection h with hleft _ hright
      exact ⟨Body.parenthesized_of_ungrouped left hleft,
        Body.parenthesized_of_ungrouped right hright, rfl⟩
    | false =>
      -- the operand on the right has fewer operators than before
      obtain ⟨l, op', r, hbehind, -, hfewer⟩ :=
        Body.followedBy_eq_setOp left.regrouped op right.regrouped
      rw [hbehind, Body.ungrouped] at h
      injection h with _ _ hright
      have hcount : r.operators = right.operators := by
        rw [← Body.operators_ungrouped r, hright, Body.operators_ungrouped]
      have hless := hfewer (by rw [Body.isTerm_regrouped, hterm])
      rw [Body.operators_regrouped] at hless
      omega

/-! ## The round trip of set operations -/

/-- **Printing keeps a group exactly where a right operand has parentheses.** A statement put
together from well-formed selects, in any grouping, is read back as the one that groups to the
left; parentheses aside it is the same statement exactly if it lost no group. -/
theorem Statement.parse_format_regrouped {s : Statement}
    (hwith : withWf True True (Parser.maxNesting - 1) s.withClause)
    (hbody : s.body.Assembled (Parser.maxNesting - 1)) {d : Dialect} (hd : d ∈ readableDialects)
    {config : DialectConfig} (hlike : config.WritesLike d) (hvalid : config.validate = .ok ()) :
    ∃ out, s.format config = .ok out ∧ parse out.sql = .ok s.regrouped
      ∧ (s.regrouped.ungrouped = s.ungrouped ↔ s.body.Parenthesized) := by
  have hconfig := DialectConfig.readable_of_writesLike hd hlike hvalid
  have hwf : s.regrouped.Wf True True (Parser.maxNesting - 1) := by
    rw [Statement.regrouped, Statement.Wf]
    exact ⟨hwith, Body.Assembled.wf s.body hbody⟩
  obtain ⟨out, hout, hlex⟩ := (Statement.spells hconfig 0 _ hwf).format hconfig
  have hparse : parse out.sql = .ok s.regrouped := by
    rcases parse_of_lex hwf hlex with h | ⟨h, -⟩
    · exact h
    · exact absurd trivial h
  have hformat : s.format config = .ok out := by
    rw [← Statement.format_regrouped]
    exact hout
  refine ⟨out, hformat, hparse, ?_⟩
  constructor
  · intro h
    rw [Statement.regrouped, Statement.ungrouped, Statement.ungrouped] at h
    injection h with _ hbody
    exact Body.parenthesized_of_ungrouped s.body hbody
  · intro h
    rw [Statement.regrouped, Body.Parenthesized.regrouped s.body h]
    rfl

/-- A select of one column of a table. -/
def oneColumn (n : String) : Body :=
  .select (.simple [.bare (.name n)] (some (.table [] "t" none)))

/-- One set operation on the right of another, both operands of the left one in parentheses. -/
def rightNested : Statement :=
  ⟨none, .setOp (.nested ⟨none, .setOp (oneColumn "a") .union (oneColumn "b")⟩) .except
    (.setOp (oneColumn "c") .except (.nested ⟨none, oneColumn "d"⟩))⟩

theorem assembled_oneColumn {n : String} (hn : n ≠ "") {m : Nat} (hm : 0 < m) :
    (oneColumn n).Assembled m := by
  simp [oneColumn, Select.simple, SelectItem.bare, Expr.name, Body.Assembled, Select.Wf, itemsWf,
    Expr.Wf, AreNames, IsAlias, fromWf, Source.Wf, joinsWf, NamesDiffer, optionWf, exprsWf, orderWf,
    hn, hm]

theorem parse_format_rightNested :
    withWf True True (Parser.maxNesting - 1) rightNested.withClause
      ∧ rightNested.body.Assembled (Parser.maxNesting - 1)
      ∧ ∃ out, rightNested.format spreadBrackets = .ok out
        ∧ parse out.sql = .ok ⟨none, .setOp
            (.setOp (.nested ⟨none, .setOp (oneColumn "a") .union (oneColumn "b")⟩) .except
              (oneColumn "c"))
            .except (.nested ⟨none, oneColumn "d"⟩)⟩
        ∧ rightNested.regrouped.ungrouped ≠ rightNested.ungrouped := by
  have hwith : withWf True True (Parser.maxNesting - 1) rightNested.withClause := by
    rw [rightNested, withWf]
    trivial
  have hbody : rightNested.body.Assembled (Parser.maxNesting - 1) := by
    have hcolumn : ∀ n ≠ "", ∀ m, 0 < m → (oneColumn n).Assembled m :=
      fun n hn m hm => assembled_oneColumn hn hm
    simp [rightNested, Body.Assembled, withWf, hcolumn, Parser.maxNesting]
  obtain ⟨out, hout, hparse, hgroups⟩ := Statement.parse_format_regrouped hwith hbody
    (show Dialect.sqlserver ∈ readableDialects by decide)
    (show spreadBrackets.WritesLike .sqlserver from ⟨rfl, rfl, rfl⟩) rfl
  refine ⟨hwith, hbody, out, hout, hparse, fun h => ?_⟩
  have hparens := hgroups.mp h
  simp [rightNested, Body.Parenthesized, Body.isTerm] at hparens

end Sql
