import Sql.Proofs.AnyDepth
import Sql.Proofs.SoundEdits

/-!
# Conditions given as text

A condition that is given as text joins WHERE as one conjunct, whatever it is made of: parentheses
go around a disjunction that was there, and around a conjunction or disjunction that is added. With
these the tree is one that a text has, so the text it is printed as is never grouped in another way.

* `Body.Narrows` says what adding a condition may change: WHERE of the selects that a body combines.
* `conjoin_wf`: a condition with one more conjunct is well formed at any depth.
* `Statement.addFilterText_conjunct`: the change that each of any number of conditions makes, and
  that what comes of it is printed and read as itself.
-/

namespace Sql

/-! ## One more conjunct -/

/-- A WHERE clause, when there is one, and the same with one more conjunct. Each side of the
conjunction is what it was, or that in one pair of parentheses. -/
inductive Conjunct (p : Expr) : Option Expr → Expr → Prop
  | only : Conjunct p none p
  | last {e left right : Expr} : left = e ∨ left = .paren e → right = p ∨ right = .paren p →
      Conjunct p (some e) (.binary left .and right)

/-- The second select is the first one with one more conjunct in WHERE. -/
def Select.Narrows (p : Expr) (q r : Select) : Prop :=
  ∃ e, Conjunct p q.filter e ∧ r = { q with filter := some e }

/-- The second body is the first one with one more conjunct in WHERE of every select that the set
operations combine, also within parentheses. -/
inductive Body.Narrows (p : Expr) : Body → Body → Prop
  | select {q r : Select} : q.Narrows p r → Narrows p (.select q) (.select r)
  | setOp {left right left' right' : Body} {op : SetOperator} :
      Narrows p left left' → Narrows p right right' →
        Narrows p (.setOp left op right) (.setOp left' op right')
  | nested {w : Option With} {b b' : Body} :
      Narrows p b b' → Narrows p (.nested ⟨w, b⟩) (.nested ⟨w, b'⟩)

theorem guardOr_eq (e : Expr) : guardOr e = e ∨ guardOr e = .paren e := by
  unfold guardOr
  split
  · exact .inr rfl
  · exact .inl rfl

theorem guardJunction_eq (e : Expr) : guardJunction e = e ∨ guardJunction e = .paren e := by
  unfold guardJunction
  split
  · exact .inr rfl
  · exact .inr rfl
  · exact .inl rfl

theorem conjunct_conjoin (existing : Option Expr) (p : Expr) :
    Conjunct p existing (conjoin existing p) := by
  cases existing with
  | none => exact .only
  | some e => exact .last (guardOr_eq e) (guardJunction_eq p)

theorem Body.narrows_updateLeaves (p : Expr) (b : Body) :
    b.Narrows p (b.updateLeaves fun q => q.addFilter p) := by
  fun_induction updateLeaves (fun q => q.addFilter p) b with
  | case1 q => exact .select ⟨_, conjunct_conjoin q.filter p, rfl⟩
  | case2 left op right ihl ihr => exact .setOp ihl ihr
  | case3 w b ih => exact .nested ih

/-! ## Conjunctions that a text has -/

/-- Only a disjunction binds less tightly than a conjunction. -/
theorem strength_guardOr (e : Expr) : BinaryOp.and.strength ≤ (guardOr e).strength := by
  cases e with
  | binary l op r => cases op <;> exact Nat.le_of_ble_eq_true rfl
  | unary op e => cases op <;> exact Nat.le_of_ble_eq_true rfl
  | cast e type short => cases short <;> exact Nat.le_of_ble_eq_true rfl
  | _ => exact Nat.le_of_ble_eq_true rfl

/-- Nothing but a disjunction and another conjunction needs parentheses on the right of one. -/
theorem strength_guardJunction (e : Expr) : BinaryOp.and.strength < (guardJunction e).strength := by
  cases e with
  | binary l op r => cases op <;> exact Nat.le_of_ble_eq_true rfl
  | unary op e => cases op <;> exact Nat.le_of_ble_eq_true rfl
  | cast e type short => cases short <;> exact Nat.le_of_ble_eq_true rfl
  | _ => exact Nat.le_of_ble_eq_true rfl

/-- Parentheses do no harm at any depth. -/
theorem wf_of_eq_or_paren {e guarded : Expr} (hguarded : guarded = e ∨ guarded = .paren e)
    (h : ∀ n, e.Wf True False n) (n : Nat) : guarded.Wf True False n := by
  rcases hguarded with rfl | rfl
  · exact h n
  · rw [Expr.Wf]
    exact ⟨False.elim, h _⟩

/-- **A condition with one more conjunct is one that a text has.** -/
theorem conjoin_wf {existing : Option Expr} {p : Expr}
    (hexisting : ∀ e ∈ existing, ∀ n, e.Wf True False n) (hp : ∀ n, p.Wf True False n) (n : Nat) :
    (conjoin existing p).Wf True False n := by
  cases existing with
  | none => exact hp n
  | some e =>
    rw [conjoin, Expr.and, Expr.Wf]
    exact ⟨wf_of_eq_or_paren (guardOr_eq e) (hexisting e rfl) n,
      wf_of_eq_or_paren (guardJunction_eq p) hp n, strength_guardOr e, strength_guardJunction p⟩

theorem Select.addFilter_wf {q : Select} (hq : ∀ n, q.Wf True False n) {p : Expr}
    (hp : ∀ n, p.Wf True False n) (n : Nat) : (q.addFilter p).Wf True False n := by
  obtain ⟨distinct, items, source, joins, filter, groupBy, having, orderBy, limit, offset⟩ := q
  simp only [Select.Wf] at hq
  -- a condition stands one level further in than its select
  have hfilter : ∀ e ∈ filter, ∀ n, e.Wf True False n := fun e he n =>
    (optionWf_iff.mp (hq (n + 1)).2.2.1 e he).2
  obtain ⟨hitems, hfrom, -, hrest⟩ := hq n
  rw [addFilter, Select.Wf, optionWf]
  exact ⟨hitems, hfrom, ⟨False.elim, conjoin_wf hfilter hp _⟩, hrest⟩

/-- Changing the selects that a body combines keeps it well formed if it keeps them so. -/
theorem Body.updateLeaves_wf {f : Select → Select}
    (hf : ∀ q : Select, (∀ n, q.Wf True False n) → ∀ n, (f q).Wf True False n) {b : Body}
    (hb : ∀ n, b.Wf True False n) (n : Nat) : (b.updateLeaves f).Wf True False n := by
  fun_induction updateLeaves f b generalizing n with
  | case1 q =>
    simp only [Body.Wf] at hb ⊢
    exact hf q hb n
  | case2 left op right ihl ihr =>
    -- the right operand is still no set operation itself
    simp only [Body.Wf] at hb ⊢
    exact ⟨ihl (fun n => (hb n).1) n, ihr (fun n => (hb n).2.1) n,
      (Body.isTerm_updateLeaves right).trans (hb n).2.2⟩
  | case3 w b ih =>
    simp only [Body.Wf, Statement.Wf] at hb ⊢
    exact ⟨False.elim, (hb n).2.1, ih (fun n => (hb (n + 1)).2.2) _⟩

theorem Statement.addFilter_wf {s : Statement} (hs : ∀ n, s.Wf True False n) {p : Expr}
    (hp : ∀ n, p.Wf True False n) (n : Nat) : (s.addFilter p).Wf True False n := by
  obtain ⟨w, b⟩ := s
  simp only [Statement.Wf] at hs
  rw [addFilter, Statement.Wf]
  exact ⟨(hs n).1, Body.updateLeaves_wf (fun q hq => Select.addFilter_wf hq hp)
    (fun n => (hs n).2) n⟩

/-! ## Any number of conditions -/

/-- The second statement is the first one after some conditions were added to it, each given as a
text. -/
inductive Statement.Narrowed (s : Statement) : Statement → Prop
  | refl : Narrowed s s
  | add {t u : Statement} {raw : String} {p : Expr} : Narrowed s t →
      parseExpression raw = .ok p → (∀ x ∈ p.nodesInOrder, x.Named) →
        t.addFilterText raw = .ok u → Narrowed s u

theorem Statement.addFilterText_eq {s : Statement} {raw : String} {p : Expr}
    (h : parseExpression raw = .ok p) : s.addFilterText raw = .ok (s.addFilter p) := by
  rw [addFilterText, h]
  rfl

theorem Statement.Narrowed.wf {s t : Statement} (hs : ∀ n, s.Wf True False n)
    (h : s.Narrowed t) : ∀ n, t.Wf True False n := by
  induction h with
  | refl => exact hs
  | add _ hraw hnamed hadd ih =>
    obtain rfl := Except.ok.inj ((addFilterText_eq hraw).symm.trans hadd)
    exact Statement.addFilter_wf ih (Expr.wf_of_read hraw hnamed)

/-- **A condition given as text stays one conjunct.** However many were added before, each is added
to WHERE of the selects that the statement combines, as the right operand of a conjunction with what
is there, and nothing else changes. The statement is then printed and read as itself, so no text
regroups the conjunction. -/
theorem Statement.addFilterText_conjunct {text raw : String} {s t : Statement} {p : Expr}
    (hparse : parse text = .ok s) (hnamed : ∀ x ∈ s.nodesInOrder, x.Named) (ht : s.Narrowed t)
    (hraw : parseExpression raw = .ok p) (hp : ∀ x ∈ p.nodesInOrder, x.Named) {d : Dialect}
    (hd : d ∈ readableDialects) :
    ∃ u, t.addFilterText raw = .ok u ∧ u.withClause = t.withClause ∧ t.body.Narrows p u.body
      ∧ u.ReadsAsItself d.config := by
  have hwf : ∀ n, t.Wf True False n := ht.wf (Statement.wf_of_read hparse hnamed)
  refine ⟨t.addFilter p, addFilterText_eq hraw, rfl, Body.narrows_updateLeaves p t.body, ?_⟩
  exact Statement.readsAsItself (Statement.addFilter_wf hwf (Expr.wf_of_read hraw hp)) hd

/-- Two conditions one after the other, of which the second is a disjunction, for a select that has
a disjunction and one that has no condition. The comment behind the first one ends with its text. -/
theorem addFilterText_conjunct_twice : ∃ s p₁ t p u out,
    parse "select a from t where x or y union (select b)" = .ok s
      ∧ (∀ x ∈ s.nodesInOrder, x.Named) ∧ parseExpression "not z -- or" = .ok p₁
      ∧ s.addFilterText "not z -- or" = .ok t ∧ s.Narrowed t
      ∧ parseExpression "p or q" = .ok p ∧ (∀ x ∈ p.nodesInOrder, x.Named)
      ∧ Dialect.generic ∈ readableDialects
      ∧ t.addFilterText "p or q" = .ok u ∧ u.withClause = t.withClause
      ∧ t.body.Narrows p u.body ∧ u.ReadsAsItself Dialect.generic.config
      ∧ u.format Dialect.generic.config = .ok out
      ∧ out.sql = "SELECT a FROM t WHERE (x OR y) AND NOT z AND (p OR q) "
        ++ "UNION (SELECT b WHERE NOT z AND (p OR q))" := by
  obtain ⟨s, hs, h⟩ := exists_ok_of_any
    (show (parse "select a from t where x or y union (select b)").toOption.any
      (fun s => decide (∀ x ∈ s.nodesInOrder, x.Named)
        && (s.addFilterText "not z -- or").toOption.any
        fun t => (t.addFilterText "p or q").toOption.any
        fun u => (u.format Dialect.generic.config).toOption.any fun out => out.sql
          == "SELECT a FROM t WHERE (x OR y) AND NOT z AND (p OR q) "
            ++ "UNION (SELECT b WHERE NOT z AND (p OR q))")
      = true by decide +kernel)
  rw [Bool.and_eq_true, decide_eq_true_eq] at h
  obtain ⟨hnamed, h⟩ := h
  obtain ⟨t, ht, h⟩ := exists_ok_of_any h
  obtain ⟨u, hu, h⟩ := exists_ok_of_any h
  obtain ⟨out, hout, hsql⟩ := exists_ok_of_any h
  obtain ⟨p₁, hp₁, hnamed₁⟩ := exists_ok_of_any
    (show (parseExpression "not z -- or").toOption.any
      (fun p => decide (∀ x ∈ p.nodesInOrder, x.Named)) = true by decide +kernel)
  obtain ⟨p, hp, hnamed₂⟩ := exists_ok_of_any
    (show (parseExpression "p or q").toOption.any
      (fun p => decide (∀ x ∈ p.nodesInOrder, x.Named)) = true by decide +kernel)
  have hnarrowed : s.Narrowed t := .add .refl hp₁ (of_decide_eq_true hnamed₁) ht
  have hd : Dialect.generic ∈ readableDialects := by decide
  obtain ⟨u', hu', hwith, hbody, hread⟩ :=
    Statement.addFilterText_conjunct hs hnamed hnarrowed hp (of_decide_eq_true hnamed₂) hd
  obtain rfl := Except.ok.inj (hu'.symm.trans hu)
  exact ⟨s, p₁, t, p, u', out, hs, hnamed, hp₁, ht, hnarrowed, hp, of_decide_eq_true hnamed₂, hd,
    hu, hwith, hbody, hread, hout, eq_of_beq hsql⟩

end Sql
