import Sql.Format
import Sql.Proofs.PrintedText
import Sql.Proofs.ReadTree
import Sql.Proofs.Results
import Sql.Proofs.YieldStatement

/-!
# What is read, printed and read again

A statement that was read is well formed, save for two things that no text can give back: a
parameter without a name, and a call of a function whose name is a keyword. Without these
(`Expr.Named`), its text in every dialect that the reader knows is read as the same statement.
-/

namespace Sql

/-! ## Trees that a text can give back -/

/-- A parameter has a name, and a function can be called by its own. -/
def Expr.Named : Expr → Prop
  | .param p => p.name ≠ none
  | .call f _ _ _ _ => CanBeCalled (splitName f)
  | _ => True

instance (parts : List String) : Decidable (CanBeCalled parts) :=
  decidable_of_iff ((∀ part ∈ parts, isStopWord part = false)
      ∨ ∃ part ∈ parts, parts = [part] ∧ nameIn part ["left", "right"] = true)
    (or_congr_right ⟨fun ⟨part, _, h⟩ => ⟨part, h⟩, fun ⟨part, h⟩ => ⟨part, by simp [h.1], h⟩⟩)

instance : (e : Expr) → Decidable e.Named
  | .param p => inferInstanceAs (Decidable (p.name ≠ none))
  | .call f _ _ _ _ => inferInstanceAs (Decidable (CanBeCalled (splitName f)))
  | .column _ | .star _ | .literal _ | .binary .. | .unary .. | .isNull .. | .between ..
  | .inList .. | .inQuery .. | .hasRows _ | .subquery _ | .case .. | .cast .. | .paren _ =>
    inferInstanceAs (Decidable True)

section

variable {P : Expr → Prop}

/-- What holds of all expressions of an expression, of those next to it. -/
theorem Expr.forall_nodesInOrder {e : Expr} :
    (∀ x ∈ e.nodesInOrder, P x) ↔ P e ∧ (∀ c ∈ e.children, ∀ x ∈ c.nodesInOrder, P x)
      ∧ ∀ s ∈ e.statement?, ∀ x ∈ s.nodesInOrder, P x := by
  rw [Expr.nodesInOrder_eq, List.forall_mem_cons, List.forall_mem_append]
  simp only [List.mem_flatMap, Option.mem_toList, forall_exists_index, and_imp]
  constructor
  · rintro ⟨he, hchildren, hs⟩
    exact ⟨he, fun c hc x hx => hchildren x c hc hx, fun s hs' x hx => hs x s hs' hx⟩
  · rintro ⟨he, hchildren, hs⟩
    exact ⟨he, fun x c hc hx => hchildren c hc x hx, fun x s hs' hx => hs s hs' x hx⟩

theorem Select.forall_nodesInOrder {q : Select} :
    (∀ x ∈ (Body.select q).nodesInOrder, P x)
      ↔ (∀ e, .inl e ∈ q.parts → ∀ x ∈ e.nodesInOrder, P x)
        ∧ ∀ t, .inr t ∈ q.parts → ∀ x ∈ Source.nodesInOrder t, P x := by
  rw [Body.nodesInOrder_select]
  simp only [List.mem_flatMap, forall_exists_index, and_imp]
  constructor
  · exact fun h => ⟨fun e he x hx => h x _ he hx, fun t ht x hx => h x _ ht hx⟩
  · rintro ⟨hexprs, hsources⟩ x (e | t) hpart hx
    · exact hexprs e hpart x hx
    · exact hsources t hpart x hx

end

section

variable {bounded : Prop}

mutual

/-- A well-formed tree of which all nodes are named is one in the strict sense. -/
theorem Expr.wf_of_named {n : Nat} : (e : Expr) → e.Wf False bounded n →
    (∀ x ∈ e.nodesInOrder, x.Named) → e.Wf True bounded n
  | .column c, h, _ => by
    rw [Expr.Wf] at h ⊢
    exact h
  | .star q, h, _ => by
    rw [Expr.Wf] at h ⊢
    exact h
  | .literal l, h, _ => by
    rw [Expr.Wf] at h ⊢
    exact h
  | .param p, h, hnamed => by
    rw [Expr.forall_nodesInOrder] at hnamed
    rw [Expr.Wf] at h ⊢
    exact ⟨h.1, h.2.1, fun _ => hnamed.1⟩
  | .call f args distinct filter window, h, hnamed => by
    rw [Expr.forall_nodesInOrder] at hnamed
    obtain ⟨hcall, hchildren, -⟩ := hnamed
    rw [Expr.children, List.forall_mem_append, List.forall_mem_append] at hchildren
    rw [Expr.Wf] at h ⊢
    obtain ⟨⟨parts, hne, hparts, hdotted, -⟩, hdistinct, hargs, hfilter, hwindow⟩ := h
    -- the name is cut at its dots into the parts that it was written with
    subst hdotted
    rw [Expr.Named, splitName_dotted hne hparts] at hcall
    exact ⟨⟨parts, hne, hparts, rfl, fun _ => hcall⟩, hdistinct,
      exprs_wf_of_named args hargs hchildren.1.1,
      option_wf_of_named filter hfilter fun e he => hchildren.1.2 e (Option.mem_toList.mpr he),
      over_wf_of_named window hwindow hchildren.2⟩
  | .binary l op r, h, hnamed => by
    rw [Expr.forall_nodesInOrder] at hnamed
    obtain ⟨-, hchildren, -⟩ := hnamed
    rw [Expr.Wf] at h ⊢
    exact ⟨Expr.wf_of_named l h.1 (hchildren l (by simp [Expr.children])),
      Expr.wf_of_named r h.2.1 (hchildren r (by simp [Expr.children])), h.2.2⟩
  | .unary op e, h, hnamed => by
    rw [Expr.forall_nodesInOrder] at hnamed
    rw [Expr.Wf] at h ⊢
    exact ⟨h.1, Expr.wf_of_named e h.2.1 (hnamed.2.1 e (by simp [Expr.children])), h.2.2⟩
  | .isNull e negated, h, hnamed => by
    rw [Expr.forall_nodesInOrder] at hnamed
    rw [Expr.Wf] at h ⊢
    exact ⟨Expr.wf_of_named e h.1 (hnamed.2.1 e (by simp [Expr.children])), h.2⟩
  | .between e low high negated, h, hnamed => by
    rw [Expr.forall_nodesInOrder] at hnamed
    obtain ⟨-, hchildren, -⟩ := hnamed
    rw [Expr.Wf] at h ⊢
    exact ⟨⟨Expr.wf_of_named e h.1.1 (hchildren e (by simp [Expr.children])), h.1.2⟩,
      ⟨Expr.wf_of_named low h.2.1.1 (hchildren low (by simp [Expr.children])), h.2.1.2⟩,
      Expr.wf_of_named high h.2.2.1 (hchildren high (by simp [Expr.children])), h.2.2.2⟩
  | .inList e items negated, h, hnamed => by
    rw [Expr.forall_nodesInOrder] at hnamed
    obtain ⟨-, hchildren, -⟩ := hnamed
    rw [Expr.children, List.forall_mem_cons] at hchildren
    rw [Expr.Wf] at h ⊢
    exact ⟨⟨Expr.wf_of_named e h.1.1 hchildren.1, h.1.2⟩, h.2.1,
      exprs_wf_of_named items h.2.2 hchildren.2⟩
  | .inQuery e s negated, h, hnamed => by
    rw [Expr.forall_nodesInOrder] at hnamed
    rw [Expr.Wf] at h ⊢
    exact ⟨⟨Expr.wf_of_named e h.1.1 (hnamed.2.1 e (by simp [Expr.children])), h.1.2⟩, h.2.1,
      Statement.wf_of_named s h.2.2.1 (hnamed.2.2 s rfl), h.2.2.2⟩
  | .hasRows s, h, hnamed => by
    rw [Expr.forall_nodesInOrder] at hnamed
    rw [Expr.Wf] at h ⊢
    exact ⟨h.1, Statement.wf_of_named s h.2 (hnamed.2.2 s rfl)⟩
  | .subquery s, h, hnamed => by
    rw [Expr.forall_nodesInOrder] at hnamed
    rw [Expr.Wf] at h ⊢
    exact ⟨h.1, Statement.wf_of_named s h.2.1 (hnamed.2.2 s rfl), h.2.2⟩
  | .case scrutinee branches fallback, h, hnamed => by
    rw [Expr.forall_nodesInOrder] at hnamed
    obtain ⟨-, hchildren, -⟩ := hnamed
    rw [Expr.children, List.forall_mem_append, List.forall_mem_append, List.forall_mem_flatMap]
      at hchildren
    rw [Expr.Wf] at h ⊢
    exact ⟨option_wf_of_named scrutinee h.1 fun e he =>
        hchildren.1.1 e (Option.mem_toList.mpr he), h.2.1,
      branches_wf_of_named branches h.2.2.1 hchildren.1.2,
      option_wf_of_named fallback h.2.2.2 fun e he => hchildren.2 e (Option.mem_toList.mpr he)⟩
  | .cast e type true, h, hnamed => by
    rw [Expr.forall_nodesInOrder] at hnamed
    rw [Expr.Wf] at h ⊢
    exact ⟨⟨Expr.wf_of_named e h.1.1 (hnamed.2.1 e (by simp [Expr.children])), h.1.2⟩, h.2⟩
  | .cast e type false, h, hnamed => by
    rw [Expr.forall_nodesInOrder] at hnamed
    rw [Expr.Wf] at h ⊢
    exact ⟨⟨h.1.1, Expr.wf_of_named e h.1.2 (hnamed.2.1 e (by simp [Expr.children]))⟩, h.2⟩
  | .paren e, h, hnamed => by
    rw [Expr.forall_nodesInOrder] at hnamed
    rw [Expr.Wf] at h ⊢
    exact ⟨h.1, Expr.wf_of_named e h.2 (hnamed.2.1 e (by simp [Expr.children]))⟩

theorem exprs_wf_of_named {n : Nat} : (es : List Expr) → exprsWf False bounded n es →
    (∀ e ∈ es, ∀ x ∈ e.nodesInOrder, x.Named) → exprsWf True bounded n es
  | [], _, _ => by
    rw [exprsWf]
    trivial
  | e :: es, h, hnamed => by
    rw [exprsWf] at h ⊢
    rw [List.forall_mem_cons] at hnamed
    exact ⟨⟨h.1.1, Expr.wf_of_named e h.1.2 hnamed.1⟩, exprs_wf_of_named es h.2 hnamed.2⟩

theorem option_wf_of_named {n : Nat} : (o : Option Expr) → optionWf False bounded n o →
    (∀ e ∈ o, ∀ x ∈ e.nodesInOrder, x.Named) → optionWf True bounded n o
  | some e, h, hnamed => by
    rw [optionWf] at h ⊢
    exact ⟨h.1, Expr.wf_of_named e h.2 (hnamed e rfl)⟩
  | none, _, _ => by
    rw [optionWf]
    trivial

theorem branches_wf_of_named {n : Nat} : (bs : List Branch) → branchesWf False bounded n bs →
    (∀ b ∈ bs, ∀ e ∈ [b.condition, b.result], ∀ x ∈ e.nodesInOrder, x.Named) →
    branchesWf True bounded n bs
  | [], _, _ => by
    rw [branchesWf]
    trivial
  | ⟨c, r⟩ :: bs, h, hnamed => by
    rw [branchesWf] at h ⊢
    rw [List.forall_mem_cons] at hnamed
    exact ⟨⟨h.1.1, Expr.wf_of_named c h.1.2.1 (hnamed.1 c (by simp)),
      Expr.wf_of_named r h.1.2.2 (hnamed.1 r (by simp))⟩, branches_wf_of_named bs h.2 hnamed.2⟩

theorem order_wf_of_named {n : Nat} : (os : List OrderItem) → orderWf False bounded n os →
    (∀ o ∈ os, ∀ x ∈ o.expr.nodesInOrder, x.Named) → orderWf True bounded n os
  | [], _, _ => by
    rw [orderWf]
    trivial
  | ⟨e, d, nulls⟩ :: os, h, hnamed => by
    rw [orderWf] at h ⊢
    rw [List.forall_mem_cons] at hnamed
    exact ⟨⟨h.1.1, Expr.wf_of_named e h.1.2 hnamed.1⟩, order_wf_of_named os h.2 hnamed.2⟩

theorem over_wf_of_named {n : Nat} : (w : Option Window) → overWf False bounded n w →
    (∀ e ∈ w.toList.flatMap Window.exprs, ∀ x ∈ e.nodesInOrder, x.Named) → overWf True bounded n w
  | some ⟨partitionBy, orderBy⟩, h, hnamed => by
    rw [overWf] at h ⊢
    simp only [Option.toList_some, List.flatMap_singleton, Window.exprs, List.forall_mem_append,
      List.forall_mem_map] at hnamed
    exact ⟨exprs_wf_of_named partitionBy h.1 hnamed.1, order_wf_of_named orderBy h.2 hnamed.2⟩
  | none, _, _ => by
    rw [overWf]
    trivial

theorem items_wf_of_named {n : Nat} : (is : List SelectItem) → itemsWf False bounded n is →
    (∀ i ∈ is, ∀ x ∈ i.expr.nodesInOrder, x.Named) → itemsWf True bounded n is
  | [], _, _ => by
    rw [itemsWf]
    trivial
  | ⟨e, a⟩ :: is, h, hnamed => by
    rw [itemsWf] at h ⊢
    rw [List.forall_mem_cons] at hnamed
    exact ⟨⟨⟨h.1.1.1, Expr.wf_of_named e h.1.1.2 hnamed.1⟩, h.1.2⟩,
      items_wf_of_named is h.2 hnamed.2⟩

theorem Source.wf_of_named {n : Nat} : (t : Source) → t.Wf False bounded n →
    (∀ x ∈ t.nodesInOrder, x.Named) → t.Wf True bounded n
  | .table path name a, h, _ => by
    rw [Source.Wf] at h ⊢
    exact h
  | .subquery s a, h, hnamed => by
    rw [Source.Wf] at h ⊢
    exact ⟨⟨h.1.1, Statement.wf_of_named s h.1.2 hnamed⟩, h.2⟩

theorem from_wf_of_named {n : Nat} : (t : Option Source) → fromWf False bounded n t →
    (∀ u ∈ t, ∀ x ∈ Source.nodesInOrder u, x.Named) → fromWf True bounded n t
  | some t, h, hnamed => by
    rw [fromWf] at h ⊢
    exact Source.wf_of_named t h (hnamed t rfl)
  | none, _, _ => by
    rw [fromWf]
    trivial

theorem JoinConstraint.wf_of_named {n : Nat} : (c : JoinConstraint) → c.Wf False bounded n →
    (∀ e ∈ c.condition?, ∀ x ∈ e.nodesInOrder, x.Named) → c.Wf True bounded n
  | .on e, h, hnamed => by
    rw [JoinConstraint.Wf] at h ⊢
    exact ⟨h.1, Expr.wf_of_named e h.2 (hnamed e rfl)⟩
  | .shared columns, h, _ => by
    rw [JoinConstraint.Wf] at h ⊢
    exact h
  | .none, _, _ => by
    rw [JoinConstraint.Wf]
    trivial

theorem joins_wf_of_named {n : Nat} : (js : List Join) → joinsWf False bounded n js →
    (∀ j ∈ js, (∀ x ∈ Source.nodesInOrder j.right, x.Named)
      ∧ ∀ e ∈ j.constraint.condition?, ∀ x ∈ e.nodesInOrder, x.Named) → joinsWf True bounded n js
  | [], _, _ => by
    rw [joinsWf]
    trivial
  | ⟨kind, right, constraint⟩ :: js, h, hnamed => by
    rw [joinsWf] at h ⊢
    rw [List.forall_mem_cons] at hnamed
    exact ⟨⟨Source.wf_of_named right h.1.1 hnamed.1.1,
      JoinConstraint.wf_of_named constraint h.1.2.1 hnamed.1.2, h.1.2.2⟩,
      joins_wf_of_named js h.2 hnamed.2⟩

theorem Select.wf_of_named {n : Nat} : (q : Select) → q.Wf False bounded n →
    (∀ x ∈ (Body.select q).nodesInOrder, x.Named) → q.Wf True bounded n
  | ⟨distinct, items, source, joins, filter, groupBy, having, orderBy, limit, offset⟩, h, hnamed => by
    rw [Select.forall_nodesInOrder] at hnamed
    obtain ⟨hexprs, hsources⟩ := hnamed
    simp only [Select.parts, Select.tailExprs, List.mem_append, List.mem_map, List.mem_flatMap,
      List.mem_cons, Option.mem_toList, Sum.inl.injEq, Sum.inr.injEq, reduceCtorEq, and_false,
      exists_false, exists_eq_right, false_or, or_false] at hexprs hsources
    rw [Select.Wf] at h ⊢
    obtain ⟨⟨hne, hitems⟩, ⟨hfrom, hjoins, hfirst, hdiffer⟩, hfilter, hgroupBy, hhaving, horderBy,
      hlimit, hoffset⟩ := h
    refine ⟨⟨hne, items_wf_of_named items hitems fun i hi => ?_⟩,
      ⟨from_wf_of_named source hfrom fun t ht => ?_, joins_wf_of_named joins hjoins fun j hj => ?_,
        hfirst, hdiffer⟩,
      option_wf_of_named filter hfilter fun e he => ?_,
      exprs_wf_of_named groupBy hgroupBy fun e he => ?_,
      option_wf_of_named having hhaving fun e he => ?_,
      order_wf_of_named orderBy horderBy fun o ho => ?_,
      option_wf_of_named limit hlimit fun e he => ?_,
      option_wf_of_named offset hoffset fun e he => ?_⟩
    · exact hexprs _ (Or.inl (Or.inl ⟨i, hi, rfl⟩))
    · exact hsources _ (Or.inl ht)
    · exact ⟨hsources _ (Or.inr ⟨j, hj, rfl⟩), fun e he => hexprs _ (Or.inl (Or.inr ⟨j, hj, he⟩))⟩
    · exact hexprs e (by simp [Option.mem_def.mp he])
    · exact hexprs e (by simp [he])
    · exact hexprs e (by simp [Option.mem_def.mp he])
    · exact hexprs _ (Or.inr (Or.inl (Or.inl (Or.inr ⟨o, ho, rfl⟩))))
    · exact hexprs e (by simp [Option.mem_def.mp he])
    · exact hexprs e (by simp [Option.mem_def.mp he])

theorem ctes_wf_of_named {n : Nat} : (cs : List Cte) → ctesWf False bounded n cs →
    (∀ c ∈ cs, ∀ x ∈ c.statement.nodesInOrder, x.Named) → ctesWf True bounded n cs
  | [], _, _ => by
    rw [ctesWf]
    trivial
  | ⟨name, columns, s⟩ :: cs, h, hnamed => by
    rw [ctesWf] at h ⊢
    rw [List.forall_mem_cons] at hnamed
    exact ⟨⟨h.1.1, h.1.2.1, h.1.2.2.1, Statement.wf_of_named s h.1.2.2.2 hnamed.1⟩,
      ctes_wf_of_named cs h.2 hnamed.2⟩

theorem with_wf_of_named {n : Nat} : (w : Option With) → withWf False bounded n w →
    (∀ v ∈ w, ∀ c ∈ v.ctes, ∀ x ∈ c.statement.nodesInOrder, x.Named) → withWf True bounded n w
  | some ⟨recursive, ctes⟩, h, hnamed => by
    rw [withWf] at h ⊢
    exact ⟨h.1, ctes_wf_of_named ctes h.2.1 (hnamed _ rfl), h.2.2⟩
  | none, _, _ => by
    rw [withWf]
    trivial

theorem Body.wf_of_named {n : Nat} : (b : Body) → b.Wf False bounded n →
    (∀ x ∈ b.nodesInOrder, x.Named) → b.Wf True bounded n
  | .select q, h, hnamed => by
    rw [Body.Wf] at h ⊢
    exact Select.wf_of_named q h hnamed
  | .setOp l op r, h, hnamed => by
    rw [Body.nodesInOrder_setOp, List.forall_mem_append] at hnamed
    rw [Body.Wf] at h ⊢
    exact ⟨Body.wf_of_named l h.1 hnamed.1, Body.wf_of_named r h.2.1 hnamed.2, h.2.2⟩
  | .nested s, h, hnamed => by
    rw [Body.nodesInOrder_nested] at hnamed
    rw [Body.Wf] at h ⊢
    exact ⟨h.1, Statement.wf_of_named s h.2 hnamed⟩

theorem Statement.wf_of_named {n : Nat} : (s : Statement) → s.Wf False bounded n →
    (∀ x ∈ s.nodesInOrder, x.Named) → s.Wf True bounded n
  | ⟨w, b⟩, h, hnamed => by
    rw [Statement.nodesInOrder_eq, List.forall_mem_append, List.forall_mem_flatMap] at hnamed
    rw [Statement.Wf] at h ⊢
    refine ⟨with_wf_of_named w h.1 ?_, Body.wf_of_named b h.2 hnamed.2⟩
    rintro v rfl c hc
    exact hnamed.1 c hc

end

end

/-! ## The round trip -/

/-- The dialect quotes names and writes placeholders like one of the dialects with a name that the
reader knows. The case of its keywords and its layout are free. -/
def DialectConfig.WritesLike (c : DialectConfig) (d : Dialect) : Prop :=
  c.identifierQuote = d.config.identifierQuote ∧ c.parameterSymbol = d.config.parameterSymbol
    ∧ c.parameterStyle = d.config.parameterStyle

/-- The dialects with a name whose quotes and placeholders the reader knows. -/
def readableDialects : List Dialect := [.generic, .postgres, .sqlite, .sqlserver]

theorem DialectConfig.readable_of_writesLike {c : DialectConfig} {d : Dialect}
    (hd : d ∈ readableDialects) (hlike : c.WritesLike d) (hvalid : c.validate = .ok ()) :
    c.Readable := by
  obtain ⟨hquotes, hsymbol, hstyle⟩ := hlike
  have hfault : c.fault? = none := by
    unfold validate at hvalid
    split at hvalid
    · simp at hvalid
    · assumption
  rw [readableDialects, List.mem_cons, List.mem_cons, List.mem_cons, List.mem_singleton] at hd
  rcases hd with rfl | rfl | rfl | rfl
  · exact ⟨Or.inl hquotes, Or.inl hsymbol, hstyle, hfault⟩
  · exact ⟨Or.inr (Or.inl hquotes), Or.inl hsymbol, hstyle, hfault⟩
  · exact ⟨Or.inr (Or.inl hquotes), Or.inl hsymbol, hstyle, hfault⟩
  · exact ⟨Or.inr (Or.inr hquotes), Or.inr hsymbol, hstyle, hfault⟩

/-- **A statement that was read is printed, and its text is read as the same statement.** -/
theorem Statement.parse_format {text : String} {s : Statement} (hparse : parse text = .ok s)
    (hnamed : ∀ e ∈ s.nodesInOrder, e.Named) {d : Dialect} (hd : d ∈ readableDialects)
    {config : DialectConfig} (hlike : config.WritesLike d) (hvalid : config.validate = .ok ()) :
    ∃ out, s.format config = .ok out ∧ parse out.sql = .ok s := by
  have hconfig := DialectConfig.readable_of_writesLike hd hlike hvalid
  have hwf : s.Wf True True (Parser.maxNesting - 1) :=
    Statement.wf_of_named s (wf_of_parse hparse) hnamed
  obtain ⟨out, hout, hlex⟩ := (Statement.spells hconfig 0 s hwf).format hconfig
  refine ⟨out, hout, ?_⟩
  rcases parse_of_lex hwf hlex with h | ⟨h, -⟩
  · exact h
  · exact absurd trivial h

/-- A dialect that writes names and placeholders like SQL Server and spreads a statement over
several lines. -/
def spreadBrackets : DialectConfig :=
  { Dialect.sqlserver.config with
    keywordCase := .upper, newline := "\n", indent := "  ", commaBreak := .before
    andBreak := .after }

/-- A text with a join, a cast, two signs, a subquery and a set operation. -/
def mixedText : String :=
  "select f(distinct a) n from t join u using (i) where not - -1 < b::int " ++
  "and [c] in (select :x) union (select 2 limit 1)"

theorem parse_mixedText :
    ∃ s, parse mixedText = .ok s ∧ ∀ e ∈ s.nodesInOrder, e.Named := by
  have hread : (parse mixedText).toOption.any
      (fun s => decide (∀ e ∈ s.nodesInOrder, e.Named)) = true := by
    decide +kernel
  obtain ⟨s, hparse, hnamed⟩ := exists_ok_of_any hread
  exact ⟨s, hparse, of_decide_eq_true hnamed⟩

theorem parse_format_mixedText :
    ∃ s, parse mixedText = .ok s ∧ (∀ e ∈ s.nodesInOrder, e.Named)
      ∧ ∃ out, s.format spreadBrackets = .ok out ∧ parse out.sql = .ok s := by
  obtain ⟨s, hparse, hnamed⟩ := parse_mixedText
  exact ⟨s, hparse, hnamed, Statement.parse_format hparse hnamed
    (show Dialect.sqlserver ∈ readableDialects by decide) ⟨rfl, rfl, rfl⟩ rfl⟩

end Sql
