import Sql.Proofs.RoundTrip

/-!
# Sound trees

What holds of every statement, select and expression of a tree that was read, and is worth keeping
when the tree is changed.

* `Expr.Filled`, `Select.WellFormed` and `Statement.WellFormed` are about shape: nothing is empty
  that a text cannot leave empty, joins are as their kinds ask for, names that must differ do.
* `Expr.Spelled`, `Select.Spelled` and `Statement.Spelled` are about spelling: every name, number
  and type has a text that is read as itself.

`Sound` asks for the shape, and for the spelling when its argument holds. `AllSound` asks it of
every part of a tree; a tree is so when its root is and the trees next to it are (`Expr.allSound_iff`
and its neighbours).
-/

namespace Sql

/-! ## The statements of a tree -/

mutual

/-- A statement and every statement in it. -/
def Statement.statements (s : Statement) : List Statement :=
  s :: (s.ctes.attach.flatMap (fun c => c.1.statement.statements) ++ s.body.statements)
termination_by sizeOf s
decreasing_by
  · exact Statement.sizeOf_lt_of_mem_ctes c.2
  · exact s.sizeOf_body_lt

/-- Every statement in a body. -/
def Body.statements (b : Body) : List Statement :=
  match b with
  | .select q => q.subqueries.attach.flatMap fun s => s.1.statements
  | .setOp left _ right => left.statements ++ right.statements
  | .nested s => s.statements
termination_by sizeOf b
decreasing_by
  · have := Select.sizeOf_lt_of_mem_subqueries s.2
    simp +arith only [Body.select.sizeOf_spec]; omega
  all_goals simp +arith

end

theorem Statement.statements_eq (s : Statement) :
    s.statements = s :: (s.ctes.flatMap (fun c => c.statement.statements) ++ s.body.statements) := by
  rw [statements, List.flatMap_subtype (g := fun c => c.statement.statements) (fun _ _ => rfl),
    List.unattach_attach]

theorem Body.statements_select (q : Select) :
    (Body.select q).statements = q.subqueries.flatMap Statement.statements := by
  rw [statements, List.flatMap_subtype (g := Statement.statements) (fun _ _ => rfl),
    List.unattach_attach]

theorem Body.statements_setOp (left right : Body) (op : SetOperator) :
    (Body.setOp left op right).statements = left.statements ++ right.statements := by
  rw [statements]

theorem Body.statements_nested (s : Statement) : (Body.nested s).statements = s.statements := by
  rw [statements]

/-! ## Shape -/

/-- A list of values and the branches of a CASE are not empty. -/
def Expr.Filled : Expr → Prop
  | .inList _ items _ => items ≠ []
  | .case _ branches _ => branches ≠ []
  | _ => True

/-- A join of this kind has the constraint that it asks for: none after a comma and for a cross
join, else a condition or at least one column. -/
def JoinKind.Suits (kind : JoinKind) (c : JoinConstraint) : Prop :=
  kind.Takes c ∧ c ≠ .shared []

/-- The shape of a select. -/
structure Select.WellFormed (q : Select) : Prop where
  items_ne : q.items ≠ []
  star_bare : ∀ i ∈ q.items, i.expr.isStar = true → i.asName = none
  joins_of_none : q.source = none → q.joins = []
  names_differ : NamesDiffer (q.sources.map Source.effectiveName)
  joins_suit : ∀ j ∈ q.joins, j.kind.Suits j.constraint

/-- Set operations group to the left: no right operand is one itself. -/
def Body.GroupsLeft : Body → Prop
  | .select _ => True
  | .setOp left _ right => left.GroupsLeft ∧ right.isTerm = true
  | .nested _ => True

/-- The shape of a statement. -/
structure Statement.WellFormed (s : Statement) : Prop where
  ctes_ne : ∀ w ∈ s.withClause, w.ctes ≠ []
  names_differ : NamesDiffer (s.ctes.map Cte.name)
  groups_left : s.body.GroupsLeft

/-! ## Spelling -/

/-- The expression has a text, apart from the texts of the expressions in it. -/
def Expr.Spelled : Expr → Prop
  | .column c => AreNames (c.path ++ [c.name])
  | .star q => IsAlias q
  | .literal l => l.Wf
  | .param p => ∀ n ∈ p.name, IsParamName n
  | .call f args distinct _ _ => IsFunctionName True f ∧ (distinct = true → args ≠ [])
  | .cast _ type _ => IsTypeName type
  | .inQuery _ s _ | .subquery s => s.startsBare = true
  | _ => True

/-- The names of a source are not empty. -/
def Source.Spelled : Source → Prop
  | .table path name a => AreNames (path ++ [name]) ∧ IsAlias a
  | .subquery _ a => a ≠ ""

/-- The names in a select are not empty. -/
structure Select.Spelled (q : Select) : Prop where
  items : ∀ i ∈ q.items, IsAlias i.asName
  sources : ∀ t ∈ q.sources, t.Spelled
  shared : ∀ j ∈ q.joins, AreNames j.constraint.sharedColumns

/-- The names in a WITH clause are not empty. -/
def Statement.Spelled (s : Statement) : Prop := ∀ c ∈ s.ctes, c.name ≠ "" ∧ AreNames c.columns

/-! ## Shape and spelling together -/

section

variable (spelled : Prop)

/-- The expression has its shape and, when asked for, its spelling. -/
def Expr.Sound (e : Expr) : Prop := e.Filled ∧ (spelled → e.Spelled)

/-- The select has its shape and, when asked for, its spelling. -/
def Select.Sound (q : Select) : Prop := q.WellFormed ∧ (spelled → q.Spelled)

/-- The statement has its shape and, when asked for, its spelling. -/
def Statement.Sound (s : Statement) : Prop := s.WellFormed ∧ (spelled → s.Spelled)

/-- Every part of an expression is sound. -/
def Expr.AllSound (e : Expr) : Prop :=
  (∀ x ∈ e.nodesInOrder, x.Sound spelled) ∧ (∀ q ∈ e.selects, q.Sound spelled)
    ∧ ∀ s ∈ (e.nodes.filterMap Expr.statement?).flatMap Statement.statements, s.Sound spelled

/-- Every part of a body is sound. -/
def Body.AllSound (b : Body) : Prop :=
  (∀ x ∈ b.nodesInOrder, x.Sound spelled) ∧ (∀ q ∈ b.selects, q.Sound spelled)
    ∧ ∀ s ∈ b.statements, s.Sound spelled

/-- Every part of a statement is sound. -/
def Statement.AllSound (s : Statement) : Prop :=
  (∀ x ∈ s.nodesInOrder, x.Sound spelled) ∧ (∀ q ∈ s.selects, q.Sound spelled)
    ∧ ∀ t ∈ s.statements, t.Sound spelled

/-- Every part of a source is sound. -/
def Source.AllSound (t : Source) : Prop := ∀ s ∈ t.statement?, s.AllSound spelled

end

/-! ## The root and the trees next to it -/

theorem Select.inl_mem_parts {e : Expr} {q : Select} : .inl e ∈ q.parts ↔ e ∈ q.exprs := by
  refine ⟨mem_exprs_of_mem_parts, fun h => ?_⟩
  rw [exprs_eq, List.mem_append, List.mem_append, List.mem_map, List.mem_filterMap] at h
  simp only [parts, List.mem_append, List.mem_map, List.mem_flatMap, List.mem_cons,
    Option.mem_toList, reduceCtorEq, Sum.inl.injEq, false_or, and_false, exists_false,
    or_false, exists_eq_right]
  rcases h with (⟨i, hi, rfl⟩ | ⟨j, hj, h⟩) | h
  · exact .inl (.inl ⟨i, hi, rfl⟩)
  · exact .inl (.inr ⟨j, hj, h⟩)
  · exact .inr h

theorem Select.inr_mem_parts {t : Source} {q : Select} : .inr t ∈ q.parts ↔ t ∈ q.sources := by
  refine ⟨mem_sources_of_mem_parts, fun h => ?_⟩
  rw [sources, List.mem_append, Option.mem_toList, List.mem_map] at h
  simp only [parts, List.mem_append, List.mem_map, List.mem_flatMap, List.mem_cons,
    Option.mem_toList, reduceCtorEq, Sum.inr.injEq, and_false, exists_false,
    or_false, false_or, exists_eq_right]
  rcases h with h | ⟨j, hj, rfl⟩
  · exact .inl h
  · exact .inr ⟨j, hj, rfl⟩

section

variable {α : Type} {P : α → Prop} {f : Statement → List α}

/-- What holds of what statements give, for all statements nested in an expression. -/
theorem Expr.forall_nested {e : Expr} :
    (∀ x ∈ (e.nodes.filterMap Expr.statement?).flatMap f, P x)
      ↔ (∀ c ∈ e.children, ∀ x ∈ (c.nodes.filterMap Expr.statement?).flatMap f, P x)
        ∧ ∀ s ∈ e.statement?, ∀ x ∈ f s, P x := by
  have hnested : (e.nodes.filterMap Expr.statement?).flatMap f
      = e.statement?.toList.flatMap f
        ++ e.children.flatMap fun c => (c.nodes.filterMap Expr.statement?).flatMap f := by
    rw [Expr.nodes_eq, List.filterMap_cons, List.filterMap_flatMap]
    cases e.statement? <;> simp [List.flatMap_assoc]
  rw [hnested, List.forall_mem_append, List.forall_mem_flatMap, List.forall_mem_flatMap, and_comm]
  simp only [Option.mem_toList, Option.mem_def]

/-- The same for all statements nested in a select. -/
theorem Select.forall_nested {q : Select} :
    (∀ x ∈ q.subqueries.flatMap f, P x)
      ↔ (∀ e ∈ q.exprs, ∀ x ∈ (e.nodes.filterMap Expr.statement?).flatMap f, P x)
        ∧ ∀ t ∈ q.sources, ∀ s ∈ t.statement?, ∀ x ∈ f s, P x := by
  rw [Select.subqueries, List.flatMap_append, List.forall_mem_append, List.filterMap_flatMap,
    and_comm]
  simp only [List.forall_mem_flatMap, List.mem_filterMap, forall_exists_index, and_imp]
  exact and_congr_right fun _ =>
    ⟨fun h t ht s hs => h s t ht hs, fun h s t ht hs => h t ht s hs⟩

end

section

variable {spelled : Prop}

theorem Expr.allSound_iff {e : Expr} :
    e.AllSound spelled ↔ e.Sound spelled ∧ (∀ c ∈ e.children, c.AllSound spelled)
      ∧ ∀ s ∈ e.statement?, s.AllSound spelled := by
  unfold Expr.AllSound Statement.AllSound Expr.selects
  rw [Expr.forall_nodesInOrder, Expr.forall_nested, Expr.forall_nested]
  constructor
  · rintro ⟨⟨he, hnodes, hnodes'⟩, ⟨hselects, hselects'⟩, hstatements, hstatements'⟩
    exact ⟨he, fun c hc => ⟨hnodes c hc, hselects c hc, hstatements c hc⟩,
      fun s hs => ⟨hnodes' s hs, hselects' s hs, hstatements' s hs⟩⟩
  · rintro ⟨he, hchildren, hs⟩
    exact ⟨⟨he, fun c hc => (hchildren c hc).1, fun s h => (hs s h).1⟩,
      ⟨fun c hc => (hchildren c hc).2.1, fun s h => (hs s h).2.1⟩,
      fun c hc => (hchildren c hc).2.2, fun s h => (hs s h).2.2⟩

theorem Select.allSound_iff {q : Select} :
    (Body.select q).AllSound spelled ↔ q.Sound spelled ∧ (∀ e ∈ q.exprs, e.AllSound spelled)
      ∧ ∀ t ∈ q.sources, t.AllSound spelled := by
  unfold Body.AllSound Expr.AllSound Source.AllSound Statement.AllSound Expr.selects
  rw [Select.forall_nodesInOrder, Body.selects_select, List.forall_mem_cons,
    Body.statements_select, Select.forall_nested, Select.forall_nested]
  simp only [Select.inl_mem_parts, Select.inr_mem_parts]
  have hsource : (∀ t ∈ q.sources, ∀ x ∈ Source.nodesInOrder t, x.Sound spelled)
      ↔ ∀ t ∈ q.sources, ∀ s ∈ t.statement?, ∀ x ∈ s.nodesInOrder, x.Sound spelled := by
    refine forall₂_congr fun t _ => ?_
    unfold Source.nodesInOrder
    cases t.statement? <;> simp
  rw [hsource]
  constructor
  · rintro ⟨⟨hnodes, hnodes'⟩, ⟨hq, hselects, hselects'⟩, hstatements, hstatements'⟩
    exact ⟨hq, fun e he => ⟨hnodes e he, hselects e he, hstatements e he⟩,
      fun t ht s hs => ⟨hnodes' t ht s hs, hselects' t ht s hs, hstatements' t ht s hs⟩⟩
  · rintro ⟨hq, hexprs, hsources⟩
    exact ⟨⟨fun e he => (hexprs e he).1, fun t ht s hs => (hsources t ht s hs).1⟩,
      ⟨hq, fun e he => (hexprs e he).2.1, fun t ht s hs => (hsources t ht s hs).2.1⟩,
      fun e he => (hexprs e he).2.2, fun t ht s hs => (hsources t ht s hs).2.2⟩

theorem Body.allSound_setOp {l r : Body} {op : SetOperator} :
    (Body.setOp l op r).AllSound spelled ↔ l.AllSound spelled ∧ r.AllSound spelled := by
  unfold Body.AllSound
  rw [Body.nodesInOrder_setOp, Body.selects_setOp, Body.statements_setOp, List.forall_mem_append,
    List.forall_mem_append, List.forall_mem_append]
  constructor
  · rintro ⟨⟨hl₁, hr₁⟩, ⟨hl₂, hr₂⟩, hl₃, hr₃⟩
    exact ⟨⟨hl₁, hl₂, hl₃⟩, hr₁, hr₂, hr₃⟩
  · rintro ⟨⟨hl₁, hl₂, hl₃⟩, hr₁, hr₂, hr₃⟩
    exact ⟨⟨hl₁, hr₁⟩, ⟨hl₂, hr₂⟩, hl₃, hr₃⟩

theorem Body.allSound_nested {s : Statement} :
    (Body.nested s).AllSound spelled ↔ s.AllSound spelled := by
  unfold Body.AllSound Statement.AllSound
  rw [Body.nodesInOrder_nested, Body.selects_nested, Body.statements_nested]

theorem Statement.allSound_iff {s : Statement} :
    s.AllSound spelled ↔ s.Sound spelled ∧ (∀ c ∈ s.ctes, c.statement.AllSound spelled)
      ∧ s.body.AllSound spelled := by
  unfold Statement.AllSound Body.AllSound
  rw [Statement.nodesInOrder_eq, Statement.selects_eq, Statement.statements_eq,
    List.forall_mem_append, List.forall_mem_append, List.forall_mem_cons, List.forall_mem_append,
    List.forall_mem_flatMap, List.forall_mem_flatMap, List.forall_mem_flatMap]
  constructor
  · rintro ⟨⟨hc₁, hb₁⟩, ⟨hc₂, hb₂⟩, hs, hc₃, hb₃⟩
    exact ⟨hs, fun c hc => ⟨hc₁ c hc, hc₂ c hc, hc₃ c hc⟩, hb₁, hb₂, hb₃⟩
  · rintro ⟨hs, hc, hb₁, hb₂, hb₃⟩
    exact ⟨⟨fun c h => (hc c h).1, hb₁⟩, ⟨fun c h => (hc c h).2.1, hb₂⟩, hs,
      fun c h => (hc c h).2.2, hb₃⟩

/-! ## Small trees -/

theorem Expr.allSound_column {c : ColumnRef} :
    (Expr.column c).AllSound spelled ↔ (spelled → AreNames (c.path ++ [c.name])) := by
  rw [Expr.allSound_iff]
  simp [children, statement?, Expr.Sound, Filled, Expr.Spelled]

theorem Expr.allSound_param {p : Param} :
    (Expr.param p).AllSound spelled ↔ (spelled → ∀ n ∈ p.name, IsParamName n) := by
  rw [Expr.allSound_iff]
  simp [children, statement?, Expr.Sound, Filled, Expr.Spelled]

theorem Expr.allSound_binary {l r : Expr} {op : BinaryOp} :
    (Expr.binary l op r).AllSound spelled ↔ l.AllSound spelled ∧ r.AllSound spelled := by
  rw [Expr.allSound_iff]
  simp [children, statement?, Expr.Sound, Filled, Expr.Spelled]

theorem Expr.allSound_isNull {e : Expr} {negated : Bool} :
    (Expr.isNull e negated).AllSound spelled ↔ e.AllSound spelled := by
  rw [Expr.allSound_iff]
  simp [children, statement?, Expr.Sound, Filled, Expr.Spelled]

theorem Expr.allSound_inList {e : Expr} {items : List Expr} {negated : Bool} :
    (Expr.inList e items negated).AllSound spelled
      ↔ items ≠ [] ∧ e.AllSound spelled ∧ ∀ i ∈ items, i.AllSound spelled := by
  rw [Expr.allSound_iff]
  simp [children, statement?, Expr.Sound, Filled, Expr.Spelled]

theorem Expr.allSound_paren {e : Expr} : (Expr.paren e).AllSound spelled ↔ e.AllSound spelled := by
  rw [Expr.allSound_iff]
  simp [children, statement?, Expr.Sound, Filled, Expr.Spelled]

end

/-! ## Trees that were read -/

section

variable {strict bounded : Prop} {n : Nat}

theorem Expr.parts_of_wf {e : Expr} (h : e.Wf strict bounded n) :
    e.Sound strict ∧ (∀ c ∈ e.children, ∃ m, c.Wf strict bounded m)
      ∧ ∀ s ∈ e.statement?, ∃ m, s.Wf strict bounded m := by
  cases e with
  | column c => exact ⟨⟨trivial, fun _ => h⟩, by simp [children], by simp [statement?]⟩
  | star q => exact ⟨⟨trivial, fun _ => h⟩, by simp [children], by simp [statement?]⟩
  | literal l => exact ⟨⟨trivial, fun _ => h⟩, by simp [children], by simp [statement?]⟩
  | param p =>
    rw [Wf] at h
    exact ⟨⟨trivial, fun _ => h.2.1⟩, by simp [children], by simp [statement?]⟩
  | call f args distinct filter window =>
    rw [Wf, exprsWf_iff, optionWf_iff] at h
    obtain ⟨⟨parts, hne, hparts, hf, hcalled⟩, hdistinct, hargs, hfilter, hwindow⟩ := h
    refine ⟨⟨trivial, fun hstrict => ⟨⟨parts, hne, hparts, hf, fun _ => hcalled hstrict⟩,
      hdistinct⟩⟩, ?_, by simp [statement?]⟩
    simp only [children, List.mem_append, Option.mem_toList, List.mem_flatMap]
    rintro c ((hc | hc) | ⟨w, rfl, hc⟩)
    · exact ⟨_, (hargs c hc).2⟩
    · exact ⟨_, (hfilter c hc).2⟩
    · obtain ⟨partitionBy, orderBy⟩ := w
      rw [overWf, exprsWf_iff, orderWf_iff] at hwindow
      simp only [Window.exprs, List.mem_append, List.mem_map] at hc
      rcases hc with hc | ⟨o, ho, rfl⟩
      · exact ⟨_, (hwindow.1 c hc).2⟩
      · exact ⟨_, (hwindow.2 o ho).2⟩
  | binary l op r =>
    rw [Wf] at h
    refine ⟨⟨trivial, fun _ => trivial⟩, ?_, by simp [statement?]⟩
    simp only [children, List.mem_cons, List.not_mem_nil, or_false, forall_eq_or_imp, forall_eq]
    exact ⟨⟨_, h.1⟩, _, h.2.1⟩
  | unary op e =>
    rw [Wf] at h
    refine ⟨⟨trivial, fun _ => trivial⟩, ?_, by simp [statement?]⟩
    simp only [children, List.mem_singleton, forall_eq]
    exact ⟨_, h.2.1⟩
  | isNull e negated =>
    rw [Wf] at h
    refine ⟨⟨trivial, fun _ => trivial⟩, ?_, by simp [statement?]⟩
    simp only [children, List.mem_singleton, forall_eq]
    exact ⟨_, h.1⟩
  | between e low high negated =>
    rw [Wf] at h
    refine ⟨⟨trivial, fun _ => trivial⟩, ?_, by simp [statement?]⟩
    simp only [children, List.mem_cons, List.not_mem_nil, or_false, forall_eq_or_imp, forall_eq]
    exact ⟨⟨_, h.1.1⟩, ⟨_, h.2.1.1⟩, _, h.2.2.1⟩
  | inList e items negated =>
    rw [Wf, exprsWf_iff] at h
    refine ⟨⟨h.2.1, fun _ => trivial⟩, ?_, by simp [statement?]⟩
    rw [children, List.forall_mem_cons]
    exact ⟨⟨_, h.1.1⟩, fun c hc => ⟨_, (h.2.2 c hc).2⟩⟩
  | inQuery e s negated =>
    rw [Wf] at h
    refine ⟨⟨trivial, fun _ => h.2.2.2⟩, ?_, ?_⟩
    · simp only [children, List.mem_singleton, forall_eq]
      exact ⟨_, h.1.1⟩
    · intro t ht
      obtain rfl := Option.some.inj ht
      exact ⟨_, h.2.2.1⟩
  | hasRows s =>
    rw [Wf] at h
    refine ⟨⟨trivial, fun _ => trivial⟩, by simp [children], ?_⟩
    intro t ht
    obtain rfl := Option.some.inj ht
    exact ⟨_, h.2⟩
  | subquery s =>
    rw [Wf] at h
    refine ⟨⟨trivial, fun _ => h.2.2⟩, by simp [children], ?_⟩
    intro t ht
    obtain rfl := Option.some.inj ht
    exact ⟨_, h.2.1⟩
  | case scrutinee branches fallback =>
    rw [Wf, optionWf_iff, optionWf_iff, branchesWf_iff] at h
    obtain ⟨hscrutinee, hne, hbranches, hfallback⟩ := h
    refine ⟨⟨hne, fun _ => trivial⟩, ?_, by simp [statement?]⟩
    simp only [children, List.mem_append, Option.mem_toList, List.mem_flatMap, List.mem_cons,
      List.not_mem_nil, or_false]
    rintro c ((hc | ⟨b, hb, rfl | rfl⟩) | hc)
    · exact ⟨_, (hscrutinee c hc).2⟩
    · exact ⟨_, (hbranches b hb).2.1⟩
    · exact ⟨_, (hbranches b hb).2.2⟩
    · exact ⟨_, (hfallback c hc).2⟩
  | cast e type short =>
    refine ⟨⟨trivial, fun _ => ?_⟩, ?_, by simp [statement?]⟩
    · cases short <;> exact h.2
    · simp only [children, List.mem_singleton, forall_eq]
      cases short with
      | false => exact ⟨_, h.1.2⟩
      | true => exact ⟨_, h.1.1⟩
  | paren e =>
    rw [Wf] at h
    refine ⟨⟨trivial, fun _ => trivial⟩, ?_, by simp [statement?]⟩
    simp only [children, List.mem_singleton, forall_eq]
    exact ⟨_, h.2⟩

theorem Source.parts_of_wf {t : Source} (h : t.Wf strict bounded n) :
    t.Spelled ∧ ∀ s ∈ t.statement?, ∃ m, s.Wf strict bounded m := by
  cases t with
  | table path name a => exact ⟨h, by simp [statement?]⟩
  | subquery s a =>
    rw [Wf] at h
    refine ⟨h.2, ?_⟩
    intro t ht
    obtain rfl := Option.some.inj ht
    exact ⟨_, h.1.2⟩

theorem JoinConstraint.parts_of_wf {c : JoinConstraint} (h : c.Wf strict bounded n) :
    (c ≠ .shared [] ∧ AreNames c.sharedColumns) ∧ ∀ e ∈ c.condition?, ∃ m, e.Wf strict bounded m := by
  cases c with
  | on e =>
    rw [Wf] at h
    refine ⟨⟨by simp, by simp [sharedColumns, AreNames]⟩, ?_⟩
    intro t ht
    obtain rfl := Option.some.inj ht
    exact ⟨_, h.2⟩
  | shared columns =>
    rw [Wf] at h
    exact ⟨⟨by simpa using h.1, h.2⟩, by simp [condition?]⟩
  | none => exact ⟨⟨by simp, by simp [sharedColumns, AreNames]⟩, by simp [condition?]⟩

theorem Select.parts_of_wf {q : Select} (h : q.Wf strict bounded n) :
    q.Sound strict ∧ (∀ e ∈ q.exprs, ∃ m, e.Wf strict bounded m)
      ∧ ∀ t ∈ q.sources, ∀ s ∈ t.statement?, ∃ m, s.Wf strict bounded m := by
  obtain ⟨distinct, items, source, joins, filter, groupBy, having, orderBy, limit, offset⟩ := q
  rw [Wf, itemsWf_iff, joinsWf_iff, optionWf_iff, exprsWf_iff, optionWf_iff, orderWf_iff,
    optionWf_iff, optionWf_iff] at h
  obtain ⟨⟨hne, hitems⟩, ⟨hfrom, hjoins, hfirst, hdiffer⟩, hfilter, hgroupBy, hhaving, horderBy,
    hlimit, hoffset⟩ := h
  have hsources : ∀ t ∈ source.toList ++ joins.map Join.right,
      t.Spelled ∧ ∀ s ∈ t.statement?, ∃ m, s.Wf strict bounded m := by
    rw [List.forall_mem_append, List.forall_mem_map]
    refine ⟨fun t ht => ?_, fun j hj => Source.parts_of_wf (hjoins j hj).1⟩
    obtain rfl := Option.mem_toList.mp ht
    exact Source.parts_of_wf hfrom
  refine ⟨⟨⟨hne, fun i hi => (hitems i hi).2.2, hfirst, hdiffer, fun j hj => ?_⟩, fun _ => ⟨?_, ?_, ?_⟩⟩,
    ?_, fun t ht => (hsources t ht).2⟩
  · exact ⟨(hjoins j hj).2.2, (JoinConstraint.parts_of_wf (hjoins j hj).2.1).1.1⟩
  · exact fun i hi => (hitems i hi).2.1
  · exact fun t ht => (hsources t ht).1
  · exact fun j hj => (JoinConstraint.parts_of_wf (hjoins j hj).2.1).1.2
  · simp only [exprs, List.mem_append, List.mem_map, List.mem_filterMap, Option.mem_toList]
    rintro e (((((((⟨i, hi, rfl⟩ | ⟨j, hj, he⟩) | he) | he) | he) | ⟨o, ho, rfl⟩) | he) | he)
    · exact ⟨_, (hitems i hi).1.2⟩
    · exact (JoinConstraint.parts_of_wf (hjoins j hj).2.1).2 e he
    · exact ⟨_, (hfilter e he).2⟩
    · exact ⟨_, (hgroupBy e he).2⟩
    · exact ⟨_, (hhaving e he).2⟩
    · exact ⟨_, (horderBy o ho).2⟩
    · exact ⟨_, (hlimit e he).2⟩
    · exact ⟨_, (hoffset e he).2⟩

theorem Body.groupsLeft_of_wf {b : Body} (h : b.Wf strict bounded n) : b.GroupsLeft := by
  fun_induction GroupsLeft b with
  | case1 q => trivial
  | case2 l op r ih =>
    rw [Wf] at h
    exact ⟨ih h.1, h.2.2⟩
  | case3 s => trivial

theorem Statement.parts_of_wf {s : Statement} (h : s.Wf strict bounded n) :
    s.Sound strict ∧ (∀ c ∈ s.ctes, ∃ m, c.statement.Wf strict bounded m)
      ∧ s.body.Wf strict bounded n := by
  obtain ⟨hne, hctes, hdiffer, hbody⟩ := Statement.wf_iff.mp h
  rw [ctesWf_iff] at hctes
  refine ⟨⟨⟨hne, hdiffer, Body.groupsLeft_of_wf hbody⟩, fun _ c hc => ?_⟩, fun c hc => ?_, hbody⟩
  · exact ⟨(hctes c hc).1, (hctes c hc).2.1⟩
  · exact ⟨_, (hctes c hc).2.2.2⟩

mutual

/-- **Every part of a well-formed expression is sound.** -/
theorem Expr.allSound_of_wf {n : Nat} (e : Expr) (h : e.Wf strict bounded n) :
    e.AllSound strict := by
  obtain ⟨hsound, hchildren, hs⟩ := Expr.parts_of_wf h
  refine Expr.allSound_iff.mpr ⟨hsound, fun c hc => ?_, fun s hmem => ?_⟩
  · obtain ⟨m, hm⟩ := hchildren c hc
    exact Expr.allSound_of_wf c hm
  · obtain ⟨m, hm⟩ := hs s hmem
    exact Statement.allSound_of_wf s hm
termination_by sizeOf e
decreasing_by
  · exact Expr.sizeOf_lt_of_mem_children hc
  · exact Expr.sizeOf_lt_of_statement? hmem

theorem Body.allSound_of_wf {n : Nat} (b : Body) (h : b.Wf strict bounded n) :
    b.AllSound strict := by
  match b with
  | .select q =>
    rw [Body.Wf] at h
    obtain ⟨hsound, hexprs, hsources⟩ := Select.parts_of_wf h
    refine Select.allSound_iff.mpr ⟨hsound, fun e he => ?_, fun t ht s hs => ?_⟩
    · obtain ⟨m, hm⟩ := hexprs e he
      exact Expr.allSound_of_wf e hm
    · obtain ⟨m, hm⟩ := hsources t ht s hs
      exact Statement.allSound_of_wf s hm
  | .setOp l op r =>
    rw [Body.Wf] at h
    exact Body.allSound_setOp.mpr ⟨Body.allSound_of_wf l h.1, Body.allSound_of_wf r h.2.1⟩
  | .nested s =>
    rw [Body.Wf] at h
    exact Body.allSound_nested.mpr (Statement.allSound_of_wf s h.2)
termination_by sizeOf b
decreasing_by
  · have := Select.sizeOf_lt_of_mem_exprs he
    simp +arith only [Body.select.sizeOf_spec]; omega
  · have := Source.sizeOf_lt_of_statement? hs
    have := Select.sizeOf_lt_of_mem_sources ht
    simp +arith only [Body.select.sizeOf_spec]; omega
  all_goals simp +arith

theorem Statement.allSound_of_wf {n : Nat} (s : Statement) (h : s.Wf strict bounded n) :
    s.AllSound strict := by
  obtain ⟨hsound, hctes, hbody⟩ := Statement.parts_of_wf h
  refine Statement.allSound_iff.mpr ⟨hsound, fun c hc => ?_, Body.allSound_of_wf s.body hbody⟩
  obtain ⟨m, hm⟩ := hctes c hc
  exact Statement.allSound_of_wf c.statement hm
termination_by sizeOf s
decreasing_by
  · exact Statement.sizeOf_lt_of_mem_ctes hc
  · exact s.sizeOf_body_lt

end

end

end Sql
