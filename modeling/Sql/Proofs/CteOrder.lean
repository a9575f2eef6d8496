import Mathlib.Data.List.Basic
import Sql.Proofs.PrintedParams

/-!
# The order in which definitions are collected

`Statement.allCtes` collects the definitions of a tree: within a select those of its FROM subqueries
before those of its expressions, within an expression those of its own statement before those of its
operands. The printer writes the select list before FROM, and the left operand of IN before the
subquery.

* `Reorders`: two lists of the same elements, and what makes them equal.
* `Statement.ctesInOrder`: the definitions of a tree in printed order.
* `Statement.reorders_ctes`: the collected definitions are those in printed order, each as often,
  and in that order when no definition is printed before a part that is collected first
  (`Statement.DefinesInOrder`); when no definition repeats, only then.
-/

namespace Sql

/-! ## Lists with the same elements -/

variable {α β γ : Type}

/-- The lists have the same elements. They are equal if `P` holds, and, when no element repeats,
only if `P` holds. -/
structure Reorders (P : Prop) (collected printed : List γ) : Prop where
  perm : collected.Perm printed
  eq_of : P → collected = printed
  of_eq : collected.Nodup → collected = printed → P

namespace Reorders

variable {P Q : Prop} {cs cs' ds ds' : List γ}

theorem refl (cs : List γ) : Reorders True cs cs := ⟨.refl cs, fun _ => rfl, fun _ _ => trivial⟩

theorem congr (h : Reorders P cs ds) (hPQ : P ↔ Q) : Reorders Q cs ds :=
  ⟨h.perm, fun hQ => h.eq_of (hPQ.mpr hQ), fun hnodup heq => hPQ.mp (h.of_eq hnodup heq)⟩

theorem eq_nil_iff (h : Reorders P cs ds) : cs = [] ↔ ds = [] := by
  rw [← List.length_eq_zero_iff, h.perm.length_eq, List.length_eq_zero_iff]

theorem append (h : Reorders P cs ds) (h' : Reorders Q cs' ds') :
    Reorders (P ∧ Q) (cs ++ cs') (ds ++ ds') where
  perm := h.perm.append h'.perm
  eq_of := fun ⟨hP, hQ⟩ => by rw [h.eq_of hP, h'.eq_of hQ]
  of_eq := fun hnodup heq => by
    obtain ⟨hcs, hcs', -⟩ := List.nodup_append.mp hnodup
    obtain ⟨hleft, hright⟩ := List.append_inj heq h.perm.length_eq
    exact ⟨h.of_eq hcs hleft, h'.of_eq hcs' hright⟩

theorem cons (c : γ) (h : Reorders P cs ds) : Reorders P (c :: cs) (c :: ds) :=
  ((refl [c]).append h).congr ⟨And.right, fun hP => ⟨trivial, hP⟩⟩

theorem flatMap {xs : List α} {f g : α → List γ} {P : α → Prop}
    (h : ∀ x ∈ xs, Reorders (P x) (f x) (g x)) :
    Reorders (∀ x ∈ xs, P x) (xs.flatMap f) (xs.flatMap g) := by
  induction xs with
  | nil => exact (refl []).congr ⟨fun _ _ hx => by simp at hx, fun _ => trivial⟩
  | cons x xs ih =>
    rw [List.forall_mem_cons] at h
    exact (h.1.append (ih h.2)).congr List.forall_mem_cons.symm

/-- Elements that are printed first, but collected behind others. -/
theorem behind (h : Reorders P cs cs') {first last : List γ}
    (hrest : Reorders Q (first ++ last) ds) :
    Reorders ((cs' = [] ∨ first = []) ∧ P ∧ Q) (first ++ (cs ++ last)) (cs' ++ ds) where
  perm := (List.perm_append_comm_assoc first cs last).trans (h.perm.append hrest.perm)
  eq_of := fun ⟨hempty, hP, hQ⟩ => by
    rw [← hrest.eq_of hQ, h.eq_of hP]
    rcases hempty with hempty | hempty <;> simp [hempty]
  of_eq := fun hnodup heq => by
    cases hprinted : cs' with
    | nil =>
      have hcs := h.eq_nil_iff.mpr hprinted
      subst hcs hprinted
      exact ⟨.inl rfl, h.of_eq List.nodup_nil rfl, hrest.of_eq hnodup heq⟩
    | cons c more =>
      -- what is printed first is collected too, behind all that is in front of it
      have hfirst : first = [] := by
        cases first with
        | nil => rfl
        | cons d others =>
          have hc : c ∈ cs := h.perm.mem_iff.mpr (by simp [hprinted])
          rw [hprinted] at heq
          obtain ⟨rfl, -⟩ := List.cons.inj heq
          have hout := (List.nodup_cons.mp hnodup).1
          exact absurd (by simp [hc]) hout
      subst hfirst
      rw [List.nil_append] at *
      obtain ⟨hcs, hlast, -⟩ := List.nodup_append.mp hnodup
      obtain ⟨hleft, hright⟩ := List.append_inj heq h.perm.length_eq
      exact ⟨.inr rfl, h.of_eq hcs hleft, hrest.of_eq hlast hright⟩

end Reorders

/-! ## Parts of two kinds -/

/-- Of a part that is collected later and one that is collected first, one holds nothing if the
later one is printed before the other. -/
def mayPrecede (f : α → List γ) (g : β → List γ) : α ⊕ β → α ⊕ β → Bool
  | .inl a, .inr b => (f a).isEmpty || (g b).isEmpty
  | _, _ => true

/-- No part on the left that holds something is printed before a part on the right that does. -/
def RightsLead (f : α → List γ) (g : β → List γ) (ps : List (α ⊕ β)) : Prop :=
  ps.Pairwise fun p p' => mayPrecede f g p p' = true

instance (f : α → List γ) (g : β → List γ) (ps : List (α ⊕ β)) : Decidable (RightsLead f g ps) :=
  inferInstanceAs (Decidable (List.Pairwise _ _))

theorem rightsLead_cons_inr {f : α → List γ} {g : β → List γ} {b : β} {ps : List (α ⊕ β)} :
    RightsLead f g (.inr b :: ps) ↔ RightsLead f g ps := by
  rw [RightsLead, List.pairwise_cons]
  exact ⟨And.right, fun h => ⟨fun _ _ => rfl, h⟩⟩

theorem rightsLead_cons_inl {f : α → List γ} {g : β → List γ} {a : α} {ps : List (α ⊕ β)} :
    RightsLead f g (.inl a :: ps)
      ↔ (f a = [] ∨ (ps.filterMap Sum.getRight?).flatMap g = []) ∧ RightsLead f g ps := by
  have hfirst : (∀ p ∈ ps, mayPrecede f g (.inl a) p = true)
      ↔ f a = [] ∨ (ps.filterMap Sum.getRight?).flatMap g = [] := by
    induction ps with
    | nil => simp
    | cons p ps ih =>
      rw [List.forall_mem_cons, ih]
      cases p with
      | inl a' => simp [mayPrecede]
      | inr b => simp [mayPrecede, or_and_left]
  rw [RightsLead, List.pairwise_cons, hfirst]
  rfl

/-- Parts that are printed in one order and collected kind by kind, those on the right first. -/
theorem Reorders.parts {ps : List (α ⊕ β)} {f f' : α → List γ} {g g' : β → List γ}
    {P : α → Prop} {Q : β → Prop} (hf : ∀ a, .inl a ∈ ps → Reorders (P a) (f a) (f' a))
    (hg : ∀ b, .inr b ∈ ps → Reorders (Q b) (g b) (g' b)) :
    Reorders (RightsLead f' g' ps ∧ ∀ p ∈ ps, p.elim P Q)
      ((ps.filterMap Sum.getRight?).flatMap g ++ (ps.filterMap Sum.getLeft?).flatMap f)
      (ps.flatMap fun p => p.elim f' g') := by
  induction ps with
  | nil => exact (refl []).congr ⟨fun _ => ⟨.nil, fun _ hp => by simp at hp⟩, fun _ => trivial⟩
  | cons p ps ih =>
    have hrest := ih (fun a ha => hf a (List.mem_cons_of_mem _ ha))
      fun b hb => hg b (List.mem_cons_of_mem _ hb)
    cases p with
    | inr b =>
      have hb := hg b List.mem_cons_self
      rw [rightsLead_cons_inr, List.forall_mem_cons, and_left_comm]
      exact List.append_assoc .. ▸ hb.append hrest
    | inl a =>
      have ha := hf a List.mem_cons_self
      -- the parts on the right are collected before this one, so it or all of them hold nothing
      have hrights : ∀ b ∈ ps.filterMap Sum.getRight?, Reorders (Q b) (g b) (g' b) := by
        intro b hb
        obtain ⟨p, hp, hpb⟩ := List.mem_filterMap.mp hb
        obtain rfl := Sum.getRight?_eq_some_iff.mp hpb
        exact hg b (List.mem_cons_of_mem _ hp)
      refine (ha.behind hrest).congr ?_
      rw [rightsLead_cons_inl, List.forall_mem_cons,
        (Reorders.flatMap hrights).eq_nil_iff]
      exact ⟨fun ⟨hempty, hP, hlead, hps⟩ => ⟨⟨hempty, hlead⟩, hP, hps⟩,
        fun ⟨⟨hempty, hlead⟩, hP, hps⟩ => ⟨hempty, hP, hlead, hps⟩⟩

/-! ## Definitions in printed order -/

/-- The parts of an expression in printed order: the expressions below it, and last the statement
nested in it. -/
def Expr.parts (e : Expr) : List (Expr ⊕ Statement) :=
  e.children.map .inl ++ e.statement?.toList.map .inr

mutual

/-- Every definition of a statement, in the order in which the names are printed. -/
def Statement.ctesInOrder (s : Statement) : List Cte :=
  s.ctes.attach.flatMap (fun c => c.1 :: c.1.statement.ctesInOrder) ++ s.body.ctesInOrder
termination_by sizeOf s
decreasing_by
  · exact Statement.sizeOf_lt_of_mem_ctes c.2
  · exact s.sizeOf_body_lt

/-- Every definition of a body in printed order. -/
def Body.ctesInOrder (b : Body) : List Cte :=
  match b with
  | .select q => q.parts.attach.flatMap fun
    | ⟨.inl e, _⟩ => e.ctesInOrder
    | ⟨.inr t, _⟩ =>
      match _h : t.statement? with
      | some s => s.ctesInOrder
      | none => []
  | .setOp left _ right => left.ctesInOrder ++ right.ctesInOrder
  | .nested s => s.ctesInOrder
termination_by sizeOf b
decreasing_by
  · have := Select.sizeOf_lt_of_mem_exprs (Select.mem_exprs_of_mem_parts (by assumption))
    simp +arith only [Body.select.sizeOf_spec]; omega
  · have := Source.sizeOf_lt_of_statement? _h
    have := Select.sizeOf_lt_of_mem_sources (Select.mem_sources_of_mem_parts (by assumption))
    simp +arith only [Body.select.sizeOf_spec]; omega
  all_goals simp +arith

/-- Every definition below an expression in printed order. -/
def Expr.ctesInOrder (e : Expr) : List Cte :=
  e.children.attach.flatMap (fun c => c.1.ctesInOrder) ++
    match _h : e.statement? with
    | some s => s.ctesInOrder
    | none => []
termination_by sizeOf e
decreasing_by
  · exact Expr.sizeOf_lt_of_mem_children c.2
  · exact Expr.sizeOf_lt_of_statement? _h

end

/-- Every definition of a FROM source in printed order. -/
def Source.ctesInOrder (t : Source) : List Cte := t.statement?.toList.flatMap Statement.ctesInOrder

theorem Statement.ctesInOrder_eq (s : Statement) :
    s.ctesInOrder
      = s.ctes.flatMap (fun c => c :: c.statement.ctesInOrder) ++ s.body.ctesInOrder := by
  rw [ctesInOrder, List.flatMap_subtype (g := fun c => c :: c.statement.ctesInOrder)
    (fun _ _ => rfl), List.unattach_attach]

theorem Body.ctesInOrder_select (q : Select) :
    (Body.select q).ctesInOrder
      = q.parts.flatMap fun p => p.elim Expr.ctesInOrder Source.ctesInOrder := by
  rw [ctesInOrder, List.flatMap_subtype
    (g := fun p => p.elim Expr.ctesInOrder Source.ctesInOrder), List.unattach_attach]
  rintro (e | t) _
  · rfl
  · simp only [Sum.elim_inr, Source.ctesInOrder]
    split <;> simp_all

theorem Body.ctesInOrder_setOp (left right : Body) (op : SetOperator) :
    (Body.setOp left op right).ctesInOrder = left.ctesInOrder ++ right.ctesInOrder := by
  rw [ctesInOrder]

theorem Body.ctesInOrder_nested (s : Statement) :
    (Body.nested s).ctesInOrder = s.ctesInOrder := by
  rw [ctesInOrder]

theorem Expr.ctesInOrder_eq (e : Expr) :
    e.ctesInOrder = e.parts.flatMap fun p => p.elim Expr.ctesInOrder Statement.ctesInOrder := by
  rw [ctesInOrder, List.flatMap_subtype (g := ctesInOrder) (fun _ _ => rfl),
    List.unattach_attach, parts, List.flatMap_append, List.flatMap_map, List.flatMap_map]
  congr 1
  split <;> simp_all

/-! ## Definitions as they are collected -/

/-- The definitions that are collected below an expression. -/
def Expr.allCtes (e : Expr) : List Cte :=
  (e.nodes.filterMap Expr.statement?).flatMap Statement.allCtes

/-- The definitions that are collected in a FROM source. -/
def Source.allCtes (t : Source) : List Cte := t.statement?.toList.flatMap Statement.allCtes

theorem Expr.rights_parts (e : Expr) : e.parts.filterMap Sum.getRight? = e.statement?.toList := by
  simp [parts, List.filterMap_map, Function.comp_def]

theorem Expr.lefts_parts (e : Expr) : e.parts.filterMap Sum.getLeft? = e.children := by
  simp [parts, List.filterMap_map, Function.comp_def]

theorem Select.rights_parts (q : Select) : q.parts.filterMap Sum.getRight? = q.sources := by
  have hjoins : q.joins.flatMap (fun j => [j.right]) = q.joins.map Join.right :=
    List.map_eq_flatMap.symm
  simp [parts, sources, List.filterMap_map, List.filterMap_flatMap, Function.comp_def,
    List.filterMap_none, hjoins]

theorem Select.lefts_parts (q : Select) : q.parts.filterMap Sum.getLeft? = q.exprs := by
  simp [parts, exprs_eq, conditions_eq, List.filterMap_map, List.filterMap_flatMap,
    Function.comp_def, List.filterMap_none, List.filterMap_cons]

theorem Expr.allCtes_eq (e : Expr) :
    e.allCtes = (e.parts.filterMap Sum.getRight?).flatMap Statement.allCtes
      ++ (e.parts.filterMap Sum.getLeft?).flatMap Expr.allCtes := by
  rw [e.rights_parts, e.lefts_parts]
  exact e.flatMap_statements Statement.allCtes

theorem Body.allCtes_parts (q : Select) :
    (Body.select q).allCtes = (q.parts.filterMap Sum.getRight?).flatMap Source.allCtes
      ++ (q.parts.filterMap Sum.getLeft?).flatMap Expr.allCtes := by
  rw [Body.allCtes_select, q.rights_parts, q.lefts_parts]
  exact q.flatMap_subqueries Statement.allCtes

/-! ## Trees that are collected in printed order -/

/-- No expression that holds a definition is printed before a FROM source that holds one. -/
def Select.SourcesLead (q : Select) : Prop :=
  RightsLead Expr.ctesInOrder Source.ctesInOrder q.parts

/-- No operand that holds a definition is printed before a statement that holds one. -/
def Expr.StatementLeads (e : Expr) : Prop :=
  RightsLead Expr.ctesInOrder Statement.ctesInOrder e.parts

instance (q : Select) : Decidable q.SourcesLead :=
  inferInstanceAs (Decidable (RightsLead _ _ _))

instance (e : Expr) : Decidable e.StatementLeads :=
  inferInstanceAs (Decidable (RightsLead _ _ _))

/-- In these selects and expressions, the parts that are collected first are printed first. -/
structure InOrder (qs : List Select) (es : List Expr) : Prop where
  selects : ∀ q ∈ qs, q.SourcesLead
  exprs : ∀ e ∈ es, e.StatementLeads

instance (qs : List Select) (es : List Expr) : Decidable (InOrder qs es) :=
  decidable_of_iff ((∀ q ∈ qs, q.SourcesLead) ∧ ∀ e ∈ es, e.StatementLeads)
    ⟨fun h => ⟨h.1, h.2⟩, fun h => ⟨h.selects, h.exprs⟩⟩

theorem inOrder_append {qs qs' : List Select} {es es' : List Expr} :
    InOrder (qs ++ qs') (es ++ es') ↔ InOrder qs es ∧ InOrder qs' es' := by
  constructor
  · rintro ⟨hqs, hes⟩
    rw [List.forall_mem_append] at hqs hes
    exact ⟨⟨hqs.1, hes.1⟩, hqs.2, hes.2⟩
  · rintro ⟨h, h'⟩
    exact ⟨List.forall_mem_append.mpr ⟨h.selects, h'.selects⟩,
      List.forall_mem_append.mpr ⟨h.exprs, h'.exprs⟩⟩

theorem inOrder_flatMap {xs : List α} {f : α → List Select} {g : α → List Expr} :
    InOrder (xs.flatMap f) (xs.flatMap g) ↔ ∀ x ∈ xs, InOrder (f x) (g x) := by
  induction xs with
  | nil => exact ⟨fun _ _ hx => by simp at hx, fun _ => ⟨by simp, by simp⟩⟩
  | cons x xs ih =>
    rw [List.flatMap_cons, List.flatMap_cons, inOrder_append, ih, List.forall_mem_cons]

/-- The order in which the selects are listed is of no matter. -/
theorem inOrder_parts {ps : List (α ⊕ β)} {f : α → List Select} {g : β → List Select}
    {f' : α → List Expr} {g' : β → List Expr} :
    InOrder ((ps.filterMap Sum.getRight?).flatMap g ++ (ps.filterMap Sum.getLeft?).flatMap f)
        (ps.flatMap fun p => p.elim f' g')
      ↔ ∀ p ∈ ps, p.elim (fun a => InOrder (f a) (f' a)) fun b => InOrder (g b) (g' b) := by
  have hlisted : ∀ q, q ∈ (ps.filterMap Sum.getRight?).flatMap g
      ++ (ps.filterMap Sum.getLeft?).flatMap f ↔ q ∈ ps.flatMap fun p => p.elim f g := by
    intro q
    induction ps with
    | nil => rfl
    | cons p ps ih =>
      have hps := ih
      simp only [List.mem_append] at hps
      rw [List.flatMap_cons, List.mem_append, List.mem_append, ← hps]
      cases p <;> simp [or_left_comm, or_assoc]
  have hsplit : ∀ p : α ⊕ β, InOrder (p.elim f g) (p.elim f' g')
      ↔ p.elim (fun a => InOrder (f a) (f' a)) fun b => InOrder (g b) (g' b) := by
    rintro (a | b) <;> rfl
  simp only [← hsplit, ← inOrder_flatMap]
  exact ⟨fun h => ⟨fun q hq => h.selects q ((hlisted q).mpr hq), h.exprs⟩,
    fun h => ⟨fun q hq => h.selects q ((hlisted q).mp hq), h.exprs⟩⟩

/-- In the selects and expressions of a statement, the parts that are collected first are printed
first. -/
def Statement.DefinesInOrder (s : Statement) : Prop := InOrder s.selects s.nodesInOrder

instance (s : Statement) : Decidable s.DefinesInOrder := inferInstanceAs (Decidable (InOrder _ _))

/-- The same of a body. -/
def Body.DefinesInOrder (b : Body) : Prop := InOrder b.selects b.nodesInOrder

/-- The same of an expression. -/
def Expr.DefinesInOrder (e : Expr) : Prop := InOrder e.selects e.nodesInOrder

/-- The same of a FROM source. -/
def Source.DefinesInOrder (t : Source) : Prop := InOrder t.selects t.nodesInOrder

theorem Statement.definesInOrder_iff (s : Statement) :
    s.DefinesInOrder ↔ (∀ c ∈ s.ctes, c.statement.DefinesInOrder) ∧ s.body.DefinesInOrder := by
  rw [DefinesInOrder, Statement.selects_eq, Statement.nodesInOrder_eq, inOrder_append,
    inOrder_flatMap]
  rfl

theorem Body.definesInOrder_select (q : Select) :
    (Body.select q).DefinesInOrder
      ↔ q.SourcesLead ∧ ∀ p ∈ q.parts, p.elim Expr.DefinesInOrder Source.DefinesInOrder := by
  have hparts := @inOrder_parts Expr Source q.parts Expr.selects Source.selects
    Expr.nodesInOrder Source.nodesInOrder
  rw [q.rights_parts, q.lefts_parts, ← q.selects_subqueries] at hparts
  rw [DefinesInOrder, Body.selects_select, Body.nodesInOrder_select]
  refine Iff.trans ?_ (and_congr_right' hparts)
  exact ⟨fun h => ⟨h.selects q List.mem_cons_self,
      fun q' hq' => h.selects q' (List.mem_cons_of_mem _ hq'), h.exprs⟩,
    fun h => ⟨List.forall_mem_cons.mpr ⟨h.1, h.2.selects⟩, h.2.exprs⟩⟩

theorem Body.definesInOrder_setOp (left right : Body) (op : SetOperator) :
    (Body.setOp left op right).DefinesInOrder ↔ left.DefinesInOrder ∧ right.DefinesInOrder := by
  rw [DefinesInOrder, Body.selects_setOp, Body.nodesInOrder_setOp, inOrder_append]
  rfl

theorem Body.definesInOrder_nested (s : Statement) :
    (Body.nested s).DefinesInOrder ↔ s.DefinesInOrder := by
  rw [DefinesInOrder, Body.selects_nested, Body.nodesInOrder_nested]
  rfl

theorem Expr.definesInOrder_iff (e : Expr) :
    e.DefinesInOrder ↔ e.StatementLeads
      ∧ ∀ p ∈ e.parts, p.elim Expr.DefinesInOrder Statement.DefinesInOrder := by
  have hparts := @inOrder_parts Expr Statement e.parts Expr.selects Statement.selects
    Expr.nodesInOrder Statement.nodesInOrder
  rw [e.rights_parts, e.lefts_parts, ← e.selects_eq] at hparts
  have hnodes : e.nodesInOrder
      = e :: e.parts.flatMap fun p => p.elim Expr.nodesInOrder Statement.nodesInOrder := by
    rw [Expr.nodesInOrder_eq, parts, List.flatMap_append, List.flatMap_map, List.flatMap_map]
    rfl
  rw [DefinesInOrder, hnodes]
  refine Iff.trans ?_ (and_congr_right' hparts)
  exact ⟨fun h => ⟨h.exprs e List.mem_cons_self,
      h.selects, fun x hx => h.exprs x (List.mem_cons_of_mem _ hx)⟩,
    fun h => ⟨h.2.selects, List.forall_mem_cons.mpr ⟨h.1, h.2.exprs⟩⟩⟩

/-! ## Every tree -/

theorem Source.reorders_ctes {t : Source}
    (h : ∀ s ∈ t.statement?, Reorders s.DefinesInOrder s.allCtes s.ctesInOrder) :
    Reorders t.DefinesInOrder t.allCtes t.ctesInOrder := by
  cases t with
  | table path n a =>
    refine (Reorders.refl []).congr ⟨fun _ => ⟨fun q hq => ?_, fun e he => ?_⟩, fun _ => trivial⟩
    · cases hq
    · cases he
  | subquery s a =>
    have hs := h s rfl
    simpa [DefinesInOrder, Statement.DefinesInOrder, Source.allCtes, ctesInOrder, selects,
      nodesInOrder, statement?] using hs

mutual

/-- The definitions below an expression, collected and printed. -/
theorem Expr.reorders_ctes (e : Expr) : Reorders e.DefinesInOrder e.allCtes e.ctesInOrder := by
  rw [Expr.allCtes_eq, Expr.ctesInOrder_eq]
  refine (Reorders.parts (fun c hc => ?_) fun s hs => ?_).congr e.definesInOrder_iff.symm
  · exact Expr.reorders_ctes c
  · exact Statement.reorders_ctes s
termination_by sizeOf e
decreasing_by
  · exact Expr.sizeOf_lt_of_mem_children (by simpa [Expr.parts] using hc)
  · exact Expr.sizeOf_lt_of_statement? (by simpa [Expr.parts] using hs)

/-- The definitions of a body, collected and printed. -/
theorem Body.reorders_ctes (b : Body) : Reorders b.DefinesInOrder b.allCtes b.ctesInOrder := by
  match b with
  | .select q =>
    rw [Body.allCtes_parts, Body.ctesInOrder_select]
    refine (Reorders.parts (fun e he => ?_) fun t ht => ?_).congr
      (Body.definesInOrder_select q).symm
    · exact Expr.reorders_ctes e
    · exact Source.reorders_ctes fun s hs => Statement.reorders_ctes s
  | .setOp l op r =>
    rw [Body.allCtes_setOp, Body.ctesInOrder_setOp]
    exact ((Body.reorders_ctes l).append (Body.reorders_ctes r)).congr
      (Body.definesInOrder_setOp l r op).symm
  | .nested s =>
    rw [Body.allCtes_nested, Body.ctesInOrder_nested]
    exact (Statement.reorders_ctes s).congr (Body.definesInOrder_nested s).symm
termination_by sizeOf b
decreasing_by
  · have := Select.sizeOf_lt_of_mem_exprs (Select.mem_exprs_of_mem_parts he)
    simp +arith only [Body.select.sizeOf_spec]; omega
  · have := Source.sizeOf_lt_of_statement? hs
    have := Select.sizeOf_lt_of_mem_sources (Select.mem_sources_of_mem_parts ht)
    simp +arith only [Body.select.sizeOf_spec]; omega
  all_goals simp +arith

/-- **The collected definitions of a statement are those in printed order.** They come in that order
if the parts that are collected first are printed first, and, when no definition repeats, only
then. -/
theorem Statement.reorders_ctes (s : Statement) :
    Reorders s.DefinesInOrder s.allCtes s.ctesInOrder := by
  rw [Statement.allCtes_eq, Statement.ctesInOrder_eq]
  have hctes := Reorders.flatMap fun c (hc : c ∈ s.ctes) =>
    (Statement.reorders_ctes c.statement).cons c
  exact (hctes.append (Body.reorders_ctes s.body)).congr s.definesInOrder_iff.symm
termination_by sizeOf s
decreasing_by
  · exact Statement.sizeOf_lt_of_mem_ctes hc
  · exact s.sizeOf_body_lt

end

end Sql
