import Sql.Proofs.Placeholders
import Sql.Proofs.Reread
import Sql.Proofs.Sound

/-!
# Printed trees are read back

A sound tree need not have been read: its operands may bind too weakly and its parameters may have
values. The tree that its text is read as has neither flaw, so it is well formed, and since both
trees print the same text, the text is read as that tree unless it nests too deeply.

* `Expr.wf_reread` and its neighbours: the tree with its parentheses put in is well formed.
* `Expr.parseExpression_of_format` and `Statement.parse_of_format`: what the text is read as.
-/

namespace Sql

/-! ## The parentheses that are put in -/

theorem guarded_wf {e : Expr} (h : ∀ n, e.Wf True False n) (strength : Nat) (onRight : Bool)
    (n : Nat) : (guarded strength onRight e).Wf True False n := by
  unfold guarded
  split
  · rw [Expr.Wf]
    exact ⟨False.elim, h _⟩
  · exact h n

theorem le_strength_guarded {strength : Nat} (h : strength < strengthAtom) (onRight : Bool)
    (e : Expr) : strength ≤ (guarded strength onRight e).strength := by
  unfold guarded
  split
  · exact Nat.le_of_lt h
  · next hstrong =>
    simp only [Bool.or_eq_true, decide_eq_true_eq, not_or] at hstrong
    omega

theorem lt_strength_guarded {strength : Nat} (h : strength < strengthAtom) (e : Expr) :
    strength < (guarded strength true e).strength := by
  unfold guarded
  split
  · exact h
  · next hstrong =>
    simp only [Bool.true_and, Bool.or_eq_true, decide_eq_true_eq, beq_iff_eq, not_or] at hstrong
    omega

/-! ## Lists -/

theorem rereadList_eq (es : List Expr) : rereadList es = es.map Expr.reread := by
  induction es with
  | nil => rfl
  | cons e es ih => rw [rereadList, ih, List.map_cons]

theorem rereadBranches_eq (bs : List Branch) :
    rereadBranches bs = bs.map fun b => ⟨b.condition.reread, b.result.reread⟩ := by
  induction bs with
  | nil => rfl
  | cons b bs ih =>
    obtain ⟨c, r⟩ := b
    rw [rereadBranches, ih, List.map_cons]

theorem rereadOrder_eq (os : List OrderItem) :
    rereadOrder os = os.map fun o => { o with expr := o.expr.reread } := by
  induction os with
  | nil => rfl
  | cons o os ih =>
    obtain ⟨e, d, n⟩ := o
    rw [rereadOrder, ih, List.map_cons]

theorem rereadItems_eq (is : List SelectItem) :
    rereadItems is = is.map fun i => { i with expr := i.expr.reread } := by
  induction is with
  | nil => rfl
  | cons i is ih =>
    obtain ⟨e, a⟩ := i
    rw [rereadItems, ih, List.map_cons]

theorem rereadSource?_eq (t : Option Source) : rereadSource? t = t.map Source.reread := by
  cases t <;> rfl

theorem rereadJoins_eq (js : List Join) :
    rereadJoins js = js.map fun j => ⟨j.kind, j.right.reread, j.constraint.reread⟩ := by
  induction js with
  | nil => rfl
  | cons j js ih =>
    obtain ⟨kind, right, constraint⟩ := j
    rw [rereadJoins, ih, List.map_cons]

theorem rereadCtes_eq (cs : List Cte) :
    rereadCtes cs = cs.map fun c => { c with statement := c.statement.reread } := by
  induction cs with
  | nil => rfl
  | cons c cs ih =>
    obtain ⟨name, columns, s⟩ := c
    rw [rereadCtes, ih, List.map_cons]

/-! ## What stays -/

@[simp] theorem Expr.isStar_reread (e : Expr) : e.reread.isStar = e.isStar := by
  cases e with
  | cast e type short => cases short <;> rfl
  | _ => rfl

@[simp] theorem Source.effectiveName_reread (t : Source) :
    t.reread.effectiveName = t.effectiveName := by
  cases t <;> rfl

theorem Body.isTerm_reread (b : Body) : b.reread.isTerm = b.isTerm := by
  cases b <;> rfl

theorem Body.startsBare_reread (b : Body) : b.reread.startsBare = b.startsBare := by
  fun_induction startsBare b with
  | case1 q => rfl
  | case2 l op r ih => rw [reread, startsBare, ih]
  | case3 s => rfl

theorem Statement.startsBare_reread (s : Statement) : s.reread.startsBare = s.startsBare := by
  obtain ⟨w, b⟩ := s
  unfold startsBare
  rw [reread]
  dsimp only
  rw [Body.startsBare_reread]
  rcases w with _ | ⟨r, cs⟩ <;> rfl

/-! ## Well-formed trees -/

/-- The tree that the text is read as is well formed, however deep. -/
def Expr.ReadsBack (e : Expr) : Prop := ∀ n, e.reread.Wf True False n

/-- The same for a statement. -/
def Statement.ReadsBack (s : Statement) : Prop := ∀ n, s.reread.Wf True False n

theorem exprsWf_rereadList {es : List Expr} (h : ∀ e ∈ es, e.ReadsBack) (n : Nat) :
    exprsWf True False n (rereadList es) := by
  rw [rereadList_eq, exprsWf_iff, List.forall_mem_map]
  exact fun e he => ⟨False.elim, h e he _⟩

theorem optionWf_reread? {o : Option Expr} (h : ∀ e ∈ o, e.ReadsBack) (n : Nat) :
    optionWf True False n (reread? o) := by
  cases o with
  | none =>
    rw [reread?, optionWf]
    trivial
  | some e =>
    rw [reread?, optionWf]
    exact ⟨False.elim, h e rfl _⟩

theorem orderWf_rereadOrder {os : List OrderItem} (h : ∀ o ∈ os, o.expr.ReadsBack) (n : Nat) :
    orderWf True False n (rereadOrder os) := by
  rw [rereadOrder_eq, orderWf_iff, List.forall_mem_map]
  exact fun o ho => ⟨False.elim, h o ho _⟩

theorem Expr.readsBack_of_parts {e : Expr} (hsound : e.Sound True)
    (hnamed : ∀ p ∈ e.param?.toList, p.name ≠ none) (hchildren : ∀ c ∈ e.children, c.ReadsBack)
    (hs : ∀ s ∈ e.statement?, s.ReadsBack) :
    e.ReadsBack := by
  intro n
  have hspelled : e.Spelled := hsound.2 trivial
  cases e with
  | column c =>
    rw [reread, Wf]
    exact hspelled
  | star q =>
    rw [reread, Wf]
    exact hspelled
  | literal l =>
    rw [reread, Wf]
    exact hspelled
  | param p =>
    rw [reread, Wf]
    exact ⟨rfl, hspelled, fun _ => hnamed p (by simp [param?])⟩
  | call f args distinct filter window =>
    simp only [children, List.mem_append, Option.mem_toList, List.mem_flatMap] at hchildren
    rw [reread, Wf]
    refine ⟨hspelled.1, fun hdistinct => ?_, ?_, ?_, ?_⟩
    · rw [rereadList_eq, Ne, List.map_eq_nil_iff]
      exact hspelled.2 hdistinct
    · exact exprsWf_rereadList (fun c hc => hchildren c (.inl (.inl hc))) n
    · exact optionWf_reread? (fun c hc => hchildren c (.inl (.inr hc))) n
    · cases window with
      | none =>
        rw [rereadWindow?, overWf]
        trivial
      | some w =>
        obtain ⟨partitionBy, orderBy⟩ := w
        have hwindow : ∀ c ∈ Window.exprs ⟨partitionBy, orderBy⟩, c.ReadsBack :=
          fun c hc => hchildren c (.inr ⟨_, rfl, hc⟩)
        rw [Window.exprs, List.forall_mem_append, List.forall_mem_map] at hwindow
        rw [rereadWindow?, overWf]
        exact ⟨exprsWf_rereadList hwindow.1 n, orderWf_rereadOrder hwindow.2 n⟩
  | binary l op r =>
    have hatom : op.strength < strengthAtom := by cases op <;> decide
    simp only [children, List.forall_mem_cons] at hchildren
    rw [reread, Wf]
    exact ⟨guarded_wf hchildren.1 _ _ n, guarded_wf hchildren.2.1 _ _ n,
      le_strength_guarded hatom _ _, lt_strength_guarded hatom _⟩
  | unary op e =>
    have hatom : op.strength < strengthAtom := by cases op <;> decide
    simp only [children, List.forall_mem_cons] at hchildren
    rw [reread, Wf]
    exact ⟨False.elim, guarded_wf hchildren.1 _ _ _, le_strength_guarded hatom _ _⟩
  | isNull e negated =>
    simp only [children, List.forall_mem_cons] at hchildren
    rw [reread, Wf]
    exact ⟨guarded_wf hchildren.1 _ _ n, le_strength_guarded (by decide) _ _⟩
  | between e low high negated =>
    simp only [children, List.forall_mem_cons] at hchildren
    rw [reread, Wf]
    exact ⟨⟨guarded_wf hchildren.1 _ _ n, le_strength_guarded (by decide) _ _⟩,
      ⟨guarded_wf hchildren.2.1 _ _ n, le_strength_guarded (by decide) _ _⟩,
      guarded_wf hchildren.2.2.1 _ _ n, le_strength_guarded (by decide) _ _⟩
  | inList e items negated =>
    simp only [children, List.forall_mem_cons] at hchildren
    rw [reread, Wf]
    refine ⟨⟨guarded_wf hchildren.1 _ _ n, le_strength_guarded (by decide) _ _⟩, ?_,
      exprsWf_rereadList hchildren.2 n⟩
    rw [rereadList_eq, Ne, List.map_eq_nil_iff]
    exact hsound.1
  | inQuery e s negated =>
    simp only [children, List.forall_mem_cons] at hchildren
    rw [reread, Wf]
    refine ⟨⟨guarded_wf hchildren.1 _ _ n, le_strength_guarded (by decide) _ _⟩, False.elim,
      hs s rfl _, ?_⟩
    rw [Statement.startsBare_reread]
    exact hspelled
  | hasRows s =>
    rw [reread, Wf]
    exact ⟨False.elim, hs s rfl _⟩
  | subquery s =>
    rw [reread, Wf, Statement.startsBare_reread]
    exact ⟨False.elim, hs s rfl _, hspelled⟩
  | case scrutinee branches fallback =>
    simp only [children, List.mem_append, Option.mem_toList, List.mem_flatMap, List.mem_cons,
      List.not_mem_nil, or_false] at hchildren
    rw [reread, Wf]
    refine ⟨optionWf_reread? (fun c hc => hchildren c (.inl (.inl hc))) n, ?_, ?_,
      optionWf_reread? (fun c hc => hchildren c (.inr hc)) n⟩
    · rw [rereadBranches_eq, Ne, List.map_eq_nil_iff]
      exact hsound.1
    · rw [rereadBranches_eq, branchesWf_iff, List.forall_mem_map]
      exact fun b hb => ⟨False.elim, hchildren _ (.inl (.inr ⟨b, hb, .inl rfl⟩)) _,
        hchildren _ (.inl (.inr ⟨b, hb, .inr rfl⟩)) _⟩
  | cast e type short =>
    simp only [children, List.forall_mem_cons] at hchildren
    cases short with
    | true =>
      rw [reread, Wf]
      exact ⟨⟨guarded_wf hchildren.1 _ _ n, le_strength_guarded (by decide) _ _⟩, hspelled⟩
    | false =>
      rw [reread, Wf]
      exact ⟨⟨False.elim, hchildren.1 _⟩, hspelled⟩
  | paren e =>
    simp only [children, List.forall_mem_cons] at hchildren
    rw [reread, Wf]
    exact ⟨False.elim, hchildren.1 _⟩

theorem Source.wf_reread_of_parts {t : Source} (hspelled : t.Spelled)
    (hs : ∀ s ∈ t.statement?, s.ReadsBack) (n : Nat) : t.reread.Wf True False n := by
  cases t with
  | table path name a =>
    rw [reread, Wf]
    exact hspelled
  | subquery s a =>
    rw [reread, Wf]
    exact ⟨⟨False.elim, hs s rfl _⟩, hspelled⟩

theorem JoinConstraint.wf_reread_of_parts {c : JoinConstraint} (hne : c ≠ .shared [])
    (hshared : AreNames c.sharedColumns) (he : ∀ e ∈ c.condition?, e.ReadsBack) (n : Nat) :
    c.reread.Wf True False n := by
  cases c with
  | on e =>
    rw [reread, Wf]
    exact ⟨False.elim, he e rfl _⟩
  | shared columns =>
    rw [reread, Wf]
    exact ⟨fun h => hne (by rw [h]), hshared⟩
  | none =>
    rw [reread, Wf]
    trivial

theorem JoinKind.takes_reread {kind : JoinKind} {c : JoinConstraint} (h : kind.Takes c) :
    kind.Takes c.reread := by
  cases c <;> simpa [JoinKind.Takes, JoinConstraint.reread] using h

theorem Select.wf_reread_of_parts {q : Select} (hsound : q.Sound True)
    (hexprs : ∀ e ∈ q.exprs, e.ReadsBack)
    (hsources : ∀ t ∈ q.sources, ∀ s ∈ t.statement?, s.ReadsBack) (n : Nat) :
    q.reread.Wf True False n := by
  obtain ⟨distinct, items, source, joins, filter, groupBy, having, orderBy, limit, offset⟩ := q
  obtain ⟨⟨hne, hstar, hfirst, hdiffer, hsuit⟩, hspelled⟩ := hsound
  obtain ⟨hitems, hnames, hshared⟩ := hspelled trivial
  simp only [exprs, List.forall_mem_append, List.forall_mem_map, Option.mem_toList] at hexprs
  obtain ⟨⟨⟨⟨⟨⟨⟨hexprs, hconditions⟩, hfilter⟩, hgroupBy⟩, hhaving⟩, horderBy⟩, hlimit⟩, hoffset⟩ :=
    hexprs
  have hjoins : ∀ j ∈ joins, j.right ∈ Select.sources
      ⟨distinct, items, source, joins, filter, groupBy, having, orderBy, limit, offset⟩ :=
    fun j hj => List.mem_append_right _ (List.mem_map_of_mem hj)
  rw [reread, Wf]
  refine ⟨⟨?_, ?_⟩, ⟨?_, ?_, ?_, ?_⟩, optionWf_reread? hfilter n, exprsWf_rereadList hgroupBy n,
    optionWf_reread? hhaving n, orderWf_rereadOrder horderBy n, optionWf_reread? hlimit n,
    optionWf_reread? hoffset n⟩
  · rw [rereadItems_eq, Ne, List.map_eq_nil_iff]
    exact hne
  · rw [rereadItems_eq, itemsWf_iff, List.forall_mem_map]
    refine fun i hi => ⟨⟨False.elim, hexprs i hi _⟩, hitems i hi, fun h => hstar i hi ?_⟩
    rwa [Expr.isStar_reread] at h
  · cases source with
    | none =>
      rw [rereadSource?, fromWf]
      trivial
    | some t =>
      have ht : t ∈ Select.sources ⟨distinct, items, some t, joins, filter, groupBy, having,
          orderBy, limit, offset⟩ := List.mem_append_left _ (by simp)
      rw [rereadSource?, fromWf]
      exact Source.wf_reread_of_parts (hnames t ht) (hsources t ht) n
  · rw [rereadJoins_eq, joinsWf_iff, List.forall_mem_map]
    intro j hj
    refine ⟨Source.wf_reread_of_parts (hnames _ (hjoins j hj)) (hsources _ (hjoins j hj)) n,
      JoinConstraint.wf_reread_of_parts (hsuit j hj).2 (hshared j hj) (fun e he => ?_) n,
      JoinKind.takes_reread (hsuit j hj).1⟩
    exact hconditions e (List.mem_filterMap.mpr ⟨j, hj, he⟩)
  · rw [rereadSource?_eq, rereadJoins_eq, Option.map_eq_none_iff, List.map_eq_nil_iff]
    exact hfirst
  · rw [rereadSource?_eq, rereadJoins_eq]
    simp only [Select.sources, List.map_append, List.map_map] at hdiffer
    cases source <;>
      simpa [Option.toList, Function.comp_def] using hdiffer

theorem Body.wf_reread_setOp {l r : Body} {op : SetOperator} (h : (Body.setOp l op r).GroupsLeft)
    {n : Nat} (hl : l.reread.Wf True False n) (hr : r.reread.Wf True False n) :
    (Body.setOp l op r).reread.Wf True False n := by
  rw [reread, Wf, Body.isTerm_reread]
  exact ⟨hl, hr, h.2⟩

theorem Statement.wf_reread_of_parts {s : Statement} (hsound : s.Sound True)
    (hctes : ∀ c ∈ s.ctes, c.statement.ReadsBack) {n : Nat}
    (hbody : s.body.reread.Wf True False n) : s.reread.Wf True False n := by
  obtain ⟨w, b⟩ := s
  obtain ⟨⟨hne, hdiffer, -⟩, hspelled⟩ := hsound
  have hspelled := hspelled trivial
  rw [reread, Wf]
  refine ⟨?_, hbody⟩
  cases w with
  | none =>
    rw [rereadWith?, withWf]
    trivial
  | some w =>
    obtain ⟨recursive, cs⟩ := w
    rw [rereadWith?, withWf, rereadCtes_eq, ctesWf_iff, List.forall_mem_map, List.map_map]
    refine ⟨?_, fun c hc => ?_, hdiffer⟩
    · rw [Ne, List.map_eq_nil_iff]
      exact hne _ rfl
    · exact ⟨(hspelled c hc).1, (hspelled c hc).2, False.elim, hctes c hc _⟩

mutual

/-- **The tree that the text of a sound expression is read as is well formed.** -/
theorem Expr.readsBack (e : Expr) (h : e.AllSound True) (hnamed : ∀ p ∈ e.params, p.name ≠ none) :
    e.ReadsBack := by
  obtain ⟨hsound, hchildren, hs⟩ := Expr.allSound_iff.mp h
  rw [Expr.params_eq, List.forall_mem_append, List.forall_mem_append, List.forall_mem_flatMap,
    List.forall_mem_flatMap] at hnamed
  refine Expr.readsBack_of_parts hsound hnamed.1 (fun c hc => ?_) fun s hmem => ?_
  · exact Expr.readsBack c (hchildren c hc) (hnamed.2.1 c hc)
  · exact Statement.readsBack s (hs s hmem) (hnamed.2.2 s (by simpa using hmem))
termination_by sizeOf e
decreasing_by
  · exact Expr.sizeOf_lt_of_mem_children hc
  · exact Expr.sizeOf_lt_of_statement? hmem

theorem Body.wf_reread (b : Body) (h : b.AllSound True) (hgroups : b.GroupsLeft)
    (hnamed : ∀ p ∈ b.params, p.name ≠ none) (n : Nat) : b.reread.Wf True False n := by
  match b with
  | .select q =>
    obtain ⟨hsound, hexprs, hsources⟩ := Select.allSound_iff.mp h
    rw [Body.params_select, List.forall_mem_flatMap] at hnamed
    rw [Body.reread, Body.Wf]
    refine Select.wf_reread_of_parts hsound (fun e he => ?_) (fun t ht s hs => ?_) n
    · exact Expr.readsBack e (hexprs e he) (hnamed _ (Select.inl_mem_parts.mpr he))
    · have ht' := hnamed _ (Select.inr_mem_parts.mpr ht)
      rw [Sum.elim_inr, Source.params_eq, List.forall_mem_flatMap] at ht'
      exact Statement.readsBack s (hsources t ht s hs) (ht' s (by simpa using hs))
  | .setOp l op r =>
    obtain ⟨hl, hr⟩ := Body.allSound_setOp.mp h
    rw [Body.params_setOp, List.forall_mem_append] at hnamed
    have hterm : r.GroupsLeft := by
      cases r with
      | setOp l' op' r' => exact absurd hgroups.2 Bool.false_ne_true
      | _ => trivial
    exact Body.wf_reread_setOp hgroups (Body.wf_reread l hl hgroups.1 hnamed.1 n)
      (Body.wf_reread r hr hterm hnamed.2 n)
  | .nested s =>
    rw [Body.params_nested] at hnamed
    rw [Body.reread, Body.Wf]
    exact ⟨False.elim, Statement.readsBack s (Body.allSound_nested.mp h) hnamed _⟩
termination_by sizeOf b
decreasing_by
  · have := Select.sizeOf_lt_of_mem_exprs he
    simp +arith only [Body.select.sizeOf_spec]; omega
  · have := Source.sizeOf_lt_of_statement? hs
    have := Select.sizeOf_lt_of_mem_sources ht
    simp +arith only [Body.select.sizeOf_spec]; omega
  all_goals simp +arith

/-- **The tree that the text of a sound statement is read as is well formed.** -/
theorem Statement.readsBack (s : Statement) (h : s.AllSound True)
    (hnamed : ∀ p ∈ s.params, p.name ≠ none) : s.ReadsBack := by
  intro n
  obtain ⟨hsound, hctes, hbody⟩ := Statement.allSound_iff.mp h
  rw [Statement.params_eq, List.forall_mem_append, List.forall_mem_flatMap] at hnamed
  refine Statement.wf_reread_of_parts hsound (fun c hc => ?_)
    (Body.wf_reread s.body hbody hsound.1.groups_left hnamed.2 n)
  exact Statement.readsBack c.statement (hctes c hc) (hnamed.1 c hc)
termination_by sizeOf s
decreasing_by
  · exact Statement.sizeOf_lt_of_mem_ctes hc
  · exact s.sizeOf_body_lt

end

/-! ## What is printed -/

theorem JoinKind.condition?_of_suits {kind : JoinKind} {c : JoinConstraint} (h : kind.Suits c)
    (hcomma : kind = .comma) : c.condition? = none := by
  rw [h.1.mp (.inl hcomma)]
  rfl

theorem Select.WellFormed.joinsPrinted {q : Select} (h : q.WellFormed) : q.JoinsPrinted :=
  ⟨h.joins_of_none, fun j hj => JoinKind.condition?_of_suits (h.joins_suit j hj)⟩

/-- Only named parameters are printed. -/
theorem named_of_formatFragments {config : DialectConfig} {fs : List Fragment} {out : Formatted}
    (h : formatFragments config fs = .ok out) : ∀ p ∈ Fragment.params fs, p.name ≠ none := by
  intro p hp hname
  obtain ⟨e, he⟩ := Collected.placeAll_anonymous config hp hname .empty
  unfold formatFragments at h
  rw [Fragment.render_eq, he] at h
  cases hv : config.validate with
  | error e =>
    rw [hv] at h
    simp at h
  | ok u =>
    rw [hv] at h
    simp [Except.map] at h

/-- Fragments that differ in values only print the same text. -/
theorem formatFragments_unbound {config : DialectConfig} (hconfig : config.Readable)
    {fs gs : List Fragment} (hgs : gs = fs.map Fragment.unbound) {out out' : Formatted}
    (h : formatFragments config fs = .ok out) (h' : formatFragments config gs = .ok out') :
    out'.sql = out.sql := by
  rw [← String.toList_inj, formatFragments_toList hconfig h, formatFragments_toList hconfig h', hgs,
    Fragment.chars_map_unbound]

/-- Every parameter of an expression that is printed has a name. -/
theorem Expr.named_of_format {e : Expr} (h : e.AllSound True) {config : DialectConfig}
    {depth : Nat} {out : Formatted}
    (hformat : formatFragments config (e.fragments depth false) = .ok out) :
    ∀ p ∈ e.params, p.name ≠ none := by
  rw [← Expr.printsParams e (fun q hq => (h.2.1 q hq).1.joinsPrinted) depth false]
  exact named_of_formatFragments hformat

/-- Every parameter of a statement that is printed has a name. -/
theorem Statement.named_of_format {s : Statement} (h : s.AllSound True) {config : DialectConfig}
    {out : Formatted} (hformat : s.format config = .ok out) : ∀ p ∈ s.params, p.name ≠ none := by
  rw [← Statement.printsParams s (fun q hq => (h.2.1 q hq).1.joinsPrinted) 0]
  exact named_of_formatFragments hformat

/-- The text of a sound expression is read as its rereading, unless it nests too deeply. -/
theorem Expr.parse_reread_of_format {e : Expr} (h : e.AllSound True) {config : DialectConfig}
    (hconfig : config.Readable) {out : Formatted}
    (hformat : formatFragments config (e.fragments 0 false) = .ok out) :
    e.reread.format config = .ok out.sql
      ∧ ((∃ offset, parseExpression out.sql
          = .error (Error.inText out.sql offset "statement nested too deeply"))
        ∨ parseExpression out.sql = .ok e.reread) := by
  have hwf : e.reread.Wf True False (Parser.maxNesting - 1) :=
    Expr.readsBack e h (Expr.named_of_format h hformat) _
  obtain ⟨out', hout', hlex⟩ := (Expr.spells hconfig 0 false e.reread hwf).format hconfig
  have hsql : out'.sql = out.sql :=
    formatFragments_unbound hconfig (Expr.fragments_reread 0 false e) hformat hout'
  rw [hsql] at hlex
  refine ⟨by rw [Expr.format, hout', ← hsql]; rfl, ?_⟩
  rcases parseExpression_of_lex hwf hlex with hread | ⟨-, hdeep⟩
  · exact .inr hread
  · exact .inl hdeep

/-- The text of a sound statement is read as its rereading, unless it nests too deeply. -/
theorem Statement.parse_reread_of_format {s : Statement} (h : s.AllSound True)
    {config : DialectConfig} (hconfig : config.Readable) {out : Formatted}
    (hformat : s.format config = .ok out) :
    (∃ offset, parse out.sql
        = .error (Error.inText out.sql offset "statement nested too deeply"))
      ∨ parse out.sql = .ok s.reread := by
  have hwf : s.reread.Wf True False (Parser.maxNesting - 1) :=
    Statement.readsBack s h (Statement.named_of_format h hformat) _
  obtain ⟨out', hout', hlex⟩ := (Statement.spells hconfig 0 s.reread hwf).format hconfig
  rw [formatFragments_unbound hconfig (Statement.fragments_reread 0 s) hformat hout'] at hlex
  rcases parse_of_lex hwf hlex with hread | ⟨-, hdeep⟩
  · exact .inr hread
  · exact .inl hdeep

/-- **The text of a sound expression is read as the expression,** parentheses and values apart,
unless it nests too deeply. -/
theorem Expr.parseExpression_of_format {e : Expr} (h : e.AllSound True) {config : DialectConfig}
    (hconfig : config.Readable) {text : String} (hformat : e.format config = .ok text) :
    (∃ offset, parseExpression text
        = .error (Error.inText text offset "statement nested too deeply"))
      ∨ ∃ e', parseExpression text = .ok e' ∧ e'.bare = (e.mapParams Param.unbound).bare
        ∧ e'.format config = .ok text := by
  unfold Expr.format at hformat
  cases hout : formatFragments config (e.fragments 0 false) with
  | error f =>
    rw [hout] at hformat
    simp [Except.map] at hformat
  | ok out =>
    rw [hout] at hformat
    obtain rfl : out.sql = text := Except.ok.inj hformat
    obtain ⟨hagain, hread⟩ := Expr.parse_reread_of_format h hconfig hout
    exact hread.imp_right fun hread => ⟨e.reread, hread, Expr.bare_reread e, hagain⟩

/-- **The text of a sound statement is read as the statement,** parentheses and values apart,
unless it nests too deeply. -/
theorem Statement.parse_of_format {s : Statement} (h : s.AllSound True) {config : DialectConfig}
    (hconfig : config.Readable) {out : Formatted} (hformat : s.format config = .ok out) :
    (∃ offset, parse out.sql
        = .error (Error.inText out.sql offset "statement nested too deeply"))
      ∨ ∃ s', parse out.sql = .ok s' ∧ s'.bare = (s.mapParams Param.unbound).bare :=
  (Statement.parse_reread_of_format h hconfig hformat).imp_right fun hread =>
    ⟨s.reread, hread, Statement.bare_reread s⟩

/-! ## Expressions without statements -/

theorem Expr.allSound_of_flat {spelled : Prop} (e : Expr)
    (h : ∀ x ∈ e.nodes, x.statement? = none ∧ x.Sound spelled) : e.AllSound spelled := by
  rw [Expr.nodes_eq, List.forall_mem_cons, List.forall_mem_flatMap] at h
  obtain ⟨⟨hflat, hsound⟩, hchildren⟩ := h
  refine Expr.allSound_iff.mpr ⟨hsound, fun c hc => ?_, by simp [hflat]⟩
  exact Expr.allSound_of_flat c (hchildren c hc)
termination_by sizeOf e
decreasing_by exact Expr.sizeOf_lt_of_mem_children hc

/-- Simple parts that are no stop words make the name of a function. -/
theorem isFunctionName_dotted {parts : List String} (hne : parts ≠ [])
    (h : ∀ part ∈ parts, isSimpleName part = true ∧ isStopWord part = false) :
    IsFunctionName True (dotted parts) := by
  refine ⟨parts, hne, fun part hpart => ?_, ?_, fun _ => .inl fun part hpart => (h part hpart).2⟩
  · rintro rfl
    exact absurd (h _ hpart).1 (by decide)
  · have hwritten : ∀ part ∈ parts, writtenPart part = id part := fun part hpart => by
      rw [writtenPart, if_pos (h part hpart).1, id]
    rw [List.map_congr_left hwritten, List.map_id]

/-- **Parentheses that precedence asks for are enough.** An expression of whatever operators, without
statements in it, is printed so that it is read back: what is read has the same operators on the
same operands, and prints the same text again. -/
theorem Expr.parseExpression_format {e : Expr} (hflat : ∀ x ∈ e.nodes, x.statement? = none)
    (hfilled : ∀ x ∈ e.nodes, x.Filled) (hspelled : ∀ x ∈ e.nodes, x.Spelled) {text : String}
    (hformat : e.format Dialect.generic.config = .ok text) :
    (∃ offset, parseExpression text
        = .error (Error.inText text offset "statement nested too deeply"))
      ∨ ∃ e', parseExpression text = .ok e' ∧ e'.bare = (e.mapParams Param.unbound).bare
        ∧ e'.format Dialect.generic.config = .ok text :=
  Expr.parseExpression_of_format
    (Expr.allSound_of_flat e fun x hx => ⟨hflat x hx, hfilled x hx, fun _ => hspelled x hx⟩)
    (DialectConfig.readable_of_writesLike (by decide) ⟨rfl, rfl, rfl⟩ rfl) hformat

/-- A tree whose operands all bind too weakly, with two signs in a row. -/
def weakOperands : Expr :=
  .isNull (.unary .not (.binary (.name "a") .or
    (.between (.unary .minus (.unary .minus (.apply "f" [.param (.bound "x" (.nat 1))])))
      (.binary (.name "b") .and (.literal (.number "1"))) (.name "c") false))) true

theorem parseExpression_format_weakOperands :
    (∀ x ∈ weakOperands.nodes, x.statement? = none) ∧ (∀ x ∈ weakOperands.nodes, x.Filled)
      ∧ (∀ x ∈ weakOperands.nodes, x.Spelled)
      ∧ ∃ text, weakOperands.format Dialect.generic.config = .ok text
        ∧ ((∃ offset, parseExpression text
              = .error (Error.inText text offset "statement nested too deeply"))
            ∨ ∃ e', parseExpression text = .ok e'
              ∧ e'.bare = (weakOperands.mapParams Param.unbound).bare
              ∧ e'.format Dialect.generic.config = .ok text) := by
  have hflat : ∀ x ∈ weakOperands.nodes, x.statement? = none := by
    simp [weakOperands, Expr.nodes_eq, Expr.children, Expr.statement?, Expr.apply, Expr.name]
  have hfilled : ∀ x ∈ weakOperands.nodes, x.Filled := by
    simp [weakOperands, Expr.nodes_eq, Expr.children, Expr.Filled, Expr.apply, Expr.name]
  have hspelled : ∀ x ∈ weakOperands.nodes, x.Spelled := by
    have hf : IsFunctionName True "f" := @isFunctionName_dotted ["f"] (by simp) (by decide)
    have hone : IsNumber "1" := ⟨by decide, '1', [], by decide, by decide⟩
    have hx : IsParamName "x" := ⟨'x', [], by decide, by decide, by decide⟩
    simp [weakOperands, Expr.nodes_eq, Expr.children, Expr.Spelled, Expr.apply, Expr.name, AreNames,
      Literal.Wf, Param.bound, hf, hone, hx]
  obtain ⟨text, hformat, -⟩ := exists_ok_of_any
    (show (weakOperands.format Dialect.generic.config).toOption.any (fun _ => true) = true by
      decide +kernel)
  exact ⟨hflat, hfilled, hspelled, text, hformat,
    Expr.parseExpression_format hflat hfilled hspelled hformat⟩

end Sql
