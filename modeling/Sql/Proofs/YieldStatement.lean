import Sql.Proofs.ReadStatement
import Sql.Proofs.YieldExpr

/-!
# Statements that are read are well formed

The parsers of the clauses, sources and set operations hand back well-formed parts, given that those
of the next level in do. The bound on nesting is what the parsers recurse on, so by induction on it
every text that is read is a well-formed tree (`wf_of_parse`).
-/

namespace Sql.Parser

section

variable {inner : Inner} {n : Nat} {β : Type} {R : β → Prop}

/-! ## Select list and sources -/

theorem yields_selectItem (h : YieldsWf inner n) :
    Yields (selectItem inner) fun i => WfInside n i.expr ∧ IsAlias i.asName
      ∧ (i.expr.isStar = true → i.asName = none) := by
  refine Yields.bind yields_isNextKeyword fun _ _ => Yields.bind yields_isNext fun _ _ =>
    Yields.ite (fun _ => yields_unexpected) fun _ => Yields.bind h.expr fun e he =>
      Yields.ite (fun _ => ?_) fun hstar => ?_
  · exact Yields.pure ⟨he, fun a ha => by simp at ha, fun _ => rfl⟩
  · exact Yields.bind yields_optionalAlias fun a ha =>
      Yields.pure ⟨he, ha, fun h => absurd h hstar⟩

theorem yields_tableParts (k : Nat) : Yields (tableParts k) AreNames := by
  induction k with
  | zero => exact Yields.pure fun m hm => by simp at hm
  | succ k ih =>
    refine Yields.flag yields_eat ?_ (Yields.pure fun m hm => by simp at hm)
    exact Yields.bind yields_name fun m hm => Yields.bind ih fun ms hms =>
      Yields.pure (List.forall_mem_cons.mpr ⟨hm, hms⟩)

theorem yields_parenStatement (h : YieldsWf inner n) {what : String} {opened : Nat} :
    Yields (parenStatement inner what opened) fun s =>
      (True → 0 < n) ∧ s.Wf False True (n - 1) :=
  Yields.bind (Yields.bind yields_isNextKeyword fun _ _ => Yields.bind yields_isNextKeyword
    fun _ _ => Yields.pure trivial) fun _ (_ : True) => Yields.bind yields_isNext fun _ _ =>
    Yields.ite (fun _ => Yields.bind h.statement fun _ hs => Yields.closeParen (Yields.pure hs))
      fun _ => yields_unexpected

theorem yields_source (h : YieldsWf inner n) :
    Yields (source inner) (Source.Wf False True n) := by
  refine Yields.peek fun _ _ => Yields.flag yields_eat ?_ ?_
  · refine Yields.bind (yields_parenStatement h) fun s hs => Yields.peek fun _ _ =>
      Yields.bind yields_optionalAlias fun a ha => ?_
    cases a with
    | none => exact yields_failAt
    | some a =>
      refine Yields.pure ?_
      rw [Source.Wf]
      exact ⟨hs, ha a rfl⟩
  · refine Yields.bind yields_name fun first hfirst => Yields.remaining fun k =>
      Yields.bind (yields_tableParts k) fun parts hparts =>
        Yields.bind yields_optionalAlias fun a ha => Yields.pure ?_
    rw [Source.Wf, List.getLastD_eq_getLast?, List.getLast?_eq_getLast_of_ne_nil (by simp),
      Option.getD_some, List.dropLast_append_getLast]
    exact ⟨List.forall_mem_cons.mpr ⟨hfirst, hparts⟩, ha⟩

/-- A source that is handed back has another name than those before it. -/
theorem yields_newSource (h : YieldsWf inner n) (seen : List String) :
    Yields (newSource inner seen) fun s =>
      s.Wf False True n ∧ nameIn s.effectiveName seen = false := by
  refine Yields.peek fun _ _ => Yields.bind (yields_source h) fun s hs =>
    Yields.ite (fun _ => yields_failAt) fun hname => Yields.pure ⟨hs, ?_⟩
  simpa using hname

/-! ## Joins -/

theorem yields_joinSide : Yields joinSide? fun k => k ≠ some .comma := by
  refine Yields.flag yields_isNextKeyword (Yields.pure (by simp)) ?_
  refine Yields.flag yields_eatKeyword (Yields.pure (by simp)) ?_
  refine Yields.flag yields_eatKeyword
    (Yields.bind (Yields.discard yields_eatKeyword) fun _ _ => Yields.pure (by simp)) ?_
  refine Yields.flag yields_eatKeyword
    (Yields.bind (Yields.discard yields_eatKeyword) fun _ _ => Yields.pure (by simp)) ?_
  refine Yields.flag yields_eatKeyword
    (Yields.bind (Yields.discard yields_eatKeyword) fun _ _ => Yields.pure (by simp)) ?_
  exact Yields.flag yields_eatKeyword (Yields.pure (by simp)) (Yields.pure (by simp))

theorem yields_joinKind : Yields joinKind? fun k => k ≠ some .comma := by
  refine Yields.bind yields_joinSide fun k hk => Yields.ite (fun _ => ?_) fun _ => Yields.pure hk
  exact Yields.expectKeyword (Yields.pure hk)

theorem yields_constraint (h : YieldsWf inner n) {start : Nat} {kind : JoinKind}
    (hkind : kind ≠ .comma) :
    Yields (constraint inner start kind) fun c => c.Wf False True n ∧ kind.Takes c := by
  refine Yields.ite (fun hcross => Yields.pure ⟨?_, ?_⟩) fun hcross => ?_
  · rw [JoinConstraint.Wf]
    trivial
  · rw [JoinKind.Takes]
    simp [hcross]
  · have htakes : ∀ c : JoinConstraint, c ≠ .none → kind.Takes c := fun c hc => by
      rw [JoinKind.Takes]
      simp [hcross, hkind, hc]
    refine Yields.flag yields_eatKeyword ?_ (Yields.flag yields_eatKeyword ?_ yields_failAt)
    · refine Yields.bind h.expr fun e he => Yields.pure ⟨?_, htakes _ (by simp)⟩
      rw [JoinConstraint.Wf]
      exact he
    · refine Yields.bind yields_nameList fun columns hcolumns =>
        Yields.pure ⟨?_, htakes _ (by simp)⟩
      rw [JoinConstraint.Wf]
      exact hcolumns

/-- The joins behind sources of those names are well formed, and all names differ. -/
structure JoinsWf (n : Nat) (seen : List String) (js : List Join) : Prop where
  wf : joinsWf False True n js
  new : ∀ j ∈ js, nameIn j.right.effectiveName seen = false
  names : NamesDiffer (js.map fun j => j.right.effectiveName)

theorem JoinsWf.nil {seen : List String} : JoinsWf n seen [] :=
  ⟨by rw [joinsWf]; trivial, by simp, List.Pairwise.nil⟩

/-- A join of a new name in front of joins that also do without that name. -/
theorem JoinsWf.cons {seen : List String} {j : Join} {js : List Join}
    (hj : j.right.Wf False True n ∧ j.constraint.Wf False True n ∧ j.kind.Takes j.constraint)
    (hname : nameIn j.right.effectiveName seen = false)
    (hjs : JoinsWf n (j.right.effectiveName :: seen) js) : JoinsWf n seen (j :: js) := by
  have hnew : ∀ j' ∈ js, sameName j'.right.effectiveName j.right.effectiveName = false
      ∧ nameIn j'.right.effectiveName seen = false := fun j' hj' => by
    have := hjs.new j' hj'
    rwa [nameIn, List.any_cons, Bool.or_eq_false_iff] at this
  refine ⟨joinsWf_iff.mpr (List.forall_mem_cons.mpr ⟨hj, joinsWf_iff.mp hjs.wf⟩),
    List.forall_mem_cons.mpr ⟨hname, fun j' hj' => (hnew j' hj').2⟩, ?_⟩
  rw [NamesDiffer, List.map_cons, List.pairwise_cons]
  refine ⟨fun m hm => ?_, hjs.names⟩
  obtain ⟨j', hj', rfl⟩ := List.mem_map.mp hm
  rw [sameName_comm]
  exact (hnew j' hj').1

theorem yields_joins (h : YieldsWf inner n) (k : Nat) (seen : List String) :
    Yields (joins inner k seen) (JoinsWf n seen) := by
  induction k generalizing seen with
  | zero => exact Yields.pure JoinsWf.nil
  | succ k ih =>
    refine Yields.peek fun _ _ => Yields.flag yields_eat ?_ (Yields.bind yields_joinKind ?_)
    · refine Yields.bind (yields_newSource h seen) fun right hright => Yields.bind (ih _)
        fun js hjs => Yields.pure (JoinsWf.cons ⟨hright.1, ?_, ?_⟩ hright.2 hjs)
      · rw [JoinConstraint.Wf]
        trivial
      · simp [JoinKind.Takes]
    · intro kind hkind
      cases kind with
      | none => exact Yields.pure JoinsWf.nil
      | some kind =>
        refine Yields.bind (yields_newSource h seen) fun right hright =>
          Yields.bind (yields_constraint h fun hcomma => hkind (by rw [hcomma])) fun c hc =>
            Yields.bind (ih _) fun js hjs => Yields.pure (JoinsWf.cons ?_ hright.2 hjs)
        exact ⟨hright.1, hc⟩

theorem yields_fromClause (h : YieldsWf inner n) :
    Yields (fromClause inner) fun r => fromWf False True n r.1 ∧ joinsWf False True n r.2
      ∧ (r.1 = none → r.2 = [])
      ∧ NamesDiffer ((r.1.toList ++ r.2.map Join.right).map Source.effectiveName) := by
  refine Yields.flag yields_eatKeyword ?_ (Yields.pure ⟨?_, ?_, fun _ => rfl, List.Pairwise.nil⟩)
  · refine Yields.bind (yields_newSource h []) fun first hfirst => Yields.remaining fun k =>
      Yields.bind (yields_joins h k _) fun js hjs => Yields.pure ⟨?_, hjs.wf, by simp, ?_⟩
    · rw [fromWf]
      exact hfirst.1
    · rw [Option.toList_some, List.singleton_append, List.map_cons, List.map_map, NamesDiffer,
        List.pairwise_cons]
      refine ⟨fun m hm => ?_, hjs.names⟩
      obtain ⟨j, hj, rfl⟩ := List.mem_map.mp hm
      have := hjs.new j hj
      rw [nameIn, List.any_cons, List.any_nil, Bool.or_false] at this
      rw [sameName_comm]
      exact this
  · rw [fromWf]
    trivial
  · rw [joinsWf]
    trivial

/-! ## The other clauses -/

theorem yields_clause (h : YieldsWf inner n) {k : String} :
    Yields (clause inner k) (optionWf False True n) :=
  Yields.flag yields_eatKeyword
    (Yields.bind h.expr fun _ he => Yields.pure (optionWf_some he)) (Yields.pure optionWf_none)

theorem yields_offsetClause (h : YieldsWf inner n) :
    Yields (offsetClause inner) (optionWf False True n) :=
  Yields.flag yields_eatKeyword (Yields.bind h.expr fun _ he =>
    Yields.bind (Yields.discard yields_eatKeyword) fun _ _ => Yields.pure (optionWf_some he))
    (Yields.pure optionWf_none)

theorem yields_page (h : YieldsWf inner n) :
    Yields (page inner) fun r => optionWf False True n r.1 ∧ optionWf False True n r.2 := by
  refine Yields.bind (yields_clause h) fun l hl => ?_
  cases l with
  | some l => exact Yields.bind (yields_offsetClause h) fun _ ho => Yields.pure ⟨hl, ho⟩
  | none =>
    refine Yields.bind (yields_offsetClause h) fun o ho => ?_
    cases o with
    | some o => exact Yields.bind (yields_clause h) fun _ hl => Yields.pure ⟨hl, ho⟩
    | none => exact Yields.pure ⟨optionWf_none, optionWf_none⟩

theorem yields_quantifier : Yields quantifier fun _ => True :=
  Yields.flag yields_eatKeyword (Yields.pure trivial)
    (Yields.bind (Yields.discard yields_eatKeyword) fun _ _ => Yields.pure trivial)

theorem yields_select (h : YieldsWf inner n) :
    Yields (select inner) (Select.Wf False True n) := by
  refine Yields.expectKeyword (Yields.bind yields_quantifier fun distinct _ => ?_)
  refine Yields.bind (yields_commaList (yields_selectItem h)) fun items hitems => ?_
  refine Yields.bind (yields_fromClause h) fun r hr => ?_
  refine Yields.bind (yields_clause h) fun filter hfilter => ?_
  refine Yields.bind (yields_byClause h.expr) fun groupBy hgroup => ?_
  refine Yields.bind (yields_clause h) fun having hhaving => ?_
  refine Yields.bind (yields_byClause (yields_orderItem h)) fun orderBy horder => ?_
  refine Yields.bind (yields_page h) fun p hp => Yields.pure ?_
  rw [Select.Wf]
  exact ⟨⟨hitems.1, itemsWf_iff.mpr hitems.2⟩, hr, hfilter, exprsWf_iff.mpr hgroup, hhaving,
    orderWf_iff.mpr horder, hp⟩

/-! ## Set operations -/

theorem yields_setOperator : Yields setOperator? fun _ => True := by
  refine Yields.flag yields_eatKeyword (Yields.flag yields_eatKeyword (Yields.pure trivial)
    (Yields.bind (Yields.discard yields_eatKeyword) fun _ _ => Yields.pure trivial)) ?_
  exact Yields.flag yields_eatKeyword (Yields.pure trivial)
    (Yields.flag yields_eatKeyword (Yields.pure trivial) (Yields.pure trivial))

theorem yields_bodyTerm (h : YieldsWf inner n) :
    Yields (bodyTerm inner) fun b => b.Wf False True n ∧ b.isTerm = true := by
  refine Yields.peek fun _ _ => Yields.flag yields_eat ?_ ?_
  · refine Yields.bind (yields_parenStatement h) fun s hs => Yields.pure ⟨?_, rfl⟩
    rw [Body.Wf]
    exact hs
  · refine Yields.bind (yields_select h) fun q hq => Yields.pure ⟨?_, rfl⟩
    rw [Body.Wf]
    exact hq

theorem yields_bodyTail (h : YieldsWf inner n) (k : Nat) {left : Body}
    (hleft : left.Wf False True n) : Yields (bodyTail inner k left) (Body.Wf False True n) := by
  induction k generalizing left with
  | zero => exact Yields.pure hleft
  | succ k ih =>
    refine Yields.bind yields_setOperator fun op _ => ?_
    cases op with
    | none => exact Yields.pure hleft
    | some op =>
      refine Yields.bind (yields_bodyTerm h) fun right hright => ih ?_
      rw [Body.Wf]
      exact ⟨hleft, hright⟩

theorem yields_body (h : YieldsWf inner n) : Yields (body inner) (Body.Wf False True n) :=
  Yields.bind (yields_bodyTerm h) fun _ hb => Yields.remaining fun k => yields_bodyTail h k hb.1

/-! ## WITH -/

/-- The definition is well formed. -/
def CteWf (n : Nat) (c : Cte) : Prop :=
  c.name ≠ "" ∧ AreNames c.columns ∧ (True → 0 < n) ∧ c.statement.Wf False True (n - 1)

theorem yields_cte (h : YieldsWf inner n) (before : List Cte) :
    Yields (cte inner before) fun c => CteWf n c ∧ nameIn c.name (before.map Cte.name) = false := by
  refine Yields.peek fun _ _ => Yields.bind yields_name fun m hm =>
    Yields.ite (fun _ => yields_failAt) fun hname => ?_
  have hname : nameIn m (before.map Cte.name) = false := by simpa using hname
  have hrest : ∀ columns : List String, AreNames columns → Yields (do
      expectKeyword "as"
      expect (.symbol .leftParen) "'(' before CTE body"
      let s ← inner.statement
      expect (.symbol .rightParen) "')' after CTE body"
      return ⟨m, columns, s⟩ : Parser Cte)
      fun c => CteWf n c ∧ nameIn c.name (before.map Cte.name) = false := fun columns hcolumns =>
    Yields.expectKeyword (Yields.expect (Yields.bind h.statement fun s hs =>
      Yields.expect (Yields.pure ⟨⟨hm, hcolumns, hs⟩, hname⟩)))
  refine Yields.flag yields_isNext ?_ (hrest [] fun c hc => by simp at hc)
  exact Yields.bind yields_nameList fun columns hcolumns => hrest columns hcolumns.2

/-- Definitions that were read before stay in front. -/
theorem yields_ctes (h : YieldsWf inner n) (k : Nat) {before : List Cte}
    (hbefore : (∀ c ∈ before, CteWf n c) ∧ NamesDiffer (before.map Cte.name))
    (hne : k = 0 → before ≠ []) :
    Yields (ctes inner k before) fun cs => cs ≠ [] ∧ (∀ c ∈ cs, CteWf n c)
      ∧ NamesDiffer (cs.map Cte.name) := by
  induction k generalizing before with
  | zero => exact Yields.pure ⟨hne rfl, hbefore⟩
  | succ k ih =>
    refine Yields.bind (yields_cte h before) fun c hc => ?_
    have hmore : (∀ d ∈ before ++ [c], CteWf n d) ∧ NamesDiffer ((before ++ [c]).map Cte.name) := by
      refine ⟨?_, ?_⟩
      · rw [List.forall_mem_append, List.forall_mem_singleton]
        exact ⟨hbefore.1, hc.1⟩
      · rw [NamesDiffer, List.map_append, List.pairwise_append]
        refine ⟨hbefore.2, List.pairwise_singleton _ _, fun m hm d hd => ?_⟩
        obtain rfl := List.mem_singleton.mp hd
        rw [sameName_comm]
        have := hc.2
        rw [nameIn, List.any_eq_false] at this
        exact Bool.eq_false_iff.mpr (this m hm)
    exact Yields.flag yields_eat (ih hmore fun _ => by simp) (Yields.pure ⟨by simp, hmore⟩)

/-- With a token left for the loop over them, there is a definition. -/
theorem wf_of_withClause (h : YieldsWf inner n) {ts rest : List Token} {w : Option With}
    (hts : Clean ts) (hrest : rest ≠ []) (hrun : withClause inner ts = .ok (w, rest)) :
    withWf False True n w ∧ Clean rest := by
  obtain ⟨isWith, between, hwith, hrun⟩ := bind_eq_ok hrun
  have hclean := (yields_eatKeyword ts isWith between hts hwith).2
  cases isWith with
  | false =>
    obtain ⟨rfl, rfl⟩ := Prod.mk.inj (Except.ok.inj hrun)
    exact ⟨by rw [withWf]; trivial, hclean⟩
  | true =>
    obtain ⟨recursive, between, hrecursive, hrun⟩ := bind_eq_ok hrun
    have hclean := (yields_eatKeyword _ recursive between hclean hrecursive).2
    obtain ⟨k, _, hk, hrun⟩ := bind_eq_ok hrun
    obtain ⟨rfl, rfl⟩ := Prod.mk.inj (Except.ok.inj hk)
    obtain ⟨cs, behind, hcs, hrun⟩ := bind_eq_ok hrun
    obtain ⟨rfl, rfl⟩ := Prod.mk.inj (Except.ok.inj hrun)
    have hne : between ≠ [] := by
      rintro rfl
      exact hrest (Prod.mk.inj (Except.ok.inj hcs)).2.symm
    have hbound : between.length = 0 → ([] : List Cte) ≠ [] := fun hzero =>
      absurd (List.eq_nil_of_length_eq_zero hzero) hne
    have hnone : (∀ c ∈ ([] : List Cte), CteWf n c) ∧ NamesDiffer (([] : List Cte).map Cte.name) :=
      ⟨by simp, List.Pairwise.nil⟩
    obtain ⟨⟨hcsne, hwf, hnames⟩, hclean⟩ :=
      yields_ctes h between.length hnone hbound between cs behind hclean hcs
    refine ⟨?_, hclean⟩
    rw [withWf]
    exact ⟨hcsne, ctesWf_iff.mpr hwf, hnames⟩

/-- **The statements that are read are well formed.** -/
theorem yields_statement (h : YieldsWf inner n) :
    Yields (statement inner) (Statement.Wf False True n) := by
  intro ts s rest hts hrun
  obtain ⟨w, between, hw, hrun⟩ := bind_eq_ok hrun
  obtain ⟨b, behind, hb, hrun⟩ := bind_eq_ok hrun
  -- past the end there is no body
  have hne : between ≠ [] := by
    rintro rfl
    have hfault : body inner [] = .error ⟨0, .expected "SELECT" .eof⟩ := rfl
    rw [hfault] at hb
    exact absurd hb (by simp)
  obtain ⟨hwf, hclean⟩ := wf_of_withClause h hts hne hw
  obtain ⟨hbody, hclean⟩ := yields_body h between b behind hclean hb
  obtain ⟨rfl, rfl⟩ := Prod.mk.inj (Except.ok.inj hrun)
  refine ⟨?_, hclean⟩
  rw [Statement.Wf]
  exact ⟨hwf, hbody⟩

/-! ## The first lexeme -/

/-- A keyword that is not eaten leaves the tokens. -/
theorem eatKeyword_eq_false {k : String} {ts rest : List Token}
    (h : eatKeyword k ts = .ok (false, rest)) : rest = ts := by
  change (if (firstToken ts).lexeme.isKeyword k = true then _ else _ : Parser Bool) ts = _ at h
  split at h
  · exact absurd (Prod.mk.inj (Except.ok.inj h)).1 (by simp)
  · exact (Prod.mk.inj (Except.ok.inj h)).2.symm

/-- A keyword that is eaten was there. -/
theorem eatKeyword_eq_true {k : String} {ts rest : List Token}
    (h : eatKeyword k ts = .ok (true, rest)) : (firstToken ts).lexeme.isKeyword k = true := by
  change (if (firstToken ts).lexeme.isKeyword k = true then _ else _ : Parser Bool) ts = _ at h
  split at h
  · next hk => exact hk
  · exact absurd (Prod.mk.inj (Except.ok.inj h)).1 (by simp)

/-- What is eaten was there, and the tokens behind it are left. -/
theorem eat_eq_ok {l : Lexeme} {b : Bool} {ts rest : List Token} (h : eat l ts = .ok (b, rest)) :
    b = true ∧ (firstToken ts).lexeme = l ∧ rest = ts.tail
      ∨ b = false ∧ (firstToken ts).lexeme ≠ l ∧ rest = ts := by
  change (if ((firstToken ts).lexeme == l) = true then _ else _ : Parser Bool) ts = _ at h
  split at h
  · next hl =>
    obtain ⟨rfl, rfl⟩ := Prod.mk.inj (Except.ok.inj h)
    exact Or.inl ⟨rfl, beq_iff_eq.mp hl, rfl⟩
  · next hl =>
    obtain ⟨rfl, rfl⟩ := Prod.mk.inj (Except.ok.inj h)
    exact Or.inr ⟨rfl, fun heq => hl (beq_iff_eq.mpr heq), rfl⟩

theorem head_of_select {q : Select} {ts rest : List Token}
    (hrun : select inner ts = .ok (q, rest)) :
    (firstToken ts).lexeme.isKeyword "select" = true := by
  obtain ⟨_, _, hselect, -⟩ := bind_eq_ok hrun
  obtain ⟨found, _, hfound, hselect⟩ := bind_eq_ok hselect
  cases found with
  | true => exact eatKeyword_eq_true hfound
  | false => cases hselect

/-- Set operations behind an operand leave its first lexeme in front. -/
theorem startsBare_bodyTail {k : Nat} {left b : Body} {ts rest : List Token}
    (hrun : bodyTail inner k left ts = .ok (b, rest)) : b.startsBare = left.startsBare := by
  induction k generalizing left ts with
  | zero =>
    obtain ⟨rfl, -⟩ := Prod.mk.inj (Except.ok.inj hrun)
    rfl
  | succ k ih =>
    obtain ⟨op, between, -, hrun⟩ := bind_eq_ok hrun
    cases op with
    | none =>
      obtain ⟨rfl, -⟩ := Prod.mk.inj (Except.ok.inj hrun)
      rfl
    | some op =>
      obtain ⟨right, behind, -, hrun⟩ := bind_eq_ok hrun
      rw [ih hrun, Body.startsBare]

/-- A body starts with SELECT, or with a parenthesis. -/
theorem head_of_body {b : Body} {ts rest : List Token} (hrun : body inner ts = .ok (b, rest)) :
    b.startsBare = true ∧ (firstToken ts).lexeme.isKeyword "select" = true
      ∨ b.startsBare = false ∧ (firstToken ts).lexeme = .symbol .leftParen := by
  obtain ⟨left, between, hleft, hrun⟩ := bind_eq_ok hrun
  obtain ⟨k, _, hk, hrun⟩ := bind_eq_ok hrun
  rw [startsBare_bodyTail hrun]
  obtain ⟨t, _, ht, hleft⟩ := bind_eq_ok hleft
  obtain ⟨rfl, rfl⟩ := Prod.mk.inj (Except.ok.inj ht)
  obtain ⟨isParen, _, hparen, hleft⟩ := bind_eq_ok hleft
  rcases eat_eq_ok hparen with ⟨rfl, hl, -⟩ | ⟨rfl, -, rfl⟩
  · obtain ⟨s, _, -, hleft⟩ := bind_eq_ok hleft
    obtain ⟨rfl, -⟩ := Prod.mk.inj (Except.ok.inj hleft)
    exact Or.inr ⟨rfl, hl⟩
  · obtain ⟨q, _, hq, hleft⟩ := bind_eq_ok hleft
    obtain ⟨rfl, -⟩ := Prod.mk.inj (Except.ok.inj hleft)
    exact Or.inl ⟨rfl, head_of_select hq⟩

/-- **A statement starts with SELECT or WITH, or else with a parenthesis.** -/
theorem head_of_statement {ts rest : List Token} {s : Statement}
    (hrun : statement inner ts = .ok (s, rest)) :
    s.startsBare = true ∧ ((firstToken ts).lexeme.isKeyword "select"
        || (firstToken ts).lexeme.isKeyword "with") = true
      ∨ s.startsBare = false ∧ (firstToken ts).lexeme = .symbol .leftParen := by
  obtain ⟨w, between, hw, hrun⟩ := bind_eq_ok hrun
  obtain ⟨b, behind, hb, hrun⟩ := bind_eq_ok hrun
  obtain ⟨rfl, -⟩ := Prod.mk.inj (Except.ok.inj hrun)
  obtain ⟨isWith, _, hwith, hclause⟩ := bind_eq_ok hw
  cases isWith with
  | true =>
    obtain ⟨recursive, _, -, hclause⟩ := bind_eq_ok hclause
    obtain ⟨k, _, -, hclause⟩ := bind_eq_ok hclause
    obtain ⟨cs, _, -, hclause⟩ := bind_eq_ok hclause
    obtain ⟨rfl, -⟩ := Prod.mk.inj (Except.ok.inj hclause)
    exact Or.inl ⟨rfl, by rw [eatKeyword_eq_true hwith, Bool.or_true]⟩
  | false =>
    obtain rfl := eatKeyword_eq_false hwith
    obtain ⟨rfl, rfl⟩ := Prod.mk.inj (Except.ok.inj hclause)
    rcases head_of_body hb with ⟨hbare, hl⟩ | ⟨hbare, hl⟩
    · exact Or.inl ⟨hbare, by rw [hl, Bool.true_or]⟩
    · exact Or.inr ⟨hbare, hl⟩

/-- A statement that starts with no parenthesis starts with SELECT or WITH. -/
theorem startsBare_of_statement {ts rest : List Token} {s : Statement}
    (hfirst : (firstToken ts).lexeme ≠ .symbol .leftParen)
    (hrun : statement inner ts = .ok (s, rest)) : s.startsBare = true := by
  rcases head_of_statement hrun with ⟨h, -⟩ | ⟨-, h⟩
  · exact h
  · exact absurd h hfirst

/-! ## Nesting -/

/-- **The parsers for `n` more levels hand back trees of at most `n` levels.** -/
theorem yieldsWf_within : (n : Nat) → YieldsWf (Inner.within n) n
  | 0 =>
    { expr := yields_failHere
      statement := yields_failHere
      negated := yields_failHere
      signed := yields_failHere
      bare := fun _ _ _ _ hrun => absurd hrun (by simp [Inner.within, Inner.tooDeep, failHere]) }
  | n + 1 =>
    have h := yieldsWf_within n
    { expr := (yields_orExpr h).weaken fun _ he => ⟨fun _ => Nat.succ_pos n, he.1⟩
      statement := (yields_statement h).weaken fun _ hs => ⟨fun _ => Nat.succ_pos n, hs⟩
      negated := (yields_notExpr h).weaken fun _ he => ⟨fun _ => Nat.succ_pos n, he⟩
      signed := (yields_signExpr h).weaken fun _ he => ⟨fun _ => Nat.succ_pos n, he⟩
      bare := fun _ _ _ hfirst hrun => startsBare_of_statement hfirst hrun }

end

end Sql.Parser

namespace Sql

open Sql.Parser

/-! ## Texts -/

theorem runText_eq_ok {α : Type} {p : Parser α} {text : String} {a : α}
    (h : p.runText text = .ok a) :
    ∃ ts rest, tokenize text = .ok ts ∧ p ts = .ok (a, rest) := by
  unfold Parser.runText at h
  cases hts : tokenize text with
  | error e =>
    rw [hts] at h
    exact absurd h (by simp [Bind.bind, Except.bind])
  | ok ts =>
    simp only [hts, Bind.bind, Except.bind, StateT.run] at h
    cases hp : p ts with
    | error e =>
      rw [hp] at h
      cases h
    | ok r =>
      rw [hp] at h
      obtain rfl := Except.ok.inj h
      exact ⟨ts, r.2, rfl, hp⟩

theorem yields_atEnd {after : String} : Yields (atEnd after) fun _ => True := by
  refine Yields.peek fun t _ => ?_
  cases t.lexeme with
  | eof => exact Yields.pure trivial
  | symbol s =>
    cases s with
    | rightParen => exact yields_failAt
    | _ => exact yields_failAt
  | _ => exact yields_failAt

/-- **Every text that is a statement is a well-formed one**, within the bound on nesting. -/
theorem wf_of_parse {text : String} {s : Statement} (h : parse text = .ok s) :
    s.Wf False True (maxNesting - 1) := by
  have hwhole : Yields wholeStatement (Statement.Wf False True (maxNesting - 1)) :=
    Yields.flag yields_isNext yields_failAt (Yields.bind (yieldsWf_within maxNesting).statement
      fun _ hs => Yields.bind (Yields.discard yields_eat) fun _ _ => Yields.bind yields_atEnd
        fun _ _ => Yields.pure hs.2)
  obtain ⟨ts, rest, hts, hrun⟩ := runText_eq_ok h
  exact (hwhole ts s rest (wf_of_tokenize hts) hrun).1

/-- Every text that is an expression is a well-formed one. -/
theorem wf_of_parseExpression {text : String} {e : Expr} (h : parseExpression text = .ok e) :
    e.Wf False True (maxNesting - 1) := by
  have hwhole : Yields wholeExpr (Expr.Wf False True (maxNesting - 1)) :=
    Yields.flag yields_isNext yields_failAt (Yields.bind (yieldsWf_within maxNesting).expr
      fun _ he => Yields.bind yields_atEnd fun _ _ => Yields.pure he.2)
  obtain ⟨ts, rest, hts, hrun⟩ := runText_eq_ok h
  exact (hwhole ts e rest (wf_of_tokenize hts) hrun).1

end Sql
