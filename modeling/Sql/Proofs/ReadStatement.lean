import Sql.Proofs.ReadSelect

/-!
# Reading set operations and WITH clauses

Set operations group to the left, so their loop is reached with the operands before it as one body
(`ReachesBody`), in the way that the loops of `Sql.Proofs.ReadExpr` are.
-/

namespace Sql.Parser

section

variable {fits : Prop} {inner : Inner} {config : DialectConfig} {ls ms : List Lexeme}
  {follow : Lexeme → Prop}

/-! ## Operands -/

theorem StartsStatement.head_keyword (h : StartsStatement ls) {k : String}
    (hselect : sameName k "select" = false) (hwith : sameName k "with" = false) (l : Lexeme) :
    (ls.headD l).isKeyword k = false := by
  rcases h with ⟨l', tail, rfl, hl⟩ | ⟨tail, rfl⟩
  · rw [List.headD_cons, Bool.eq_false_iff]
    intro hk
    cases l' with
    | word w =>
      have hfold := sameName_iff.mp hk
      rw [Lexeme.isKeyword, Lexeme.isKeyword, sameName_congr hfold, sameName_congr hfold, hselect,
        hwith] at hl
      exact absurd hl (by decide)
    | _ => exact absurd hk (by simp [Lexeme.isKeyword])
  · rfl

theorem reads_bodyTerm_select {q : Select} (hquery : IsQuery ls)
    (h : Reads fits (select inner) ls q follow) :
    Reads fits (bodyTerm inner) ls (.select q) follow := by
  obtain ⟨l, tail, rfl, hl⟩ := hquery
  refine Reads.peek fun t _ => Reads.look reads_not_eat (fun _ _ => ?_) (Reads.finish h rfl)
  rintro rfl
  exact absurd hl (by decide)

theorem reads_bodyTerm_nested {q : Statement} (hstarts : StartsStatement ls)
    (hs : Reads fits inner.statement ls q (· = .symbol .rightParen)) :
    Reads fits (bodyTerm inner) (parenLexemes ls) (.nested q) follow :=
  Reads.peek fun _ _ => Reads.token reads_eat
    (Reads.finish (reads_parenStatement hstarts hs) rfl)

/-! ## Set operators -/

theorem reads_setOperator_none : Reads fits setOperator? [] none fun l => 10 ≤ l.stage := by
  have hword : ∀ k ∈ ["union", "intersect", "except"], ∀ l : Lexeme, 10 ≤ l.stage →
      l.isKeyword k = false := fun k hk l hl => by
    have hstage : ∀ k ∈ ["union", "intersect", "except"], (Lexeme.word k).stage = 9 := by decide
    exact not_keyword_of_stage (by rw [hstage k hk]; omega)
  simp only [List.forall_mem_cons] at hword
  obtain ⟨hunion, hintersect, hexcept, -⟩ := hword
  exact Reads.look reads_not_eatKeyword hunion (Reads.look reads_not_eatKeyword hintersect
    (Reads.look reads_not_eatKeyword hexcept Reads.pure))

/-- UNION is followed by ALL only in UNION ALL, and DISTINCT is never printed. -/
theorem reads_setOperator (op : SetOperator) :
    Reads fits setOperator? (phrase config op.keyword) (some op)
      fun l => l.isKeyword "all" = false ∧ l.isKeyword "distinct" = false := by
  have hnot : ∀ {w k : String}, sameName w k = false → (kw config w).isKeyword k = false :=
    not_isKeyword_kw config
  have hself := isKeyword_kw_self config
  cases op with
  | union =>
    exact Reads.token (reads_eatKeyword (hself "union"))
      (Reads.look reads_not_eatKeyword (fun _ hl => hl.1)
        (Reads.look (Reads.discard reads_not_eatKeyword) (fun _ hl => hl.2) Reads.pure))
  | unionAll =>
    exact Reads.token (reads_eatKeyword (hself "union"))
      (Reads.token (reads_eatKeyword (hself "all")) Reads.pure)
  | intersect =>
    exact Reads.look reads_not_eatKeyword (fun _ _ => hnot (by decide))
      (Reads.token (reads_eatKeyword (hself "intersect")) Reads.pure)
  | except =>
    exact Reads.look reads_not_eatKeyword (fun _ _ => hnot (by decide))
      (Reads.look reads_not_eatKeyword (fun _ _ => hnot (by decide))
        (Reads.token (reads_eatKeyword (hself "except")) Reads.pure))

theorem SetOperator.phrase_head (op : SetOperator) :
    ∃ w tail, phrase config op.keyword = kw config w :: tail ∧ (Lexeme.word w).stage = 9 := by
  cases op with
  | union => exact ⟨"union", _, rfl, by decide⟩
  | unionAll => exact ⟨"union", _, rfl, by decide⟩
  | intersect => exact ⟨"intersect", _, rfl, by decide⟩
  | except => exact ⟨"except", _, rfl, by decide⟩

/-! ## Bodies -/

/-- The loop of set operations comes past the lexemes and goes on with the body. -/
def ReachesBody (fits : Prop) (inner : Inner) (ls : List Lexeme) (b : Body) : Prop :=
  ∀ (ms : List Lexeme) (b' : Body) (follow : Lexeme → Prop),
    (∀ n, ms.length ≤ n → Reads fits (bodyTail inner n b) ms b' follow) →
    (∀ l, follow l → 9 ≤ (ms.headD l).stage) → Reads fits (body inner) (ls ++ ms) b' follow

theorem ReachesBody.of_term {b : Body} (h : Reads fits (bodyTerm inner) ls b fun l => 9 ≤ l.stage) :
    ReachesBody fits inner ls b :=
  fun _ _ _ hloop hfollow => Reads.bind h (Reads.remaining hloop) hfollow

/-- A set operator and its right operand extend the body on their left. -/
theorem ReachesBody.setOp {left right : Body} (h : ReachesBody fits inner ls left)
    (op : SetOperator) (hstarts : StartsStatement ms)
    (hright : Reads fits (bodyTerm inner) ms right fun l => 9 ≤ l.stage) :
    ReachesBody fits inner (ls ++ (phrase config op.keyword ++ ms)) (.setOp left op right) := by
  intro ks b' follow hloop hfollow
  obtain ⟨w, tail, hwords, hstage⟩ := @SetOperator.phrase_head config op
  rw [List.append_assoc, List.append_assoc]
  refine h _ _ _ (fun n hn => ?_) fun l _ => ?_
  · simp only [hwords, List.cons_append, List.length_cons, List.length_append] at hn
    cases n with
    | zero => omega
    | succ n =>
      refine Reads.bind (reads_setOperator op) (Reads.bind hright (hloop n (by omega)) hfollow)
        fun l _ => ?_
      rw [headD_append]
      exact ⟨hstarts.head_keyword (by decide) (by decide) _,
        hstarts.head_keyword (by decide) (by decide) _⟩
  · rw [hwords, List.cons_append, List.headD_cons, stage_kw, hstage]

/-- Without a set operator behind it, the body is the whole one. -/
theorem ReachesBody.reads {b : Body} (h : ReachesBody fits inner ls b) :
    Reads fits (body inner) ls b fun l => 10 ≤ l.stage := by
  have hloop : ∀ n, Reads fits (bodyTail inner n b) [] b fun l => 10 ≤ l.stage := by
    intro n
    cases n with
    | zero => exact Reads.pure
    | succ n => exact Reads.look reads_setOperator_none (fun _ h => h) Reads.pure
  have := h [] b _ (fun n _ => hloop n) fun l hl => Nat.le_of_succ_le hl
  rwa [List.append_nil] at this

/-! ## WITH -/

/-- The statement of a definition is read. -/
def CteReads (fits : Prop) (inner : Inner) (config : DialectConfig) (c : Cte) : Prop :=
  Reads fits inner.statement (c.statement.lexemes config) c.statement (· = .symbol .rightParen)

/-- A definition of a statement that is read from any lexemes. -/
theorem reads_cte_of {c : Cte} {before : List Cte}
    (h : Reads fits inner.statement ls c.statement (· = .symbol .rightParen))
    (hname : nameIn c.name (before.map Cte.name) = false) :
    Reads fits (cte inner before)
      (nameLexeme config c.name
        :: ((if c.columns.isEmpty then [] else parenLexemes (nameLexemes config c.columns))
          ++ kw config "as" :: parenLexemes ls)) c follow := by
  obtain ⟨n, columns, s⟩ := c
  have hdefinition : Reads fits (do
        expectKeyword "as"
        expect (.symbol .leftParen) "'(' before CTE body"
        let s ← inner.statement
        expect (.symbol .rightParen) "')' after CTE body"
        return ⟨n, columns, s⟩ : Parser Cte)
      (kw config "as" :: parenLexemes ls) ⟨n, columns, s⟩ follow :=
    Reads.token (reads_expectKeyword (isKeyword_kw_self config "as"))
      (Reads.token reads_expect (Reads.bind h (Reads.finish reads_expect rfl) fun _ _ => rfl))
  refine Reads.peek fun t _ => Reads.token (reads_name (nameOf?_nameLexeme config n)) ?_
  dsimp only at hname ⊢
  rw [hname, if_neg Bool.false_ne_true]
  cases columns with
  | nil =>
    exact Reads.look (reads_isNext false) (fun _ _ => by simp [kw]) hdefinition
  | cons m ms =>
    refine Reads.look (reads_isNext true) (fun _ _ => by simp [parenLexemes]) ?_
    have hcolumns : Reads fits (nameList "CTE column name")
        (parenLexemes (nameLexemes config (m :: ms))) (m :: ms) fun _ => True :=
      reads_nameList config (by simp)
    exact Reads.bind hcolumns hdefinition fun _ _ => trivial

theorem reads_cte {c : Cte} {before : List Cte} (h : CteReads fits inner config c)
    (hname : nameIn c.name (before.map Cte.name) = false) :
    Reads fits (cte inner before) (commaSep (cteLexemes config [c])) c follow := by
  have hread : Reads fits (cte inner before) _ c follow := @reads_cte_of _ _ config _ _ _ _ h hname
  obtain ⟨n, columns, s⟩ := c
  rw [cteLexemes, cteLexemes, commaSep, List.flatMap_nil, List.append_nil]
  exact hread

theorem commaSep_cteLexemes (c d : Cte) (cs : List Cte) :
    commaSep (cteLexemes config (c :: d :: cs)) = commaSep (cteLexemes config [c])
      ++ .symbol .comma :: commaSep (cteLexemes config (d :: cs)) := by
  obtain ⟨n, columns, s⟩ := c
  obtain ⟨m, names, q⟩ := d
  simp only [cteLexemes, commaSep, List.flatMap_cons, List.flatMap_nil, List.append_nil,
    List.cons_append]

theorem commaSep_cteLexemes_pos (c : Cte) (cs : List Cte) :
    0 < (commaSep (cteLexemes config (c :: cs))).length := by
  obtain ⟨n, columns, s⟩ := c
  simp [cteLexemes, commaSep]

theorem not_nameIn_before {ns ms : List String} {n : String} (h : NamesDiffer (ns ++ n :: ms)) :
    nameIn n ns = false := by
  rw [NamesDiffer, List.pairwise_append] at h
  rw [nameIn, List.any_eq_false]
  intro m hm
  rw [sameName_comm, h.2.2 m hm n List.mem_cons_self]
  exact Bool.false_ne_true

/-- **Definitions are read one by one**, as long as none has the name of one before it. -/
theorem reads_ctes {c : Cte} {cs : List Cte} (h : ∀ d ∈ c :: cs, CteReads fits inner config d)
    {before : List Cte} (hnames : NamesDiffer ((before ++ c :: cs).map Cte.name)) {n : Nat}
    (hn : (commaSep (cteLexemes config (c :: cs))).length ≤ n) :
    Reads fits (ctes inner n before) (commaSep (cteLexemes config (c :: cs))) (before ++ c :: cs)
      (· ≠ .symbol .comma) := by
  induction cs generalizing c before n with
  | nil =>
    have hpos := @commaSep_cteLexemes_pos config c []
    cases n with
    | zero => omega
    | succ n =>
      rw [List.map_append, List.map_cons] at hnames
      have hfirst : Reads fits (cte inner before) (commaSep (cteLexemes config [c])) c
          fun _ => True := reads_cte (h c List.mem_cons_self) (not_nameIn_before hnames)
      have hend : Reads fits (do
            if ← eat (.symbol .comma) then ctes inner n (before ++ [c])
            else return before ++ [c] : Parser (List Cte)) [] (before ++ [c])
          (· ≠ .symbol .comma) := Reads.look reads_not_eat (fun _ hl => hl) Reads.pure
      rw [← List.append_nil (commaSep (cteLexemes config [c]))]
      exact Reads.bind hfirst hend fun _ _ => trivial
  | cons d ds ih =>
    rw [commaSep_cteLexemes, List.length_append, List.length_cons] at hn
    rw [commaSep_cteLexemes]
    cases n with
    | zero => omega
    | succ n =>
      have hshift : before ++ c :: d :: ds = (before ++ [c]) ++ d :: ds := by simp
      have hrest := ih (fun e he => h e (List.mem_cons_of_mem c he)) (hshift ▸ hnames) (n := n)
        (by omega)
      rw [List.map_append, List.map_cons] at hnames
      have hfirst : Reads fits (cte inner before) (commaSep (cteLexemes config [c])) c
          fun _ => True := reads_cte (h c List.mem_cons_self) (not_nameIn_before hnames)
      rw [hshift]
      exact Reads.bind hfirst (Reads.token reads_eat hrest) fun _ _ => trivial

/-- The definitions of a WITH clause are read, and their names differ. -/
structure WithReads (fits : Prop) (inner : Inner) (config : DialectConfig) (w : With) : Prop where
  nonempty : w.ctes ≠ []
  ctes : ∀ c ∈ w.ctes, CteReads fits inner config c
  names : NamesDiffer (w.ctes.map Cte.name)

theorem reads_withClause {w : Option With} (h : ∀ w' ∈ w, WithReads fits inner config w') :
    Reads fits (withClause inner) (withLexemes config w) w
      fun l => l.isKeyword "with" = false ∧ l ≠ .symbol .comma := by
  cases w with
  | none =>
    rw [withLexemes]
    exact Reads.look reads_not_eatKeyword (fun _ hl => hl.1) Reads.pure
  | some w =>
    obtain ⟨recursive, cs⟩ := w
    obtain ⟨hne, hcs, hnames⟩ := h _ rfl
    obtain ⟨c, cs, rfl⟩ := List.exists_cons_of_ne_nil hne
    have hctes : Reads fits (do
          let cs ← ctes inner (← remaining) []
          return some ⟨recursive, cs⟩ : Parser (Option With)) (commaSep (cteLexemes config (c :: cs)))
        (some ⟨recursive, c :: cs⟩) fun l => l.isKeyword "with" = false ∧ l ≠ .symbol .comma :=
      Reads.remaining fun n hn =>
        have hread : Reads fits (ctes inner n []) _ (c :: cs) _ := reads_ctes hcs hnames hn
        Reads.finish (Reads.weaken hread fun _ hl => hl.2) rfl
    rw [withLexemes]
    refine Reads.token (reads_eatKeyword (isKeyword_kw_self config "with")) ?_
    cases recursive with
    | true => exact Reads.token (reads_eatKeyword (isKeyword_kw_self config "recursive")) hctes
    | false =>
      refine Reads.look reads_not_eatKeyword (fun l _ => ?_) hctes
      -- a definition starts with a name, and RECURSIVE is none
      obtain ⟨m, columns, s⟩ := c
      rw [cteLexemes, if_neg Bool.false_ne_true]
      exact (starts_name config m strengthAtom _).head_keyword (by decide) (by decide) l

/-- **A statement is read up to what may follow it.** -/
theorem reads_statement {w : Option With} {b : Body}
    (hw : ∀ w' ∈ w, WithReads fits inner config w') (hb : ReachesBody fits inner ls b)
    (hstarts : (∃ tail, ls = kw config "select" :: tail) ∨ ∃ tail, ls = .symbol .leftParen :: tail) :
    Reads fits (statement inner) (withLexemes config w ++ ls) ⟨w, b⟩ fun l => 10 ≤ l.stage := by
  refine Reads.bind (reads_withClause hw) (Reads.finish hb.reads rfl) fun l _ => ?_
  rcases hstarts with ⟨tail, rfl⟩ | ⟨tail, rfl⟩
  · exact ⟨not_isKeyword_kw config (by decide), by simp [kw]⟩
  · exact ⟨rfl, by simp⟩

end

end Sql.Parser
