import Sql.Proofs.ReadAtoms

/-!
# Reading the clauses of statements

The clauses of a select come in one order, so each of them may be followed by the words of the later
ones, by a set operator, or by the end of the statement: `Lexeme.stage` numbers what may follow. The
theorems here say what the parsers of clauses, sources and set operations read, given what the
parsers of the next level in do.
-/

namespace Sql

/-! ## What follows a clause -/

/-- The words that start a clause, and what ends a statement, in their order. -/
def clauseStages : List (String × Nat) :=
  [("from", 1), ("join", 2), ("inner", 2), ("left", 2), ("right", 2), ("full", 2), ("cross", 2),
   ("on", 2), ("using", 2), ("where", 3), ("group", 4), ("having", 5), ("order", 6), ("limit", 7), ("offset", 8),
   ("union", 9), ("intersect", 9), ("except", 9)]

/-- How late in a statement the lexeme may follow a clause; zero when it may not. -/
def Lexeme.stage : Lexeme → Nat
  | .word w => (clauseStages.lookup (foldCase w)).getD 0
  | .symbol .comma => 2
  | .symbol .rightParen => 10
  | .eof => 10
  | _ => 0

theorem stage_congr {a b : String} (h : foldCase a = foldCase b) :
    (Lexeme.word a).stage = (Lexeme.word b).stage := by
  rw [Lexeme.stage, Lexeme.stage, h]

@[simp] theorem stage_kw (config : DialectConfig) (w : String) :
    (kw config w).stage = (Lexeme.word w).stage :=
  stage_congr (foldCase_keyword config w)

/-- A keyword of another stage is another one. -/
theorem not_keyword_of_stage {l : Lexeme} {k : String} (h : l.stage ≠ (Lexeme.word k).stage) :
    l.isKeyword k = false := by
  cases l with
  | word w =>
    rw [Lexeme.isKeyword, Bool.eq_false_iff]
    exact fun hw => h (stage_congr (sameName_iff.mp hw))
  | _ => rfl

/-- Nothing of what follows a clause belongs to an expression, a sort key or an alias. -/
structure EndsItem (l : Lexeme) : Prop where
  tight : l.tight < 1
  as : l.isKeyword "as" = false
  name : Parser.nameOf? l = none
  asc : l.isKeyword "asc" = false
  desc : l.isKeyword "desc" = false
  nulls : l.isKeyword "nulls" = false
  rows : l.isKeyword "rows" = false

theorem endsItem_of_stage {l : Lexeme} (h : 0 < l.stage) : EndsItem l := by
  have hname : ∀ w, isStopWord w = true → Parser.nameOf? (.word w) = none := fun w hw => by
    simp [Parser.nameOf?, hw]
  cases l with
  | word w =>
    obtain ⟨k, hk, hw⟩ : ∃ k ∈ clauseStages.map Prod.fst, foldCase w = k := by
      cases hl : clauseStages.lookup (foldCase w) with
      | none => simp [Lexeme.stage, hl] at h
      | some n =>
        refine ⟨foldCase w, ?_, rfl⟩
        rw [List.lookup_eq_some_iff] at hl
        obtain ⟨before, after, hsplit, -⟩ := hl
        rw [hsplit]
        simp
    have hwords : ∀ k ∈ clauseStages.map Prod.fst, foldCase k = k ∧ (Lexeme.word k).tight < 1
        ∧ isStopWord k = true
        ∧ ∀ other ∈ ["as", "asc", "desc", "nulls", "rows"], sameName k other = false := by
      decide
    obtain ⟨hfold, htight, hstop, hothers⟩ := hwords k hk
    have hsame : foldCase w = foldCase k := hw.trans hfold.symm
    have hother : ∀ other ∈ ["as", "asc", "desc", "nulls", "rows"],
        (Lexeme.word w).isKeyword other = false := fun other ho => by
      rw [Lexeme.isKeyword, sameName_congr hsame]
      exact hothers other ho
    exact ⟨by rwa [tight_congr hsame], hother _ (by simp), hname w (by rwa [isStopWord_congr hsame]),
      hother _ (by simp), hother _ (by simp), hother _ (by simp), hother _ (by simp)⟩
  | symbol s =>
    cases s <;> first
      | exact absurd h (by decide)
      | exact ⟨by decide, rfl, rfl, rfl, rfl, rfl, rfl⟩
  | eof => exact ⟨by decide, rfl, rfl, rfl, rfl, rfl, rfl⟩
  | _ => exact absurd h (Nat.lt_irrefl 0)

namespace Parser

section

variable {fits : Prop} {inner : Inner} {config : DialectConfig} {ls ms : List Lexeme} {e : Expr}
  {follow : Lexeme → Prop}

/-! ## Select list -/

/-- Where an alias stands or nothing does. -/
theorem reads_alias {a : Option String} :
    Reads fits optionalAlias (aliasLexemes config a) a
      fun l => l.isKeyword "as" = false ∧ nameOf? l = none := by
  cases a with
  | none => exact reads_alias_none
  | some n =>
    exact reads_alias_some (isKeyword_kw_self config "as") (nameOf?_nameLexeme config n)

theorem reads_selectItem {a : Option String} (he : Nested fits inner ls e)
    (hstar : e.isStar = true → a = none) :
    Reads fits (selectItem inner) (ls ++ aliasLexemes config a) ⟨e, a⟩ fun l => 0 < l.stage := by
  obtain ⟨s, hstarts⟩ := he.starts
  have hhead := hstarts.append (aliasLexemes config a)
  have htight : ∀ l : Lexeme, 0 < l.stage → ((aliasLexemes config a).headD l).tight < 1 :=
    fun l hl => by
      cases a with
      | none => exact (endsItem_of_stage hl).tight
      | some n =>
        rw [aliasLexemes, List.headD_cons, tight_kw]
        decide
  refine Reads.look (reads_isNextKeyword false)
    (fun l _ => hhead.head_keyword (by decide) (by decide) l) ?_
  refine Reads.look (reads_isNext false)
    (fun l _ => beq_eq_false_iff_ne.mpr (hhead.head_ne rfl l)) ?_
  refine Reads.bind he.reads ?_ htight
  by_cases h : e.isStar = true
  · obtain rfl := hstar h
    rw [if_pos h]
    exact Reads.pure
  · rw [if_neg h]
    exact Reads.finish (Reads.weaken reads_alias fun l hl =>
      ⟨(endsItem_of_stage hl).as, (endsItem_of_stage hl).name⟩) rfl

/-! ## Sources -/

/-- What a statement in parentheses starts with. -/
def StartsStatement (ls : List Lexeme) : Prop :=
  IsQuery ls ∨ ∃ tail, ls = .symbol .leftParen :: tail

/-- A statement in parentheses, after the first of them. -/
theorem reads_parenStatement {q : Statement} {what : String} {opened : Nat}
    (hstarts : StartsStatement ls) (hs : Reads fits inner.statement ls q (· = .symbol .rightParen)) :
    Reads fits (parenStatement inner what opened) (ls ++ [.symbol .rightParen]) q follow := by
  have hbody : Reads fits (do
        let s ← inner.statement
        closeParen opened
        return s : Parser Statement) (ls ++ [.symbol .rightParen]) q follow :=
    Reads.bind hs (Reads.finish reads_closeParen rfl) fun _ _ => rfl
  rcases hstarts with ⟨l, tail, rfl, hl⟩ | ⟨tail, rfl⟩
  · refine Reads.look (reads_isNextQuery true) (fun _ _ => hl) ?_
    exact Reads.look (reads_isNext (l == .symbol .leftParen)) (fun _ _ => rfl) hbody
  · refine Reads.look (reads_isNextQuery false) (fun _ _ => rfl) ?_
    exact Reads.look (reads_isNext true) (fun _ _ => by simp) hbody

theorem reads_tableParts {names : List String} {n : Nat}
    (hn : (names.flatMap fun n => [.symbol .dot, nameLexeme config n]).length ≤ n) :
    Reads fits (tableParts n) (names.flatMap fun n => [.symbol .dot, nameLexeme config n]) names
      (· ≠ .symbol .dot) := by
  induction names generalizing n with
  | nil =>
    cases n with
    | zero => exact Reads.pure
    | succ n => exact Reads.look reads_not_eat (fun _ h => h) Reads.pure
  | cons m names ih =>
    rw [List.flatMap_cons] at hn ⊢
    simp only [List.length_append, List.length_cons, List.length_nil] at hn
    cases n with
    | zero => omega
    | succ n =>
      exact Reads.token reads_eat (Reads.token (reads_name (nameOf?_nameLexeme config m))
        (Reads.finish (ih (n := n) (by omega)) rfl))

theorem nameLexeme_ne_symbol (config : DialectConfig) (n : String) (s : Symbol) :
    nameLexeme config n ≠ .symbol s := by
  unfold nameLexeme
  split <;> simp

theorem reads_table (path : List String) (t : String) (a : Option String) :
    Reads fits (source inner) (dottedLexemes config path t ++ aliasLexemes config a)
      (.table path t a) fun l => 0 < l.stage := by
  obtain ⟨first, names, hparts⟩ := List.exists_cons_of_ne_nil (show path ++ [t] ≠ [] by simp)
  have hend : ∀ l : Lexeme, 0 < l.stage → l ≠ .symbol .dot := by
    rintro _ hl rfl
    exact absurd hl (by decide)
  have halias : Reads fits (do
        let asName ← optionalAlias
        return .table (first :: names).dropLast ((first :: names).getLastD "") asName :
          Parser Source) (aliasLexemes config a) (.table path t a) fun l => 0 < l.stage := by
    rw [← hparts, List.dropLast_concat, List.getLastD_concat]
    exact Reads.finish (Reads.weaken reads_alias fun l hl =>
      ⟨(endsItem_of_stage hl).as, (endsItem_of_stage hl).name⟩) rfl
  unfold dottedLexemes
  rw [hparts, List.map_cons, dotSep, List.flatMap_map, List.cons_append]
  refine Reads.peek fun _ _ => Reads.look reads_not_eat
    (fun _ _ => nameLexeme_ne_symbol config first _) ?_
  refine Reads.token (reads_name (nameOf?_nameLexeme config first)) (Reads.remaining fun n hn => ?_)
  rw [List.length_append] at hn
  refine Reads.bind (reads_tableParts (by omega)) halias fun l hl => ?_
  cases a with
  | none => exact hend l hl
  | some n => simp [aliasLexemes, kw]

theorem reads_subquerySource {q : Statement} (a : String) (hstarts : StartsStatement ls)
    (hs : Reads fits inner.statement ls q (· = .symbol .rightParen)) :
    Reads fits (source inner) (parenLexemes ls ++ aliasLexemes config (some a))
      (.subquery q a) follow := by
  refine Reads.peek fun t _ => Reads.token reads_eat ?_
  have hparen : Reads fits (parenStatement inner "subquery" t.offset)
      (ls ++ [.symbol .rightParen]) q fun _ => True := reads_parenStatement hstarts hs
  refine Reads.bind hparen (Reads.peek fun _ _ => ?_) fun _ _ => trivial
  exact Reads.finish (reads_alias_some (isKeyword_kw_self config "as") (nameOf?_nameLexeme config a))
    rfl

/-- A source of a new name. -/
theorem reads_newSource {q : Source} {seen : List String}
    (hsource : Reads fits (source inner) ls q follow)
    (hname : nameIn q.effectiveName seen = false) :
    Reads fits (newSource inner seen) ls q follow := by
  refine Reads.peek fun t _ => Reads.finish hsource ?_
  rw [hname]
  rfl

/-! ## Joins -/

theorem reads_joinSide_none : Reads fits joinSide? [] none fun l => 3 ≤ l.stage := by
  have hword : ∀ k ∈ ["join", "inner", "left", "right", "full", "cross"], ∀ l : Lexeme,
      3 ≤ l.stage → l.isKeyword k = false := fun k hk l hl => by
    have hstage : ∀ k ∈ ["join", "inner", "left", "right", "full", "cross"],
        (Lexeme.word k).stage = 2 := by decide
    exact not_keyword_of_stage (by rw [hstage k hk]; omega)
  simp only [List.forall_mem_cons] at hword
  obtain ⟨hjoin, hinner, hleft, hright, hfull, hcross, -⟩ := hword
  refine Reads.look (reads_isNextKeyword false) hjoin (Reads.look reads_not_eatKeyword hinner
    (Reads.look reads_not_eatKeyword hleft (Reads.look reads_not_eatKeyword hright
    (Reads.look reads_not_eatKeyword hfull (Reads.look reads_not_eatKeyword hcross ?_)))))
  exact Reads.pure

theorem reads_joinKind_none : Reads fits joinKind? [] none fun l => 3 ≤ l.stage :=
  Reads.look reads_joinSide_none (fun _ h => h) Reads.pure

/-- The word of a join before JOIN. -/
theorem reads_joinSide {kind : JoinKind} (hkind : kind ≠ .comma) :
    ∃ w, phrase config kind.keyword = [kw config w, kw config "join"]
      ∧ Reads fits joinSide? [kw config w] (some kind) (· = kw config "join") := by
  have hnot : ∀ {w k : String}, sameName w k = false → (kw config w).isKeyword k = false :=
    not_isKeyword_kw config
  have hself := isKeyword_kw_self config
  -- OUTER is never printed
  have houter : ∀ kind : JoinKind, Reads fits (do
        discard (eatKeyword "outer")
        return some kind : Parser (Option JoinKind)) [] (some kind) (· = kw config "join") := by
    refine fun kind => Reads.look (Reads.discard reads_not_eatKeyword) ?_ Reads.pure
    rintro _ rfl
    exact hnot (by decide)
  cases kind with
  | comma => exact absurd rfl hkind
  | inner =>
    refine ⟨"inner", rfl, Reads.look (reads_isNextKeyword false) (fun _ _ => hnot (by decide)) ?_⟩
    exact Reads.token (reads_eatKeyword (hself "inner")) Reads.pure
  | left =>
    refine ⟨"left", rfl, Reads.look (reads_isNextKeyword false) (fun _ _ => hnot (by decide))
      (Reads.look reads_not_eatKeyword (fun _ _ => hnot (by decide)) ?_)⟩
    exact Reads.token (reads_eatKeyword (hself "left")) (houter .left)
  | right =>
    refine ⟨"right", rfl, Reads.look (reads_isNextKeyword false) (fun _ _ => hnot (by decide))
      (Reads.look reads_not_eatKeyword (fun _ _ => hnot (by decide))
      (Reads.look reads_not_eatKeyword (fun _ _ => hnot (by decide)) ?_))⟩
    exact Reads.token (reads_eatKeyword (hself "right")) (houter .right)
  | full =>
    refine ⟨"full", rfl, Reads.look (reads_isNextKeyword false) (fun _ _ => hnot (by decide))
      (Reads.look reads_not_eatKeyword (fun _ _ => hnot (by decide))
      (Reads.look reads_not_eatKeyword (fun _ _ => hnot (by decide))
      (Reads.look reads_not_eatKeyword (fun _ _ => hnot (by decide)) ?_)))⟩
    exact Reads.token (reads_eatKeyword (hself "full")) (houter .full)
  | cross =>
    refine ⟨"cross", rfl, Reads.look (reads_isNextKeyword false) (fun _ _ => hnot (by decide))
      (Reads.look reads_not_eatKeyword (fun _ _ => hnot (by decide))
      (Reads.look reads_not_eatKeyword (fun _ _ => hnot (by decide))
      (Reads.look reads_not_eatKeyword (fun _ _ => hnot (by decide))
      (Reads.look reads_not_eatKeyword (fun _ _ => hnot (by decide)) ?_))))⟩
    exact Reads.token (reads_eatKeyword (hself "cross")) Reads.pure

/-- The words of a join. -/
theorem reads_joinKind {kind : JoinKind} (hkind : kind ≠ .comma) :
    Reads fits joinKind? (phrase config kind.keyword) (some kind) follow := by
  obtain ⟨w, hwords, hside⟩ := @reads_joinSide fits config kind hkind
  rw [hwords]
  exact Reads.bind hside (Reads.finish (reads_expectKeyword (isKeyword_kw_self config "join")) rfl)
    fun _ _ => rfl

/-- What restricts a join is read. -/
def ConstraintReads (fits : Prop) (inner : Inner) (config : DialectConfig) : JoinConstraint → Prop
  | .on e => Nested fits inner (e.lexemes config) e
  | .shared columns => columns ≠ []
  | .none => True

theorem reads_constraint {start : Nat} {kind : JoinKind} {c : JoinConstraint}
    (hc : ConstraintReads fits inner config c) (hkind : kind = .cross ↔ c = .none) :
    Reads fits (constraint inner start kind) (c.lexemes config) c fun l => 0 < l.stage := by
  cases c with
  | none =>
    rw [JoinConstraint.lexemes, hkind.mpr rfl]
    exact Reads.pure
  | on e =>
    have hne : kind ≠ .cross := fun h => by simpa using hkind.mp h
    unfold constraint
    rw [if_neg hne, JoinConstraint.lexemes]
    exact Reads.token (reads_eatKeyword (isKeyword_kw_self config "on"))
      (Reads.finish (Reads.weaken hc.reads fun l hl => (endsItem_of_stage hl).tight) rfl)
  | shared columns =>
    have hne : kind ≠ .cross := fun h => by simpa using hkind.mp h
    unfold constraint
    rw [if_neg hne, JoinConstraint.lexemes]
    exact Reads.look reads_not_eatKeyword (fun _ _ => not_isKeyword_kw config (by decide))
      (Reads.token (reads_eatKeyword (isKeyword_kw_self config "using"))
        (Reads.finish (reads_nameList config hc) rfl))

/-- The parts of a join are read, and its constraint is one that its kind takes. -/
structure JoinReads (fits : Prop) (inner : Inner) (config : DialectConfig) (j : Join) : Prop where
  right : Reads fits (source inner) (j.right.lexemes config) j.right fun l => 0 < l.stage
  constraint : ConstraintReads fits inner config j.constraint
  takes : j.kind.Takes j.constraint

theorem JoinKind.phrase_head {kind : JoinKind} (h : kind ≠ .comma) :
    ∃ w tail, phrase config kind.keyword = kw config w :: tail ∧ (Lexeme.word w).stage = 2 := by
  cases kind with
  | comma => exact absurd rfl h
  | inner => exact ⟨"inner", _, rfl, by decide⟩
  | left => exact ⟨"left", _, rfl, by decide⟩
  | right => exact ⟨"right", _, rfl, by decide⟩
  | full => exact ⟨"full", _, rfl, by decide⟩
  | cross => exact ⟨"cross", _, rfl, by decide⟩

/-- A further join, or else what follows, may follow a source. -/
theorem stage_joinLexemes (js : List Join) {l : Lexeme} (hl : 0 < l.stage) :
    0 < ((joinLexemes config js).headD l).stage := by
  cases js with
  | nil =>
    rw [joinLexemes]
    exact hl
  | cons j js =>
    obtain ⟨kind, right, constraint⟩ := j
    rw [joinLexemes]
    split
    · exact (by decide : 0 < (Lexeme.symbol .comma).stage)
    · next hne =>
      obtain ⟨w, tail, hwords, hstage⟩ := @JoinKind.phrase_head config kind hne
      rw [hwords, List.cons_append, List.cons_append, List.headD_cons, stage_kw, hstage]
      exact Nat.zero_lt_two

theorem stage_constraintLexemes (c : JoinConstraint) {l : Lexeme} (hl : 0 < l.stage) :
    0 < ((c.lexemes config).headD l).stage := by
  cases c with
  | none =>
    rw [JoinConstraint.lexemes]
    exact hl
  | on e =>
    rw [JoinConstraint.lexemes, List.headD_cons, stage_kw]
    decide
  | shared columns =>
    rw [JoinConstraint.lexemes, List.headD_cons, stage_kw]
    decide

/-- **Joins are read one by one**, as long as no source has the name of one before it. -/
theorem reads_joins {js : List Join} (h : ∀ j ∈ js, JoinReads fits inner config j)
    {seen : List String} (hseen : ∀ j ∈ js, nameIn j.right.effectiveName seen = false)
    (hnames : NamesDiffer (js.map fun j => j.right.effectiveName)) {n : Nat}
    (hn : (joinLexemes config js).length ≤ n) :
    Reads fits (joins inner n seen) (joinLexemes config js) js fun l => 3 ≤ l.stage := by
  induction js generalizing seen n with
  | nil =>
    rw [joinLexemes]
    cases n with
    | zero => exact Reads.pure
    | succ n =>
      refine Reads.peek fun _ _ => Reads.look reads_not_eat ?_
        (Reads.look reads_joinKind_none (fun _ h => h) Reads.pure)
      rintro _ hl rfl
      exact absurd hl (by decide)
  | cons j js ih =>
    obtain ⟨kind, right, c⟩ := j
    rw [List.forall_mem_cons] at h hseen
    rw [NamesDiffer, List.map_cons, List.pairwise_cons] at hnames
    obtain ⟨⟨hright, hc, htakes⟩, hjs⟩ := h
    -- the name of this join is seen by the others, which differ from it
    have hrest : ∀ j ∈ js, nameIn j.right.effectiveName (right.effectiveName :: seen) = false := by
      intro j hj
      rw [nameIn, List.any_cons, Bool.or_eq_false_iff]
      refine ⟨?_, hseen.2 j hj⟩
      rw [sameName_comm]
      exact hnames.1 _ (List.mem_map_of_mem hj)
    have hafter : ∀ l : Lexeme, 3 ≤ l.stage → 0 < ((joinLexemes config js).headD l).stage :=
      fun l hl => stage_joinLexemes js (by omega)
    rw [joinLexemes] at hn ⊢
    by_cases hcomma : kind = .comma
    · subst hcomma
      rw [if_pos rfl] at hn ⊢
      obtain rfl := htakes.mp (Or.inl rfl)
      simp only [List.length_append, List.length_cons] at hn
      cases n with
      | zero => omega
      | succ n =>
        have htail := ih hjs hrest hnames.2 (n := n) (by omega)
        exact Reads.peek fun _ _ => Reads.token reads_eat
          (Reads.bind (reads_newSource hright hseen.1) (Reads.finish htail rfl) hafter)
    · obtain ⟨w, tail, hwords, -⟩ := @JoinKind.phrase_head config kind hcomma
      rw [if_neg hcomma] at hn ⊢
      have hlength : 0 < (phrase config kind.keyword).length := by
        rw [hwords]
        simp
      simp only [List.length_append] at hn
      cases n with
      | zero => omega
      | succ n =>
        have htail := ih hjs hrest hnames.2 (n := n) (by omega)
        have hcross : kind = .cross ↔ c = .none := ⟨fun h => htakes.mp (Or.inr h),
          fun h => (htakes.mpr h).resolve_left hcomma⟩
        have hkindReads : Reads fits joinKind? (phrase config kind.keyword) (some kind)
            fun _ => True := reads_joinKind hcomma
        simp only [List.append_assoc]
        refine Reads.peek fun t _ => Reads.look reads_not_eat (fun l hl => ?_) (Reads.bind hkindReads
          (Reads.bind (reads_newSource hright hseen.1)
            (Reads.bind (reads_constraint hc hcross) (Reads.finish htail rfl) hafter) ?_)
          fun _ _ => trivial)
        · rw [hwords, List.cons_append]
          simp [kw]
        · intro l hl
          rw [headD_append]
          exact stage_constraintLexemes c (hafter l hl)

/-- **The sources of a select**, if it has any. -/
theorem reads_from {first : Option Source} {js : List Join}
    (hfirst : ∀ s ∈ first, Reads fits (source inner) (s.lexemes config) s fun l => 0 < l.stage)
    (hjs : ∀ j ∈ js, JoinReads fits inner config j) (hnone : first = none → js = [])
    (hnames : NamesDiffer ((first.toList ++ js.map Join.right).map Source.effectiveName)) :
    Reads fits (fromClause inner)
      (fromLexemes config first ++ (if first.isSome then joinLexemes config js else [])) (first, js)
      fun l => 3 ≤ l.stage := by
  cases first with
  | none =>
    obtain rfl := hnone rfl
    have hnot : ∀ l : Lexeme, 3 ≤ l.stage → l.isKeyword "from" = false := fun l hl => by
      refine not_keyword_of_stage ?_
      have hfrom : (Lexeme.word "from").stage = 1 := by decide
      omega
    exact Reads.look reads_not_eatKeyword hnot Reads.pure
  | some s =>
    rw [Option.toList_some, List.singleton_append, List.map_cons, List.map_map, NamesDiffer,
      List.pairwise_cons] at hnames
    have hseen : ∀ j ∈ js, nameIn j.right.effectiveName [s.effectiveName] = false := fun j hj => by
      rw [nameIn, List.any_cons, List.any_nil, Bool.or_false, sameName_comm]
      exact hnames.1 _ (List.mem_map_of_mem hj)
    rw [fromLexemes, Option.isSome_some, if_pos rfl, List.cons_append]
    refine Reads.token (reads_eatKeyword (isKeyword_kw_self config "from"))
      (Reads.bind (reads_newSource (hfirst s rfl) rfl) (Reads.remaining fun n hn =>
        Reads.finish (reads_joins hjs hseen hnames.2 hn) rfl) fun l hl => ?_)
    have hl : 3 ≤ l.stage := hl
    exact stage_joinLexemes js (by omega)

theorem ne_comma_of_stage {l : Lexeme} (h : 3 ≤ l.stage) : l ≠ .symbol .comma := by
  rintro rfl
  exact absurd h (by decide)

/-- What may follow the items of a select. -/
def EndsItems (l : Lexeme) : Prop := 0 < l.stage ∧ l ≠ .symbol .comma

/-- The sources, if there are any, or else what follows them, may follow the items. -/
theorem endsItems_fromLexemes (first : Option Source) (js : List Join) {l : Lexeme}
    (hl : 3 ≤ l.stage) :
    EndsItems ((fromLexemes config first
      ++ (if first.isSome then joinLexemes config js else [])).headD l) := by
  cases first with
  | none =>
    rw [fromLexemes]
    exact ⟨Nat.zero_lt_of_lt hl, ne_comma_of_stage hl⟩
  | some s =>
    rw [fromLexemes, List.cons_append, List.headD_cons, EndsItems, stage_kw]
    exact ⟨by decide, by simp [kw]⟩

/-! ## The other clauses -/

theorem reads_clause {k : String} {o : Option Expr}
    (h : ∀ e ∈ o, Nested fits inner (e.lexemes config) e) :
    Reads fits (clause inner k) (optionLexemes config [kw config k] [] o) o
      fun l => l.tight < 1 ∧ l.isKeyword k = false := by
  cases o with
  | none =>
    rw [optionLexemes]
    exact Reads.look reads_not_eatKeyword (fun _ hl => hl.2) Reads.pure
  | some e =>
    rw [optionLexemes, List.append_nil, List.singleton_append]
    exact Reads.token (reads_eatKeyword (isKeyword_kw_self config k))
      (Reads.finish (Reads.weaken (h e rfl).reads fun _ hl => hl.1) rfl)

theorem reads_offset {o : Option Expr} (h : ∀ e ∈ o, Nested fits inner (e.lexemes config) e) :
    Reads fits (offsetClause inner) (optionLexemes config [kw config "offset"] [] o) o
      fun l => 0 < l.stage ∧ l.isKeyword "offset" = false := by
  cases o with
  | none =>
    rw [optionLexemes]
    exact Reads.look reads_not_eatKeyword (fun _ hl => hl.2) Reads.pure
  | some e =>
    rw [optionLexemes, List.singleton_append]
    -- ROWS is never printed
    have hrows : Reads fits (do
          discard (eatKeyword "rows")
          return some e : Parser (Option Expr)) [] (some e)
        fun l => 0 < l.stage ∧ l.isKeyword "offset" = false :=
      Reads.look (Reads.discard reads_not_eatKeyword) (fun _ hl => (endsItem_of_stage hl.1).rows)
        Reads.pure
    exact Reads.token (reads_eatKeyword (isKeyword_kw_self config "offset"))
      (Reads.bind (h e rfl).reads hrows fun _ hl => (endsItem_of_stage hl.1).tight)

/-- A clause that may be left out does not change how late the next lexeme is, if it is as late. -/
theorem stage_optionLexemes {k : String} (o : Option Expr) {m : Nat} {l : Lexeme}
    (hk : m ≤ (Lexeme.word k).stage) (hl : m ≤ l.stage) :
    m ≤ ((optionLexemes config [kw config k] [] o).headD l).stage := by
  cases o with
  | none =>
    rw [optionLexemes]
    exact hl
  | some e =>
    rw [optionLexemes, List.singleton_append, List.headD_cons, stage_kw]
    exact hk

theorem stage_listLexemes {k words : String} (lss : List (List Lexeme)) {m : Nat} {l : Lexeme}
    (hwords : phrase config words = [kw config k, kw config "by"])
    (hk : m ≤ (Lexeme.word k).stage) (hl : m ≤ l.stage) :
    m ≤ ((listLexemes config words lss).headD l).stage := by
  unfold listLexemes
  split
  · exact hl
  · rw [hwords, List.cons_append, List.headD_cons, stage_kw]
    exact hk

/-- LIMIT is printed before OFFSET. -/
theorem reads_page {limit offset : Option Expr}
    (hlimit : ∀ e ∈ limit, Nested fits inner (e.lexemes config) e)
    (hoffset : ∀ e ∈ offset, Nested fits inner (e.lexemes config) e) :
    Reads fits (page inner) (optionLexemes config [kw config "limit"] [] limit
        ++ optionLexemes config [kw config "offset"] [] offset) (limit, offset)
      fun l => 9 ≤ l.stage := by
  have hstages : (Lexeme.word "limit").stage = 7 ∧ (Lexeme.word "offset").stage = 8 := by decide
  have hnot : ∀ l : Lexeme, 8 ≤ l.stage → l.isKeyword "limit" = false := fun l hl =>
    not_keyword_of_stage (by omega)
  have hoff : Reads fits (offsetClause inner) (optionLexemes config [kw config "offset"] [] offset)
      offset fun l => 9 ≤ l.stage := Reads.weaken (reads_offset hoffset) fun l hl =>
    ⟨Nat.lt_of_lt_of_le (by decide) hl, not_keyword_of_stage (by omega)⟩
  have hpast : ∀ l : Lexeme, 9 ≤ l.stage →
      8 ≤ ((optionLexemes config [kw config "offset"] [] offset).headD l).stage := fun l hl =>
    stage_optionLexemes offset (by decide) (Nat.le_of_succ_le hl)
  cases limit with
  | some e =>
    refine Reads.bind (reads_clause hlimit) (Reads.finish hoff rfl) fun l hl => ?_
    have hlate := hpast l hl
    exact ⟨(endsItem_of_stage (by omega)).tight, hnot _ hlate⟩
  | none =>
    have hnone : Reads fits (clause inner "limit") [] none fun l => 8 ≤ l.stage :=
      Reads.look reads_not_eatKeyword (fun l hl => hnot l hl) Reads.pure
    rw [optionLexemes, List.nil_append]
    refine Reads.look hnone hpast ?_
    cases offset with
    | none =>
      rw [optionLexemes] at hoff ⊢
      exact Reads.look hoff (fun _ hl => hl) Reads.pure
    | some o =>
      -- a limit may also follow the offset
      have hlimitLast : Reads fits (do return (← clause inner "limit", some o) :
          Parser (Option Expr × Option Expr)) [] (none, some o) fun l => 9 ≤ l.stage :=
        Reads.look hnone (fun l hl => Nat.le_of_succ_le hl) Reads.pure
      rw [← List.append_nil (optionLexemes config [kw config "offset"] [] (some o))]
      exact Reads.bind hoff hlimitLast fun _ hl => hl

/-- The parts of a select are read. -/
structure SelectReads (fits : Prop) (inner : Inner) (config : DialectConfig) (q : Select) :
    Prop where
  items : List.Forall₂ (fun ls i => Reads fits (selectItem inner) ls i fun l => 0 < l.stage)
    (itemLexemes config q.items) q.items
  nonempty : q.items ≠ []
  starts : ∃ s, Starts s (commaSep (itemLexemes config q.items))
  source : ∀ s ∈ q.source, Reads fits (source inner) (s.lexemes config) s fun l => 0 < l.stage
  joins : ∀ j ∈ q.joins, JoinReads fits inner config j
  noSource : q.source = none → q.joins = []
  names : NamesDiffer ((q.source.toList ++ q.joins.map Join.right).map Source.effectiveName)
  filter : ∀ e ∈ q.filter, Nested fits inner (e.lexemes config) e
  groupBy : List.Forall₂ (Nested fits inner) (exprLexemes config q.groupBy) q.groupBy
  having : ∀ e ∈ q.having, Nested fits inner (e.lexemes config) e
  orderBy : List.Forall₂ (fun ls i => Reads fits (orderItem inner) ls i EndsOrderItem)
    (orderLexemes config q.orderBy) q.orderBy
  limit : ∀ e ∈ q.limit, Nested fits inner (e.lexemes config) e
  offset : ∀ e ∈ q.offset, Nested fits inner (e.lexemes config) e

/-- ALL is never printed. -/
theorem reads_quantifier (distinct : Bool) :
    Reads fits quantifier (if distinct then [kw config "distinct"] else []) distinct
      fun l => l.isKeyword "distinct" = false ∧ l.isKeyword "all" = false := by
  cases distinct with
  | true => exact Reads.token (reads_eatKeyword (isKeyword_kw_self config "distinct")) Reads.pure
  | false =>
    exact Reads.look reads_not_eatKeyword (fun _ hl => hl.1)
      (Reads.look (Reads.discard reads_not_eatKeyword) (fun _ hl => hl.2) Reads.pure)

/-- The parser reads the last clauses of a select; their first lexeme, or else what follows them,
is as `start` says. -/
structure ReadsClauses (fits : Prop) (start : Lexeme → Prop) {α : Type} (p : Parser α)
    (ls : List Lexeme) (a : α) : Prop where
  reads : Reads fits p ls a fun l => 9 ≤ l.stage
  starts : ∀ l : Lexeme, 9 ≤ l.stage → start (ls.headD l)

/-- One clause and those behind it. -/
theorem ReadsClauses.bind {α β : Type} {start later : Lexeme → Prop} {p : Parser α}
    {f : α → Parser β} {a : α} {b : β} (hp : Reads fits p ls a later)
    (hstart : ∀ l : Lexeme, later l → start (ls.headD l))
    (hf : ReadsClauses fits later (f a) ms b) : ReadsClauses fits start (p >>= f) (ls ++ ms) b where
  reads := Reads.bind hp hf.reads hf.starts
  starts l hl := by
    rw [headD_append]
    exact hstart _ (hf.starts l hl)

/-- A clause with an expression, and those of later stages. -/
theorem ReadsClauses.clause {β : Type} {k : String} {o : Option Expr} {f : Option Expr → Parser β}
    {b : β} {stage : Nat} (h : ∀ e ∈ o, Nested fits inner (e.lexemes config) e)
    (hk : (Lexeme.word k).stage = stage)
    (hf : ReadsClauses fits (stage + 1 ≤ ·.stage) (f o) ms b) :
    ReadsClauses fits (stage ≤ ·.stage) (Parser.clause inner k >>= f)
      (optionLexemes config [kw config k] [] o ++ ms) b := by
  refine ReadsClauses.bind (Reads.weaken (reads_clause h) fun l hl => ?_)
    (fun l hl => stage_optionLexemes o (Nat.le_of_eq hk.symm) (Nat.le_of_succ_le hl)) hf
  exact ⟨(endsItem_of_stage (Nat.zero_lt_of_lt hl)).tight, not_keyword_of_stage (by omega)⟩

/-- A clause with a list after BY, and those of later stages. -/
theorem ReadsClauses.byClause {α β : Type} {k words : String} {item : Parser α}
    {lss : List (List Lexeme)} {as : List α} {f : List α → Parser β} {b : β} {stage : Nat}
    {follow' : Lexeme → Prop} (hwords : phrase config words = [kw config k, kw config "by"])
    (hitems : List.Forall₂ (fun ls a => Reads fits item ls a follow') lss as)
    (hcomma : follow' (.symbol .comma)) (hfollow : ∀ l : Lexeme, 0 < l.stage → follow' l)
    (hk : (Lexeme.word k).stage = stage) (hpos : 2 ≤ stage)
    (hf : ReadsClauses fits (stage + 1 ≤ ·.stage) (f as) ms b) :
    ReadsClauses fits (stage ≤ ·.stage) (Parser.byClause k item >>= f)
      (listLexemes config words lss ++ ms)
      b := by
  refine ReadsClauses.bind (reads_byClause hwords hitems hcomma (fun l hl => ?_) fun l hl => ?_)
    (fun l hl => stage_listLexemes lss hwords (Nat.le_of_eq hk.symm) (Nat.le_of_succ_le hl)) hf
  · exact hfollow l (Nat.zero_lt_of_lt hl)
  · refine ⟨?_, not_keyword_of_stage (by omega)⟩
    rintro rfl
    have hcommaStage : (Lexeme.symbol .comma).stage = 2 := rfl
    omega

/-- The clauses behind the sources of a select are read. -/
structure ClausesRead (fits : Prop) (inner : Inner) (config : DialectConfig) (q : Select) :
    Prop where
  filter : ∀ e ∈ q.filter, Nested fits inner (e.lexemes config) e
  groupBy : List.Forall₂ (Nested fits inner) (exprLexemes config q.groupBy) q.groupBy
  having : ∀ e ∈ q.having, Nested fits inner (e.lexemes config) e
  orderBy : List.Forall₂ (fun ls i => Reads fits (orderItem inner) ls i EndsOrderItem)
    (orderLexemes config q.orderBy) q.orderBy
  limit : ∀ e ∈ q.limit, Nested fits inner (e.lexemes config) e
  offset : ∀ e ∈ q.offset, Nested fits inner (e.lexemes config) e

/-- A select of items and sources that are read from any lexemes. -/
theorem reads_select_of {q : Select} {is : List Lexeme} (hstarts : ∃ s, Starts s is)
    (hitems : Reads fits (commaList (selectItem inner)) is q.items EndsItems)
    (hfrom : Reads fits (fromClause inner) ms (q.source, q.joins) fun l => 3 ≤ l.stage)
    (hends : ∀ l : Lexeme, 3 ≤ l.stage → EndsItems (ms.headD l))
    (h : ClausesRead fits inner config q) :
    Reads fits (select inner)
      (kw config "select" :: ((if q.distinct then [kw config "distinct"] else []) ++ (is ++ (ms
        ++ (optionLexemes config [kw config "where"] [] q.filter
        ++ (listLexemes config "group by" (exprLexemes config q.groupBy)
        ++ (optionLexemes config [kw config "having"] [] q.having
        ++ (listLexemes config "order by" (orderLexemes config q.orderBy)
        ++ (optionLexemes config [kw config "limit"] [] q.limit
        ++ optionLexemes config [kw config "offset"] [] q.offset))))))))) q
      fun l => 9 ≤ l.stage := by
  obtain ⟨distinct, items, source, joins, filter, groupBy, having, orderBy, limit, offset⟩ := q
  obtain ⟨s, hstarts⟩ := hstarts
  have horder : ∀ l : Lexeme, 0 < l.stage → EndsOrderItem l := fun l hl =>
    have hl := endsItem_of_stage hl
    ⟨hl.tight, hl.asc, hl.desc, hl.nulls⟩
  refine Reads.token (reads_expectKeyword (isKeyword_kw_self config "select"))
    (Reads.bind (reads_quantifier distinct) ?_ fun l _ => ?_)
  · suffices ReadsClauses fits EndsItems _ _ _ from
      Reads.bind hitems this.reads this.starts
    refine ReadsClauses.bind hfrom hends ?_
    refine ReadsClauses.clause h.filter (by decide) ?_
    refine ReadsClauses.byClause rfl (Nested.forall_reads h.groupBy) Nat.zero_lt_one
      (fun l hl => (endsItem_of_stage hl).tight) (by decide) (by decide) ?_
    refine ReadsClauses.clause h.having (by decide) ?_
    refine ReadsClauses.byClause rfl h.orderBy (endsOrderItem_symbol (by decide)) horder (by decide)
      (by decide) ?_
    refine ⟨Reads.finish (reads_page h.limit h.offset) rfl, fun l hl => ?_⟩
    rw [headD_append]
    exact stage_optionLexemes limit (by decide) (stage_optionLexemes offset (by decide)
      (Nat.le_of_succ_le (Nat.le_of_succ_le hl)))
  · rw [headD_append]
    exact ⟨hstarts.head_keyword (by decide) (by decide) _,
      hstarts.head_keyword (by decide) (by decide) _⟩

/-- **A select is read clause by clause.** -/
theorem reads_select {q : Select} (h : SelectReads fits inner config q) :
    Reads fits (select inner) (q.lexemes config) q fun l => 9 ≤ l.stage := by
  have hitems : Reads fits (commaList (selectItem inner)) (commaSep (itemLexemes config q.items))
      q.items EndsItems :=
    reads_commaList h.items h.nonempty (by decide : 0 < (Lexeme.symbol .comma).stage)
      (fun _ hl => hl.1) fun _ hl => hl.2
  have hclauses : ClausesRead fits inner config q :=
    ⟨h.filter, h.groupBy, h.having, h.orderBy, h.limit, h.offset⟩
  have hread := reads_select_of h.starts hitems (reads_from h.source h.joins h.noSource h.names)
    (fun _ hl => endsItems_fromLexemes q.source q.joins hl) hclauses
  obtain ⟨distinct, items, source, joins, filter, groupBy, having, orderBy, limit, offset⟩ := q
  rw [Select.lexemes]
  exact hread

end

end Parser

end Sql
