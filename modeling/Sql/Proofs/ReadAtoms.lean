import Sql.Proofs.ReadExpr

/-!
# Reading expressions without an outer operator

Names, calls, CASE, casts and what stands in parentheses. What the parsers of the next level in read
is given; the theorems here say what the parsers around them make of it.
-/

namespace Sql.Parser

section

variable {fits : Prop} {inner : Inner} {config : DialectConfig} {ls ms : List Lexeme} {e : Expr}
  {follow : Lexeme → Prop} {s : Nat}

/-! ## First lexemes -/

theorem reads_isNextQuery (value : Bool) :
    Reads fits isNextQuery [] value
      fun l => (l.isKeyword "select" || l.isKeyword "with") = value := by
  refine reads_of_nil fun rest hrest => ?_
  show Except.ok ((firstToken rest).lexeme.isKeyword "select"
    || (firstToken rest).lexeme.isKeyword "with", rest) = _
  rw [hrest]

/-- The parser for expressions one level further in reads the expression. -/
structure Nested (fits : Prop) (inner : Inner) (ls : List Lexeme) (e : Expr) : Prop where
  starts : ∃ s, Starts s ls
  reads : Reads fits inner.expr ls e fun l => l.tight < 1

theorem Nested.forall_reads {lss : List (List Lexeme)} {es : List Expr}
    (h : List.Forall₂ (Nested fits inner) lss es) :
    List.Forall₂ (fun ls e => Reads fits inner.expr ls e fun l => l.tight < 1) lss es :=
  h.imp fun _ _ h => h.reads

/-- What starts with SELECT or WITH. -/
def IsQuery (ls : List Lexeme) : Prop :=
  ∃ l tail, ls = l :: tail ∧ (l.isKeyword "select" || l.isKeyword "with") = true

/-! ## Parentheses and constants -/

theorem reads_paren (he : Nested fits inner ls e) :
    Reads fits (primary inner) (parenLexemes ls) (.paren e) follow := by
  refine Reads.peek fun t ht => ?_
  obtain ⟨_, _, ht⟩ := ht
  rw [ht]
  refine Reads.token reads_skip (Reads.look (reads_isNextQuery false) (fun l _ => ?_) ?_)
  · obtain ⟨s, hstarts⟩ := he.starts
    exact (hstarts.append _).not_query l
  · exact Reads.bind he.reads (Reads.finish reads_closeParen rfl) fun _ _ => Nat.zero_lt_one

theorem reads_subquery {q : Statement} (hquery : IsQuery ls)
    (hs : Reads fits inner.statement ls q (· = .symbol .rightParen)) :
    Reads fits (primary inner) (parenLexemes ls) (.subquery q) follow := by
  obtain ⟨l, tail, rfl, hl⟩ := hquery
  refine Reads.peek fun t ht => ?_
  obtain ⟨_, _, ht⟩ := ht
  rw [ht]
  refine Reads.token reads_skip (Reads.look (reads_isNextQuery true) (fun _ _ => hl) ?_)
  exact Reads.bind hs (Reads.finish reads_closeParen rfl) fun _ _ => rfl

theorem reads_number {t : String} :
    Reads fits (primary inner) [.number t] (.literal (.number t)) follow := by
  refine reads_of_cons fun tok rest htok => ?_
  obtain ⟨_, offset⟩ := tok
  obtain rfl := htok
  rfl

theorem reads_string {v : String} :
    Reads fits (primary inner) [.string v] (.literal (.string v)) follow := by
  refine reads_of_cons fun tok rest htok => ?_
  obtain ⟨_, offset⟩ := tok
  obtain rfl := htok
  rfl

theorem reads_param {c : Char} {n : Option String} :
    Reads fits (primary inner) [.param c n] (.param ⟨n, none⟩) follow := by
  refine reads_of_cons fun tok rest htok => ?_
  obtain ⟨_, offset⟩ := tok
  obtain rfl := htok
  rfl

theorem reads_star : Reads fits (primary inner) [.symbol .star] (.star none) follow := by
  refine reads_of_cons fun tok rest htok => ?_
  obtain ⟨_, offset⟩ := tok
  obtain rfl := htok
  rfl

/-! ## Words -/

/-- An expression that starts with a word. -/
theorem reads_word {w : String}
    (h : ∀ start, Reads fits (wordExpr inner w start) (.word w :: ls) e follow) :
    Reads fits (primary inner) (.word w :: ls) e follow := by
  refine Reads.peek fun t ht => ?_
  obtain ⟨_, _, ht⟩ := ht
  rw [ht]
  exact h t.offset

theorem reads_null : Reads fits (primary inner) [kw config "null"] .null follow := by
  refine reads_word fun start => ?_
  unfold wordExpr
  rw [foldCase_keyword]
  exact Reads.token reads_skip Reads.pure

theorem reads_boolean (b : Bool) :
    Reads fits (primary inner) ((Literal.boolean b).lexemes config) (.literal (.boolean b))
      follow := by
  cases b with
  | true => exact reads_word fun start => Reads.token reads_skip Reads.pure
  | false => exact reads_word fun start => Reads.token reads_skip Reads.pure

/-- The constant of a type that a string makes. -/
def valueOf? (type : String) : Lexeme → Option String
  | .string v => if literalTypes.contains type then some v else none
  | _ => none

theorem literalValue?_eq (type : String) (ts : List Token) :
    literalValue? type ts = .ok (valueOf? type (firstToken ts.tail).lexeme, ts) := by
  show (match (firstToken ts.tail).lexeme with
    | .string s => (return if literalTypes.contains type then some s else none : Parser (Option String))
    | _ => return none) ts = _
  cases (firstToken ts.tail).lexeme <;> rfl

theorem Reads.literalValue {α : Type} {type : String} {l : Lexeme} {f : Option String → Parser α}
    {a : α} (value : Option String) (hvalue : ∀ l', follow l' → valueOf? type (ls.headD l') = value)
    (h : Reads fits (f value) (l :: ls) a follow) :
    Reads fits (literalValue? type >>= f) (l :: ls) a follow := by
  intro ts rest hts hrest
  have hsecond : valueOf? type (firstToken (ts ++ rest).tail).lexeme = value := by
    obtain ⟨t, ts, rfl, -, hts⟩ := List.map_eq_cons_iff.mp hts
    rw [List.cons_append, List.tail_cons, lexeme_firstToken_append, hts]
    exact hvalue _ hrest
  refine Outcome.bind (a := (value, ts ++ rest)) (Or.inl ?_) (h ts rest hts hrest)
  rw [literalValue?_eq, hsecond]

theorem reads_typed {type v : String} (h : type ∈ literalTypes) :
    Reads fits (primary inner) [kw config type, .string v] (.literal (.typed type v)) follow := by
  have hwords : ∀ type ∈ literalTypes, foldCase type = type
      ∧ type ∉ ["null", "true", "false", "case", "cast", "exists"] := by decide
  obtain ⟨hfold, hown⟩ := hwords type h
  simp only [List.mem_cons, not_or] at hown
  refine reads_word fun start => ?_
  unfold wordExpr
  rw [foldCase_keyword, hfold]
  simp only [hown, if_false]
  refine Reads.literalValue (some v) (fun _ _ => ?_)
    (Reads.token reads_skip (Reads.token reads_skip Reads.pure))
  rw [List.headD_cons, valueOf?, if_pos (List.contains_iff_mem.mpr h)]

/-! ## Names -/

theorem isFunctionWord_eq (w : String) (ts : List Token) :
    isFunctionWord w ts = .ok ((w == "left" || w == "right")
      && (firstToken ts.tail).lexeme == .symbol .leftParen, ts) := rfl

/-- A word that is no stop word, or that stands for a function, starts a name. -/
theorem reads_nameWord {w : String}
    (hw : isStopWord w = false
      ∨ nameIn w ["left", "right"] = true ∧ ls.head? = some (.symbol .leftParen))
    (hsecond : ∀ l, follow l → ∀ v, ls.headD l ≠ .string v)
    (h : Reads fits (path inner) (.word w :: ls) e follow) :
    Reads fits (primary inner) (.word w :: ls) e follow := by
  -- words with a syntax of their own are stop words, and none of them stands for a function
  have hown : ∀ k ∈ ["null", "true", "false", "case", "cast", "exists"], foldCase w ≠ k := by
    rintro k hk rfl
    have hk' : isStopWord (foldCase w) = true ∧ nameIn (foldCase w) ["left", "right"] = false := by
      have : ∀ k ∈ ["null", "true", "false", "case", "cast", "exists"],
          isStopWord k = true ∧ nameIn k ["left", "right"] = false := by decide
      exact this _ hk
    rw [isStopWord_congr (foldCase_foldCase w), nameIn_congr (foldCase_foldCase w)] at hk'
    rw [hk'.1, hk'.2] at hw
    simp at hw
  simp only [List.forall_mem_cons] at hown
  refine reads_word fun start => ?_
  unfold wordExpr
  simp only [hown, if_false]
  refine Reads.literalValue none (fun l hl => ?_) ?_
  · cases hl' : ls.headD l with
    | string v => exact absurd hl' (hsecond l hl v)
    | _ => rfl
  · intro ts rest hts hrest
    show Outcome fits (isFunctionWord (foldCase w) (ts ++ rest) >>= fun r =>
      (if (isStopWord w && !r.1) = true then failAt start (.unexpectedKeyword w) else path inner :
        Parser Expr) r.2) _
    refine Outcome.bind (Or.inl (isFunctionWord_eq _ _)) ?_
    rw [if_neg ?_]
    · exact h ts rest hts hrest
    · rcases hw with hw | ⟨hname, hparen⟩
      · simp [hw]
      · obtain ⟨t, ts, rfl, -, hts⟩ := List.map_eq_cons_iff.mp hts
        obtain ⟨tail, rfl⟩ := List.head?_eq_some_iff.mp hparen
        have hsecond : (firstToken (t :: ts ++ rest).tail).lexeme = .symbol .leftParen := by
          rw [List.cons_append, List.tail_cons, lexeme_firstToken_append, hts, List.headD_cons]
        have hword : (foldCase w == "left" || foldCase w == "right") = true := by
          simpa [nameIn, sameName, show foldCase "left" = "left" by decide,
            show foldCase "right" = "right" by decide] using hname
        dsimp only
        rw [hword, hsecond]
        simp

/-- The parts of a dotted name after the first. -/
theorem reads_pathTail {names : List String} {read : String → Lexeme}
    (hnames : ∀ n ∈ names, nameOf? (read n) = some n) {parts : List String} {n : Nat}
    (hn : (names.flatMap fun n => [.symbol .dot, read n]).length ≤ n) :
    Reads fits (pathTail n parts) (names.flatMap fun n => [.symbol .dot, read n])
      (parts ++ names, false) (· ≠ .symbol .dot) := by
  induction names generalizing parts n with
  | nil =>
    rw [List.append_nil]
    cases n with
    | zero => exact Reads.pure
    | succ n => exact Reads.look reads_not_eat (fun _ h => h) Reads.pure
  | cons m names ih =>
    rw [List.forall_mem_cons] at hnames
    rw [List.flatMap_cons] at hn ⊢
    simp only [List.length_append, List.length_cons, List.length_nil] at hn
    cases n with
    | zero => omega
    | succ n =>
      have hstar : read m ≠ .symbol .star := by
        intro h
        have := hnames.1
        rw [h] at this
        simp [nameOf?] at this
      have htail := @ih hnames.2 (parts ++ [m]) n (by omega)
      rw [List.append_assoc, List.singleton_append] at htail
      refine Reads.token reads_eat (Reads.look reads_not_eat (fun _ _ => hstar) ?_)
      exact Reads.token (reads_name hnames.1) htail

/-- The word or quoted name that a token is. -/
def partOf? : Lexeme → Option String
  | .word w => some w
  | .quoted n => some n
  | _ => none

/-- What starts with a name, after its parts. -/
def pathEnd (inner : Inner) (parts : List String) (star : Bool) : Parser Expr := do
  if star then return .star parts.getLast?
  else if ← isNext (.symbol .leftParen) then call inner (dotted (parts.map writtenPart))
  else return .column ⟨parts.dropLast, parts.getLastD ""⟩

/-- What starts with a name, after its first part. -/
def pathRest (inner : Inner) (first : String) : Parser Expr := do
  let (parts, star) ← pathTail (← remaining) [first]
  pathEnd inner parts star

/-- A name with its first part, and then what comes after the parts. -/
theorem reads_path {l : Lexeme} {n : String} {parts : List String} {star : Bool}
    {follow' : Lexeme → Prop} (hl : partOf? l = some n)
    (htail : ∀ k, ls.length ≤ k → Reads fits (pathTail k [n]) ls (parts, star) follow')
    (hend : Reads fits (pathEnd inner parts star) ms e follow)
    (hfollow : ∀ l, follow l → follow' (ms.headD l)) :
    Reads fits (path inner) (l :: (ls ++ ms)) e follow := by
  have hrest : Reads fits (pathRest inner n) (ls ++ ms) e follow :=
    Reads.remaining fun k hk => Reads.bind (htail k (by
      rw [List.length_append] at hk
      omega)) hend hfollow
  refine Reads.peek fun t ht => ?_
  obtain ⟨_, _, ht⟩ := ht
  rw [ht, List.headD_cons]
  cases l with
  | word w =>
    obtain rfl := Option.some.inj hl
    exact Reads.token (Reads.token reads_skip Reads.pure) hrest
  | quoted m =>
    obtain rfl := Option.some.inj hl
    exact Reads.token (Reads.token reads_skip Reads.pure) hrest
  | _ => simp [partOf?] at hl

theorem partOf?_nameLexeme (config : DialectConfig) (n : String) :
    partOf? (nameLexeme config n) = some n := by
  unfold nameLexeme
  split <;> rfl

theorem partOf?_partLexeme (part : String) : partOf? (partLexeme part) = some part := by
  unfold partLexeme
  split <;> rfl

/-- A printed name is read as a name where an expression may stand. -/
theorem reads_nameLexeme {n : String} (hsecond : ∀ l, follow l → ∀ v, ls.headD l ≠ .string v)
    (h : Reads fits (path inner) (nameLexeme config n :: ls) e follow) :
    Reads fits (primary inner) (nameLexeme config n :: ls) e follow := by
  unfold nameLexeme at h ⊢
  split at h
  · next hplain =>
    rw [if_pos hplain]
    exact reads_nameWord (Or.inl (isStopWord_of_isPlainName hplain.2)) hsecond h
  · next hplain =>
    rw [if_neg hplain]
    refine Reads.peek fun t ht => ?_
    obtain ⟨_, _, ht⟩ := ht
    rw [ht]
    exact h

theorem not_string_of_tight {l : Lexeme} (h : l.tight < strengthAtom) (v : String) :
    l ≠ .string v := by
  rintro rfl
  exact Nat.lt_irrefl _ h

theorem reads_column (c : ColumnRef) :
    Reads fits (primary inner) (dottedLexemes config c.path c.name) (.column c)
      fun l => l.tight < strengthAtom := by
  obtain ⟨first, names, hparts⟩ := List.exists_cons_of_ne_nil
    (show c.path ++ [c.name] ≠ [] by simp)
  have hend : Reads fits (pathEnd inner (first :: names) false) [] (.column c)
      fun l => l.tight < strengthAtom := by
    refine Reads.look (reads_isNext false) (fun l hl => ?_) ?_
    · exact beq_eq_false_iff_ne.mpr (ne_symbol_of_tight hl)
    · rw [← hparts, List.dropLast_concat, List.getLastD_concat]
      exact Reads.pure
  unfold dottedLexemes
  rw [hparts, List.map_cons, dotSep, List.flatMap_map]
  refine reads_nameLexeme (fun l hl v => ?_) ?_
  · cases names with
    | nil => exact not_string_of_tight hl v
    | cons _ _ => simp
  · have := reads_path (partOf?_nameLexeme config first) (fun k hk =>
      @reads_pathTail fits names (nameLexeme config) (fun n _ => nameOf?_nameLexeme config n) [first]
        k hk) hend fun l hl => ne_symbol_of_tight hl
    rwa [List.append_nil] at this

theorem reads_qualifiedStar (q : String) :
    Reads fits (primary inner) [nameLexeme config q, .symbol .dot, .symbol .star] (.star (some q))
      follow := by
  refine reads_nameLexeme (fun _ _ _ => by simp) ?_
  have htail : ∀ k, [Lexeme.symbol .dot, .symbol .star].length ≤ k →
      Reads fits (pathTail k [q]) [.symbol .dot, .symbol .star] ([q], true) follow := fun k hk => by
    cases k with
    | zero => simp at hk
    | succ k => exact Reads.token reads_eat (Reads.token reads_eat Reads.pure)
  have hend : Reads fits (pathEnd inner [q] true) [] (.star (some q)) follow := Reads.pure
  exact reads_path (partOf?_nameLexeme config q) htail hend fun _ h => h

/-! ## Lists after BY -/

/-- A list after a keyword and BY, left out when it is empty. -/
theorem reads_byClause {α : Type} {item : Parser α} {lss : List (List Lexeme)} {as : List α}
    {k words : String} {follow' : Lexeme → Prop}
    (hwords : phrase config words = [kw config k, kw config "by"])
    (hitems : List.Forall₂ (fun ls a => Reads fits item ls a follow') lss as)
    (hcomma : follow' (.symbol .comma)) (hfollow : ∀ l, follow l → follow' l)
    (hend : ∀ l, follow l → l ≠ .symbol .comma ∧ l.isKeyword k = false) :
    Reads fits (byClause k item) (listLexemes config words lss) as follow := by
  cases hitems with
  | nil => exact Reads.look reads_not_eatKeyword (fun l hl => (hend l hl).2) Reads.pure
  | cons hitem hitems =>
    rw [listLexemes, hwords]
    exact Reads.token (reads_eatKeyword (isKeyword_kw_self config k))
      (Reads.token (reads_expectKeyword (isKeyword_kw_self config "by"))
        (reads_commaList (.cons hitem hitems) (by simp) hcomma hfollow fun l hl => (hend l hl).1))

theorem reads_direction (d : Option SortDirection) :
    Reads fits direction (directionLexemes config d) d
      fun l => l.isKeyword "asc" = false ∧ l.isKeyword "desc" = false := by
  cases d with
  | none =>
    exact Reads.look reads_not_eatKeyword (fun _ h => h.1)
      (Reads.look reads_not_eatKeyword (fun _ h => h.2) Reads.pure)
  | some d =>
    cases d with
    | asc => exact Reads.token (reads_eatKeyword (isKeyword_kw_self config "asc")) Reads.pure
    | desc =>
      exact Reads.look reads_not_eatKeyword (fun _ _ => not_isKeyword_kw config (by decide))
        (Reads.token (reads_eatKeyword (isKeyword_kw_self config "desc")) Reads.pure)

theorem reads_nullsOrder (n : Option NullsOrder) :
    Reads fits nullsOrder (nullsLexemes config n) n fun l => l.isKeyword "nulls" = false := by
  cases n with
  | none => exact Reads.look reads_not_eatKeyword (fun _ h => h) Reads.pure
  | some n =>
    have hnulls := isKeyword_kw_self config "nulls"
    cases n with
    | first =>
      exact Reads.token (reads_eatKeyword hnulls)
        (Reads.token (reads_eatKeyword (isKeyword_kw_self config "first")) Reads.pure)
    | last =>
      exact Reads.token (reads_eatKeyword hnulls)
        (Reads.look reads_not_eatKeyword (fun _ _ => not_isKeyword_kw config (by decide))
          (Reads.token (reads_eatKeyword (isKeyword_kw_self config "last")) Reads.pure))

/-- What follows a sort key. -/
def EndsOrderItem (l : Lexeme) : Prop :=
  l.tight < 1 ∧ l.isKeyword "asc" = false ∧ l.isKeyword "desc" = false
    ∧ l.isKeyword "nulls" = false

theorem reads_orderItem {d : Option SortDirection} {n : Option NullsOrder}
    (he : Nested fits inner ls e) :
    Reads fits (orderItem inner) (ls ++ (directionLexemes config d ++ nullsLexemes config n))
      ⟨e, d, n⟩ EndsOrderItem := by
  have hnulls : ∀ l, EndsOrderItem l →
      ((nullsLexemes config n).headD l).isKeyword "asc" = false
        ∧ ((nullsLexemes config n).headD l).isKeyword "desc" = false := fun l hl => by
    rcases n with _ | _ | _
    · exact ⟨hl.2.1, hl.2.2.1⟩
    all_goals exact ⟨not_isKeyword_kw config (by decide), not_isKeyword_kw config (by decide)⟩
  have htight : ∀ l, EndsOrderItem l →
      ((directionLexemes config d ++ nullsLexemes config n).headD l).tight < 1 := fun l hl => by
    rcases d with _ | _ | _
    · rcases n with _ | _ | _
      · exact hl.1
      all_goals
        show (kw config "nulls").tight < 1
        rw [tight_kw]
        decide
    · show (kw config "asc").tight < 1
      rw [tight_kw]
      decide
    · show (kw config "desc").tight < 1
      rw [tight_kw]
      decide
  exact Reads.bind he.reads (Reads.bind (reads_direction d)
    (Reads.finish (Reads.weaken (reads_nullsOrder n) fun l hl => hl.2.2.2) rfl) hnulls) htight

/-! ## Calls -/

theorem reads_filter {filter : Option Expr}
    (h : ∀ f ∈ filter, Nested fits inner (f.lexemes config) f) :
    Reads fits (callFilter inner)
      (optionLexemes config [kw config "filter", .symbol .leftParen, kw config "where"]
        [.symbol .rightParen] filter) filter fun l => l.isKeyword "filter" = false := by
  cases filter with
  | none =>
    rw [optionLexemes]
    exact Reads.look (reads_isNextKeyword false) (fun _ h => h)
      (Reads.peekSecond_any fun t => Reads.pure)
  | some f =>
    rw [optionLexemes]
    simp only [List.cons_append, List.nil_append]
    refine Reads.look (reads_isNextKeyword true) (fun _ _ => isKeyword_kw_self config "filter")
      (Reads.peekSecond fun t ht => ?_)
    obtain ⟨_, _, ht⟩ := ht
    rw [ht]
    exact Reads.token reads_skip (Reads.token reads_skip
      (Reads.token (reads_expectKeyword (isKeyword_kw_self config "where"))
        (Reads.bind (h f rfl).reads (Reads.finish reads_expect rfl) fun _ _ => Nat.zero_lt_one)))

/-- The parts of a window are read. -/
def WindowReads (fits : Prop) (inner : Inner) (config : DialectConfig) (w : Window) : Prop :=
  List.Forall₂ (Nested fits inner) (exprLexemes config w.partitionBy) w.partitionBy
    ∧ List.Forall₂ (fun ls i => Reads fits (orderItem inner) ls i EndsOrderItem)
      (orderLexemes config w.orderBy) w.orderBy

theorem ite_bind {α β : Type} (c : Bool) (p q : Parser α) (f : α → Parser β) :
    (if c = true then p else q) >>= f = if c = true then p >>= f else q >>= f := by
  cases c <;> rfl

/-- The parts of a window are lists after keywords, like those of a select. -/
theorem callWindow_eq (inner : Inner) : callWindow inner = (do
    if (← isNextKeyword "over") && (← peekSecond).lexeme == .symbol .leftParen then
      skip
      skip
      let partitionBy ← byClause "partition" inner.expr
      let orderBy ← byClause "order" (orderItem inner)
      expect (.symbol .rightParen) "')' after window specification"
      return some ⟨partitionBy, orderBy⟩
    else return none) := by
  unfold callWindow byClause
  simp only [bind_assoc, ite_bind]

theorem endsOrderItem_symbol {s : Symbol} (h : (Lexeme.symbol s).tight < 1) :
    EndsOrderItem (.symbol s) := ⟨h, rfl, rfl, rfl⟩

theorem reads_window {window : Option Window} (h : ∀ w ∈ window, WindowReads fits inner config w) :
    Reads fits (callWindow inner) (overLexemes config window) window
      fun l => l.tight < strengthAtom := by
  rw [callWindow_eq]
  cases window with
  | none =>
    rw [overLexemes]
    refine Reads.look (reads_isNextKeyword false) (fun l hl => ?_) (Reads.peekSecond_any fun t => ?_)
    · exact not_keyword_of_tight (k := "over") hl
    · exact Reads.pure
  | some w =>
    obtain ⟨partitionBy, orderBy⟩ := w
    obtain ⟨hpartition, horder⟩ := h _ rfl
    have horders : Reads fits (byClause "order" (orderItem inner))
        (listLexemes config "order by" (orderLexemes config orderBy)) orderBy
        (· = .symbol .rightParen) := by
      refine reads_byClause rfl horder (endsOrderItem_symbol (by decide)) ?_ ?_
      · rintro _ rfl
        exact endsOrderItem_symbol (by decide)
      · rintro _ rfl
        exact ⟨by simp, rfl⟩
    have hpartitions : Reads fits (byClause "partition" inner.expr)
        (listLexemes config "partition by" (exprLexemes config partitionBy)) partitionBy
        fun l => l = .symbol .rightParen ∨ l = kw config "order" := by
      refine reads_byClause rfl (Nested.forall_reads hpartition) Nat.zero_lt_one ?_ ?_
      · rintro _ (rfl | rfl)
        · exact Nat.zero_lt_one
        · rw [tight_kw]
          decide
      · rintro _ (rfl | rfl)
        · exact ⟨by simp, rfl⟩
        · exact ⟨by simp [kw], not_isKeyword_kw config (by decide)⟩
    rw [overLexemes, Window.lexemes, parenLexemes]
    simp only [List.cons_append, List.append_assoc]
    refine Reads.look (reads_isNextKeyword true) (fun _ _ => isKeyword_kw_self config "over")
      (Reads.peekSecond fun t ht => ?_)
    obtain ⟨_, _, ht⟩ := ht
    rw [ht]
    refine Reads.token reads_skip (Reads.token reads_skip (Reads.bind hpartitions
      (Reads.bind horders (Reads.finish reads_expect rfl) fun _ _ => rfl) fun _ _ => ?_))
    -- behind the partition stands ORDER BY, or without it the end of the window
    cases hlist : orderLexemes config orderBy with
    | nil => exact Or.inl rfl
    | cons _ _ => exact Or.inr rfl

/-- A call after its arguments. -/
def callEnd (inner : Inner) (f : String) (opened : Nat) (distinct : Bool) (args : List Expr) :
    Parser Expr := do
  closeParen opened
  let filter ← callFilter inner
  let window ← callWindow inner
  return .call f args distinct filter window

theorem reads_callEnd {f : String} {opened : Nat} {distinct : Bool} {args : List Expr}
    {filter : Option Expr} {window : Option Window}
    (hfilter : ∀ f ∈ filter, Nested fits inner (f.lexemes config) f)
    (hwindow : ∀ w ∈ window, WindowReads fits inner config w) :
    Reads fits (callEnd inner f opened distinct args)
      (.symbol .rightParen :: (optionLexemes config
          [kw config "filter", .symbol .leftParen, kw config "where"] [.symbol .rightParen] filter
        ++ overLexemes config window))
      (.call f args distinct filter window) fun l => l.tight < strengthAtom := by
  have hover : ∀ l : Lexeme, l.tight < strengthAtom →
      ((overLexemes config window).headD l).isKeyword "filter" = false := fun l hl => by
    cases window with
    | none =>
      rw [overLexemes]
      exact not_keyword_of_tight (k := "filter") hl
    | some w =>
      rw [overLexemes]
      exact not_isKeyword_kw config (by decide)
  exact Reads.token reads_closeParen
    (Reads.bind (reads_filter hfilter) (Reads.finish (reads_window hwindow) rfl) hover)

theorem reads_call {f : String} {distinct : Bool} {args : List Expr}
    {filter : Option Expr} {window : Option Window}
    (hargs : List.Forall₂ (Nested fits inner) (exprLexemes config args) args)
    (hdistinct : distinct = true → args ≠ [])
    (hfilter : ∀ f ∈ filter, Nested fits inner (f.lexemes config) f)
    (hwindow : ∀ w ∈ window, WindowReads fits inner config w) :
    Reads fits (call inner f)
      (parenLexemes ((if distinct then [kw config "distinct"] else [])
          ++ commaSep (exprLexemes config args))
        ++ (optionLexemes config [kw config "filter", .symbol .leftParen, kw config "where"]
            [.symbol .rightParen] filter
          ++ overLexemes config window))
      (.call f args distinct filter window) fun l => l.tight < strengthAtom := by
  rw [parenLexemes]
  simp only [List.cons_append, List.append_assoc, List.nil_append]
  refine Reads.peek fun t _ => Reads.token reads_expect ?_
  have hend := @reads_callEnd fits inner config f t.offset distinct args filter window hfilter hwindow
  cases args with
  | nil =>
    have hplain : distinct = false := by
      rw [Bool.eq_false_iff]
      exact fun h => hdistinct h rfl
    subst hplain
    rw [exprLexemes]
    refine Reads.look (reads_isNext true) (fun _ _ => ?_) hend
    simp [commaSep]
  | cons e es =>
    have hlist : Reads fits (commaList inner.expr) (commaSep (exprLexemes config (e :: es)))
        (e :: es) (· = .symbol .rightParen) := by
      refine reads_commaList (Nested.forall_reads hargs) (by simp) Nat.zero_lt_one ?_ ?_
      · rintro _ rfl
        exact Nat.zero_lt_one
      · rintro _ rfl
        simp
    rw [exprLexemes] at hargs hlist ⊢
    cases hargs with
    | cons he _ =>
      -- an argument starts with neither a closing parenthesis nor DISTINCT
      obtain ⟨s, hstarts⟩ := he.starts
      have hstarts := (hstarts.commaSep (exprLexemes config es)).append
        (.symbol .rightParen :: (optionLexemes config
          [kw config "filter", .symbol .leftParen, kw config "where"] [.symbol .rightParen] filter
            ++ overLexemes config window))
      cases distinct with
      | true =>
        simp only [if_true, List.cons_append, List.nil_append]
        refine Reads.look (reads_isNext false) (fun _ _ => by simp [kw]) ?_
        exact Reads.token (reads_eatKeyword (isKeyword_kw_self config "distinct"))
          (Reads.bind hlist hend fun _ _ => rfl)
      | false =>
        simp only [Bool.false_eq_true, if_false, List.nil_append]
        refine Reads.look (reads_isNext false) (fun l _ => ?_) ?_
        · exact beq_eq_false_iff_ne.mpr (hstarts.head_ne rfl l)
        refine Reads.look reads_not_eatKeyword (fun l _ => ?_) (Reads.bind hlist hend fun _ _ => rfl)
        exact hstarts.head_keyword (by decide) (by decide) l

theorem nameOf?_partLexeme {part : String} (h : isStopWord part = false) :
    nameOf? (partLexeme part) = some part := by
  unfold partLexeme
  split
  · simp [nameOf?, h]
  · rfl

/-- **The name of a function is read part by part, up to the parenthesis.** -/
theorem reads_function {f : String} (hf : IsFunctionName True f)
    (hcall : Reads fits (call inner f) (.symbol .leftParen :: ms) e follow) :
    Reads fits (primary inner) (functionLexemes f ++ .symbol .leftParen :: ms) e follow := by
  obtain ⟨hne, hcalled⟩ := hf.splitName
  obtain ⟨part, parts, hsplit⟩ := List.exists_cons_of_ne_nil hne
  have hend : Reads fits (pathEnd inner (part :: parts) false) (.symbol .leftParen :: ms) e follow := by
    refine Reads.look (reads_isNext true) (fun _ _ => by simp) ?_
    rw [← hsplit, dotted_splitName hf]
    exact hcall
  have hcalled := hcalled trivial
  rw [functionLexemes, hsplit, List.map_cons, dotSep, List.flatMap_map]
  rw [hsplit] at hcalled
  have hnames : ∀ n ∈ parts, nameOf? (partLexeme n) = some n := by
    rcases hcalled with hall | ⟨p, hp, -⟩
    · exact fun n hn => nameOf?_partLexeme (hall n (List.mem_cons_of_mem _ hn))
    · obtain ⟨-, rfl⟩ := List.cons.inj hp
      simp
  have hpath := reads_path (partOf?_partLexeme part) (fun k hk =>
    @reads_pathTail fits parts partLexeme hnames [part] k hk) hend fun _ _ => by simp
  rw [List.cons_append]
  -- a plain part is written as a word, which may be a keyword, any other in quotes
  unfold partLexeme at hpath ⊢
  split at hpath
  · next hsimple =>
    rw [if_pos hsimple]
    refine reads_nameWord ?_ (fun l _ v => ?_) hpath
    · rcases hcalled with hall | ⟨p, hp, hname⟩
      · exact Or.inl (hall part List.mem_cons_self)
      · obtain ⟨rfl, rfl⟩ := List.cons.inj hp
        exact Or.inr ⟨hname, rfl⟩
    · cases parts with
      | nil => simp
      | cons _ _ => simp
  · next hsimple =>
    rw [if_neg hsimple]
    refine Reads.peek fun t ht => ?_
    obtain ⟨_, _, ht⟩ := ht
    rw [ht]
    exact hpath

/-! ## CASE, CAST and EXISTS -/

/-- The branches of a CASE. -/
theorem reads_branches {bs : List Branch}
    (h : ∀ b ∈ bs, Nested fits inner (b.condition.lexemes config) b.condition
      ∧ Nested fits inner (b.result.lexemes config) b.result) {n : Nat}
    (hn : (branchLexemes config bs).length ≤ n) :
    Reads fits (branches inner n) (branchLexemes config bs) bs
      fun l => l.tight < 1 ∧ l.isKeyword "when" = false := by
  induction bs generalizing n with
  | nil =>
    rw [branchLexemes]
    cases n with
    | zero => exact Reads.pure
    | succ n => exact Reads.look reads_not_eatKeyword (fun _ h => h.2) Reads.pure
  | cons b bs ih =>
    obtain ⟨condition, result⟩ := b
    rw [List.forall_mem_cons] at h
    obtain ⟨⟨hcondition, hresult⟩, hbs⟩ := h
    rw [branchLexemes] at hn ⊢
    simp only [List.length_cons, List.length_append] at hn
    cases n with
    | zero => omega
    | succ n =>
      refine Reads.token (reads_eatKeyword (isKeyword_kw_self config "when"))
        (Reads.bind hcondition.reads (Reads.token
          (reads_expectKeyword (isKeyword_kw_self config "then"))
          (Reads.bind hresult.reads (Reads.finish (ih hbs (n := n) (by omega)) rfl) ?_)) ?_)
      · intro l hl
        cases bs with
        | nil =>
          rw [branchLexemes]
          exact hl.1
        | cons b bs =>
          obtain ⟨c, r⟩ := b
          rw [branchLexemes, List.headD_cons, tight_kw]
          decide
      · intro _ _
        rw [List.headD_cons, tight_kw]
        decide

/-- A CASE after its branches. -/
def caseEnd (inner : Inner) (scrutinee : Option Expr) (bs : List Branch) : Parser Expr := do
  let fallback ← if ← eatKeyword "else" then some <$> inner.expr else pure none
  expectKeyword "end"
  return .case scrutinee bs fallback

theorem reads_caseEnd {scrutinee fallback : Option Expr} {bs : List Branch}
    (hfallback : ∀ f ∈ fallback, Nested fits inner (f.lexemes config) f) :
    Reads fits (caseEnd inner scrutinee bs)
      (optionLexemes config [kw config "else"] [] fallback ++ [kw config "end"])
      (.case scrutinee bs fallback) follow := by
  have hend := isKeyword_kw_self config "end"
  cases fallback with
  | none =>
    rw [optionLexemes, List.nil_append]
    exact Reads.look reads_not_eatKeyword (fun _ _ => not_isKeyword_kw config (by decide))
      (Reads.pure_bind (Reads.token (reads_expectKeyword hend) Reads.pure))
  | some f =>
    rw [optionLexemes, List.append_nil, List.singleton_append, List.cons_append]
    refine Reads.token (reads_eatKeyword (isKeyword_kw_self config "else"))
      (Reads.bind (Reads.map (hfallback f rfl).reads some)
        (Reads.token (reads_expectKeyword hend) Reads.pure) fun _ _ => ?_)
    rw [List.headD_cons, tight_kw]
    decide

theorem reads_case {scrutinee fallback : Option Expr} {bs : List Branch}
    (hscrutinee : ∀ c ∈ scrutinee, Nested fits inner (c.lexemes config) c) (hne : bs ≠ [])
    (hbs : ∀ b ∈ bs, Nested fits inner (b.condition.lexemes config) b.condition
      ∧ Nested fits inner (b.result.lexemes config) b.result)
    (hfallback : ∀ f ∈ fallback, Nested fits inner (f.lexemes config) f) :
    Reads fits (primary inner)
      (kw config "case" :: (optionLexemes config [] [] scrutinee
        ++ (branchLexemes config bs
        ++ (optionLexemes config [kw config "else"] [] fallback ++ [kw config "end"]))))
      (.case scrutinee bs fallback) follow := by
  have hwhen : ∃ tail, branchLexemes config bs = kw config "when" :: tail := by
    cases bs with
    | nil => exact absurd rfl hne
    | cons b bs =>
      obtain ⟨c, r⟩ := b
      exact ⟨_, by rw [branchLexemes]⟩
  -- behind the branches stands ELSE or END
  have hlast : ∃ k tail, optionLexemes config [kw config "else"] [] fallback ++ [kw config "end"]
      = kw config k :: tail ∧ (k = "else" ∨ k = "end") := by
    cases fallback with
    | none => exact ⟨"end", [], by rw [optionLexemes]; rfl, Or.inr rfl⟩
    | some f => exact ⟨"else", _, by rw [optionLexemes]; rfl, Or.inl rfl⟩
  have hbranches : Reads fits (do
        let bs ← branches inner (← remaining)
        if bs.isEmpty then unexpected "WHEN" else caseEnd inner scrutinee bs : Parser Expr)
      (branchLexemes config bs
        ++ (optionLexemes config [kw config "else"] [] fallback ++ [kw config "end"]))
      (.case scrutinee bs fallback) follow := by
    refine Reads.remaining fun n hn => ?_
    rw [List.length_append] at hn
    have hread := @reads_branches fits inner config bs hbs n (by omega)
    refine Reads.bind hread ?_ ?_
    · rw [if_neg (by simpa using hne)]
      exact reads_caseEnd hfallback
    · intro l _
      obtain ⟨k, tail, hk, hkind⟩ := hlast
      rw [hk, List.headD_cons, tight_kw]
      rcases hkind with rfl | rfl
      · exact ⟨by decide, not_isKeyword_kw config (by decide)⟩
      · exact ⟨by decide, not_isKeyword_kw config (by decide)⟩
  obtain ⟨tail, htail⟩ := hwhen
  refine reads_word fun start => ?_
  unfold wordExpr
  rw [foldCase_keyword]
  refine Reads.token reads_skip ?_
  cases scrutinee with
  | none =>
    rw [optionLexemes, List.nil_append]
    refine Reads.look (reads_isNextKeyword true) (fun l _ => ?_)
      (Reads.pure_bind hbranches)
    rw [htail]
    exact isKeyword_kw_self config "when"
  | some c =>
    rw [optionLexemes, List.append_nil, List.nil_append]
    have hc := hscrutinee c rfl
    obtain ⟨s, hstarts⟩ := hc.starts
    refine Reads.look (reads_isNextKeyword false)
      (fun l _ => (hstarts.append _).head_keyword (by decide) (by decide) l)
      (Reads.bind (Reads.map hc.reads some) hbranches fun _ _ => ?_)
    rw [htail, List.cons_append, List.headD_cons, tight_kw]
    decide

theorem reads_cast {type : String} (he : Nested fits inner ls e) (htype : IsTypeName type) :
    Reads fits (primary inner)
      (kw config "cast" :: parenLexemes (ls ++ kw config "as" :: typeLexemes type))
      (.cast e type false) follow := by
  refine reads_word fun start => ?_
  unfold wordExpr
  rw [foldCase_keyword, parenLexemes]
  simp only [List.cons_append, List.append_assoc]
  refine Reads.token reads_skip (Reads.token reads_expect (Reads.bind he.reads
    (Reads.token (reads_expectKeyword (isKeyword_kw_self config "as"))
      (Reads.bind (reads_typeName htype) (Reads.finish reads_closeParen rfl) ?_)) ?_))
  · exact fun _ _ => show (Lexeme.symbol .rightParen).tight < strengthAtom by decide
  · intro _ _
    rw [List.headD_cons, tight_kw]
    decide

theorem reads_exists {q : Statement}
    (hs : Reads fits inner.statement ls q (· = .symbol .rightParen)) :
    Reads fits (primary inner) (kw config "exists" :: parenLexemes ls) (.hasRows q) follow := by
  refine reads_word fun start => ?_
  unfold wordExpr
  rw [foldCase_keyword, parenLexemes]
  exact Reads.token reads_skip (Reads.peek fun t _ => Reads.token reads_expect
    (Reads.bind hs (Reads.finish reads_closeParen rfl) fun _ _ => rfl))

/-! ## What IN is followed by -/

theorem reads_inList {items : List Expr} {negated : Bool} (hne : items ≠ [])
    (hitems : List.Forall₂ (Nested fits inner) (exprLexemes config items) items) :
    Reads fits (inTail inner e negated) (parenLexemes (commaSep (exprLexemes config items)))
      (.inList e items negated) follow := by
  have hlist : Reads fits (commaList inner.expr) (commaSep (exprLexemes config items)) items
      (· = .symbol .rightParen) := by
    refine reads_commaList (Nested.forall_reads hitems) hne Nat.zero_lt_one ?_ ?_
    · rintro _ rfl
      exact Nat.zero_lt_one
    · rintro _ rfl
      simp
  cases items with
  | nil => exact absurd rfl hne
  | cons i is =>
    rw [exprLexemes] at hitems hlist ⊢
    cases hitems with
    | cons hi _ =>
      obtain ⟨s, hstarts⟩ := hi.starts
      have hstarts := (hstarts.commaSep (exprLexemes config is)).append [.symbol .rightParen]
      refine Reads.peek fun t _ => Reads.token reads_expect ?_
      refine Reads.look (reads_isNextQuery false) (fun l _ => hstarts.not_query l) ?_
      refine Reads.look (reads_isNext false) (fun l _ => ?_) ?_
      · exact beq_eq_false_iff_ne.mpr (hstarts.head_ne rfl l)
      · exact Reads.bind hlist (Reads.finish reads_closeParen rfl) fun _ _ => rfl

theorem reads_inQuery {q : Statement} {negated : Bool} (hquery : IsQuery ls)
    (hs : Reads fits inner.statement ls q (· = .symbol .rightParen)) :
    Reads fits (inTail inner e negated) (parenLexemes ls) (.inQuery e q negated) follow := by
  obtain ⟨l, tail, rfl, hl⟩ := hquery
  refine Reads.peek fun t _ => Reads.token reads_expect ?_
  refine Reads.look (reads_isNextQuery true) (fun _ _ => hl) ?_
  exact Reads.bind hs (Reads.finish reads_closeParen rfl) fun _ _ => rfl

end

end Sql.Parser
