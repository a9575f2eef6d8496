import Sql.Proofs.CountedRuns
import Sql.Proofs.NestingPaths
import Sql.Proofs.ReadExpr
import Sql.Proofs.Results

/-!
# The bound on nesting

Every parser of the grammar is a script: it comes back to itself only where it opens a level. So the
bound on nesting holds with a counter as well, and nothing else is needed for reading to end.

* `Scripted.bind` and its neighbours: one rule for each way that the parsers are put together.
* `Production.scripted`: the parsers of the grammar are scripts.
* `nesting_bounded`: no path of a tree that was read opens more levels than there are, and every
  parser leaves the counter of open levels where it was.
-/

namespace Sql.Parser

variable {α β : Type}

/-- The parser is a script: whatever it reads one level further in, it reads through `Inner`. -/
def Scripted (p : Inner → Parser α) : Prop := ∃ x : Script α, ∀ inner, x.run inner = p inner

/-! ## Rules -/

section

variable {p q : Inner → Parser α}

theorem scripted_tokens (p : Parser α) : Scripted fun _ => p := ⟨.tokens p, fun _ => rfl⟩

theorem scripted_read (k : Frame) : Scripted fun inner => inner.read k := ⟨.frame k, fun _ => rfl⟩

theorem Scripted.expr : Scripted Inner.expr := scripted_read .expr

theorem Scripted.statement : Scripted Inner.statement := scripted_read .statement

/-- **One parser after another.** -/
theorem Scripted.bind {f : α → Inner → Parser β} (hp : Scripted p) (hf : ∀ a, Scripted (f a)) :
    Scripted fun inner => p inner >>= fun a => f a inner := by
  obtain ⟨x, hx⟩ := hp
  choose y hy using hf
  refine ⟨.andThen x y, fun inner => ?_⟩
  rw [Script.run, hx]
  exact congrArg _ (funext fun a => hy a inner)

/-- A parser of single tokens, and how it goes on. -/
theorem Scripted.next {t : Parser α} {f : α → Inner → Parser β} (hf : ∀ a, Scripted (f a)) :
    Scripted fun inner => t >>= fun a => f a inner :=
  Scripted.bind (scripted_tokens t) hf

theorem Scripted.map {f : α → β} (hp : Scripted p) : Scripted fun inner => f <$> p inner :=
  Scripted.bind hp fun a => scripted_tokens (pure (f a))

theorem Scripted.ite {c : Prop} [Decidable c] (hp : Scripted p) (hq : Scripted q) :
    Scripted fun inner => if c then p inner else q inner := by
  split
  · exact hp
  · exact hq

/-- A parser of single tokens that says yes or no, and how it goes on in either case. -/
theorem Scripted.flag {t : Parser Bool} (hp : Scripted p) (hq : Scripted q) :
    Scripted fun inner => t >>= fun b => if b = true then p inner else q inner :=
  Scripted.next fun _ => Scripted.ite hp hq

end

/-! ## Lists and loops -/

theorem scripted_commaTail {item : Inner → Parser α} (h : Scripted item) (n : Nat) :
    Scripted fun inner => commaTail (item inner) n := by
  induction n with
  | zero => exact scripted_tokens (pure [])
  | succ n ih =>
    exact Scripted.flag (Scripted.bind h fun _ => Scripted.bind ih fun _ => scripted_tokens _)
      (scripted_tokens _)

theorem scripted_commaList {item : Inner → Parser α} (h : Scripted item) :
    Scripted fun inner => commaList (item inner) :=
  Scripted.bind h fun _ => Scripted.next fun n => Scripted.bind (scripted_commaTail h n)
    fun _ => scripted_tokens _

theorem scripted_byClause {item : Inner → Parser α} (h : Scripted item) (keyword : String) :
    Scripted fun inner => byClause keyword (item inner) :=
  Scripted.flag (Scripted.next fun _ => scripted_commaList h) (scripted_tokens _)

theorem scripted_loop {step : Inner → Expr → Parser (Option Expr)}
    (h : ∀ e, Scripted fun inner => step inner e) (n : Nat) (e : Expr) :
    Scripted fun inner => loop (step inner) n e := by
  induction n generalizing e with
  | zero => exact scripted_tokens (pure e)
  | succ n ih =>
    refine Scripted.bind (h e) fun r => ?_
    cases r with
    | some e' => exact ih e'
    | none => exact scripted_tokens _

theorem scripted_chainStep {operand : Inner → Parser Expr} (h : Scripted operand)
    (operator : Lexeme → Option BinaryOp) (e : Expr) :
    Scripted fun inner => chainStep operator (operand inner) e := by
  refine Scripted.next fun t => ?_
  cases operator t.lexeme with
  | none => exact scripted_tokens _
  | some op => exact Scripted.next fun _ => Scripted.bind h fun _ => scripted_tokens _

theorem scripted_chainTail {operand : Inner → Parser Expr} (h : Scripted operand)
    (operator : Lexeme → Option BinaryOp) (n : Nat) (left : Expr) :
    Scripted fun inner => chainTail operator (operand inner) n left := by
  simp only [chainTail_eq]
  exact scripted_loop (scripted_chainStep h operator) n left

theorem scripted_chain {operand : Inner → Parser Expr} (h : Scripted operand)
    (operator : Lexeme → Option BinaryOp) : Scripted fun inner => chain operator (operand inner) :=
  Scripted.bind h fun left => Scripted.next fun n => scripted_chainTail h operator n left

/-! ## Expressions without an outer operator -/

theorem scripted_orderItem : Scripted orderItem :=
  Scripted.bind Scripted.expr fun _ => scripted_tokens _

theorem scripted_callFilter : Scripted callFilter :=
  Scripted.next fun _ => Scripted.next fun _ => Scripted.ite
    (Scripted.next fun _ => Scripted.next fun _ => Scripted.next fun _ =>
      Scripted.bind Scripted.expr fun _ => scripted_tokens _)
    (scripted_tokens _)

theorem scripted_callWindow : Scripted callWindow := by
  rw [funext callWindow_eq]
  exact Scripted.next fun _ => Scripted.next fun _ => Scripted.ite
    (Scripted.next fun _ => Scripted.next fun _ =>
      Scripted.bind (scripted_byClause Scripted.expr "partition") fun _ =>
        Scripted.bind (scripted_byClause scripted_orderItem "order") fun _ => scripted_tokens _)
    (scripted_tokens _)

theorem scripted_call (name : String) : Scripted fun inner => call inner name := by
  have hend : ∀ (opened : Nat) (distinct : Bool) (args : List Expr),
      Scripted fun inner => callEnd inner name opened distinct args := fun _ _ _ =>
    Scripted.next fun _ => Scripted.bind scripted_callFilter fun _ =>
      Scripted.bind scripted_callWindow fun _ => scripted_tokens _
  exact Scripted.next fun t => Scripted.next fun _ => Scripted.flag (hend t.offset false [])
    (Scripted.next fun distinct => Scripted.bind (scripted_commaList Scripted.expr) fun args =>
      hend t.offset distinct args)

theorem scripted_path : Scripted path := by
  have hrest : ∀ first : String, Scripted fun inner => pathRest inner first := fun _ =>
    Scripted.next fun _ => Scripted.next fun _ => Scripted.ite (scripted_tokens _)
      (Scripted.flag (scripted_call _) (scripted_tokens _))
  refine Scripted.next fun t => ?_
  cases t.lexeme with
  | word w => exact Scripted.next fun _ => hrest w
  | quoted n => exact Scripted.next fun _ => hrest n
  | _ => exact Scripted.next (t := unexpected "identifier") hrest

theorem scripted_branches (n : Nat) : Scripted fun inner => branches inner n := by
  induction n with
  | zero => exact scripted_tokens (pure [])
  | succ n ih =>
    exact Scripted.flag
      (Scripted.bind Scripted.expr fun _ => Scripted.next fun _ => Scripted.bind Scripted.expr
        fun _ => Scripted.bind ih fun _ => scripted_tokens _)
      (scripted_tokens _)

theorem scripted_caseTail : Scripted caseTail := by
  have hend : ∀ (operand : Option Expr) (bs : List Branch),
      Scripted fun inner => caseEnd inner operand bs := fun operand bs =>
    Scripted.flag (Scripted.bind (Scripted.map Scripted.expr) fun _ => scripted_tokens _)
      (scripted_tokens _)
  have hrest : ∀ operand : Option Expr, Scripted fun inner => (do
      let bs ← branches inner (← remaining)
      if bs.isEmpty then unexpected "WHEN" else caseEnd inner operand bs : Parser Expr) :=
    fun operand => Scripted.next fun n => Scripted.bind (scripted_branches n) fun bs =>
      Scripted.ite (scripted_tokens _) (hend operand bs)
  exact Scripted.flag (hrest none) (Scripted.bind (Scripted.map Scripted.expr) hrest)

theorem scripted_castTail (start : Nat) : Scripted fun inner => castTail inner start :=
  Scripted.next fun _ => Scripted.bind Scripted.expr fun _ => scripted_tokens _

theorem scripted_existsTail : Scripted existsTail :=
  Scripted.next fun _ => Scripted.next fun _ => Scripted.bind Scripted.statement fun _ =>
    scripted_tokens _

theorem scripted_wordExpr (word : String) (start : Nat) :
    Scripted fun inner => wordExpr inner word start := by
  unfold wordExpr
  refine Scripted.ite (scripted_tokens _) (Scripted.ite (scripted_tokens _)
    (Scripted.ite (scripted_tokens _) ?_))
  refine Scripted.ite (Scripted.next fun _ => scripted_caseTail) ?_
  refine Scripted.ite (Scripted.next fun _ => scripted_castTail start) ?_
  refine Scripted.ite (Scripted.next fun _ => scripted_existsTail) (Scripted.next fun r => ?_)
  cases r with
  | some s => exact scripted_tokens _
  | none => exact Scripted.next fun _ => Scripted.ite (scripted_tokens _) scripted_path

theorem scripted_parenTail (opened : Nat) : Scripted fun inner => parenTail inner opened :=
  Scripted.flag (Scripted.bind Scripted.statement fun _ => scripted_tokens _)
    (Scripted.bind Scripted.expr fun _ => scripted_tokens _)

theorem scripted_primary : Scripted primary := by
  refine Scripted.next fun t => ?_
  cases t.lexeme with
  | symbol s =>
    cases s with
    | leftParen => exact Scripted.next fun _ => scripted_parenTail t.offset
    | _ => exact scripted_tokens _
  | word w => exact scripted_wordExpr w t.offset
  | quoted n => exact scripted_path
  | _ => exact scripted_tokens _

/-! ## Operators -/

theorem scripted_castExpr : Scripted castExpr :=
  Scripted.bind scripted_primary fun _ => scripted_tokens _

theorem scripted_signExpr : Scripted signExpr := by
  refine Scripted.next fun t => ?_
  cases signOf? t.lexeme with
  | some op =>
    exact Scripted.next fun _ => Scripted.bind (scripted_read .signed) fun _ => scripted_tokens _
  | none => exact scripted_castExpr

theorem scripted_productExpr : Scripted productExpr :=
  scripted_chain scripted_signExpr _

theorem scripted_sumExpr : Scripted sumExpr :=
  scripted_chain scripted_productExpr _

theorem scripted_concatExpr : Scripted concatExpr :=
  scripted_chain scripted_sumExpr _

theorem scripted_inTail (e : Expr) (negated : Bool) :
    Scripted fun inner => inTail inner e negated :=
  Scripted.next fun _ => Scripted.next fun _ => Scripted.flag
    (Scripted.bind Scripted.statement fun _ => scripted_tokens _)
    (Scripted.flag (scripted_tokens _)
      (Scripted.bind (scripted_commaList Scripted.expr) fun _ => scripted_tokens _))

theorem scripted_wordPredicate (e : Expr) (negated : Bool) :
    Scripted fun inner => wordPredicate inner e negated := by
  have hcomparison : ∀ op, Scripted fun inner => (do
      return some (.binary e op (← concatExpr inner)) : Parser (Option Expr)) := fun op =>
    Scripted.bind scripted_concatExpr fun _ => scripted_tokens _
  refine Scripted.flag (hcomparison _) (Scripted.flag (hcomparison _) (Scripted.flag ?_ ?_))
  · exact Scripted.bind scripted_concatExpr fun _ => Scripted.next fun _ =>
      Scripted.bind scripted_concatExpr fun _ => scripted_tokens _
  · exact Scripted.flag (Scripted.bind (scripted_inTail e negated) fun _ => scripted_tokens _)
      (scripted_tokens _)

theorem scripted_predicate (e : Expr) : Scripted fun inner => predicate? inner e := by
  refine Scripted.next fun t => ?_
  cases comparisonOp? t.lexeme with
  | some op =>
    exact Scripted.next fun _ => Scripted.bind scripted_concatExpr fun _ => scripted_tokens _
  | none =>
    exact Scripted.flag (scripted_tokens _) (Scripted.next fun negated =>
      scripted_wordPredicate e negated)

theorem scripted_comparisonTail (n : Nat) (e : Expr) :
    Scripted fun inner => comparisonTail inner n e := by
  simp only [comparisonTail_eq]
  exact scripted_loop scripted_predicate n e

theorem scripted_comparisonExpr : Scripted comparisonExpr :=
  Scripted.bind scripted_concatExpr fun e => Scripted.next fun n => scripted_comparisonTail n e

theorem scripted_notExpr : Scripted notExpr :=
  Scripted.flag (Scripted.bind (scripted_read .negated) fun _ => scripted_tokens _)
    scripted_comparisonExpr

theorem scripted_andExpr : Scripted andExpr :=
  scripted_chain scripted_notExpr _

theorem scripted_orExpr : Scripted orExpr :=
  scripted_chain scripted_andExpr _

/-! ## Clauses -/

theorem scripted_selectItem : Scripted selectItem :=
  Scripted.next fun _ => Scripted.next fun _ => Scripted.ite (scripted_tokens _)
    (Scripted.bind Scripted.expr fun _ => scripted_tokens _)

theorem scripted_parenStatement (what : String) (opened : Nat) :
    Scripted fun inner => parenStatement inner what opened :=
  Scripted.next fun _ => Scripted.next fun _ => Scripted.ite
    (Scripted.bind Scripted.statement fun _ => scripted_tokens _) (scripted_tokens _)

theorem scripted_source : Scripted source :=
  Scripted.next fun t => Scripted.flag
    (Scripted.bind (scripted_parenStatement "subquery" t.offset) fun _ => scripted_tokens _)
    (scripted_tokens _)

theorem scripted_newSource (seen : List String) : Scripted fun inner => newSource inner seen :=
  Scripted.next fun _ => Scripted.bind scripted_source fun _ => scripted_tokens _

theorem scripted_constraint (start : Nat) (kind : JoinKind) :
    Scripted fun inner => constraint inner start kind :=
  Scripted.ite (scripted_tokens _) (Scripted.flag
    (Scripted.bind Scripted.expr fun _ => scripted_tokens _) (scripted_tokens _))

theorem scripted_joins (n : Nat) (seen : List String) :
    Scripted fun inner => joins inner n seen := by
  induction n generalizing seen with
  | zero => exact scripted_tokens (pure [])
  | succ n ih =>
    refine Scripted.next fun t => Scripted.flag ?_ (Scripted.next fun kind => ?_)
    · exact Scripted.bind (scripted_newSource seen) fun right =>
        Scripted.bind (ih (right.effectiveName :: seen)) fun _ => scripted_tokens _
    · cases kind with
      | none => exact scripted_tokens _
      | some kind =>
        exact Scripted.bind (scripted_newSource seen) fun right =>
          Scripted.bind (scripted_constraint t.offset kind) fun _ =>
            Scripted.bind (ih (right.effectiveName :: seen)) fun _ => scripted_tokens _

theorem scripted_fromClause : Scripted fromClause :=
  Scripted.flag
    (Scripted.bind (scripted_newSource []) fun first => Scripted.next fun n =>
      Scripted.bind (scripted_joins n [first.effectiveName]) fun _ => scripted_tokens _)
    (scripted_tokens _)

theorem scripted_clause (keyword : String) : Scripted fun inner => clause inner keyword :=
  Scripted.flag (Scripted.bind Scripted.expr fun _ => scripted_tokens _) (scripted_tokens _)

theorem scripted_offsetClause : Scripted offsetClause :=
  Scripted.flag (Scripted.bind Scripted.expr fun _ => scripted_tokens _) (scripted_tokens _)

theorem scripted_page : Scripted page := by
  refine Scripted.bind (scripted_clause "limit") fun l => ?_
  cases l with
  | some l => exact Scripted.bind scripted_offsetClause fun _ => scripted_tokens _
  | none =>
    refine Scripted.bind scripted_offsetClause fun o => ?_
    cases o with
    | some o => exact Scripted.bind (scripted_clause "limit") fun _ => scripted_tokens _
    | none => exact scripted_tokens _

theorem scripted_select : Scripted select :=
  Scripted.next fun _ => Scripted.next fun _ =>
    Scripted.bind (scripted_commaList scripted_selectItem) fun _ =>
      Scripted.bind scripted_fromClause fun _ =>
        Scripted.bind (scripted_clause "where") fun _ =>
          Scripted.bind (scripted_byClause Scripted.expr "group") fun _ =>
            Scripted.bind (scripted_clause "having") fun _ =>
              Scripted.bind (scripted_byClause scripted_orderItem "order") fun _ =>
                Scripted.bind scripted_page fun _ => scripted_tokens _

/-! ## Statements -/

theorem scripted_bodyTerm : Scripted bodyTerm :=
  Scripted.next fun t => Scripted.flag
    (Scripted.bind (scripted_parenStatement "SELECT" t.offset) fun _ => scripted_tokens _)
    (Scripted.bind scripted_select fun _ => scripted_tokens _)

theorem scripted_bodyTail (n : Nat) (left : Body) :
    Scripted fun inner => bodyTail inner n left := by
  induction n generalizing left with
  | zero => exact scripted_tokens (pure left)
  | succ n ih =>
    refine Scripted.next fun op => ?_
    cases op with
    | none => exact scripted_tokens _
    | some op => exact Scripted.bind scripted_bodyTerm fun right => ih (.setOp left op right)

theorem scripted_body : Scripted body :=
  Scripted.bind scripted_bodyTerm fun left => Scripted.next fun n => scripted_bodyTail n left

theorem scripted_cte (before : List Cte) : Scripted fun inner => cte inner before := by
  have hrest : ∀ (name : String) (columns : List String), Scripted fun inner => (do
      expectKeyword "as"
      expect (.symbol .leftParen) "'(' before CTE body"
      let s ← inner.statement
      expect (.symbol .rightParen) "')' after CTE body"
      return ⟨name, columns, s⟩ : Parser Cte) := fun _ _ =>
    Scripted.next fun _ => Scripted.next fun _ => Scripted.bind Scripted.statement fun _ =>
      scripted_tokens _
  exact Scripted.next fun _ => Scripted.next fun name => Scripted.ite (scripted_tokens _)
    (Scripted.flag (Scripted.next (hrest name)) (hrest name []))

theorem scripted_ctes (n : Nat) (before : List Cte) :
    Scripted fun inner => ctes inner n before := by
  induction n generalizing before with
  | zero => exact scripted_tokens (pure before)
  | succ n ih =>
    exact Scripted.bind (scripted_cte before) fun c =>
      Scripted.flag (ih (before ++ [c])) (scripted_tokens _)

theorem scripted_withClause : Scripted withClause :=
  Scripted.flag
    (Scripted.next fun _ => Scripted.next fun n => Scripted.bind (scripted_ctes n []) fun _ =>
      scripted_tokens _)
    (scripted_tokens _)

theorem scripted_statement : Scripted Parser.statement :=
  Scripted.bind scripted_withClause fun _ => Scripted.bind scripted_body fun _ => scripted_tokens _

/-! ## The grammar -/

/-- The parsers of the grammar, each with the parsers for what stands one level further in. -/
inductive Production : {α : Type} → (Inner → Parser α) → Prop
  | tokens {α : Type} (p : Parser α) : Production fun _ => p
  | read (k : Frame) : Production fun inner => inner.read k
  | commaTail {α : Type} {item : Inner → Parser α} (h : Production item) (n : Nat) :
    Production fun inner => commaTail (item inner) n
  | commaList {α : Type} {item : Inner → Parser α} (h : Production item) :
    Production fun inner => commaList (item inner)
  | chainTail {operand : Inner → Parser Expr} (h : Production operand)
    (operator : Lexeme → Option BinaryOp) (n : Nat) (left : Expr) :
    Production fun inner => chainTail operator (operand inner) n left
  | chain {operand : Inner → Parser Expr} (h : Production operand)
    (operator : Lexeme → Option BinaryOp) : Production fun inner => chain operator (operand inner)
  | orderItem : Production orderItem
  | callFilter : Production callFilter
  | callWindow : Production callWindow
  | call (name : String) : Production fun inner => call inner name
  | path : Production path
  | branches (n : Nat) : Production fun inner => branches inner n
  | caseTail : Production caseTail
  | castTail (start : Nat) : Production fun inner => castTail inner start
  | existsTail : Production existsTail
  | wordExpr (word : String) (start : Nat) : Production fun inner => wordExpr inner word start
  | parenTail (opened : Nat) : Production fun inner => parenTail inner opened
  | primary : Production primary
  | castExpr : Production castExpr
  | signExpr : Production signExpr
  | productExpr : Production productExpr
  | sumExpr : Production sumExpr
  | concatExpr : Production concatExpr
  | inTail (e : Expr) (negated : Bool) : Production fun inner => inTail inner e negated
  | predicate (e : Expr) : Production fun inner => predicate? inner e
  | comparisonTail (n : Nat) (e : Expr) : Production fun inner => comparisonTail inner n e
  | comparisonExpr : Production comparisonExpr
  | notExpr : Production notExpr
  | andExpr : Production andExpr
  | orExpr : Production orExpr
  | selectItem : Production selectItem
  | parenStatement (what : String) (opened : Nat) :
    Production fun inner => parenStatement inner what opened
  | source : Production source
  | newSource (seen : List String) : Production fun inner => newSource inner seen
  | constraint (start : Nat) (kind : JoinKind) :
    Production fun inner => constraint inner start kind
  | joins (n : Nat) (seen : List String) : Production fun inner => joins inner n seen
  | fromClause : Production fromClause
  | clause (keyword : String) : Production fun inner => clause inner keyword
  | byClause {α : Type} {item : Inner → Parser α} (h : Production item) (keyword : String) :
    Production fun inner => byClause keyword (item inner)
  | offsetClause : Production offsetClause
  | page : Production page
  | select : Production select
  | bodyTerm : Production bodyTerm
  | bodyTail (n : Nat) (left : Body) : Production fun inner => bodyTail inner n left
  | body : Production body
  | cte (before : List Cte) : Production fun inner => cte inner before
  | ctes (n : Nat) (before : List Cte) : Production fun inner => ctes inner n before
  | withClause : Production withClause
  | statement : Production Parser.statement

/-- **The parsers of the grammar are scripts.** -/
theorem Production.scripted {p : Inner → Parser α} (h : Production p) : Scripted p := by
  induction h with
  | tokens p => exact scripted_tokens p
  | read k => exact scripted_read k
  | commaTail _ n ih => exact scripted_commaTail ih n
  | commaList _ ih => exact scripted_commaList ih
  | chainTail _ operator n left ih => exact scripted_chainTail ih operator n left
  | chain _ operator ih => exact scripted_chain ih operator
  | orderItem => exact scripted_orderItem
  | callFilter => exact scripted_callFilter
  | callWindow => exact scripted_callWindow
  | call name => exact scripted_call name
  | path => exact scripted_path
  | branches n => exact scripted_branches n
  | caseTail => exact scripted_caseTail
  | castTail start => exact scripted_castTail start
  | existsTail => exact scripted_existsTail
  | wordExpr word start => exact scripted_wordExpr word start
  | parenTail opened => exact scripted_parenTail opened
  | primary => exact scripted_primary
  | castExpr => exact scripted_castExpr
  | signExpr => exact scripted_signExpr
  | productExpr => exact scripted_productExpr
  | sumExpr => exact scripted_sumExpr
  | concatExpr => exact scripted_concatExpr
  | inTail e negated => exact scripted_inTail e negated
  | predicate e => exact scripted_predicate e
  | comparisonTail n e => exact scripted_comparisonTail n e
  | comparisonExpr => exact scripted_comparisonExpr
  | notExpr => exact scripted_notExpr
  | andExpr => exact scripted_andExpr
  | orExpr => exact scripted_orExpr
  | selectItem => exact scripted_selectItem
  | parenStatement what opened => exact scripted_parenStatement what opened
  | source => exact scripted_source
  | newSource seen => exact scripted_newSource seen
  | constraint start kind => exact scripted_constraint start kind
  | joins n seen => exact scripted_joins n seen
  | fromClause => exact scripted_fromClause
  | clause keyword => exact scripted_clause keyword
  | byClause _ keyword ih => exact scripted_byClause ih keyword
  | offsetClause => exact scripted_offsetClause
  | page => exact scripted_page
  | select => exact scripted_select
  | bodyTerm => exact scripted_bodyTerm
  | bodyTail n left => exact scripted_bodyTail n left
  | body => exact scripted_body
  | cte before => exact scripted_cte before
  | ctes n before => exact scripted_ctes n before
  | withClause => exact scripted_withClause
  | statement => exact scripted_statement

/-- What is read within a level is a parser of the grammar. -/
theorem Frame.production_body (k : Frame) : Production fun inner => k.body inner := by
  cases k with
  | expr => exact .orExpr
  | statement => exact .statement
  | negated => exact .notExpr
  | signed => exact .signExpr

/-! ## The bound -/

/-- **Nesting is bounded.** No path of a tree that was read opens more levels than there are. And
the parsers of the grammar come back to themselves only where a level is counted: each of them is a
script, with one script for each kind of level, and with a counter of open levels in place of the
bound it has one run on any tokens, which leads to the same and leaves the counter where it was. -/
theorem nesting_bounded :
    (∀ (text : String) (s : Statement), parse text = .ok s →
      ∀ path : List Node, Node.IsPath (.statement s :: path) →
        ((Node.statement s :: path).map Node.levels).sum ≤ maxNesting) ∧
    ∃ scripts : (k : Frame) → Script k.Result,
      (∀ (k : Frame) (inner : Inner), (scripts k).run inner = k.body inner) ∧
      ∀ {α : Type} (p : Inner → Parser α), Production p →
        ∃ x : Script α, (∀ inner, x.run inner = p inner) ∧
          ∀ (depth : Nat) (ts : List Token) (r : Except ParseFailure (α × Nat × List Token)),
            depth ≤ maxNesting →
              (Counts scripts x depth ts r ↔
                r = (p (Inner.within (maxNesting - depth)) ts).map
                  fun (a, rest) => (a, depth, rest)) := by
  refine ⟨fun text s h path hpath => sum_levels_le_of_parse h hpath, ?_⟩
  choose scripts hscripts using fun k : Frame => k.production_body.scripted
  refine ⟨scripts, hscripts, fun p hp => ?_⟩
  obtain ⟨x, hx⟩ := hp.scripted
  refine ⟨x, hx, fun depth ts r hdepth => ?_⟩
  rw [counts_iff hscripts hdepth, Script.outcome, hx]

/-- NOT in front of a subquery with a sign in it opens six levels. Where the last level is open a
further NOT is refused, and one level before it the counter comes back. -/
theorem nesting_bounded_not_exists :
    (∃ s path, parse "select not exists (select -a from t)" = .ok s ∧
      Node.IsPath (.statement s :: path) ∧
      ((Node.statement s :: path).map Node.levels).sum = 6 ∧
      ((Node.statement s :: path).map Node.levels).sum ≤ maxNesting) ∧
    ∃ (scripts : (k : Frame) → Script k.Result) (x : Script Expr),
      (∀ inner, x.run inner = notExpr inner) ∧
      Counts scripts x 63 [⟨.word "not", 0⟩, ⟨.word "x", 4⟩]
        (.ok (.unary .not (.column ⟨[], "x"⟩), 63, [])) ∧
      Counts scripts x 64 [⟨.word "not", 0⟩, ⟨.word "x", 4⟩] (.error ⟨4, .tooDeep⟩) := by
  obtain ⟨hpaths, scripts, -, hruns⟩ := nesting_bounded
  obtain ⟨s, hs, h⟩ := exists_ok_of_any
    (show (parse "select not exists (select -a from t)").toOption.any (fun s =>
      ((Node.statement s).along [0, 0, 0, 0, 0]).any fun path =>
        ((Node.statement s :: path).map Node.levels).sum == 6) = true by decide +kernel)
  obtain ⟨path, hpath, hsum⟩ := (Option.any_eq_true _ _).mp h
  have hpath := Node.isPath_of_along hpath
  obtain ⟨x, hx, hcounts⟩ := hruns notExpr .notExpr
  exact ⟨⟨s, path, hs, hpath, beq_iff_eq.mp hsum, hpaths _ s hs path hpath⟩, scripts, x, hx,
    (hcounts 63 _ _ (by decide)).mpr rfl, (hcounts 64 _ _ (by decide)).mpr rfl⟩

end Sql.Parser
