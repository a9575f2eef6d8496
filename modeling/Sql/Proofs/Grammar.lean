import Sql.Format.Printer
import Sql.Proofs.FunctionNames
import Sql.Proofs.TypeNames

/-!
# The grammar of printed trees

* `Expr.lexemes` and its neighbours: the lexemes of a tree as a dialect writes it, without layout.
  No operand gets parentheses of its own, so these are the lexemes of the printed text only for
  trees that need none.
* `Expr.Wf` and its neighbours: the trees that a text has. Operands bind at least as tightly as
  their operator, lists that a text cannot leave empty are not empty, names are not empty, joins
  have what their kind asks for, and names that must differ do.

`Wf` has two switches. With `strict`, parameters have names and functions can be called by theirs;
a tree that was read is only well formed without it. With `bounded`, the tree stands at most as
many levels deep as its last argument says; without it the depth is not limited.
-/

namespace Sql

/-! ## Lexemes -/

/-- A constant. -/
def Literal.lexemes (config : DialectConfig) : Literal → List Lexeme
  | number t => [.number t]
  | string s => [.string s]
  | boolean true => [.word "true"]
  | boolean false => [.word "false"]
  | null => [kw config "null"]
  | typed type value => [kw config type, .string value]

/-- A sign, or NOT. -/
def UnaryOp.lexemes (config : DialectConfig) : UnaryOp → List Lexeme
  | not => [kw config "not"]
  | minus => [.symbol .minus]
  | plus => [.symbol .plus]

/-- A predicate word, negated or not. -/
def predicateLexemes (config : DialectConfig) (word negatedWord : String) (negated : Bool) :
    List Lexeme :=
  phrase config (if negated then negatedWord else word)

/-- ASC, DESC or nothing. -/
def directionLexemes (config : DialectConfig) : Option SortDirection → List Lexeme
  | some .asc => [kw config "asc"]
  | some .desc => [kw config "desc"]
  | none => []

/-- NULLS FIRST, NULLS LAST or nothing. -/
def nullsLexemes (config : DialectConfig) : Option NullsOrder → List Lexeme
  | some .first => [kw config "nulls", kw config "first"]
  | some .last => [kw config "nulls", kw config "last"]
  | none => []

/-- A list after a keyword, left out when it is empty. -/
def listLexemes (config : DialectConfig) (words : String) (parts : List (List Lexeme)) :
    List Lexeme :=
  if parts.isEmpty then [] else phrase config words ++ commaSep parts

/-- Lexemes in parentheses. -/
def parenLexemes (ls : List Lexeme) : List Lexeme :=
  .symbol .leftParen :: ls ++ [.symbol .rightParen]

/-- An alias, when there is one. -/
def aliasLexemes (config : DialectConfig) : Option String → List Lexeme
  | some a => [kw config "as", nameLexeme config a]
  | none => []

/-- Names with commas between them. -/
def nameLexemes (config : DialectConfig) (ns : List String) : List Lexeme :=
  commaSep (ns.map fun n => [nameLexeme config n])

mutual

/-- The lexemes of an expression. -/
def Expr.lexemes (config : DialectConfig) : Expr → List Lexeme
  | .column c => dottedLexemes config c.path c.name
  | .star (some q) => [nameLexeme config q, .symbol .dot, .symbol .star]
  | .star none => [.symbol .star]
  | .literal l => l.lexemes config
  | .param p => [paramLexeme config p]
  | .call n args distinct filter window =>
    functionLexemes n ++ (parenLexemes ((if distinct then [kw config "distinct"] else [])
        ++ commaSep (exprLexemes config args))
      ++ (optionLexemes config [kw config "filter", .symbol .leftParen, kw config "where"]
          [.symbol .rightParen] filter
        ++ overLexemes config window))
  | .binary l op r => l.lexemes config ++ (op.lexemes config ++ r.lexemes config)
  | .unary op e => op.lexemes config ++ e.lexemes config
  | .isNull e negated =>
    e.lexemes config ++ predicateLexemes config "is null" "is not null" negated
  | .between e low high negated =>
    e.lexemes config ++ (predicateLexemes config "between" "not between" negated
      ++ (low.lexemes config ++ kw config "and" :: high.lexemes config))
  | .inList e items negated =>
    e.lexemes config ++ (predicateLexemes config "in" "not in" negated
      ++ parenLexemes (commaSep (exprLexemes config items)))
  | .inQuery e s negated =>
    e.lexemes config ++ (predicateLexemes config "in" "not in" negated
      ++ parenLexemes (s.lexemes config))
  | .hasRows s => kw config "exists" :: parenLexemes (s.lexemes config)
  | .subquery s => parenLexemes (s.lexemes config)
  | .case scrutinee branches fallback =>
    kw config "case" :: (optionLexemes config [] [] scrutinee
      ++ (branchLexemes config branches
      ++ (optionLexemes config [kw config "else"] [] fallback ++ [kw config "end"])))
  | .cast e type true => e.lexemes config ++ .symbol .doubleColon :: typeLexemes type
  | .cast e type false =>
    kw config "cast" :: parenLexemes (e.lexemes config ++ kw config "as" :: typeLexemes type)
  | .paren e => parenLexemes (e.lexemes config)

/-- An expression between lexemes of its own; nothing when there is none. -/
def optionLexemes (config : DialectConfig) (before after : List Lexeme) :
    Option Expr → List Lexeme
  | some e => before ++ (e.lexemes config ++ after)
  | none => []

/-- Expressions, each by itself. -/
def exprLexemes (config : DialectConfig) : List Expr → List (List Lexeme)
  | [] => []
  | e :: es => e.lexemes config :: exprLexemes config es

/-- The branches of a CASE. -/
def branchLexemes (config : DialectConfig) : List Branch → List Lexeme
  | [] => []
  | ⟨c, r⟩ :: bs =>
    kw config "when" :: (c.lexemes config ++ kw config "then" :: (r.lexemes config
      ++ branchLexemes config bs))

/-- Sort keys, each by itself. -/
def orderLexemes (config : DialectConfig) : List OrderItem → List (List Lexeme)
  | [] => []
  | ⟨e, d, n⟩ :: os =>
    (e.lexemes config ++ (directionLexemes config d ++ nullsLexemes config n))
      :: orderLexemes config os

/-- A window between its parentheses. -/
def Window.lexemes (config : DialectConfig) : Window → List Lexeme
  | ⟨partitionBy, orderBy⟩ =>
    listLexemes config "partition by" (exprLexemes config partitionBy)
      ++ listLexemes config "order by" (orderLexemes config orderBy)

/-- The window of a call, when it has one. -/
def overLexemes (config : DialectConfig) : Option Window → List Lexeme
  | some w => kw config "over" :: parenLexemes (w.lexemes config)
  | none => []

/-- Select items, each by itself. -/
def itemLexemes (config : DialectConfig) : List SelectItem → List (List Lexeme)
  | [] => []
  | ⟨e, a⟩ :: is => (e.lexemes config ++ aliasLexemes config a) :: itemLexemes config is

/-- A source with its alias. -/
def Source.lexemes (config : DialectConfig) : Source → List Lexeme
  | .table path n a => dottedLexemes config path n ++ aliasLexemes config a
  | .subquery s a => parenLexemes (s.lexemes config) ++ aliasLexemes config (some a)

/-- The first source of a select, when it has one. -/
def fromLexemes (config : DialectConfig) : Option Source → List Lexeme
  | some s => kw config "from" :: s.lexemes config
  | none => []

/-- What a join is restricted by. -/
def JoinConstraint.lexemes (config : DialectConfig) : JoinConstraint → List Lexeme
  | .on e => kw config "on" :: e.lexemes config
  | .shared columns => kw config "using" :: parenLexemes (nameLexemes config columns)
  | .none => []

/-- The joins after a first source. -/
def joinLexemes (config : DialectConfig) : List Join → List Lexeme
  | [] => []
  | ⟨kind, right, constraint⟩ :: js =>
    (if kind = .comma then .symbol .comma :: right.lexemes config
      else phrase config kind.keyword ++ (right.lexemes config ++ constraint.lexemes config))
      ++ joinLexemes config js

/-- A select, clause by clause. -/
def Select.lexemes (config : DialectConfig) : Select → List Lexeme
  | ⟨distinct, items, source, joins, filter, groupBy, having, orderBy, limit, offset⟩ =>
    kw config "select" :: ((if distinct then [kw config "distinct"] else [])
      ++ (commaSep (itemLexemes config items)
      ++ ((fromLexemes config source
          ++ (if source.isSome then joinLexemes config joins else []))
      ++ (optionLexemes config [kw config "where"] [] filter
      ++ (listLexemes config "group by" (exprLexemes config groupBy)
      ++ (optionLexemes config [kw config "having"] [] having
      ++ (listLexemes config "order by" (orderLexemes config orderBy)
      ++ (optionLexemes config [kw config "limit"] [] limit
      ++ optionLexemes config [kw config "offset"] [] offset))))))))

/-- The definitions of a WITH clause, each by itself. -/
def cteLexemes (config : DialectConfig) : List Cte → List (List Lexeme)
  | [] => []
  | ⟨n, columns, s⟩ :: cs =>
    (nameLexeme config n
      :: ((if columns.isEmpty then [] else parenLexemes (nameLexemes config columns))
        ++ kw config "as" :: parenLexemes (s.lexemes config))) :: cteLexemes config cs

/-- A body. -/
def Body.lexemes (config : DialectConfig) : Body → List Lexeme
  | .select q => q.lexemes config
  | .setOp l op r => l.lexemes config ++ (phrase config op.keyword ++ r.lexemes config)
  | .nested s => parenLexemes (s.lexemes config)

/-- The WITH clause of a statement, when it has one. -/
def withLexemes (config : DialectConfig) : Option With → List Lexeme
  | some ⟨recursive, ctes⟩ =>
    kw config "with" :: ((if recursive then [kw config "recursive"] else [])
      ++ commaSep (cteLexemes config ctes))
  | none => []

/-- A statement. -/
def Statement.lexemes (config : DialectConfig) : Statement → List Lexeme
  | ⟨withClause, body⟩ => withLexemes config withClause ++ body.lexemes config

end

/-! ## Well-formed trees -/

/-- A constant that a text has. -/
def Literal.Wf : Literal → Prop
  | number t => IsNumber t
  | typed type _ => type ∈ literalTypes
  | _ => True

/-- A parameter that a text has. -/
def Param.Wf (strict : Prop) (p : Param) : Prop :=
  p.value = none ∧ (∀ n ∈ p.name, IsParamName n) ∧ (strict → p.name ≠ none)

/-- The parts of the name of a function may be written without being taken for keywords. -/
def CanBeCalled (parts : List String) : Prop :=
  (∀ part ∈ parts, isStopWord part = false)
    ∨ ∃ part, parts = [part] ∧ nameIn part ["left", "right"] = true

/-- The name of a function that a text has. -/
def IsFunctionName (strict : Prop) (n : String) : Prop :=
  ∃ parts : List String, parts ≠ [] ∧ (∀ part ∈ parts, part ≠ "")
    ∧ n = dotted (parts.map writtenPart) ∧ (strict → CanBeCalled parts)

/-- An alias is no empty name. -/
def IsAlias (a : Option String) : Prop := ∀ n ∈ a, n ≠ ""

/-- Names that are not empty. -/
def AreNames (ns : List String) : Prop := ∀ n ∈ ns, n ≠ ""

/-- No two of the names are the same up to case. -/
def NamesDiffer (ns : List String) : Prop := ns.Pairwise fun a b => sameName a b = false

/-- What joins of this kind are restricted by. -/
def JoinKind.Takes (kind : JoinKind) (c : JoinConstraint) : Prop :=
  (kind = .comma ∨ kind = .cross) ↔ c = .none

/-- The body is one operand of a set operation. -/
def Body.isTerm : Body → Bool
  | .setOp .. => false
  | _ => true

/-- The first select of a body does not stand in parentheses. -/
def Body.startsBare : Body → Bool
  | .select _ => true
  | .setOp left _ _ => left.startsBare
  | .nested _ => false

/-- The statement starts with SELECT or WITH. -/
def Statement.startsBare (s : Statement) : Bool := s.withClause.isSome || s.body.startsBare

mutual

/-- The expression is well formed, at most `n` levels deep. -/
def Expr.Wf (strict bounded : Prop) (n : Nat) : Expr → Prop
  | .column c => AreNames (c.path ++ [c.name])
  | .star q => IsAlias q
  | .literal l => l.Wf
  | .param p => p.Wf strict
  | .call f args distinct filter window =>
    IsFunctionName strict f ∧ (distinct = true → args ≠ []) ∧ exprsWf strict bounded n args
      ∧ optionWf strict bounded n filter ∧ overWf strict bounded n window
  | .binary l op r =>
    l.Wf strict bounded n ∧ r.Wf strict bounded n
      ∧ op.strength ≤ l.strength ∧ op.strength < r.strength
  | .unary op e => (bounded → 0 < n) ∧ e.Wf strict bounded (n - 1) ∧ op.strength ≤ e.strength
  | .isNull e _ => e.Wf strict bounded n ∧ strengthComparison ≤ e.strength
  | .between e low high _ =>
    (e.Wf strict bounded n ∧ strengthComparison ≤ e.strength)
      ∧ (low.Wf strict bounded n ∧ strengthComparison < low.strength)
      ∧ high.Wf strict bounded n ∧ strengthComparison < high.strength
  | .inList e items _ =>
    (e.Wf strict bounded n ∧ strengthComparison ≤ e.strength)
      ∧ items ≠ [] ∧ exprsWf strict bounded n items
  | .inQuery e s _ =>
    (e.Wf strict bounded n ∧ strengthComparison ≤ e.strength)
      ∧ (bounded → 0 < n) ∧ s.Wf strict bounded (n - 1) ∧ s.startsBare = true
  | .hasRows s => (bounded → 0 < n) ∧ s.Wf strict bounded (n - 1)
  | .subquery s => (bounded → 0 < n) ∧ s.Wf strict bounded (n - 1) ∧ s.startsBare = true
  | .case scrutinee branches fallback =>
    optionWf strict bounded n scrutinee ∧ branches ≠ [] ∧ branchesWf strict bounded n branches
      ∧ optionWf strict bounded n fallback
  | .cast e type true =>
    (e.Wf strict bounded n ∧ strengthCast ≤ e.strength) ∧ IsTypeName type
  | .cast e type false =>
    ((bounded → 0 < n) ∧ e.Wf strict bounded (n - 1)) ∧ IsTypeName type
  | .paren e => (bounded → 0 < n) ∧ e.Wf strict bounded (n - 1)

/-- The expression, when there is one, is well formed one level further in. -/
def optionWf (strict bounded : Prop) (n : Nat) : Option Expr → Prop
  | some e => (bounded → 0 < n) ∧ e.Wf strict bounded (n - 1)
  | none => True

/-- The expressions are well formed one level further in. -/
def exprsWf (strict bounded : Prop) (n : Nat) : List Expr → Prop
  | [] => True
  | e :: es => ((bounded → 0 < n) ∧ e.Wf strict bounded (n - 1)) ∧ exprsWf strict bounded n es

/-- The branches of a CASE are well formed. -/
def branchesWf (strict bounded : Prop) (n : Nat) : List Branch → Prop
  | [] => True
  | ⟨c, r⟩ :: bs =>
    ((bounded → 0 < n) ∧ c.Wf strict bounded (n - 1) ∧ r.Wf strict bounded (n - 1))
      ∧ branchesWf strict bounded n bs

/-- The sort keys are well formed. -/
def orderWf (strict bounded : Prop) (n : Nat) : List OrderItem → Prop
  | [] => True
  | ⟨e, _, _⟩ :: os =>
    ((bounded → 0 < n) ∧ e.Wf strict bounded (n - 1)) ∧ orderWf strict bounded n os

/-- The window of a call, when it has one, is well formed. -/
def overWf (strict bounded : Prop) (n : Nat) : Option Window → Prop
  | some ⟨partitionBy, orderBy⟩ =>
    exprsWf strict bounded n partitionBy ∧ orderWf strict bounded n orderBy
  | none => True

/-- The select items are well formed; a star has no alias. -/
def itemsWf (strict bounded : Prop) (n : Nat) : List SelectItem → Prop
  | [] => True
  | ⟨e, a⟩ :: is =>
    (((bounded → 0 < n) ∧ e.Wf strict bounded (n - 1)) ∧ IsAlias a ∧ (e.isStar = true → a = none))
      ∧ itemsWf strict bounded n is

/-- The source is well formed. -/
def Source.Wf (strict bounded : Prop) (n : Nat) : Source → Prop
  | .table path t a => AreNames (path ++ [t]) ∧ IsAlias a
  | .subquery s a => ((bounded → 0 < n) ∧ s.Wf strict bounded (n - 1)) ∧ a ≠ ""

/-- The first source, when there is one, is well formed. -/
def fromWf (strict bounded : Prop) (n : Nat) : Option Source → Prop
  | some s => s.Wf strict bounded n
  | none => True

/-- The condition of a join, or the columns that it shares. -/
def JoinConstraint.Wf (strict bounded : Prop) (n : Nat) : JoinConstraint → Prop
  | .on e => (bounded → 0 < n) ∧ e.Wf strict bounded (n - 1)
  | .shared columns => columns ≠ [] ∧ AreNames columns
  | .none => True

/-- The joins are well formed and have the constraint that their kind asks for. -/
def joinsWf (strict bounded : Prop) (n : Nat) : List Join → Prop
  | [] => True
  | ⟨kind, right, constraint⟩ :: js =>
    (right.Wf strict bounded n ∧ constraint.Wf strict bounded n ∧ kind.Takes constraint)
      ∧ joinsWf strict bounded n js

/-- The select is well formed. -/
def Select.Wf (strict bounded : Prop) (n : Nat) : Select → Prop
  | ⟨_, items, source, joins, filter, groupBy, having, orderBy, limit, offset⟩ =>
    (items ≠ [] ∧ itemsWf strict bounded n items)
      ∧ (fromWf strict bounded n source ∧ joinsWf strict bounded n joins
        ∧ (source = none → joins = [])
        ∧ NamesDiffer ((source.toList ++ joins.map Join.right).map Source.effectiveName))
      ∧ optionWf strict bounded n filter ∧ exprsWf strict bounded n groupBy
      ∧ optionWf strict bounded n having ∧ orderWf strict bounded n orderBy
      ∧ optionWf strict bounded n limit ∧ optionWf strict bounded n offset

/-- The definitions of a WITH clause are well formed. -/
def ctesWf (strict bounded : Prop) (n : Nat) : List Cte → Prop
  | [] => True
  | ⟨c, columns, s⟩ :: cs =>
    (c ≠ "" ∧ AreNames columns ∧ (bounded → 0 < n) ∧ s.Wf strict bounded (n - 1))
      ∧ ctesWf strict bounded n cs

/-- The WITH clause of a statement, when it has one, is well formed. -/
def withWf (strict bounded : Prop) (n : Nat) : Option With → Prop
  | some ⟨_, ctes⟩ =>
    ctes ≠ [] ∧ ctesWf strict bounded n ctes ∧ NamesDiffer (ctes.map Cte.name)
  | none => True

/-- The body is well formed; set operations group to the left. -/
def Body.Wf (strict bounded : Prop) (n : Nat) : Body → Prop
  | .select q => q.Wf strict bounded n
  | .setOp l _ r => l.Wf strict bounded n ∧ r.Wf strict bounded n ∧ r.isTerm = true
  | .nested s => (bounded → 0 < n) ∧ s.Wf strict bounded (n - 1)

/-- The statement is well formed, at most `n` levels deep. -/
def Statement.Wf (strict bounded : Prop) (n : Nat) : Statement → Prop
  | ⟨withClause, body⟩ => withWf strict bounded n withClause ∧ body.Wf strict bounded n

end

/-! ## Parts of well-formed trees -/

section

variable {strict bounded : Prop} {n : Nat}

theorem exprsWf_iff {es : List Expr} :
    exprsWf strict bounded n es ↔ ∀ e ∈ es, (bounded → 0 < n) ∧ e.Wf strict bounded (n - 1) := by
  induction es with
  | nil => simp [exprsWf]
  | cons e es ih => rw [exprsWf, ih, List.forall_mem_cons]

theorem optionWf_iff {o : Option Expr} :
    optionWf strict bounded n o ↔ ∀ e ∈ o, (bounded → 0 < n) ∧ e.Wf strict bounded (n - 1) := by
  cases o <;> simp [optionWf]

theorem branchesWf_iff {bs : List Branch} :
    branchesWf strict bounded n bs ↔ ∀ b ∈ bs, (bounded → 0 < n)
      ∧ b.condition.Wf strict bounded (n - 1) ∧ b.result.Wf strict bounded (n - 1) := by
  induction bs with
  | nil => simp [branchesWf]
  | cons b bs ih =>
    obtain ⟨c, r⟩ := b
    rw [branchesWf, ih, List.forall_mem_cons]

theorem orderWf_iff {os : List OrderItem} :
    orderWf strict bounded n os
      ↔ ∀ i ∈ os, (bounded → 0 < n) ∧ i.expr.Wf strict bounded (n - 1) := by
  induction os with
  | nil => simp [orderWf]
  | cons i os ih =>
    obtain ⟨e, d, nulls⟩ := i
    rw [orderWf, ih, List.forall_mem_cons]

theorem itemsWf_iff {is : List SelectItem} :
    itemsWf strict bounded n is
      ↔ ∀ i ∈ is, ((bounded → 0 < n) ∧ i.expr.Wf strict bounded (n - 1)) ∧ IsAlias i.asName
        ∧ (i.expr.isStar = true → i.asName = none) := by
  induction is with
  | nil => simp [itemsWf]
  | cons i is ih =>
    obtain ⟨e, a⟩ := i
    rw [itemsWf, ih, List.forall_mem_cons]

theorem joinsWf_iff {js : List Join} :
    joinsWf strict bounded n js ↔ ∀ j ∈ js, j.right.Wf strict bounded n
      ∧ j.constraint.Wf strict bounded n ∧ j.kind.Takes j.constraint := by
  induction js with
  | nil => simp [joinsWf]
  | cons j js ih =>
    obtain ⟨kind, right, c⟩ := j
    rw [joinsWf, ih, List.forall_mem_cons]

theorem ctesWf_iff {cs : List Cte} :
    ctesWf strict bounded n cs ↔ ∀ c ∈ cs, c.name ≠ "" ∧ AreNames c.columns
      ∧ (bounded → 0 < n) ∧ c.statement.Wf strict bounded (n - 1) := by
  induction cs with
  | nil => simp [ctesWf]
  | cons c cs ih =>
    obtain ⟨m, columns, s⟩ := c
    rw [ctesWf, ih, List.forall_mem_cons]

theorem Statement.wf_iff {s : Statement} : s.Wf strict bounded n
    ↔ (∀ w ∈ s.withClause, w.ctes ≠ []) ∧ ctesWf strict bounded n s.ctes
      ∧ NamesDiffer (s.ctes.map Cte.name) ∧ s.body.Wf strict bounded n := by
  obtain ⟨w, b⟩ := s
  rw [Wf]
  cases w with
  | none => simp [withWf, ctes, ctesWf, NamesDiffer]
  | some w =>
    obtain ⟨recursive, cs⟩ := w
    simp [withWf, ctes, and_assoc]

end

/-! ## Keywords in any case -/

/-- Only the capital letters of ASCII are changed, and they come 32 before the small ones. -/
theorem toLower_cases (c : Char) :
    (c.toLower = c ∧ ¬ (65 ≤ c.toNat ∧ c.toNat ≤ 90))
      ∨ ((65 ≤ c.toNat ∧ c.toNat ≤ 90) ∧ c.toLower.toNat = c.toNat + 32) := by
  unfold Char.toLower
  split
  · next h =>
    simp only [ge_iff_le, UInt32.le_iff_toNat_le] at h
    refine Or.inr ⟨h, ?_⟩
    obtain ⟨hA, hZ⟩ := h
    show (c.val + ('a'.val - 'A'.val)).toNat = c.val.toNat + 32
    rw [UInt32.toNat_add]
    simp at *
    omega
  · next h =>
    simp only [ge_iff_le, UInt32.le_iff_toNat_le] at h
    exact Or.inl ⟨rfl, h⟩

/-- Only the small letters of ASCII are changed, and they come 32 after the capital ones. -/
theorem toUpper_cases (c : Char) :
    c.toUpper = c
      ∨ ((97 ≤ c.toNat ∧ c.toNat ≤ 122) ∧ c.toUpper.toNat + 32 = c.toNat) := by
  unfold Char.toUpper
  split
  · next h =>
    simp only [UInt32.le_iff_toNat_le] at h
    refine Or.inr ⟨h, ?_⟩
    obtain ⟨ha, hz⟩ := h
    show (c.val + ('A'.val - 'a'.val)).toNat + 32 = c.val.toNat
    rw [UInt32.toNat_add]
    simp at *
    omega
  · exact Or.inl rfl

theorem foldCase_foldCase (w : String) : foldCase (foldCase w) = foldCase w := by
  unfold foldCase
  rw [String.toList_ofList, List.map_map]
  congr 2
  funext c
  rcases toLower_cases c with ⟨h, -⟩ | ⟨hc, h⟩
  · rw [Function.comp_apply, h, h]
  · rcases toLower_cases c.toLower with ⟨h', -⟩ | ⟨hc', -⟩
    · exact h'
    · omega

theorem foldCase_raiseCase (w : String) : foldCase (raiseCase w) = foldCase w := by
  unfold foldCase raiseCase
  rw [String.toList_ofList, List.map_map]
  congr 2
  funext c
  rcases toUpper_cases c with h | ⟨hc, h⟩
  · rw [Function.comp_apply, h]
  · rcases toLower_cases c.toUpper with ⟨-, h'⟩ | ⟨-, h'⟩
    · omega
    · rcases toLower_cases c with ⟨h'', -⟩ | ⟨hc'', -⟩
      · rw [Function.comp_apply, h'']
        exact Char.toNat_inj.mp (by omega)
      · omega

@[simp] theorem foldCase_keyword (config : DialectConfig) (w : String) :
    foldCase (config.keyword w) = foldCase w := by
  unfold DialectConfig.keyword
  cases config.keywordCase
  · exact foldCase_foldCase w
  · exact foldCase_raiseCase w

theorem isStopWord_congr {a b : String} (h : foldCase a = foldCase b) :
    isStopWord a = isStopWord b := by
  rw [isStopWord, isStopWord, h]

theorem sameName_comm (a b : String) : sameName a b = sameName b a := by
  simp only [sameName, Bool.beq_comm]

theorem sameName_congr {a b : String} (h : foldCase a = foldCase b) (k : String) :
    sameName a k = sameName b k := by
  rw [sameName, sameName, h]

theorem nameIn_congr {a b : String} (h : foldCase a = foldCase b) (ns : List String) :
    nameIn a ns = nameIn b ns := by
  rw [nameIn, nameIn]
  congr 1
  funext k
  exact sameName_congr h k

@[simp] theorem isStopWord_keyword (config : DialectConfig) (w : String) :
    isStopWord (config.keyword w) = isStopWord w :=
  isStopWord_congr (foldCase_keyword config w)

@[simp] theorem nameIn_keyword (config : DialectConfig) (w : String) (ns : List String) :
    nameIn (config.keyword w) ns = nameIn w ns :=
  nameIn_congr (foldCase_keyword config w) ns

@[simp] theorem isKeyword_kw (config : DialectConfig) (w k : String) :
    (kw config w).isKeyword k = sameName w k :=
  sameName_congr (foldCase_keyword config w) k

/-! ## The first lexeme of an expression -/

/-- Stop words that an expression may start with. -/
def openingWords : List String :=
  ["not", "null", "true", "false", "case", "cast", "exists", "left", "right"]

/-- An expression may start with the lexeme. -/
def Lexeme.opens : Lexeme → Bool
  | .word w => !isStopWord w || nameIn w openingWords
  | .symbol s => s == .leftParen || s == .star || s == .minus || s == .plus
  | .eof => false
  | _ => true

/-- An expression starts with none of the other stop words. -/
theorem Lexeme.not_keyword_of_opens {l : Lexeme} (h : l.opens = true) {k : String}
    (hstop : isStopWord k = true) (hopening : nameIn k openingWords = false) :
    l.isKeyword k = false := by
  cases l with
  | word w =>
    rw [isKeyword, Bool.eq_false_iff]
    intro hw
    have hfold := sameName_iff.mp hw
    rw [opens, isStopWord_congr hfold, nameIn_congr hfold, hstop, hopening] at h
    exact absurd h (by decide)
  | _ => rfl

theorem isStopWord_of_isPlainName {n : String} (h : isPlainName n = true) :
    isStopWord n = false := by
  rw [isPlainName, Bool.and_eq_true, Bool.not_eq_true', needsQuotes, Bool.or_eq_false_iff] at h
  exact h.2.1

theorem opens_nameLexeme (config : DialectConfig) (n : String) :
    (nameLexeme config n).opens = true := by
  unfold nameLexeme
  split
  · next h =>
    rw [Lexeme.opens, isStopWord_of_isPlainName h.2]
    rfl
  · rfl

theorem opens_partLexeme {part : String}
    (h : isStopWord part = false ∨ nameIn part ["left", "right"] = true) :
    (partLexeme part).opens = true := by
  unfold partLexeme
  split
  · rcases h with h | h
    · rw [Lexeme.opens, h]
      rfl
    · have : nameIn part openingWords = true := by
        rw [nameIn, List.any_eq_true] at h ⊢
        obtain ⟨w, hw, hsame⟩ := h
        refine ⟨w, ?_, hsame⟩
        rcases List.mem_pair.mp hw with rfl | rfl <;> decide
      rw [Lexeme.opens, this, Bool.or_true]
  · rfl

theorem IsFunctionName.splitName {strict : Prop} {f : String} (h : IsFunctionName strict f) :
    splitName f ≠ [] ∧ (strict → CanBeCalled (splitName f)) := by
  obtain ⟨parts, hne, hparts, rfl, hcalled⟩ := h
  rw [splitName_dotted hne hparts]
  exact ⟨hne, hcalled⟩

theorem dotted_splitName {strict : Prop} {f : String}
    (h : IsFunctionName strict f) : dotted ((splitName f).map writtenPart) = f := by
  obtain ⟨parts, hne, hparts, rfl, -⟩ := h
  rw [splitName_dotted hne hparts]

/-- The lexemes may be those of an expression of that strength. -/
def Starts (strength : Nat) (ls : List Lexeme) : Prop :=
  ∃ l rest, ls = l :: rest ∧ l.opens = true
    ∧ (strengthNot < strength → l.isKeyword "not" = false)
    ∧ (strengthSign < strength → Parser.signOf? l = none)

theorem Starts.append {strength : Nat} {ls : List Lexeme} (h : Starts strength ls)
    (more : List Lexeme) : Starts strength (ls ++ more) := by
  obtain ⟨l, rest, rfl, h⟩ := h
  exact ⟨l, rest ++ more, rfl, h⟩

theorem Starts.weaken {strength weaker : Nat} {ls : List Lexeme} (h : Starts strength ls)
    (hle : weaker ≤ strength) : Starts weaker ls := by
  obtain ⟨l, rest, hls, hopens, hnot, hsign⟩ := h
  exact ⟨l, rest, hls, hopens, fun h => hnot (by omega), fun h => hsign (by omega)⟩

theorem Starts.head_keyword {s : Nat} {ls : List Lexeme} (h : Starts s ls) {k : String}
    (hstop : isStopWord k = true)
    (hopening : nameIn k openingWords = false) (l : Lexeme) : (ls.headD l).isKeyword k = false := by
  obtain ⟨l', tail, rfl, hopens, -⟩ := h
  exact Lexeme.not_keyword_of_opens hopens hstop hopening

theorem Starts.head_ne {s : Nat} {ls : List Lexeme} (h : Starts s ls) {l : Lexeme}
    (hl : l.opens = false) (l' : Lexeme) :
    ls.headD l' ≠ l := by
  obtain ⟨l'', tail, rfl, hopens, -⟩ := h
  rw [List.headD_cons]
  rintro rfl
  rw [hl] at hopens
  exact absurd hopens (by decide)

theorem Starts.commaSep {s : Nat} {ls : List Lexeme} (h : Starts s ls) (lss : List (List Lexeme)) :
    Starts s (commaSep (ls :: lss)) := h.append _

/-- An expression is no statement. -/
theorem Starts.not_query {s : Nat} {ls : List Lexeme} (h : Starts s ls) (l : Lexeme) :
    ((ls.headD l).isKeyword "select" || (ls.headD l).isKeyword "with") = false := by
  rw [h.head_keyword (by decide) (by decide), h.head_keyword (by decide) (by decide)]
  rfl

/-- A keyword that starts expressions other than negations. -/
theorem starts_kw (config : DialectConfig) {w : String} (hw : nameIn w openingWords = true)
    (hnot : sameName w "not" = false) (strength : Nat) (rest : List Lexeme) :
    Starts strength (kw config w :: rest) := by
  refine ⟨_, rest, rfl, ?_, fun _ => ?_, fun _ => rfl⟩
  · rw [kw, Lexeme.opens, nameIn_keyword, hw, Bool.or_true]
  · rw [isKeyword_kw, hnot]

theorem starts_paren (strength : Nat) (ls : List Lexeme) :
    Starts strength (.symbol .leftParen :: ls) :=
  ⟨_, ls, rfl, rfl, fun _ => rfl, fun _ => rfl⟩

/-- A name starts an expression, since a printed name is no stop word. -/
theorem starts_name (config : DialectConfig) (n : String) (strength : Nat) (ls : List Lexeme) :
    Starts strength (nameLexeme config n :: ls) := by
  refine ⟨_, ls, rfl, opens_nameLexeme config n, fun _ => ?_, fun _ => ?_⟩
  · unfold nameLexeme
    split
    · next h =>
      rw [Lexeme.isKeyword, Bool.eq_false_iff]
      intro hnot
      have hstop := isStopWord_of_isPlainName h.2
      rw [isStopWord_congr (sameName_iff.mp hnot)] at hstop
      exact absurd hstop (by decide)
    · rfl
  · unfold nameLexeme
    split <;> rfl

theorem starts_function {f : String} (h : IsFunctionName True f) (strength : Nat) :
    Starts strength (functionLexemes f) := by
  obtain ⟨hne, hcalled⟩ := h.splitName
  obtain ⟨part, parts, hsplit⟩ := List.exists_cons_of_ne_nil hne
  have hcalled := hcalled trivial
  rw [hsplit] at hcalled
  have hpart : isStopWord part = false ∨ nameIn part ["left", "right"] = true := by
    rcases hcalled with hall | ⟨p, hp, hname⟩
    · exact Or.inl (hall part List.mem_cons_self)
    · obtain ⟨rfl, -⟩ := List.cons.inj hp
      exact Or.inr hname
  refine ⟨partLexeme part, _, by rw [functionLexemes, hsplit, List.map_cons, dotSep],
    opens_partLexeme hpart, fun _ => ?_, fun _ => ?_⟩
  · unfold partLexeme
    split
    · rw [Lexeme.isKeyword, Bool.eq_false_iff]
      intro hnot
      have hfold := sameName_iff.mp hnot
      rw [isStopWord_congr hfold, nameIn_congr hfold] at hpart
      exact absurd hpart (by decide)
    · rfl
  · unfold partLexeme
    split <;> rfl

theorem starts_literal (config : DialectConfig) {l : Literal} (h : l.Wf) (strength : Nat) :
    Starts strength (l.lexemes config) := by
  cases l with
  | number t => exact ⟨_, [], rfl, rfl, fun _ => rfl, fun _ => rfl⟩
  | string s => exact ⟨_, [], rfl, rfl, fun _ => rfl, fun _ => rfl⟩
  | boolean b =>
    cases b with
    | true => exact ⟨_, [], rfl, by decide, fun _ => by decide, fun _ => rfl⟩
    | false => exact ⟨_, [], rfl, by decide, fun _ => by decide, fun _ => rfl⟩
  | null => exact starts_kw config (by decide) (by decide) strength []
  | typed type value =>
    have hword : isStopWord type = false ∧ sameName type "not" = false := by
      have : ∀ type ∈ literalTypes, isStopWord type = false ∧ sameName type "not" = false := by
        decide
      exact this type h
    refine ⟨_, [.string value], rfl, ?_, fun _ => ?_, fun _ => rfl⟩
    · rw [kw, Lexeme.opens, isStopWord_keyword, hword.1]
      rfl
    · rw [isKeyword_kw, hword.2]

/-- **The lexemes of an expression start one of its strength.** Only a negation starts with NOT,
and only a sign, or what binds less tightly, with a sign. -/
theorem Expr.starts (config : DialectConfig) {bounded : Prop} {n : Nat} : {e : Expr} →
    e.Wf True bounded n → Starts e.strength (e.lexemes config)
  | .column c, h => by
    rw [Expr.lexemes, dottedLexemes]
    cases c.path with
    | nil => exact starts_name config _ _ _
    | cons p ps => exact starts_name config _ _ _
  | .star (some q), h => starts_name config _ _ _
  | .star none, h => ⟨_, [], rfl, rfl, fun _ => rfl, fun _ => rfl⟩
  | .literal l, h => by
    rw [Expr.lexemes]
    exact starts_literal config (by rwa [Expr.Wf] at h) _
  | .param p, h => ⟨_, [], rfl, rfl, fun _ => rfl, fun _ => rfl⟩
  | .call f args distinct filter window, h => by
    rw [Expr.Wf] at h
    rw [Expr.lexemes]
    exact (starts_function h.1 _).append _
  | .binary l op r, h => by
    rw [Expr.Wf] at h
    rw [Expr.lexemes]
    exact ((Expr.starts config h.1).weaken h.2.2.1).append _
  | .unary op e, h => by
    rw [Expr.lexemes]
    cases op with
    | not =>
      refine ⟨_, _, rfl, ?_, fun hlt => absurd hlt (Nat.lt_irrefl _), fun hlt => ?_⟩
      · rw [kw, Lexeme.opens, nameIn_keyword, show nameIn "not" openingWords = true by decide,
          Bool.or_true]
      · exact absurd (show strengthSign < strengthNot from hlt) (by decide)
    | minus => exact ⟨_, _, rfl, rfl, fun _ => rfl, fun hlt => absurd hlt (Nat.lt_irrefl _)⟩
    | plus => exact ⟨_, _, rfl, rfl, fun _ => rfl, fun hlt => absurd hlt (Nat.lt_irrefl _)⟩
  | .isNull e negated, h => by
    rw [Expr.Wf] at h
    rw [Expr.lexemes]
    exact ((Expr.starts config h.1).weaken h.2).append _
  | .between e low high negated, h => by
    rw [Expr.Wf] at h
    rw [Expr.lexemes]
    exact ((Expr.starts config h.1.1).weaken h.1.2).append _
  | .inList e items negated, h => by
    rw [Expr.Wf] at h
    rw [Expr.lexemes]
    exact ((Expr.starts config h.1.1).weaken h.1.2).append _
  | .inQuery e s negated, h => by
    rw [Expr.Wf] at h
    rw [Expr.lexemes]
    exact ((Expr.starts config h.1.1).weaken h.1.2).append _
  | .hasRows s, h => by
    rw [Expr.lexemes]
    exact starts_kw config (by decide) (by decide) _ _
  | .subquery s, h => by
    rw [Expr.lexemes]
    exact starts_paren _ _
  | .case scrutinee branches fallback, h => by
    rw [Expr.lexemes]
    exact starts_kw config (by decide) (by decide) _ _
  | .cast e type true, h => by
    rw [Expr.Wf] at h
    rw [Expr.lexemes]
    exact ((Expr.starts config h.1.1).weaken h.1.2).append _
  | .cast e type false, h => by
    rw [Expr.lexemes]
    exact starts_kw config (by decide) (by decide) _ _
  | .paren e, h => by
    rw [Expr.lexemes]
    exact starts_paren _ _

end Sql
