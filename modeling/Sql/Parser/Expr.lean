import Sql.Parser.Basic

/-!
# Reading expressions

One parser per binding strength, from the weakest down: OR, AND, NOT, comparisons, concatenation,
sums, products, signs, short casts, and last the expressions without an outer operator. Operators
of one strength group to the left.

What stands in parentheses, in lists and behind NOT or a sign is one level further in and is read
with the parsers of `Inner`.
-/

namespace Sql

/-! ## Names and types as they are kept -/

/-- A part of a function or type name as it is kept: bare if it is simple, else in double quotes. -/
def writtenPart (part : String) : String :=
  if isSimpleName part then part else quoteName part "\"" "\""

/-- Words that continue a type name. -/
def typeWords : List String := ["precision", "varying", "with", "without", "time", "zone"]

/-- Types that may stand before a string to make a literal. -/
def literalTypes : List String := ["interval", "date", "timestamp", "time", "timestamptz"]

namespace Parser

/-- The next tokens start a statement. -/
def isNextQuery : Parser Bool := do
  return (← isNextKeyword "select") || (← isNextKeyword "with")

/-! ## Types -/

/-- One part of a type name. Any word will do. -/
def typePart : Parser String := do
  match (← peek).lexeme with
  | .word w =>
    skip
    return w
  | .quoted n =>
    skip
    return writtenPart n
  | _ => unexpected "type name"

/-- The further parts of a dotted type name, each with its dot. -/
def typeParts : Nat → Parser String
  | 0 => return ""
  | n + 1 => do
    if ← eat (.symbol .dot) then
      let part ← typePart
      return "." ++ part ++ (← typeParts n)
    else return ""

/-- The words that continue a type name, each after a blank. -/
def typeTail : Nat → Parser String
  | 0 => return ""
  | n + 1 => do
    match (← peek).lexeme with
    | .word w =>
      if nameIn w typeWords then
        skip
        return " " ++ w ++ (← typeTail n)
      else return ""
    | _ => return ""

/-- One number in the parentheses of a type. -/
def typeModifier : Parser String := do
  match (← peek).lexeme with
  | .number t =>
    skip
    return t
  | _ => unexpected "type modifier"

/-- A type as it is written, with its numbers in parentheses. -/
def typeName : Parser String := do
  let first ← typePart
  let parts ← typeParts (← remaining)
  let words ← typeTail (← remaining)
  let written := first ++ parts ++ words
  if ← eat (.symbol .leftParen) then
    let modifiers ← commaList typeModifier
    expect (.symbol .rightParen) "')' after type modifiers"
    return written ++ "(" ++ ", ".intercalate modifiers ++ ")"
  else return written

/-! ## Sort keys -/

/-- ASC, DESC or nothing. -/
def direction : Parser (Option SortDirection) := do
  if ← eatKeyword "asc" then return some .asc
  else if ← eatKeyword "desc" then return some .desc
  else return none

/-- NULLS FIRST, NULLS LAST or nothing. -/
def nullsOrder : Parser (Option NullsOrder) := do
  if ← eatKeyword "nulls" then
    if ← eatKeyword "first" then return some .first
    else if ← eatKeyword "last" then return some .last
    else unexpected "FIRST or LAST after NULLS"
  else return none

variable (inner : Inner)

/-- One sort key. -/
def orderItem : Parser OrderItem := do
  let e ← inner.expr
  let d ← direction
  let n ← nullsOrder
  return ⟨e, d, n⟩

/-! ## Calls -/

/-- The FILTER condition of a call, when there is one. -/
def callFilter : Parser (Option Expr) := do
  if (← isNextKeyword "filter") && (← peekSecond).lexeme == .symbol .leftParen then
    skip
    skip
    expectKeyword "where"
    let condition ← inner.expr
    expect (.symbol .rightParen) "')' after FILTER"
    return some condition
  else return none

/-- The window of a call, when there is one. -/
def callWindow : Parser (Option Window) := do
  if (← isNextKeyword "over") && (← peekSecond).lexeme == .symbol .leftParen then
    skip
    skip
    let partitionBy ←
      if ← eatKeyword "partition" then
        expectKeyword "by"
        commaList inner.expr
      else pure []
    let orderBy ←
      if ← eatKeyword "order" then
        expectKeyword "by"
        commaList (orderItem inner)
      else pure []
    expect (.symbol .rightParen) "')' after window specification"
    return some ⟨partitionBy, orderBy⟩
  else return none

/-- A call after its name. -/
def call (name : String) : Parser Expr := do
  let opened := (← peek).offset
  expect (.symbol .leftParen) "'('"
  let (distinct, args) ←
    if ← isNext (.symbol .rightParen) then pure (false, [])
    else do
      let distinct ← eatKeyword "distinct"
      let args ← commaList inner.expr
      pure (distinct, args)
  closeParen opened
  let filter ← callFilter inner
  let window ← callWindow inner
  return .call name args distinct filter window

/-! ## Columns -/

/-- The parts of a dotted name after those already read, and whether it ends in a star. -/
def pathTail : Nat → List String → Parser (List String × Bool)
  | 0, parts => return (parts, false)
  | n + 1, parts => do
    if ← eat (.symbol .dot) then
      if ← eat (.symbol .star) then return (parts, true)
      else pathTail n (parts ++ [← name "column name"])
    else return (parts, false)

/-- What starts with a name: a column, `t.*`, or a call. Any word will do for the first part. -/
def path : Parser Expr := do
  let first ←
    match (← peek).lexeme with
    | .word w => do
      skip
      pure w
    | .quoted n => do
      skip
      pure n
    | _ => unexpected "identifier"
  let (parts, star) ← pathTail (← remaining) [first]
  if star then return .star parts.getLast?
  else if ← isNext (.symbol .leftParen) then call inner (dotted (parts.map writtenPart))
  else return .column ⟨parts.dropLast, parts.getLastD ""⟩

/-! ## Expressions that start with a word -/

/-- The branches of a CASE. -/
def branches : Nat → Parser (List Branch)
  | 0 => return []
  | n + 1 => do
    if ← eatKeyword "when" then
      let condition ← inner.expr
      expectKeyword "then"
      let result ← inner.expr
      return ⟨condition, result⟩ :: (← branches n)
    else return []

/-- A CASE after its first word. -/
def caseTail : Parser Expr := do
  let operand ← if ← isNextKeyword "when" then pure none else some <$> inner.expr
  let bs ← branches inner (← remaining)
  if bs.isEmpty then unexpected "WHEN"
  else
    let fallback ← if ← eatKeyword "else" then some <$> inner.expr else pure none
    expectKeyword "end"
    return .case operand bs fallback

/-- A CAST after its first word, which stands at the offset. -/
def castTail (start : Nat) : Parser Expr := do
  expect (.symbol .leftParen) "'(' after CAST"
  let e ← inner.expr
  expectKeyword "as"
  let type ← typeName
  closeParen start
  return .cast e type false

/-- An EXISTS after its first word. -/
def existsTail : Parser Expr := do
  let opened := (← peek).offset
  expect (.symbol .leftParen) "'(' after EXISTS"
  let s ← inner.statement
  closeParen opened
  return .hasRows s

/-- The string after a type name, when the two make a literal. -/
def literalValue? (type : String) : Parser (Option String) := do
  match (← peekSecond).lexeme with
  | .string s => return if literalTypes.contains type then some s else none
  | _ => return none

/-- The word is read as a function name although it is a stop word. -/
def isFunctionWord (w : String) : Parser Bool := do
  return (w == "left" || w == "right") && (← peekSecond).lexeme == .symbol .leftParen

/-- An expression that starts with a word at the offset. -/
def wordExpr (word : String) (start : Nat) : Parser Expr := do
  let w := foldCase word
  if w = "null" then
    skip
    return .null
  else if w = "true" then
    skip
    return .literal (.boolean true)
  else if w = "false" then
    skip
    return .literal (.boolean false)
  else if w = "case" then
    skip
    caseTail inner
  else if w = "cast" then
    skip
    castTail inner start
  else if w = "exists" then
    skip
    existsTail inner
  else
    match ← literalValue? w with
    | some s =>
      skip
      skip
      return .literal (.typed w s)
    | none =>
      if isStopWord word && !(← isFunctionWord w) then failAt start (.unexpectedKeyword word)
      else path inner

/-! ## The levels -/

/-- A subquery, or an expression in parentheses, after the parenthesis at the offset. -/
def parenTail (opened : Nat) : Parser Expr := do
  if ← isNextQuery then
    let s ← inner.statement
    closeParen opened
    return .subquery s
  else
    let e ← inner.expr
    closeParen opened
    return .paren e

/-- An expression without an outer operator. -/
def primary : Parser Expr := do
  let t ← peek
  match t.lexeme with
  | .number text =>
    skip
    return .literal (.number text)
  | .string s =>
    skip
    return .string s
  | .param _ name =>
    skip
    return .param ⟨name, none⟩
  | .symbol .star =>
    skip
    return .star none
  | .symbol .leftParen =>
    skip
    parenTail inner t.offset
  | .word w => wordExpr inner w t.offset
  | .quoted _ => path inner
  | _ => unexpected "expression"

/-- The short casts after an expression. -/
def castsTail : Nat → Expr → Parser Expr
  | 0, e => return e
  | n + 1, e => do
    if ← eat (.symbol .doubleColon) then
      castsTail n (.cast e (← typeName) true)
    else return e

/-- An expression with short casts. -/
def castExpr : Parser Expr := do
  let e ← primary inner
  castsTail (← remaining) e

/-- The sign that a token is before an operand. -/
def signOf? : Lexeme → Option UnaryOp
  | .symbol .minus => some .minus
  | .symbol .plus => some .plus
  | _ => none

/-- An expression with signs. -/
def signExpr : Parser Expr := do
  match signOf? (← peek).lexeme with
  | some op =>
    skip
    return .unary op (← inner.signed)
  | none => castExpr inner

/-- The operators of products. -/
def productOp? : Lexeme → Option BinaryOp
  | .symbol .star => some .mul
  | .symbol .slash => some .div
  | .symbol .percent => some .mod
  | _ => none

/-- The operators of sums. -/
def sumOp? : Lexeme → Option BinaryOp
  | .symbol .plus => some .add
  | .symbol .minus => some .sub
  | _ => none

/-- The operators of concatenation and of JSON access. -/
def concatOp? : Lexeme → Option BinaryOp
  | .symbol .concat => some .concat
  | .symbol .arrow => some .jsonGet
  | .symbol .longArrow => some .jsonGetText
  | _ => none

/-- The operators of comparison that are symbols. -/
def comparisonOp? : Lexeme → Option BinaryOp
  | .symbol .eq => some .eq
  | .symbol .notEq => some .notEq
  | .symbol .lt => some .lt
  | .symbol .ltEq => some .ltEq
  | .symbol .gt => some .gt
  | .symbol .gtEq => some .gtEq
  | _ => none

/-- The operator AND. -/
def andOp? (l : Lexeme) : Option BinaryOp := if l.isKeyword "and" then some .and else none

/-- The operator OR. -/
def orOp? (l : Lexeme) : Option BinaryOp := if l.isKeyword "or" then some .or else none

/-- Products. -/
def productExpr : Parser Expr := chain productOp? (signExpr inner)

/-- Sums. -/
def sumExpr : Parser Expr := chain sumOp? (productExpr inner)

/-- Concatenations. -/
def concatExpr : Parser Expr := chain concatOp? (sumExpr inner)

/-- The words that NOT may negate after an operand. -/
def negatable : List String := ["like", "ilike", "between", "in"]

/-- NOT before LIKE, ILIKE, BETWEEN or IN. -/
def eatPredicateNot : Parser Bool := do
  if (← isNextKeyword "not") && negatable.any (← peekSecond).lexeme.isKeyword then
    skip
    return true
  else return false

/-- An IN predicate after its first word. -/
def inTail (e : Expr) (negated : Bool) : Parser Expr := do
  let opened := (← peek).offset
  expect (.symbol .leftParen) "'(' after IN"
  if ← isNextQuery then
    let s ← inner.statement
    closeParen opened
    return .inQuery e s negated
  else if ← isNext (.symbol .rightParen) then failAt opened .emptyList
  else
    let items ← commaList inner.expr
    closeParen opened
    return .inList e items negated

/-- What may follow an operand on the level of comparisons: a comparison, or a predicate. -/
def predicate? (e : Expr) : Parser (Option Expr) := do
  match comparisonOp? (← peek).lexeme with
  | some op =>
    skip
    return some (.binary e op (← concatExpr inner))
  | none =>
    if ← eatKeyword "is" then
      let negated ← eatKeyword "not"
      expectKeyword "null"
      return some (.isNull e negated)
    else
      let negated ← eatPredicateNot
      if ← eatKeyword "like" then
        return some (.binary e (if negated then .notLike else .like) (← concatExpr inner))
      else if ← eatKeyword "ilike" then
        return some (.binary e (if negated then .notIlike else .ilike) (← concatExpr inner))
      else if ← eatKeyword "between" then
        let low ← concatExpr inner
        expectKeyword "and"
        let high ← concatExpr inner
        return some (.between e low high negated)
      else if ← eatKeyword "in" then
        return some (← inTail inner e negated)
      else return none

/-- The comparisons and predicates after an operand. -/
def comparisonTail : Nat → Expr → Parser Expr
  | 0, e => return e
  | n + 1, e => do
    match ← predicate? inner e with
    | some e' => comparisonTail n e'
    | none => return e

/-- Comparisons. -/
def comparisonExpr : Parser Expr := do
  let e ← concatExpr inner
  comparisonTail inner (← remaining) e

/-- Negations. -/
def notExpr : Parser Expr := do
  if ← eatKeyword "not" then return .unary .not (← inner.negated)
  else comparisonExpr inner

/-- Conjunctions. -/
def andExpr : Parser Expr := chain andOp? (notExpr inner)

/-- Disjunctions: every expression. -/
def orExpr : Parser Expr := chain orOp? (andExpr inner)

end Parser

end Sql
