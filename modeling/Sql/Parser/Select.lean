import Sql.Parser.Expr

/-!
# Reading statements

The clauses of a select, the sources of a FROM clause, set operations and WITH clauses. CTE names
within a WITH clause and effective names within a FROM clause must differ, up to case.
-/

namespace Sql.Parser

variable (inner : Inner)

/-! ## Select list -/

/-- One item with its alias. A star takes no alias. -/
def selectItem : Parser SelectItem := do
  if (← isNextKeyword "from") || (← isNext .eof) then unexpected "select list item"
  else
    let e ← inner.expr
    let asName ← if e.isStar then pure none else optionalAlias
    return ⟨e, asName⟩

/-! ## FROM -/

/-- The parts of a qualified table name after the first. -/
def tableParts : Nat → Parser (List String)
  | 0 => return []
  | n + 1 => do
    if ← eat (.symbol .dot) then
      let part ← name "table name"
      return part :: (← tableParts n)
    else return []

/-- A statement in parentheses, after the parenthesis at the offset. It starts with SELECT, WITH or
a further parenthesis; anything else is met with what was expected. -/
def parenStatement (what : String) (opened : Nat) : Parser Statement := do
  if (← isNextQuery) || (← isNext (.symbol .leftParen)) then
    let s ← inner.statement
    closeParen opened
    return s
  else unexpected what

/-- A table or a subquery, with its alias. -/
def source : Parser Source := do
  let start := (← peek).offset
  if ← eat (.symbol .leftParen) then
    let s ← parenStatement inner "subquery" start
    let place := (← peek).offset
    match ← optionalAlias with
    | some asName => return .subquery s asName
    | none => failAt place .subqueryWithoutAlias
  else
    let first ← name "table name"
    let parts := first :: (← tableParts (← remaining))
    let asName ← optionalAlias
    return .table parts.dropLast (parts.getLastD "") asName

/-- A source whose effective name is none of those before it. -/
def newSource (seen : List String) : Parser Source := do
  let place := (← peek).offset
  let s ← source inner
  if nameIn s.effectiveName seen then failAt place (.duplicateSource s.effectiveName)
  else return s

/-- The kind of a join by the words before JOIN, when a join comes next. -/
def joinSide? : Parser (Option JoinKind) := do
  if ← isNextKeyword "join" then return some .inner
  else if ← eatKeyword "inner" then return some .inner
  else if ← eatKeyword "left" then
    discard (eatKeyword "outer")
    return some .left
  else if ← eatKeyword "right" then
    discard (eatKeyword "outer")
    return some .right
  else if ← eatKeyword "full" then
    discard (eatKeyword "outer")
    return some .full
  else if ← eatKeyword "cross" then return some .cross
  else return none

/-- The words of a join up to JOIN, when they come next. -/
def joinKind? : Parser (Option JoinKind) := do
  let kind ← joinSide?
  if kind.isSome then expectKeyword "join"
  return kind

/-- What a join is restricted by. A join that starts at the offset and is no cross join has ON or
USING. -/
def constraint (start : Nat) (kind : JoinKind) : Parser JoinConstraint := do
  if kind = .cross then return .none
  else if ← eatKeyword "on" then return .on (← inner.expr)
  else if ← eatKeyword "using" then return .shared (← nameList "USING column")
  else failAt start .joinWithoutCondition

/-- The joins after the sources of those names. -/
def joins : Nat → List String → Parser (List Join)
  | 0, _ => return []
  | n + 1, seen => do
    let start := (← peek).offset
    if ← eat (.symbol .comma) then
      let right ← newSource inner seen
      return ⟨.comma, right, .none⟩ :: (← joins n (right.effectiveName :: seen))
    else
      match ← joinKind? with
      | none => return []
      | some kind =>
        let right ← newSource inner seen
        let c ← constraint inner start kind
        return ⟨kind, right, c⟩ :: (← joins n (right.effectiveName :: seen))

/-- The first source and its joins, when there is a FROM clause. -/
def fromClause : Parser (Option Source × List Join) := do
  if ← eatKeyword "from" then
    let first ← newSource inner []
    let js ← joins inner (← remaining) [first.effectiveName]
    return (some first, js)
  else return (none, [])

/-! ## The other clauses -/

/-- An expression after a keyword, when the keyword comes next. -/
def clause (kw : String) : Parser (Option Expr) := do
  if ← eatKeyword kw then return some (← inner.expr) else return none

/-- A list after a keyword and BY, when the keyword comes next. -/
def byClause {α : Type} (kw : String) (item : Parser α) : Parser (List α) := do
  if ← eatKeyword kw then
    expectKeyword "by"
    commaList item
  else return []

/-- OFFSET, with ROWS or without. -/
def offsetClause : Parser (Option Expr) := do
  if ← eatKeyword "offset" then
    let e ← inner.expr
    discard (eatKeyword "rows")
    return some e
  else return none

/-- LIMIT and OFFSET in either order. -/
def page : Parser (Option Expr × Option Expr) := do
  match ← clause inner "limit" with
  | some l => return (some l, ← offsetClause inner)
  | none =>
    match ← offsetClause inner with
    | some o => return (← clause inner "limit", some o)
    | none => return (none, none)

/-- DISTINCT, or ALL, which says nothing. -/
def quantifier : Parser Bool := do
  if ← eatKeyword "distinct" then return true
  else
    discard (eatKeyword "all")
    return false

/-- One select. -/
def select : Parser Select := do
  expectKeyword "select"
  let distinct ← quantifier
  let items ← commaList (selectItem inner)
  let (source, joins) ← fromClause inner
  let filter ← clause inner "where"
  let groupBy ← byClause "group" inner.expr
  let having ← clause inner "having"
  let orderBy ← byClause "order" (orderItem inner)
  let (limit, offset) ← page inner
  return { distinct, items, source, joins, filter, groupBy, having, orderBy, limit, offset }

/-! ## Set operations and WITH -/

/-- A set operator, when one comes next. UNION DISTINCT is UNION. -/
def setOperator? : Parser (Option SetOperator) := do
  if ← eatKeyword "union" then
    if ← eatKeyword "all" then return some .unionAll
    else
      discard (eatKeyword "distinct")
      return some .union
  else if ← eatKeyword "intersect" then return some .intersect
  else if ← eatKeyword "except" then return some .except
  else return none

/-- An operand of a set operation: a select, or a statement in parentheses. -/
def bodyTerm : Parser Body := do
  let start := (← peek).offset
  if ← eat (.symbol .leftParen) then return .nested (← parenStatement inner "SELECT" start)
  else return .select (← select inner)

/-- The set operations after an operand; all operators are of one strength and group to the
left. -/
def bodyTail : Nat → Body → Parser Body
  | 0, left => return left
  | n + 1, left => do
    match ← setOperator? with
    | none => return left
    | some op =>
      let right ← bodyTerm inner
      bodyTail n (.setOp left op right)

/-- The body of a statement. -/
def body : Parser Body := do
  let left ← bodyTerm inner
  bodyTail inner (← remaining) left

/-- One definition of a WITH clause, of a name that none of the definitions before it has. -/
def cte (before : List Cte) : Parser Cte := do
  let place := (← peek).offset
  let n ← name "CTE name"
  if nameIn n (before.map Cte.name) then failAt place (.duplicateCte n)
  else
    let columns ←
      if ← isNext (.symbol .leftParen) then nameList "CTE column name" else pure []
    expectKeyword "as"
    expect (.symbol .leftParen) "'(' before CTE body"
    let s ← inner.statement
    expect (.symbol .rightParen) "')' after CTE body"
    return ⟨n, columns, s⟩

/-- The definitions of a WITH clause, added to those already read. -/
def ctes : Nat → List Cte → Parser (List Cte)
  | 0, before => return before
  | n + 1, before => do
    let c ← cte inner before
    if ← eat (.symbol .comma) then ctes n (before ++ [c]) else return before ++ [c]

/-- The WITH clause, when there is one. -/
def withClause : Parser (Option With) := do
  if ← eatKeyword "with" then
    let recursive ← eatKeyword "recursive"
    let cs ← ctes inner (← remaining) []
    return some ⟨recursive, cs⟩
  else return none

/-- A statement. -/
def statement : Parser Statement := do
  let w ← withClause inner
  let b ← body inner
  return ⟨w, b⟩

end Sql.Parser
