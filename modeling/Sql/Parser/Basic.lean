import Sql.Name.Reserved
import Sql.Statement
import Sql.Token

/-!
# Reading tokens

A parser takes tokens off the front of a list and hands back a value and the rest, or the fault
that stops it. A list of tokens ends with `eof`, which no parser takes.

Loops carry the number of tokens as a bound; every turn takes at least one token, so the bound is
never what ends them.
-/

namespace Sql

/-- Why tokens form no statement. -/
inductive ParseFault
  | expected (what : String) (found : Lexeme)
  | unbalanced
  | tooDeep
  | emptyList
  | unexpectedKeyword (word : String)
  | trailing (after : String) (found : Lexeme)
  | duplicateCte (name : String)
  | duplicateSource (name : String)
  | joinWithoutCondition
  | subqueryWithoutAlias
  | emptyStatement
  | emptyExpression
deriving DecidableEq, Repr

/-- The message of a fault. -/
def ParseFault.message : ParseFault → String
  | expected what found => "expected " ++ what ++ " but found " ++ found.describe
  | unbalanced => "unbalanced parenthesis"
  | tooDeep => "statement nested too deeply"
  | emptyList => "IN list must not be empty"
  | unexpectedKeyword word => "unexpected keyword " ++ raiseCase word
  | trailing after found => "unexpected " ++ found.describe ++ " after " ++ after
  | duplicateCte name => "duplicate CTE name '" ++ name ++ "'"
  | duplicateSource name => "table name \"" ++ name ++ "\" specified more than once"
  | joinWithoutCondition => "JOIN requires ON or USING"
  | subqueryWithoutAlias => "subquery in FROM must have an alias"
  | emptyStatement => "empty statement"
  | emptyExpression => "empty expression"

/-- A fault and the byte offset it is reported at. -/
structure ParseFailure where
  offset : Nat
  fault : ParseFault
deriving DecidableEq, Repr

/-- Takes tokens off the front of a list. -/
abbrev Parser := StateT (List Token) (Except ParseFailure)

/-- The first token; past the end, the end. -/
def firstToken (ts : List Token) : Token := ts.headD ⟨.eof, 0⟩

namespace Parser

variable {α : Type}

/-- The next token, which stays. -/
def peek : Parser Token := fun ts => .ok (firstToken ts, ts)

/-- The token after the next, which stays. -/
def peekSecond : Parser Token := fun ts => .ok (firstToken ts.tail, ts)

/-- Take the next token. -/
def skip : Parser Unit := fun ts => .ok ((), ts.tail)

/-- The number of tokens that are left. -/
def remaining : Parser Nat := fun ts => .ok (ts.length, ts)

/-- Stop with a fault at a byte offset. -/
def failAt (offset : Nat) (f : ParseFault) : Parser α := fun _ => .error ⟨offset, f⟩

/-- Stop with a fault at the next token. -/
def failHere (f : ParseFault) : Parser α := fun ts => .error ⟨(firstToken ts).offset, f⟩

/-- Stop because something else than the next token was expected. -/
def unexpected (what : String) : Parser α :=
  fun ts => .error ⟨(firstToken ts).offset, .expected what (firstToken ts).lexeme⟩

/-- The next token is this one. -/
def isNext (l : Lexeme) : Parser Bool := return (← peek).lexeme == l

/-- The next token is this keyword. -/
def isNextKeyword (kw : String) : Parser Bool := return (← peek).lexeme.isKeyword kw

/-- Take the next token if it is this one. -/
def eat (l : Lexeme) : Parser Bool := do
  if ← isNext l then
    skip
    return true
  else return false

/-- Take the next token if it is this keyword. -/
def eatKeyword (kw : String) : Parser Bool := do
  if ← isNextKeyword kw then
    skip
    return true
  else return false

/-- Take this token, or stop with what is expected. -/
def expect (l : Lexeme) (what : String) : Parser Unit := do
  if ← eat l then return () else unexpected what

/-- Take this keyword, or stop. -/
def expectKeyword (kw : String) : Parser Unit := do
  if ← eatKeyword kw then return () else unexpected (raiseCase kw)

/-- Take the parenthesis that closes the one at the offset, or stop there. -/
def closeParen (opened : Nat) : Parser Unit := do
  if ← eat (.symbol .rightParen) then return () else failAt opened .unbalanced

/-! ## Names -/

/-- The name that a token is read as: a quoted name, or a word that is no stop word. -/
def nameOf? : Lexeme → Option String
  | .quoted n => some n
  | .word w => if isStopWord w then none else some w
  | _ => none

/-- A name, or stop with what it is expected for. -/
def name (what : String) : Parser String := do
  match nameOf? (← peek).lexeme with
  | some n =>
    skip
    return n
  | none => unexpected what

/-- `AS alias`, or an alias without AS, or nothing. -/
def optionalAlias : Parser (Option String) := do
  if ← eatKeyword "as" then
    return some (← name "alias after AS")
  else
    match nameOf? (← peek).lexeme with
    | some n =>
      skip
      return some n
    | none => return none

/-! ## Loops -/

/-- The items after the first of a list with commas. -/
def commaTail (item : Parser α) : Nat → Parser (List α)
  | 0 => return []
  | n + 1 => do
    if ← eat (.symbol .comma) then
      let a ← item
      return a :: (← commaTail item n)
    else return []

/-- One or more items with commas between them. -/
def commaList (item : Parser α) : Parser (List α) := do
  let a ← item
  return a :: (← commaTail item (← remaining))

/-- Names in parentheses. -/
def nameList (what : String) : Parser (List String) := do
  expect (.symbol .leftParen) "'('"
  let names ← commaList (name what)
  expect (.symbol .rightParen) "')'"
  return names

/-- The operators and operands after the first operand; they group to the left. -/
def chainTail (operator : Lexeme → Option BinaryOp) (operand : Parser Expr) :
    Nat → Expr → Parser Expr
  | 0, left => return left
  | n + 1, left => do
    match operator (← peek).lexeme with
    | none => return left
    | some op =>
      skip
      let right ← operand
      chainTail operator operand n (.binary left op right)

/-- Operands with operators of one strength between them. -/
def chain (operator : Lexeme → Option BinaryOp) (operand : Parser Expr) : Parser Expr := do
  let left ← operand
  chainTail operator operand (← remaining) left

/-! ## Nesting -/

/-- The parsers for what stands one level further in. To call one of them is to open a level: the
depth goes up by one in front of the first token that it reads, and down by one behind the last. -/
structure Inner where
  /-- The level of an expression, from its first operand to its last. -/
  expr : Parser Expr
  /-- The level of a statement, from WITH or the body to the end of the body. -/
  statement : Parser Statement
  /-- The level of the operand of NOT, which opens behind NOT. Each further NOT opens another. -/
  negated : Parser Expr
  /-- The level of the operand of a sign, which opens behind the sign. Each further sign opens
  another. -/
  signed : Parser Expr

/-- Nothing may stand further in. -/
def Inner.tooDeep : Inner where
  expr := failHere .tooDeep
  statement := failHere .tooDeep
  negated := failHere .tooDeep
  signed := failHere .tooDeep

end Parser

end Sql
