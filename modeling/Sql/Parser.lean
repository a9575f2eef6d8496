import Sql.Parser.Select
import Sql.Token.Lexer

/-!
# Reading texts

`parse` reads one statement, which may end with a semicolon; `parseExpression` reads one
expression. Statements, expressions in parentheses or lists, and the operands of NOT and of signs
may stand at most `maxNesting` levels deep in one another. The bound is what the parsers recurse
on: `Inner.within n` are the parsers for the next `n` levels.
-/

namespace Sql

namespace Parser

/-- The number of levels that may be nested. -/
def maxNesting : Nat := 64

/-- The parsers for what stands one level further in, when so many levels are left. Each of the four
opens a level of its own: it is refused where none is left, which is where the depth would pass
`maxNesting`, and what it reads has one level less. Behind it the caller goes on with as many levels
as before, so the depth is down again. -/
def Inner.within : Nat → Inner
  | 0 => .tooDeep
  | n + 1 =>
    let inner := within n
    { expr := orExpr inner
      statement := Parser.statement inner
      negated := notExpr inner
      signed := signExpr inner }

/-- Nothing but the end may follow. -/
def atEnd (after : String) : Parser Unit := do
  let t ← peek
  match t.lexeme with
  | .eof => return ()
  | .symbol .rightParen => failAt t.offset .unbalanced
  | l => failAt t.offset (.trailing after l)

/-- A statement, an optional semicolon, and the end. -/
def wholeStatement : Parser Statement := do
  if ← isNext .eof then failAt 0 .emptyStatement
  else
    let s ← (Inner.within maxNesting).statement
    discard (eat (.symbol .semicolon))
    atEnd "end of statement"
    return s

/-- An expression and the end. -/
def wholeExpr : Parser Expr := do
  if ← isNext .eof then failAt 0 .emptyExpression
  else
    let e ← (Inner.within maxNesting).expr
    atEnd "expression"
    return e

/-- Run a parser on the tokens of a text; a fault is placed by line and column. -/
def runText {α : Type} (p : Parser α) (text : String) : Except Error α := do
  let ts ← tokenize text
  match p.run ts with
  | .ok (a, _) => return a
  | .error e => throw (Error.inText text e.offset e.fault.message)

end Parser

/-- The statement that a text is. -/
def parse (text : String) : Except Error Statement := Parser.wholeStatement.runText text

/-- The expression that a text is. -/
def parseExpression (text : String) : Except Error Expr := Parser.wholeExpr.runText text

end Sql
