import Sql.Name

/-!
# Tokens

What a text is made of once blanks and comments are gone. A word is a bare name or a keyword; which
of the two is decided by whoever reads it.
-/

namespace Sql

/-- Punctuation and operators. -/
inductive Symbol
  | leftParen | rightParen | comma | dot | semicolon
  | star | plus | minus | slash | percent
  | eq | notEq | lt | ltEq | gt | gtEq
  | concat | doubleColon | arrow | longArrow
deriving DecidableEq, Repr

/-- How a symbol is written. -/
def Symbol.text : Symbol → String
  | leftParen => "("
  | rightParen => ")"
  | comma => ","
  | dot => "."
  | semicolon => ";"
  | star => "*"
  | plus => "+"
  | minus => "-"
  | slash => "/"
  | percent => "%"
  | eq => "="
  | notEq => "<>"
  | lt => "<"
  | ltEq => "<="
  | gt => ">"
  | gtEq => ">="
  | concat => "||"
  | doubleColon => "::"
  | arrow => "->"
  | longArrow => "->>"

/-- A token without its place. -/
inductive Lexeme
  /-- A bare word. -/
  | word (w : String)
  /-- A name between quotes, without them. -/
  | quoted (n : String)
  | number (text : String)
  /-- A string between single quotes, without them. -/
  | string (s : String)
  /-- A placeholder by the character that introduces it; the question mark has no name. -/
  | param (symbol : Char) (name : Option String)
  | symbol (s : Symbol)
  /-- The end of the text. -/
  | eof
deriving DecidableEq, Repr

/-- A token and the byte offset of its first character. -/
structure Token where
  lexeme : Lexeme
  offset : Nat
deriving DecidableEq, Repr

namespace Lexeme

/-- The keyword, in any case. A quoted name is no keyword. -/
def isKeyword (kw : String) : Lexeme → Bool
  | word w => sameName w kw
  | _ => false

/-- How messages name a token. -/
def describe : Lexeme → String
  | word w => "'" ++ w ++ "'"
  | quoted n => "identifier \"" ++ n ++ "\""
  | number t => "number " ++ t
  | string _ => "string literal"
  | param c (some n) => "parameter " ++ String.singleton c ++ n
  | param _ none => "parameter ?"
  | symbol s => "'" ++ s.text ++ "'"
  | eof => "end of input"

end Lexeme

end Sql
