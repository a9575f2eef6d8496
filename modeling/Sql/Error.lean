/-!
# Errors

Everything that the library refuses is one of nine kinds of error. Each kind has a stable code, a
five-character SQLSTATE and a message.
-/

namespace Sql

/-- A place in a text: the offset in bytes, and the line and column in characters, both from 1. -/
structure Position where
  offset : Nat
  line : Nat
  column : Nat
deriving DecidableEq, Repr

/-- Count lines and columns over the characters that start within the first `budget` bytes. -/
def lineColumnFrom (line column : Nat) : Nat → List Char → Nat × Nat
  | _, [] => (line, column)
  | budget, c :: cs =>
    if budget = 0 then (line, column)
    else if c = '\n' then lineColumnFrom (line + 1) 1 (budget - c.utf8Size) cs
    else lineColumnFrom line (column + 1) (budget - c.utf8Size) cs

/-- Line and column of a byte offset. Only a line feed ends a line; an offset past the end stands
at the end. -/
def lineColumn (text : String) (offset : Nat) : Nat × Nat :=
  lineColumnFrom 1 1 offset text.toList

/-- The place of a byte offset in a text. -/
def Position.inText (text : String) (offset : Nat) : Position :=
  let (line, column) := lineColumn text offset
  ⟨offset, line, column⟩

/-- Why an operation is refused. -/
inductive Error
  /-- The text is no statement or expression. -/
  | malformed (place : Position) (message : String)
  /-- Columns that no source of the scope supplies. -/
  | unresolvedColumns (columns : List String) (scope : String)
  /-- A table that cannot be joined on the columns. -/
  | unresolvedJoin (table : String) (columns : List String) (reason : String)
  /-- A document mapping that cannot be applied. -/
  | mapping (message : String)
  /-- A tree or dialect that cannot be printed. -/
  | format (message : String)
  /-- Two statements that define a CTE of the same name. -/
  | duplicateCte (name : String)
  /-- A parameter that does not occur. -/
  | unknownParameter (name : String)
  /-- A request that is refused as such. -/
  | invalidArgument (message : String)
  /-- The schema could not be asked. -/
  | lookup (table : String) (message : String)
deriving DecidableEq, Repr

namespace Error

/-- The stable code of the kind. -/
def code : Error → String
  | malformed .. => "syntax_error"
  | unresolvedColumns .. => "column_resolution"
  | unresolvedJoin .. => "join_resolution"
  | mapping _ => "mapping_error"
  | format _ => "format_error"
  | duplicateCte _ => "duplicate_cte"
  | unknownParameter _ => "unknown_parameter"
  | invalidArgument _ => "invalid_argument"
  | lookup .. => "lookup_error"

/-- The SQLSTATE of the kind. -/
def sqlstate : Error → String
  | malformed .. => "42601"
  | unresolvedColumns .. => "42703"
  | unresolvedJoin .. => "42702"
  | mapping _ => "22023"
  | format _ => "0A000"
  | duplicateCte _ => "42712"
  | unknownParameter _ => "42P02"
  | invalidArgument _ => "22023"
  | lookup .. => "58000"

/-- The columns that the error is about. -/
def columns : Error → List String
  | unresolvedColumns columns _ => columns
  | unresolvedJoin _ columns _ => columns
  | _ => []

/-- The full message. -/
def message : Error → String
  | malformed place message =>
    "syntax error at line " ++ toString place.line ++ ", column " ++ toString place.column ++ ": "
      ++ message
  | unresolvedColumns columns scope =>
    "cannot resolve column(s) " ++ ", ".intercalate columns ++ " in " ++ scope
  | unresolvedJoin table columns reason =>
    "cannot join " ++ table ++ ": " ++ reason ++ " (" ++ ", ".intercalate columns ++ ")"
  | mapping message => "invalid json mapping: " ++ message
  | format message => "format error: " ++ message
  | duplicateCte name => "duplicate CTE name: " ++ name
  | unknownParameter name => "unknown parameter: " ++ name
  | invalidArgument message => "invalid argument: " ++ message
  | lookup table message => "schema lookup for " ++ table ++ " failed: " ++ message

/-- An error at a byte offset of a text. -/
def inText (text : String) (offset : Nat) (message : String) : Error :=
  malformed (Position.inText text offset) message

end Error

end Sql
