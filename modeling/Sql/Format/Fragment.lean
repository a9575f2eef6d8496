import Sql.Format.Params

/-!
# Fragments of printed text

Printing has two stages. A tree becomes a list of fragments that no dialect has touched: keywords,
names, parameters, places where a line may end. A dialect then turns the fragments into text, from
the left, and collects the values of the parameters on the way.
-/

namespace Sql

/-- A piece of a printed statement. -/
inductive Fragment
  /-- Text that every dialect writes alike. -/
  | text (s : String)
  /-- A keyword, in lower case here. -/
  | keyword (word : String)
  /-- The name of a table, column, alias or CTE. -/
  | name (n : String)
  /-- The name of a function. -/
  | function (n : String)
  | param (p : Param)
  /-- A sign before its operand. -/
  | sign (s : String)
  /-- The end of a clause, at a nesting depth. -/
  | lineEnd (depth : Nat)
  /-- The inner edge of a parenthesis around a statement, at a nesting depth. -/
  | edge (depth : Nat)
  /-- Between two select items, at a nesting depth. -/
  | comma (depth : Nat)
  /-- Between two conjuncts of a condition, at a nesting depth. -/
  | conjunction (depth : Nat)

namespace Fragment

/-- The first character of the pieces is a sign. -/
def startsWithSign : List String → Bool
  | [] => false
  | s :: rest =>
    match s.toList with
    | [] => startsWithSign rest
    | c :: _ => c == '-' || c == '+'

/-- The text of a fragment other than a parameter, given the pieces of text that follow it. Two
signs are kept apart, so that they do not start a comment. -/
def plainText (config : DialectConfig) (following : List String) : Fragment → String
  | text s => s
  | keyword word => config.keyword word
  | name n => config.name n
  | function n => config.functionName n
  | param _ => ""
  | sign s => if startsWithSign following then s ++ " " else s
  | lineEnd depth => config.lineEnd depth
  | edge depth => if config.isMultiline then config.lineEnd depth else ""
  | comma depth => config.comma depth
  | conjunction depth => config.conjunction depth

/-- The pieces of text of a list of fragments, with the values of its parameters added to those
collected before. -/
def render (config : DialectConfig) :
    List Fragment → Collected → Except FormatFault (List String × Collected)
  | [], c => .ok ([], c)
  | param p :: fs, c => do
    let (s, c) ← c.place config p
    let (rest, c) ← render config fs c
    return (s :: rest, c)
  -- what follows comes first, since a sign looks at the text behind it
  | f :: fs, c => do
    let (rest, c) ← render config fs c
    return (f.plainText config rest :: rest, c)

/-- Put a separator between lists of fragments. -/
def joined (separator : List Fragment) (parts : List (List Fragment)) : List Fragment :=
  separator.intercalate parts

/-- The list in parentheses. -/
def inParens (fs : List Fragment) : List Fragment := text "(" :: fs ++ [text ")"]

/-- Names with commas between them. -/
def names (ns : List String) : List Fragment := joined [text ", "] (ns.map fun n => [name n])

/-- A qualified name. -/
def dottedName (path : List String) (n : String) : List Fragment :=
  joined [text "."] ((path ++ [n]).map fun part => [name part])

/-- An alias, when there is one. -/
def alias? : Option String → List Fragment
  | some a => [text " ", keyword "as", text " ", name a]
  | none => []

end Fragment

end Sql
