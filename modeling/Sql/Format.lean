import Sql.Format.Printer

/-!
# Printing

`Statement.format` prints a statement for a dialect and hands out the values of its parameters;
`Expr.format` prints one expression. A dialect with a fault prints nothing.
-/

namespace Sql

/-- A printed statement and the values of its placeholders. -/
structure Formatted where
  sql : String
  params : Params

/-- The text of fragments and the values of their parameters. -/
def formatFragments (config : DialectConfig) (fs : List Fragment) : Except Error Formatted :=
  match config.validate with
  | .error e => .error e
  | .ok () =>
    match Fragment.render config fs .empty with
    | .ok (pieces, collected) => .ok ⟨String.join pieces, collected.toParams config⟩
    | .error f => .error (.format f.message)

/-- Print a statement for a dialect. -/
def Statement.format (s : Statement) (config : DialectConfig) : Except Error Formatted :=
  formatFragments config (s.fragments 0)

/-- Print an expression for a dialect; the values of its parameters are left out. -/
def Expr.format (e : Expr) (config : DialectConfig) : Except Error String :=
  (formatFragments config (e.fragments 0 false)).map Formatted.sql

end Sql
