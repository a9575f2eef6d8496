import Sql.Statement
import Sql.Error

/-!
# Taking one page

A page is a LIMIT and an OFFSET whose values are bound to parameters of fixed names. Pages count
from 1; a number of rows to skip that does not fit in 64 bits is the greatest that does.
-/

namespace Sql

/-- A page by number and size. -/
structure PageSpec where
  page : Nat
  size : Nat
deriving DecidableEq, Repr

namespace PageSpec

/-- The number of rows before the page. -/
def offset (p : PageSpec) : Nat := min ((p.page - 1) * p.size) maxWord

/-- A count: a whole number without sign that fits in 64 bits. -/
def countOfJson : Value → Option Nat
  | .number (.whole (.ofNat n)) => if n ≤ maxWord then some n else none
  | _ => none

/-- The page of a JSON object. -/
def ofJson? : Value → Option PageSpec
  | .object ms => do
    let page ← (Value.lookup "page" ms).bind countOfJson
    let size ← (Value.lookup "pageSize" ms).bind countOfJson
    return { page, size }
  | _ => none

/-- The page as a JSON object. -/
def toJson (p : PageSpec) : Value := .object [("page", .nat p.page), ("pageSize", .nat p.size)]

end PageSpec

/-- The parameter of the page size. -/
def limitParam : String := "paging_limit"

/-- The parameter of the number of rows before the page. -/
def offsetParam : String := "paging_offset"

/-- Restrict a select to a page. -/
def Select.addPage (q : Select) (p : PageSpec) : Select :=
  { q with
    limit := some (.param (.bound limitParam (.nat p.size)))
    offset := some (.param (.bound offsetParam (.nat p.offset))) }

/-- Restrict a statement to a page, on its last select. -/
def Statement.addPage (s : Statement) (p : PageSpec) : Except Error Statement :=
  if p.page = 0 then .error (.invalidArgument "page numbers start at 1")
  else if p.size = 0 then .error (.invalidArgument "page size must be positive")
  else
    match s.body.rightmost? with
    | none =>
      .error (.invalidArgument "cannot page a set operation whose last operand is parenthesised")
    | some q =>
      if q.limit.isSome || q.offset.isSome then
        .error (.invalidArgument "statement already has LIMIT or OFFSET")
      else .ok { s with body := s.body.updateRightmost fun q => q.addPage p }

end Sql
