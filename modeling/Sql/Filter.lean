import Sql.Criteria
import Sql.Parser
import Sql.Statement.Walk

/-!
# Filters

Adding conditions to a select. A condition is joined to the one that is there by AND; whatever
would otherwise fall apart is put in parentheses first. A criterion becomes a predicate over a
column's expression, its values bound to parameters that are named after the criterion's key.
-/

namespace Sql

/-! ## Conjunction -/

/-- Parentheses around a disjunction. -/
def guardOr : Expr → Expr
  | .binary l .or r => .paren (.binary l .or r)
  | e => e

/-- Parentheses around a conjunction or disjunction. -/
def guardJunction : Expr → Expr
  | .binary l .or r => .paren (.binary l .or r)
  | .binary l .and r => .paren (.binary l .and r)
  | e => e

/-- The condition that holds when the existing one and the extra one hold. -/
def conjoin (existing : Option Expr) (extra : Expr) : Expr :=
  match existing with
  | none => extra
  | some e => .and (guardOr e) (guardJunction extra)

/-- Add a condition to WHERE. -/
def Select.addFilter (q : Select) (e : Expr) : Select :=
  { q with filter := some (conjoin q.filter e) }

/-- Add a condition to HAVING. -/
def Select.addHaving (q : Select) (e : Expr) : Select :=
  { q with having := some (conjoin q.having e) }

/-- Add a condition to WHERE of every select that the body combines. -/
def Statement.addFilter (s : Statement) (e : Expr) : Statement :=
  { s with body := s.body.updateLeaves fun q => q.addFilter e }

/-- Add a condition that is given as text. -/
def Statement.addFilterText (s : Statement) (text : String) : Except Error Statement :=
  (parseExpression text).map s.addFilter

/-! ## Predicates of criteria -/

/-- The name of a parameter for a criteria key. A key that is no simple name keeps its ASCII
letters and digits, and has an underscore for every other character; `p` goes before a digit, and
stands for an empty key. -/
def paramBase (key : String) : String :=
  if isSimpleName key then key
  else
    let squashed := key.toList.map fun c => if c.isAlphanum then c else '_'
    match squashed with
    | [] => "p"
    | c :: _ => if c.isDigit then String.ofList ('p' :: squashed) else String.ofList squashed

/-- A parameter bound to a value. -/
def boundParam (name : String) (v : Value) : Expr := .param (.bound name v)

/-- The lower bound of a column. -/
def lowerBound (column : Expr) (base : String) (v : Value) : Expr :=
  .binary column .gtEq (boundParam (base ++ "_min") v)

/-- The upper bound of a column. -/
def upperBound (column : Expr) (base : String) (v : Value) : Expr :=
  .binary column .ltEq (boundParam (base ++ "_max") v)

/-- The parameters of a list, numbered from the given number. -/
def listParams (base : String) : Nat → List Value → List Expr
  | _, [] => []
  | i, v :: vs => boundParam (base ++ "_in_" ++ toString i) v :: listParams base (i + 1) vs

/-- What makes a criterion no predicate. -/
inductive PredicateFault
  | emptyRange
  | emptyList
  | omitted
deriving DecidableEq, Repr

/-- The message of a fault in the criterion of a key. -/
def PredicateFault.message (key : String) : PredicateFault → String
  | emptyRange => "criteria '" ++ key ++ "' has an empty range"
  | emptyList => "criteria '" ++ key ++ "' has an empty IN list"
  | omitted => "criteria '" ++ key ++ "' is omitted"

/-- The predicate of a criterion over a column, its parameters named from a base. -/
def Criterion.predicate? (column : Expr) (base : String) : Criterion → Except PredicateFault Expr
  | equals .null => .ok (.isNull column false)
  | equals v => .ok (.binary column .eq (boundParam base v))
  | like pattern => .ok (.binary column .like (boundParam (base ++ "_like") (.string pattern)))
  | atLeast v => .ok (lowerBound column base v)
  | atMost v => .ok (upperBound column base v)
  | range (some low) (some high) =>
    .ok (.and (lowerBound column base low) (upperBound column base high))
  | range (some low) none => .ok (lowerBound column base low)
  | range none (some high) => .ok (upperBound column base high)
  | range none none => .error .emptyRange
  | oneOf [] => .error .emptyList
  | oneOf vs => .ok (.inList column (listParams base 0 vs) false)
  | omitted => .error .omitted

/-- The predicate of a key's criterion over a column. -/
def Criterion.predicate (c : Criterion) (column : Expr) (key : String) : Except Error Expr :=
  match c.predicate? column (paramBase key) with
  | .ok e => .ok e
  | .error f => .error (.invalidArgument (f.message key))

end Sql
