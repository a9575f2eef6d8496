import Sql.Collect.Parameters
import Sql.Error
import Sql.Statement.Visit

/-!
# Binding parameters

A value is bound to every mention of a name, wherever in the tree it stands. A name without any
mention is refused. Values for several names are bound one after the other in a copy of the tree,
which takes its place when no name was refused.
-/

namespace Sql

/-- The parameter with the value, if it has the name. -/
def Param.bindIf (name : String) (v : Value) (p : Param) : Param :=
  if p.name = some name then { p with value := some v } else p

/-- Bind the value if the expression is a parameter of that name, and count it. -/
def Expr.bindIf (name : String) (v : Value) : Expr → StateM Nat Expr
  | .param p => do
    if p.name = some name then modify (· + 1)
    return .param (p.bindIf name v)
  | e => return e

namespace Statement

/-- Bind a value to a name in place. Gives the number of mentions. -/
def setParam (s : Statement) (name : String) (v : Value) : Statement × Except Error Nat :=
  let (s, count) := (s.visitExprs (Expr.bindIf name v)).run 0
  (s, if count = 0 then .error (.unknownParameter name) else .ok count)

/-- Bind values to names in place, one after the other, up to a name that is refused. -/
def setEach (s : Statement) : List (String × Value) → Statement × Except Error Unit
  | [] => (s, .ok ())
  | (name, v) :: values =>
    match s.setParam name v with
    | (s, .ok _) => s.setEach values
    | (s, .error e) => (s, .error e)

/-- Bind values to names in place. An unknown name refuses all. -/
def setParams (s : Statement) (values : List (String × Value)) : Statement × Except Error Unit :=
  match s.setEach values with
  | (work, .ok ()) => (work, .ok ())
  | (_, .error e) => (s, .error e)

/-- The statement with a value bound to a name, and the number of mentions. -/
def bindParam (s : Statement) (name : String) (v : Value) : Except Error (Statement × Nat) :=
  let (bound, result) := s.setParam name v
  result.map fun count => (bound, count)

/-- The statement with values bound to names. -/
def bindParams (s : Statement) (values : List (String × Value)) : Except Error Statement :=
  let (bound, result) := s.setParams values
  result.map fun _ => bound

end Statement

end Sql
