import Sql.Statement.Walk

/-!
# Parameters of a statement

The named parameters in printed order, each with its first value and the number of its mentions.
Anonymous parameters are only counted.
-/

namespace Sql

/-- A named parameter: the first value that a mention of it is bound to, and its mentions. -/
structure ParamUse where
  name : String
  value : Option Value
  occurrences : Nat

/-- The parameter that an expression is. -/
def Expr.param? : Expr → Option Param
  | .param p => some p
  | _ => none

/-- Every mention of a parameter, in printed order. -/
def Statement.params (s : Statement) : List Param := s.nodesInOrder.filterMap Expr.param?

/-- Add a mention of a name. -/
def addUse (name : String) (value : Option Value) : List ParamUse → List ParamUse
  | [] => [⟨name, value, 1⟩]
  | u :: rest =>
    if u.name = name then ⟨u.name, u.value.or value, u.occurrences + 1⟩ :: rest
    else u :: addUse name value rest

/-- Add a mention of a parameter, if it has a name. -/
def addParam (uses : List ParamUse) (p : Param) : List ParamUse :=
  match p.name with
  | some name => addUse name p.value uses
  | none => uses

/-- The named parameters in the order of first mention. -/
def Statement.paramUses (s : Statement) : List ParamUse := s.params.foldl addParam []

/-- The number of anonymous parameters. -/
def Statement.anonymousCount (s : Statement) : Nat := s.params.countP fun p => p.name.isNone

end Sql
