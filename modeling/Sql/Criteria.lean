import Sql.Dialect
import Sql.Name
import Sql.Value.Reader

/-!
# Criteria

A criteria object names columns and says what their values must be. In JSON, a bare value asks for
equality, an array for membership, an object of operators for what its operators say, and null for
nothing.
-/

namespace Sql

/-- What the value of a column must be. -/
inductive Criterion
  | equals (v : Value)
  | like (pattern : String)
  | atLeast (v : Value)
  | atMost (v : Value)
  | range (low high : Option Value)
  | oneOf (vs : List Value)
  /-- Anything. -/
  | omitted

namespace Criterion

/-- A range with one bound is a comparison, a range without bounds asks for nothing. -/
def normalized : Criterion → Criterion
  | range (some low) none => atLeast low
  | range none (some high) => atMost high
  | range none none => omitted
  | c => c

/-- The criterion asks for nothing as it stands. -/
def isOmitted : Criterion → Bool
  | omitted => true
  | _ => false

/-! ## Operator objects -/

/-- What makes an operator object unusable. -/
inductive Fault
  | noOperator
  | patternNotString
  | listNotArray
  | unknownOperator (op : String)
  | mixedRange
deriving DecidableEq, Repr

/-- The message of a fault in the criterion of a key. -/
def Fault.message (key : String) : Fault → String
  | noOperator => "criteria '" ++ key ++ "': empty operator object"
  | patternNotString => "criteria '" ++ key ++ "': like pattern must be a string"
  | listNotArray => "criteria '" ++ key ++ "': in expects an array"
  | unknownOperator op => "criteria '" ++ key ++ "': unknown operator '" ++ op ++ "'"
  | mixedRange =>
    "criteria '" ++ key ++ "': range bounds cannot be combined with other operators"

/-- The operators read so far: the bounds of a range, and one operator of another kind. -/
structure Operators where
  low : Option Value
  high : Option Value
  single : Option Criterion

/-- A bound; null is none. -/
def bound? : Value → Option Value
  | .null => none
  | v => some v

/-- Take one operator. Of several operators for one place the last counts. A null sets a bound to
none and leaves the other operators as they are. -/
def Operators.take (ops : Operators) (op : String) (v : Value) : Except Fault Operators :=
  let word := foldCase op
  if ["min", ">=", "gte"].contains word then .ok { ops with low := bound? v }
  else if ["max", "<=", "lte"].contains word then .ok { ops with high := bound? v }
  else if word = "like" then
    match v with
    | .string s => .ok { ops with single := some (like s) }
    | .null => .ok ops
    | _ => .error .patternNotString
  else if ["eq", "="].contains word then
    match v with
    | .null => .ok ops
    | v => .ok { ops with single := some (equals v) }
  else if word = "in" then
    match v with
    | .array vs => .ok { ops with single := some (oneOf vs) }
    | .null => .ok ops
    | _ => .error .listNotArray
  else .error (.unknownOperator word)

/-- The criterion of the operators. A range goes with no other operator. -/
def Operators.criterion (ops : Operators) : Except Fault Criterion :=
  match ops.single with
  | some c => if ops.low.isSome || ops.high.isSome then .error .mixedRange else .ok c
  | none => .ok (range ops.low ops.high).normalized

/-- The criterion of an operator object. -/
def ofOperators (members : List (String × Value)) : Except Fault Criterion :=
  if members.isEmpty then .error .noOperator
  else do
    let ops ← members.foldlM (fun ops (op, v) => Operators.take ops op v) ⟨none, none, none⟩
    ops.criterion

/-- The criterion that a JSON value stands for. -/
def ofJson : Value → Except Fault Criterion
  | .null => .ok omitted
  | .array vs => .ok (oneOf vs)
  | .object members => ofOperators members
  | v => .ok (equals v)

end Criterion

/-- Criteria by column name, in the order they were given. No two names are the same up to case. -/
structure Criteria where
  entries : List (String × Criterion)

namespace Criteria

/-- No criteria. -/
def empty : Criteria := ⟨[]⟩

/-- Set the criterion of a name in a list. A name that is there in any case keeps its place and
its spelling. -/
def setEntry (key : String) (c : Criterion) :
    List (String × Criterion) → List (String × Criterion)
  | [] => [(key, c)]
  | (k, d) :: rest => if sameName k key then (k, c) :: rest else (k, d) :: setEntry key c rest

/-- Set the criterion of a column. -/
def insert (cs : Criteria) (key : String) (c : Criterion) : Criteria :=
  ⟨setEntry key c cs.entries⟩

/-- The criteria that ask for something, normalized. -/
def active (cs : Criteria) : List (String × Criterion) :=
  (cs.entries.map fun (k, c) => (k, c.normalized)).filter fun (_, c) => !c.isOmitted

/-- Nothing is asked for. -/
def isEmpty (cs : Criteria) : Bool := cs.active.isEmpty

/-- The criteria of a JSON object. -/
def ofJson : Value → Except Error Criteria
  | .object members =>
    members.foldlM
      (fun cs (key, v) =>
        match Criterion.ofJson v with
        | .ok c => .ok (cs.insert key c)
        | .error f => .error (.invalidArgument (f.message key)))
      empty
  | _ => .error (.invalidArgument "criteria must be a JSON object")

/-- How many arrays and objects a JSON text may nest. -/
def maxJsonDepth : Nat := 127

/-- The criteria of a JSON text. -/
def ofText (text : String) : Except Error Criteria :=
  match Value.ofText? maxJsonDepth text with
  | some v => ofJson v
  | none => .error (.invalidArgument "criteria json")

end Criteria

end Sql
