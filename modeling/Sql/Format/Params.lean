import Sql.Dialect
import Sql.Statement

/-!
# Parameter values handed out

Printing replaces every parameter by a placeholder and collects the values in the order of the
placeholders. Under the named style there is one value for each name, in the order of first
mention, and two different values for one name are refused; under the other styles there is one
value for each placeholder. A parameter that is not bound counts as null.
-/

namespace Sql

/-- The values that go with a printed statement. -/
inductive Params
  | named (values : List (String × Value))
  | positional (values : List Value)

namespace Params

/-- The values in order. -/
def values : Params → List Value
  | named vs => vs.map Prod.snd
  | positional vs => vs

/-- How many values there are. -/
def size (p : Params) : Nat := p.values.length

/-- There is no value. -/
def isEmpty (p : Params) : Bool := p.values.isEmpty

/-- The value of a name, spelled exactly. Values by position have no names. -/
def get? : Params → String → Option Value
  | named vs, name => Value.lookup name vs
  | positional _, _ => none

/-- An object of the named values, or an array of the positional ones. -/
def toJson : Params → Value
  | named vs => .object vs
  | positional vs => .array vs

end Params

/-- Why a tree has no text. -/
inductive FormatFault
  | anonymousParam
  | conflictingValues (name : String) (a b : Value)

/-- The message of a fault. -/
def FormatFault.message : FormatFault → String
  | anonymousParam =>
    "anonymous '?' placeholders cannot be re-parameterised; use named parameters"
  | conflictingValues name a b =>
    "parameter " ++ name ++ " is bound to conflicting values " ++ a.text ++ " and " ++ b.text

/-- The values collected so far: by name, and by position. -/
structure Collected where
  named : List (String × Option Value)
  positional : List Value

namespace Collected

/-- Nothing collected. -/
def empty : Collected := ⟨[], []⟩

/-- Note a mention of a name. The first value that is given to a name stays; another one is
refused. -/
def mention (name : String) (value : Option Value) :
    List (String × Option Value) → Except FormatFault (List (String × Option Value))
  | [] => .ok [(name, value)]
  | (n, known) :: rest =>
    if n = name then
      match known, value with
      | some a, some b =>
        if a.same b then .ok ((n, known) :: rest) else .error (.conflictingValues name a b)
      | none, some b => .ok ((n, some b) :: rest)
      | _, none => .ok ((n, known) :: rest)
    else do
      let rest ← mention name value rest
      return (n, known) :: rest

/-- The placeholder of a parameter, and the values with its own added. -/
def place (config : DialectConfig) (p : Param) (c : Collected) :
    Except FormatFault (String × Collected) :=
  match p.name with
  | none => .error .anonymousParam
  | some name =>
    match config.parameterStyle with
    | .named => do
      let named ← mention name p.value c.named
      return (config.parameterSymbol ++ name, { c with named })
    | .indexed =>
      let positional := c.positional ++ [p.value.getD .null]
      .ok (config.parameterSymbol ++ toString positional.length, { c with positional })
    | .anonymous =>
      let positional := c.positional ++ [p.value.getD .null]
      .ok (config.parameterSymbol, { c with positional })

/-- The collected values as they are handed out. -/
def toParams (config : DialectConfig) (c : Collected) : Params :=
  match config.parameterStyle with
  | .named => .named (c.named.map fun (n, v) => (n, v.getD .null))
  | _ => .positional c.positional

end Collected

end Sql
