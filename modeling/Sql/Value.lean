import Sql.Number

/-!
# JSON values

The values that parameters are bound to. An object keeps its members in written order. Two objects
are the same value when they have the same members in any order.
-/

namespace Sql

/-- A JSON value. -/
inductive Value
  | null
  | bool (b : Bool)
  | number (n : Number)
  | string (s : String)
  | array (items : List Value)
  | object (members : List (String × Value))
deriving Inhabited

namespace Value

/-- A whole number without sign. -/
def nat (n : Nat) : Value := number (.whole n)

/-- The value of a member, by its exact key. -/
def lookup (key : String) : List (String × Value) → Option Value
  | [] => none
  | (k, v) :: rest => if k = key then some v else lookup key rest

/-- The member of an object; none for a value of another kind. -/
def get? (v : Value) (key : String) : Option Value :=
  match v with
  | object members => lookup key members
  | _ => none

/-- The text of a string. -/
def string? : Value → Option String
  | string s => some s
  | _ => none

/-- The name that stands for a constant: a string, or an object whose one member has that key and
is null. -/
def constant? : Value → Option String
  | string s => some s
  | object [(name, null)] => some name
  | _ => none

/-- What the reader makes of a member; the default when the member is missing. -/
def memberOr {α : Type} (members : List (String × Value)) (key : String) (default : α)
    (read : Value → Option α) : Option α :=
  match lookup key members with
  | Option.none => some default
  | some v => read v

mutual
/-- The same value: arrays item by item, objects member by member in any order. -/
def same : Value → Value → Bool
  | null, null => true
  | bool a, bool b => a == b
  | number a, number b => a.same b
  | string a, string b => a == b
  | array as, array bs => sameItems as bs
  | object as, object bs => as.length == bs.length && sameMembers as bs
  | _, _ => false

/-- Lists of equal length whose items are the same value in each place. -/
def sameItems : List Value → List Value → Bool
  | [], [] => true
  | a :: as, b :: bs => same a b && sameItems as bs
  | _, _ => false

/-- Every member on the left is found on the right. -/
def sameMembers : List (String × Value) → List (String × Value) → Bool
  | [], _ => true
  | (k, a) :: as, bs =>
    (match lookup k bs with
      | some b => same a b
      | none => false) && sameMembers as bs
end

/-! ## Compact text -/

/-- A digit of the hexadecimal notation, in lower case. -/
def hexDigit (n : Nat) : Char := (Nat.toDigits 16 n).getD 0 '0'

/-- A character inside a JSON string. Quotes, backslashes and control characters are escaped. -/
def escapeChar (c : Char) : List Char :=
  if c = '\x22' then ['\\', '\x22']
  else if c = '\\' then ['\\', '\\']
  else if c = '\x08' then ['\\', 'b']
  else if c = '\x0c' then ['\\', 'f']
  else if c = '\n' then ['\\', 'n']
  else if c = '\r' then ['\\', 'r']
  else if c = '\t' then ['\\', 't']
  else if c.toNat < 0x20 then
    ['\\', 'u', '0', '0', hexDigit (c.toNat / 16), hexDigit (c.toNat % 16)]
  else [c]

/-- A JSON string with its quotes. -/
def quoted (s : String) : String :=
  String.ofList ('\x22' :: s.toList.flatMap escapeChar ++ ['\x22'])

mutual
/-- The value as JSON text without blanks, members in written order. -/
def text : Value → String
  | null => "null"
  | bool true => "true"
  | bool false => "false"
  | number n => n.text
  | string s => quoted s
  | array items => "[" ++ ",".intercalate (itemTexts items) ++ "]"
  | object members => "\x7b" ++ ",".intercalate (memberTexts members) ++ "\x7d"

/-- The texts of the items. -/
def itemTexts : List Value → List String
  | [] => []
  | v :: vs => text v :: itemTexts vs

/-- The texts of the members, each key before its value. -/
def memberTexts : List (String × Value) → List String
  | [] => []
  | (k, v) :: ms => (quoted k ++ ":" ++ text v) :: memberTexts ms
end

end Value

end Sql
