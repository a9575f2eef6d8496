import Sql.Number.Shortest

/-!
# Numbers of JSON texts

A number is whole when it is written without point and exponent and fits in 64 bits, with or
without sign; every other number is binary. The two kinds are never equal: `1` is not `1.0`. Minus
zero is binary, since no whole number stands for it.
-/

namespace Sql

/-- The greatest whole number of 64 bits. -/
def maxWord : Nat := Nat.pow 2 64 - 1

/-- A number of a JSON text. -/
inductive Number
  | whole (n : Int)
  | double (d : Double)
deriving DecidableEq, Repr

namespace Number

/-- Equal as numbers of one kind. -/
def same : Number → Number → Bool
  | whole m, whole n => m == n
  | double a, double b => a.same b
  | _, _ => false

/-- A whole number in digits. -/
def wholeText (n : Int) : String :=
  String.ofList ((if n < 0 then ['-'] else []) ++ Nat.toDigits 10 n.natAbs)

/-- The text that a number is written as. -/
def text : Number → String
  | whole n => wholeText n
  | double d => d.text

/-- Put digits behind a number as long as it fits in 64 bits, and hand back the digits that are
left. -/
def takeDigits : Nat → List Char → Nat × List Char
  | n, [] => (n, [])
  | n, d :: ds =>
    let m := 10 * n + (d.toNat - '0'.toNat)
    if m ≤ maxWord then takeDigits m ds else (n, d :: ds)

/-- The whole number of that sign and size, if it is one. -/
def ofSize? (negative : Bool) (n : Nat) : Option Number :=
  if negative then
    if 0 < n ∧ n ≤ Nat.pow 2 63 then some (whole (-n)) else none
  else some (whole n)

/-- The number of digits before the point, digits after it, and an exponent; none if it is too
great. Digits that do not fit in 64 bits any more are not counted, only their places are. -/
def ofDigits? (negative : Bool) (digits fraction : List Char) (exponent : Option Int) :
    Option Number :=
  let (n, left) := takeDigits 0 digits
  let (m, left') := takeDigits n fraction
  let power := left.length + left'.length - fraction.length + exponent.getD 0
  let real := (Double.ofDecimal? negative m power).map double
  if left.isEmpty && fraction.isEmpty && exponent.isNone then ofSize? negative n <|> real
  else real

end Number

end Sql
