import Sql.Number.Double

/-!
# The shortest text of a number

A number is written with the fewest decimal digits that are nearer to it than to any other number;
of several decimals with so few digits the nearest is taken, and the even one of two that are
equally near. Both are found on a grid of multiples of a power of ten: the coarsest grid with a
multiple that reads back as the number.

The decimal point stands among the digits, or zeros fill the gap to it, when the first digit stands
for a power of ten from -5 to 15; other numbers have an exponent, which always has a sign.
-/

namespace Sql.Double

/-! ## Digits -/

/-- The step of a grid of multiples of a power of ten, and a quarter of the gap that follows a
number, both in one unit. -/
structure Grid where
  step : Nat
  quarter : Nat

/-- The grid of a power of ten, seen from a number. -/
def grid (a : Double) (power : Int) : Grid where
  step := Nat.pow 10 power.toNat * Nat.pow 2 (2 - a.exponent).toNat
  quarter := Nat.pow 10 (-power).toNat * Nat.pow 2 (a.exponent - 2).toNat

/-- The number before this one is half as far away as the number after it. -/
def isNarrowBelow (a : Double) : Bool :=
  a.significand == fullSignificand && decide (minExponent < a.exponent)

/-- A size lies between the points half way to the number before and to the number after. Those
points themselves belong to the numbers with even significands. -/
def readsBack (a : Double) (quarter size : Nat) : Bool :=
  let low := (4 * a.significand - if a.isNarrowBelow then 1 else 2) * quarter
  let high := (4 * a.significand + 2) * quarter
  if a.significand % 2 = 0 then decide (low ≤ size) && decide (size ≤ high)
  else decide (low < size) && decide (size < high)

/-- The multiple of a power of ten that reads back as the number: the nearest if there are two. -/
def multiple? (a : Double) (power : Int) : Option Nat :=
  let g := a.grid power
  let size := 4 * a.significand * g.quarter
  -- no multiple is nearer than the two around the number
  let k := size / g.step
  match a.readsBack g.quarter (k * g.step), a.readsBack g.quarter ((k + 1) * g.step) with
  | true, true => some (roundEven size g.step)
  | true, false => some k
  | false, true => some (k + 1)
  | false, false => none

/-- A natural number times a power of ten. -/
structure Decimal where
  digits : Nat
  power : Int
deriving DecidableEq, Repr

/-- The exact value of a number. Every number is a multiple of the least power of two, and so of
that power of ten. -/
def exactDecimal (a : Double) : Decimal :=
  ⟨a.significand * Nat.pow 2 (a.exponent - minExponent).toNat * Nat.pow 5 (-minExponent).toNat,
    minExponent⟩

/-- The coarsest decimal that reads back, from a power of ten downwards over so many powers. -/
def coarsest (a : Double) : Nat → Int → Decimal
  | 0, _ => a.exactDecimal
  | n + 1, power =>
    match a.multiple? power with
    | some k => ⟨k, power⟩
    | none => a.coarsest n (power - 1)

/-- The shortest decimal of a number that is not zero. The search starts above its first digit and
ends at the least power of two, where the number itself is on the grid. -/
def shortest (a : Double) : Decimal :=
  let places := (Nat.toDigits 10 (a.numerator / a.denominator)).length
  a.coarsest (places + 1 + (-minExponent).toNat) places

/-! ## Layout -/

/-- The least power of ten of a first digit that is written without an exponent. -/
def minPlain : Int := -5

/-- The greatest power of ten of a first digit that is written without an exponent. -/
def maxPlain : Int := 15

/-- Digits with a point after the first, if there are more. -/
def pointed : List Char → List Char
  | d :: e :: ds => d :: '.' :: e :: ds
  | ds => ds

/-- The exponent of ten with its sign. -/
def exponentText (e : Int) : List Char :=
  'e' :: (if e < 0 then '-' else '+') :: Nat.toDigits 10 e.natAbs

/-- The digits with their point, or with an exponent. -/
def Decimal.layout (d : Decimal) : List Char :=
  let digits := Nat.toDigits 10 d.digits
  let lead := d.power + digits.length - 1
  if lead < minPlain ∨ maxPlain < lead then pointed digits ++ exponentText lead
  else if 0 ≤ d.power then digits ++ List.replicate d.power.toNat '0' ++ ['.', '0']
  else if 0 ≤ lead then
    digits.take (lead.toNat + 1) ++ '.' :: digits.drop (lead.toNat + 1)
  else '0' :: '.' :: List.replicate (-lead - 1).toNat '0' ++ digits

/-- The shortest text that reads back as the number, with a point or an exponent. -/
def text (a : Double) : String :=
  let size := if a.isZero then ['0', '.', '0'] else a.shortest.layout
  String.ofList (if a.negative then '-' :: size else size)

end Sql.Double
