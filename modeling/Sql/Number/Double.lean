/-!
# Binary numbers of 64 bits

A `Double` is a finite floating-point number of 64 bits, kept as the exact value that it stands
for: a sign, a significand below 2^53 and a power of two. A result is computed exactly, as a
fraction of naturals, and then rounded once: to the nearest number, and to the even significand
when two are equally near.

* `roundEven` is within half a unit of the exact quotient (`roundEven_near`), and even when both
  neighbours are that near (`roundEven_tie`).
* `ofDecimal?` reads a decimal. It rounds the significand and the power of ten before it multiplies
  or divides them, so its result may be a neighbour of the nearest number.
-/

namespace Sql

/-! ## Rounding a quotient -/

/-- The natural number nearest to a quotient; of two that are equally near, the even one. -/
def roundEven (num den : Nat) : Nat :=
  if 2 * (num % den) < den ∨ 2 * (num % den) = den ∧ num / den % 2 = 0 then num / den
  else num / den + 1

/-- The rounded quotient is within half a unit of the exact one. -/
theorem roundEven_near {num den : Nat} (h : 0 < den) :
    2 * num ≤ 2 * (roundEven num den * den) + den
      ∧ 2 * (roundEven num den * den) ≤ 2 * num + den := by
  have hsum : den * (num / den) + num % den = num := Nat.div_add_mod num den
  have hlt : num % den < den := Nat.mod_lt _ h
  have hcomm : num / den * den = den * (num / den) := Nat.mul_comm ..
  unfold roundEven
  split
  · next hr =>
    -- rounded down: the remainder is at most half of the divisor
    omega
  · next hr =>
    have hsucc : (num / den + 1) * den = den * (num / den) + den := by
      rw [Nat.succ_mul, Nat.mul_comm]
    omega

/-- Half way between two numbers the even one is taken. -/
theorem roundEven_tie {num den : Nat} (h : 2 * (num % den) = den) : roundEven num den % 2 = 0 := by
  unfold roundEven
  split
  · next hr => omega
  · next hr => omega

/-! ## The numbers -/

/-- A finite number: the significand times two to the exponent, negated or not. -/
structure Double where
  negative : Bool
  significand : Nat
  exponent : Int
deriving DecidableEq, Repr

namespace Double

/-- The least exponent, that of the numbers near zero. -/
def minExponent : Int := -1074

/-- The exponent of the greatest numbers. -/
def maxExponent : Int := 971

/-- Every significand is below this. -/
def significandLimit : Nat := Nat.pow 2 53

/-- The least significand with all its bits; only at the least exponent there are lesser ones. -/
def fullSignificand : Nat := Nat.pow 2 52

/-- One of the two zeros. -/
def zero (negative : Bool) : Double := ⟨negative, 0, minExponent⟩

/-- The number is one of the two zeros. -/
def isZero (a : Double) : Bool := a.significand == 0

/-- Equal as numbers: the two zeros are one number. -/
def same (a b : Double) : Bool := a == b || a.isZero && b.isZero

/-- The size of a number is this over `denominator`. -/
def numerator (a : Double) : Nat := a.significand * Nat.pow 2 a.exponent.toNat

/-- The size of a number is `numerator` over this. -/
def denominator (a : Double) : Nat := Nat.pow 2 (-a.exponent).toNat

/-! ## Rounding to a number -/

/-- A fraction divided by a power of two. -/
def inUnits (num den : Nat) (e : Int) : Nat × Nat :=
  (num * Nat.pow 2 (-e).toNat, den * Nat.pow 2 e.toNat)

/-- The exponent that gives a fraction a significand of 53 bits, or the least exponent if that is
greater. -/
def fittingExponent (num den : Nat) : Int :=
  -- in units of this power the integral part has 53 or 54 bits
  let e := (num.log2 : Int) - den.log2 - 53
  let (n, d) := inUnits num den e
  max minExponent (if n / d < significandLimit then e else e + 1)

/-- The number nearest to a fraction of that sign; none if it is too great. -/
def ofFraction? (negative : Bool) (num den : Nat) : Option Double :=
  if num = 0 then some (zero negative)
  else
    let e := fittingExponent num den
    let (n, d) := inUnits num den e
    let m := roundEven n d
    -- rounding up may take one bit more
    let (m, e) := if m = significandLimit then (fullSignificand, e + 1) else (m, e)
    if e ≤ maxExponent then some ⟨negative, m, e⟩ else none

/-- The product, rounded; none if it is too great. -/
def mul? (a b : Double) : Option Double :=
  ofFraction? (a.negative != b.negative) (a.numerator * b.numerator)
    (a.denominator * b.denominator)

/-- The quotient by a number that is not zero, rounded; none if it is too great. -/
def div? (a b : Double) : Option Double :=
  ofFraction? (a.negative != b.negative) (a.numerator * b.denominator)
    (a.denominator * b.numerator)

/-! ## Decimals -/

/-- The greatest power of ten that is in range. -/
def maxPower : Nat := 308

/-- A power of ten, rounded; none if it is out of range. -/
def powerOfTen? (k : Nat) : Option Double :=
  if k ≤ maxPower then ofFraction? false (Nat.pow 10 k) 1 else none

/-- A number times a power of ten; none if it is too great. -/
def scaleUp? (a : Double) (k : Nat) : Option Double :=
  if a.isZero then some a else do a.mul? (← powerOfTen? k)

/-- A number divided by a power of ten, by the greatest in range as long as more is left. -/
def scaleDown? (a : Double) (k : Nat) : Option Double :=
  if a.isZero then some a
  else if k ≤ maxPower then do a.div? (← powerOfTen? k)
  else do scaleDown? (← a.div? (← powerOfTen? maxPower)) (k - maxPower)
termination_by k
decreasing_by simp only [maxPower] at *; omega

/-- The number that a decimal is read as: a significand times a power of ten; none if it is too
great. -/
def ofDecimal? (negative : Bool) (significand : Nat) (power : Int) : Option Double := do
  let a ← ofFraction? negative significand 1
  match power with
  | .ofNat k => a.scaleUp? k
  | .negSucc k => a.scaleDown? (k + 1)

end Double

end Sql
