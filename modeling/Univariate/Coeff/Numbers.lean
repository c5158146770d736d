import Univariate.Coeff.Basic

/-! Integers of any size, rational numbers in lowest terms and signed bytes as coefficients. Only a
quotient can fail among them. -/
namespace Univariate

instance : Coeff Int where
  zero := 0
  one := 1
  add a b := .ok (a + b)
  sub a b := .ok (a - b)
  mul a b := .ok (a * b)
  neg a := .ok (-a)

/-- The quotient of two integers; a negative denominator gives its sign to the numerator. -/
def ratio (num den : Int) : Except Fault Rat :=
  if den = 0 then .error .zeroDenominator else .ok (Rat.divInt num den)

instance : Coeff Rat where
  zero := 0
  one := 1
  add a b := .ok (a + b)
  sub a b := .ok (a - b)
  mul a b := .ok (a * b)
  neg a := .ok (-a)

/-- Division of rational numbers fails at zero alone. -/
def Rational.div (a b : Rat) : Except Fault Rat :=
  if b = 0 then .error .zeroDivisor else .ok (a / b)

instance : CoeffDiv Rat where
  div := Rational.div
  inverse? a := if a = 0 then .ok none else do
    let b ← Rational.div 1 a
    return some b

/-- Bytes wrap modulo `2 ^ 8`, so they have divisors of zero. -/
instance : Coeff Int8 where
  zero := 0
  one := 1
  add a b := .ok (a + b)
  sub a b := .ok (a - b)
  mul a b := .ok (a * b)
  neg a := .ok (-a)

/-- The signed byte equal to `n`, when there is one. -/
def signedByte? (n : Int) : Option Int8 :=
  if -128 ≤ n ∧ n < 128 then some (.ofInt n) else none

end Univariate
