import Univariate.Fault

/-! What a coefficient type supplies, and the comparisons that follow from it. -/
namespace Univariate

/-- Ring operations on `R`. Each may fail, because a bounded type cannot hold every result. -/
class Coeff (R : Type) where
  zero : R
  one : R
  add : R → R → Except Fault R
  sub : R → R → Except Fault R
  mul : R → R → Except Fault R
  neg : R → Except Fault R

/-- Division of coefficients. `inverse?` is empty at zero, where `div` fails. -/
class CoeffDiv (R : Type) [Coeff R] where
  div : R → R → Except Fault R
  inverse? : R → Except Fault (Option R)

namespace Coeff

variable {R : Type} [Coeff R]

/-- The quotient, or nothing when the divisor is zero. -/
def div? [DecidableEq R] [CoeffDiv R] (a b : R) : Except Fault (Option R) :=
  if b = zero then .ok none else do
    let c ← CoeffDiv.div a b
    return some c

variable [LT R] [DecidableLT R]

def isPositive (a : R) : Bool := decide (zero < a)

def isNegative (a : R) : Bool := decide (a < zero)

/-- The distance from zero, which the negation of the least value of a bounded type may miss. -/
def abs (a : R) : Except Fault R :=
  if a < zero then neg a else .ok a

def order [DecidableEq R] (a b : R) : Ordering := compareOfLessAndEq a b

def sign [DecidableEq R] (a : R) : Ordering := order a zero

end Coeff

end Univariate
