import Univariate.Coeff.Basic

/-! Powers and integer multiples, both by repeated doubling. -/
namespace Univariate

/-- Combines `n` copies of `base` onto `acc`, one binary digit of `n` after another from the lowest.
`base` is doubled between two digits and not after the last, so no double is formed in vain. -/
def repeated {A : Type} (op : A → A → Except Fault A) (acc base : A) (n : Nat) :
    Except Fault A :=
  if n = 0 then .ok acc else do
    let acc ← if n % 2 = 1 then op acc base else .ok acc
    if n / 2 = 0 then .ok acc else do
      let base ← op base base
      repeated op acc base (n / 2)
termination_by n

namespace Coeff

variable {R : Type} [Coeff R]

/-- The product of `n` copies of `a`. -/
def pow (a : R) (n : Nat) : Except Fault R := repeated mul one a n

/-- The sum of `n` copies of `a`; a negative `n` negates the sum for its absolute value. -/
def multiple (a : R) (n : Int) : Except Fault R := do
  let sum ← repeated add zero a n.natAbs
  if n < 0 then neg sum else return sum

end Coeff

end Univariate
