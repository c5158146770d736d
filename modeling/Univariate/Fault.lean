/-! What can go wrong in exact arithmetic, and the wording of each case. -/
namespace Univariate

/-- Operations whose exact result may not fit a bounded type. -/
inductive Operation where
  | add
  | subtract
  | multiply
  | negate
deriving DecidableEq, Repr

/-- Causes for which a computation has no result. -/
inductive Fault where
  /-- The exact result of `operation` lies outside the type. -/
  | overflow (operation : Operation)
  /-- A rational number was given a denominator of zero. -/
  | zeroDenominator
  /-- A rational number was divided by zero. -/
  | zeroDivisor
  /-- A residue was divided by zero. -/
  | zeroResidue (modulus : UInt64)
  /-- A polynomial was divided by the zero polynomial. -/
  | zeroPolynomial
deriving DecidableEq, Repr

namespace Operation

def verb : Operation → String
  | add => "add"
  | subtract => "subtract"
  | multiply => "multiply"
  | negate => "negate"

end Operation

namespace Fault

def message : Fault → String
  | overflow operation => "attempt to " ++ operation.verb ++ " with overflow"
  | zeroDenominator => "denominator cannot be zero"
  | zeroDivisor => "Divisor or denominator must not be zero!"
  | zeroResidue modulus => "division by zero in Z_" ++ toString modulus
  | zeroPolynomial => "division by the zero polynomial"

/-- A sequence succeeds when both of its parts do. -/
theorem bind_eq_ok {A B : Type} {a : Except Fault A} {f : A → Except Fault B} {b : B} :
    (a >>= f) = .ok b ↔ ∃ c, a = .ok c ∧ f c = .ok b := by
  cases a <;> simp [bind, Except.bind]

theorem pure_eq_ok {A : Type} {a b : A} : (pure a : Except Fault A) = .ok b ↔ a = b := by
  simp [pure, Except.pure]

end Fault

end Univariate
