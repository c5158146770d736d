import Mathlib.Algebra.Ring.Rat
import Mathlib.Algebra.Ring.InjSurj
import Univariate.Coeff.Numbers

/-! Coefficient types whose arithmetic never fails and obeys the laws of a commutative ring, and
what zero does in arithmetic that may fail elsewhere. -/
namespace Univariate

/-- Every operation succeeds, with the result that the ring gives. Nothing is said of divisors of
zero, of the characteristic, or of whether one differs from zero. -/
class ExactCoeff (R : Type) [CommRing R] [Coeff R] : Prop where
  zero_eq : (Coeff.zero : R) = 0
  one_eq : (Coeff.one : R) = 1
  add_eq (a b : R) : Coeff.add a b = .ok (a + b)
  sub_eq (a b : R) : Coeff.sub a b = .ok (a - b)
  mul_eq (a b : R) : Coeff.mul a b = .ok (a * b)
  neg_eq (a : R) : Coeff.neg a = .ok (-a)

attribute [simp] ExactCoeff.zero_eq ExactCoeff.one_eq ExactCoeff.add_eq ExactCoeff.sub_eq
  ExactCoeff.mul_eq ExactCoeff.neg_eq

instance : ExactCoeff Int where
  zero_eq := rfl
  one_eq := rfl
  add_eq _ _ := rfl
  sub_eq _ _ := rfl
  mul_eq _ _ := rfl
  neg_eq _ := rfl

instance : ExactCoeff Rat where
  zero_eq := rfl
  one_eq := rfl
  add_eq _ _ := rfl
  sub_eq _ _ := rfl
  mul_eq _ _ := rfl
  neg_eq _ := rfl

/-- Signed bytes wrap, so they are the integers modulo `2 ^ 8`. -/
instance commRingInt8 : CommRing Int8 where
  add_assoc := Int8.add_assoc
  zero_add := Int8.zero_add
  add_zero := Int8.add_zero
  add_comm := Int8.add_comm
  neg_add_cancel := Int8.add_left_neg
  sub_eq_add_neg := Int8.sub_eq_add_neg
  mul_assoc := Int8.mul_assoc
  mul_comm := Int8.mul_comm
  one_mul := Int8.one_mul
  mul_one := Int8.mul_one
  zero_mul _ := Int8.zero_mul
  mul_zero _ := Int8.mul_zero
  left_distrib _ _ _ := Int8.mul_add
  right_distrib _ _ _ := Int8.add_mul
  nsmul := nsmulRec
  zsmul := zsmulRec

instance : ExactCoeff Int8 where
  zero_eq := rfl
  one_eq := rfl
  add_eq _ _ := rfl
  sub_eq _ _ := rfl
  mul_eq _ _ := rfl
  neg_eq _ := rfl

/-- Operations on zero succeed, with the results of a ring, and nothing else has zero for its
negation. Machine integers obey this as well as exact coefficients. -/
class ZeroLaws (R : Type) [Coeff R] : Prop where
  zero_add (a : R) : Coeff.add Coeff.zero a = .ok a
  add_zero (a : R) : Coeff.add a Coeff.zero = .ok a
  zero_mul (a : R) : Coeff.mul Coeff.zero a = .ok Coeff.zero
  mul_zero (a : R) : Coeff.mul a Coeff.zero = .ok Coeff.zero
  neg_eq_zero_iff (a : R) : Coeff.neg a = .ok Coeff.zero ↔ a = Coeff.zero

instance {R : Type} [CommRing R] [Coeff R] [ExactCoeff R] : ZeroLaws R where
  zero_add := by simp
  add_zero := by simp
  zero_mul := by simp
  mul_zero := by simp
  neg_eq_zero_iff := by simp

/-- `n` is the largest place at which `f` is not zero. -/
def IsTop {R : Type} [Coeff R] (f : ℕ → R) (n : ℕ) : Prop :=
  f n ≠ Coeff.zero ∧ ∀ m, n < m → f m = Coeff.zero

end Univariate
