import Mathlib.FieldTheory.Finite.Basic
import Univariate.Proofs.Coeff.Power
import Univariate.Proofs.Coeff.Residue

/-! Division of coefficients, as multiplication by a factor that depends on the divisor alone. -/
namespace Univariate

variable {R : Type} [CommRing R] [Coeff R] [CoeffDiv R]

namespace Coeff

/-- What one over `b` comes to, where there is such a quotient. -/
def reciprocal (b : R) : R := (CoeffDiv.div 1 b).toOption.getD 0

end Coeff

/-- Every division but one by zero succeeds, and multiplies by the divisor's reciprocal. The
reciprocal need not invert the divisor. -/
class ReciprocalDiv (R : Type) [CommRing R] [Coeff R] [CoeffDiv R] : Prop where
  div_eq (a : R) {b : R} (h : b ≠ 0) : CoeffDiv.div a b = .ok (a * Coeff.reciprocal b)

/-- Division in a field: the reciprocal inverts. -/
class FieldDiv (R : Type) [CommRing R] [Coeff R] [CoeffDiv R] : Prop extends ReciprocalDiv R where
  mul_reciprocal {b : R} (h : b ≠ 0) : b * Coeff.reciprocal b = 1

theorem FieldDiv.noZeroDivisors [FieldDiv R] : NoZeroDivisors R := by
  constructor
  intro a b hab
  by_cases hb : b = 0
  · exact Or.inr hb
  · left
    calc a = a * b * Coeff.reciprocal b := by rw [mul_assoc, mul_reciprocal hb, mul_one]
      _ = 0 := by rw [hab, zero_mul]

theorem FieldDiv.reciprocal_one [FieldDiv R] [Nontrivial R] : Coeff.reciprocal (1 : R) = 1 := by
  have h := mul_reciprocal (one_ne_zero (α := R))
  rwa [one_mul] at h

theorem reciprocal_eq {b c : R} (h : ∀ a : R, CoeffDiv.div a b = .ok (a * c)) :
    Coeff.reciprocal b = c := by
  rw [Coeff.reciprocal, h, one_mul]
  rfl

instance : FieldDiv Rat where
  div_eq a b h := by
    have hdiv : ∀ a : Rat, CoeffDiv.div a b = .ok (a * b⁻¹) := fun a => by
      change Rational.div a b = _
      rw [Rational.div, if_neg h, div_eq_mul_inv]
    rw [hdiv, reciprocal_eq hdiv]
  mul_reciprocal {b} h := by
    have hdiv : ∀ a : Rat, CoeffDiv.div a b = .ok (a * b⁻¹) := fun a => by
      change Rational.div a b = _
      rw [Rational.div, if_neg h, div_eq_mul_inv]
    rw [reciprocal_eq hdiv, mul_inv_cancel₀ h]

namespace Residue

variable {m : Modulus}

/-- A modulus below two leaves no residue but zero. -/
theorem two_le_modulus {a : Residue m} (h : a ≠ 0) : 2 ≤ m.word.toNat := by
  have ha : a.value.toNat ≠ 0 := by
    intro hzero
    apply h
    apply toZMod_injective
    rw [toZMod, hzero, Nat.cast_zero]
    exact toZMod_zero.symm
  have := a.isLt
  omega

/-- The exponent of the inverse does not underflow at a residue that is not zero. -/
theorem inverse?_eq_pow {b : Residue m} (h : b ≠ 0) :
    CoeffDiv.inverse? b = .ok (some (b ^ (m.word.toNat - 2))) := by
  have htwo : (2 : UInt64) ≤ m.word := UInt64.le_iff_toNat_le.mpr (two_le_modulus h)
  have hsub : Word.sub m.word 2 = .ok (m.word - 2) := by rw [Word.sub, if_pos htwo]
  have hexp : (m.word - 2).toNat = m.word.toNat - 2 := Word.toNat_sub hsub
  have hzero : b ≠ zero m := h
  change inverse? b = _
  rw [inverse?, if_neg hzero, hsub]
  change (Coeff.pow b (m.word - 2).toNat >>= fun c => pure (some c)) = _
  rw [hexp, Coeff.pow_eq]
  rfl

theorem div_eq_mul_pow (a : Residue m) {b : Residue m} (h : b ≠ 0) :
    CoeffDiv.div a b = .ok (a * b ^ (m.word.toNat - 2)) := by
  have hinv : inverse? b = .ok (some (b ^ (m.word.toNat - 2))) := inverse?_eq_pow h
  change div a b = _
  rw [div, hinv]
  rfl

theorem reciprocal_eq_pow {b : Residue m} (h : b ≠ 0) :
    Coeff.reciprocal b = b ^ (m.word.toNat - 2) := reciprocal_eq fun a => div_eq_mul_pow a h

theorem nontrivial (h : 2 ≤ m.word.toNat) : Nontrivial (Residue m) := by
  refine ⟨0, 1, fun heq => ?_⟩
  have hvalue : (zero m).value.toNat = (one m).value.toNat :=
    congrArg (fun a : Residue m => a.value.toNat) heq
  rw [zero, one, toNat_value_ofNat, toNat_value_ofNat, Nat.zero_mod, Nat.mod_eq_of_lt h] at hvalue
  cases hvalue

theorem reciprocal_one [Nontrivial (Residue m)] : Coeff.reciprocal (1 : Residue m) = 1 := by
  rw [reciprocal_eq_pow one_ne_zero, one_pow]

instance : ReciprocalDiv (Residue m) where
  div_eq a b h := by rw [div_eq_mul_pow a h, reciprocal_eq_pow h]

/-- Modulo a prime the power is the inverse, by Fermat's little theorem. -/
instance [hp : Fact m.word.toNat.Prime] : FieldDiv (Residue m) where
  mul_reciprocal {b} h := by
    have hz : toZModHom m b ≠ 0 := fun hz => h (toZMod_injective (hz.trans toZMod_zero.symm))
    have hexp : m.word.toNat - 2 + 1 = m.word.toNat - 1 := by
      have := hp.out.two_le
      omega
    rw [reciprocal_eq_pow h, ← pow_succ', hexp]
    apply toZMod_injective
    change toZModHom m (b ^ (m.word.toNat - 1)) = toZModHom m 1
    rw [map_pow, ZMod.pow_card_sub_one_eq_one hz, map_one]

end Residue

end Univariate
