import Mathlib.Tactic.NormNum.Prime
import Univariate.Proofs.Coeff.Reciprocal

/-! Inverses and quotients of residues. Every modulus has a power in the place of the inverse, and
the power inverts where the modulus is prime. -/
namespace Univariate

namespace FieldDiv

variable {R : Type} [CommRing R] [Coeff R] [CoeffDiv R] [FieldDiv R] {b : R}

theorem div_mul_cancel (a : R) (h : b ≠ 0) : Returns (CoeffDiv.div a b) (· * b = a) := by
  rw [ReciprocalDiv.div_eq a h]
  apply Returns.ok
  calc a * Coeff.reciprocal b * b = a * (b * Coeff.reciprocal b) := by ring
    _ = a := by rw [mul_reciprocal h, mul_one]

theorem mul_div_cancel (a : R) (h : b ≠ 0) : CoeffDiv.div (a * b) b = .ok a := by
  have hcancel : a * b * Coeff.reciprocal b = a := by
    rw [mul_assoc, mul_reciprocal h, mul_one]
  rw [ReciprocalDiv.div_eq _ h, hcancel]

end FieldDiv

namespace Residue

variable {m : Modulus}

/-- A power of a residue is the remainder of the power of its word. -/
theorem toNat_value_pow (a : Residue m) (n : ℕ) :
    (a ^ n).value.toNat = a.value.toNat ^ n % m.word.toNat := by
  have hpow : a ^ n = ofNat m (a.value.toNat ^ n) := by
    apply toZMod_injective
    rw [toZMod_ofNat, Nat.cast_pow]
    exact map_pow (toZModHom m) a n
  rw [hpow, toNat_value_ofNat]

theorem inverse?_zero : CoeffDiv.inverse? (Coeff.zero : Residue m) = .ok none := by
  change inverse? (zero m) = _
  rw [inverse?, if_pos rfl]

/-- What the power comes to, multiplied by the residue once more. -/
theorem mul_pow_sub_two {a : Residue m} (h : a ≠ 0) :
    a * a ^ (m.word.toNat - 2) = a ^ (m.word.toNat - 1) := by
  have htwo := two_le_modulus h
  have hexp : m.word.toNat - 2 + 1 = m.word.toNat - 1 := by omega
  rw [← pow_succ', hexp]

theorem div_zero (a : Residue m) :
    CoeffDiv.div a (Coeff.zero : Residue m) = .error (.zeroResidue m.word) := by
  have hinv : inverse? (Coeff.zero : Residue m) = .ok none := inverse?_zero
  change div a Coeff.zero = _
  rw [div, hinv]
  rfl

/-- Inverses and quotients modulo any number, prime or not. The exponent of the power does not fall
below zero, because a residue other than zero tells that the modulus is no less than two. -/
structure DividesByPower (m : Modulus) : Prop where
  inverse_zero : CoeffDiv.inverse? (Coeff.zero : Residue m) = .ok none
  inverse_of_ne {a : Residue m} : a ≠ Coeff.zero → 2 ≤ m.word.toNat ∧ ∃ i : Residue m,
    CoeffDiv.inverse? a = .ok (some i) ∧ Coeff.pow a (m.word.toNat - 2) = .ok i ∧
      i.value.toNat = a.value.toNat ^ (m.word.toNat - 2) % m.word.toNat ∧
        Coeff.mul a i = Coeff.pow a (m.word.toNat - 1)
  quotient (a b : Residue m) :
    FailsIff (.zeroResidue m.word) (b = Coeff.zero) (CoeffDiv.div a b)

theorem dividesByPower (m : Modulus) : DividesByPower m where
  inverse_zero := inverse?_zero
  inverse_of_ne {a} ha := by
    refine ⟨two_le_modulus ha, a ^ (m.word.toNat - 2), inverse?_eq_pow ha, Coeff.pow_eq a _,
      toNat_value_pow a _, ?_⟩
    rw [ExactCoeff.mul_eq, mul_pow_sub_two ha, Coeff.pow_eq]
  quotient a b := by
    constructor
    · rintro rfl
      exact div_zero a
    · intro hb
      exact ⟨_, div_eq_mul_pow a hb⟩

/-- Inverses and quotients in a field: none by zero, and one alone by any other. -/
structure DividesExactly (m : Modulus) : Prop where
  inverse_eq_none_iff (a : Residue m) : CoeffDiv.inverse? a = .ok none ↔ a = Coeff.zero
  inverse_of_ne {a : Residue m} : a ≠ Coeff.zero → ∃ i : Residue m,
    CoeffDiv.inverse? a = .ok (some i) ∧ Coeff.mul a i = .ok Coeff.one ∧
      ∀ j, Coeff.mul a j = .ok Coeff.one → j = i
  quotient_eq_none_iff (a b : Residue m) : Coeff.div? a b = .ok none ↔ b = Coeff.zero
  quotient_of_ne (a : Residue m) {b : Residue m} : b ≠ Coeff.zero → ∃ c : Residue m,
    Coeff.div? a b = .ok (some c) ∧ CoeffDiv.div a b = .ok c ∧ Coeff.mul c b = .ok a
  mul_div_cancel (a : Residue m) {b : Residue m} : b ≠ Coeff.zero →
    (Coeff.mul a b >>= fun c => CoeffDiv.div c b) = .ok a

section Prime

variable [Fact m.word.toNat.Prime]

theorem mul_pow_sub_two_eq_one {a : Residue m} (h : a ≠ 0) :
    a * a ^ (m.word.toNat - 2) = 1 := by
  have hinv := FieldDiv.mul_reciprocal h
  rwa [reciprocal_eq_pow h] at hinv

theorem dividesExactly : DividesExactly m where
  inverse_eq_none_iff a := by
    constructor
    · intro hnone
      by_contra ha
      have hsome := inverse?_eq_pow (show a ≠ 0 from ha)
      rw [hnone] at hsome
      cases hsome
    · rintro rfl
      exact inverse?_zero
  inverse_of_ne {a} ha := by
    have hone := mul_pow_sub_two_eq_one (show a ≠ 0 from ha)
    refine ⟨_, inverse?_eq_pow ha, congrArg Except.ok hone, ?_⟩
    intro j hj
    have hj : a * j = 1 := Except.ok.inj hj
    calc j = a * a ^ (m.word.toNat - 2) * j := by rw [hone, one_mul]
      _ = a * j * a ^ (m.word.toNat - 2) := by ring
      _ = a ^ (m.word.toNat - 2) := by rw [hj, one_mul]
  quotient_eq_none_iff a b := by
    by_cases hb : b = Coeff.zero
    · simp [Coeff.div?, hb]
    · rw [Coeff.div?, if_neg hb, div_eq_mul_pow a hb]
      constructor
      · intro hnone
        cases hnone
      · intro hzero
        exact absurd hzero hb
  quotient_of_ne a {b} hb := by
    obtain ⟨c, hc, hmul⟩ := FieldDiv.div_mul_cancel a (show b ≠ 0 from hb)
    refine ⟨c, ?_, hc, congrArg Except.ok hmul⟩
    rw [Coeff.div?, if_neg hb, hc]
    rfl
  mul_div_cancel a {b} hb := FieldDiv.mul_div_cancel a (show b ≠ 0 from hb)

end Prime

end Residue

/-- The power that stands for the inverse is formed at every residue but zero, and modulo a prime it
is the inverse. -/
theorem power_inverts_modulo_primes (m : Modulus) :
    Residue.DividesByPower m ∧ (m.word.toNat.Prime → Residue.DividesExactly m) := by
  refine ⟨Residue.dividesByPower m, ?_⟩
  intro hm
  have hprime : Fact m.word.toNat.Prime := ⟨hm⟩
  exact Residue.dividesExactly

/-- Three times 21846 is one more than the prime modulus. -/
theorem power_inverts_modulo_primes_three :
    Nat.Prime 65537 ∧ CoeffDiv.inverse? (Residue.ofNat ⟨65537, by decide⟩ 3) =
      .ok (some (.ofNat ⟨65537, by decide⟩ 21846)) := by
  have hprime : Nat.Prime 65537 := by norm_num
  refine ⟨hprime, ?_⟩
  have hexact := (power_inverts_modulo_primes ⟨65537, by decide⟩).2 hprime
  obtain ⟨i, hi, -, hunique⟩ := hexact.inverse_of_ne (a := .ofNat _ 3) (by decide)
  rw [hi, hunique (.ofNat _ 21846) (by decide)]

end Univariate
