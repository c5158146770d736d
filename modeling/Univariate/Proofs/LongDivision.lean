import Mathlib.Algebra.Polynomial.Div
import Mathlib.Algebra.Polynomial.EraseLead
import Univariate.Proofs.Coeff.Reciprocal

/-! Division of formal polynomials by any polynomial but zero, over any reciprocals. -/
namespace Univariate

open Polynomial

variable {R : Type} [CommRing R] {f g w r : R[X]}

theorem card_support_X_mul (w : R[X]) : (X * w).support.card = w.support.card := by
  have hmap : (X * w).support = w.support.map ⟨Nat.succ, Nat.succ_injective⟩ := by
    ext n
    cases n with
    | zero => simp
    | succ n => simp
  rw [hmap, Finset.card_map]

theorem card_support_monomial_add {n : ℕ} {a : R} (ha : a ≠ 0) (hw : w.coeff n = 0) :
    (monomial n a + w).support.card = w.support.card + 1 := by
  have hinsert : (monomial n a + w).support = insert n w.support := by
    ext m
    rw [mem_support_iff, coeff_add, coeff_monomial, Finset.mem_insert, mem_support_iff]
    rcases eq_or_ne n m with rfl | hm
    · simp [hw, ha]
    · simp [hm, hm.symm]
  rw [hinsert, Finset.card_insert_of_notMem]
  rwa [mem_support_iff, not_not]

theorem degree_eraseLead_lt_natDegree (hg : g ≠ 0) : g.eraseLead.degree < g.natDegree :=
  (degree_eraseLead_lt hg).trans_eq (degree_eq_natDegree hg)

theorem degree_lower_lt (hg : g ≠ 0) (c : R) : (C c * g.eraseLead).degree < g.natDegree := by
  rw [← smul_eq_C_mul]
  exact (degree_smul_le c _).trans_lt (degree_eraseLead_lt_natDegree hg)

variable [Coeff R] [CoeffDiv R]

/-- What a round subtracts multiples of: the top term is taken to cancel, and only the lower
coefficients are multiplied by the reciprocal of the leading one. -/
noncomputable def monicDivisor (g : R[X]) : R[X] :=
  X ^ g.natDegree + C (Coeff.reciprocal g.leadingCoeff) * g.eraseLead

/-- The top coefficients that the rounds find, each at its exponent in the quotient. -/
noncomputable def longTops (f g : R[X]) : R[X] := f /ₘ monicDivisor g

noncomputable def longQuotient (f g : R[X]) : R[X] :=
  C (Coeff.reciprocal g.leadingCoeff) * longTops f g

noncomputable def longRemainder (f g : R[X]) : R[X] := f %ₘ monicDivisor g

/-- One round for each top coefficient that is not zero. -/
noncomputable def longSteps (f g : R[X]) : ℕ := (longTops f g).support.card

theorem monic_monicDivisor (hg : g ≠ 0) : (monicDivisor g).Monic :=
  monic_X_pow_add (degree_lower_lt hg _)

theorem degree_monicDivisor (hg : g ≠ 0) : (monicDivisor g).degree = g.natDegree := by
  have hR : Nontrivial R := Nontrivial.of_polynomial_ne hg
  rw [monicDivisor, degree_add_eq_left_of_degree_lt, degree_X_pow]
  rw [degree_X_pow]
  exact degree_lower_lt hg _

theorem longTops_mul_add (f g : R[X]) :
    longTops f g * monicDivisor g + longRemainder f g = f := by
  rw [mul_comm, add_comm]
  exact modByMonic_add_div f (monicDivisor g)

theorem degree_longRemainder_lt (hg : g ≠ 0) : (longRemainder f g).degree < g.natDegree := by
  have hR : Nontrivial R := Nontrivial.of_polynomial_ne hg
  rw [← degree_monicDivisor hg]
  exact degree_modByMonic_lt f (monic_monicDivisor hg)

theorem natDegree_longTops (hg : g ≠ 0) :
    (longTops f g).natDegree = f.natDegree - g.natDegree := by
  rw [longTops, natDegree_divByMonic f (monic_monicDivisor hg),
    natDegree_eq_of_degree_eq_some (degree_monicDivisor hg)]

/-- Only one way of taking multiples away leaves less than the divisor's degree. -/
theorem long_unique (hg : g ≠ 0) (h : f = w * monicDivisor g + r)
    (hr : r.degree < g.natDegree) : longTops f g = w ∧ longRemainder f g = r := by
  refine div_modByMonic_unique w r (monic_monicDivisor hg) ⟨?_, ?_⟩
  · rw [h]
    ring
  · rwa [degree_monicDivisor hg]

theorem long_of_degree_lt (hg : g ≠ 0) (hf : f.degree < g.natDegree) :
    longTops f g = 0 ∧ longRemainder f g = f :=
  long_unique hg (by ring) hf

/-- What is taken away comes back in the tops and nowhere else. -/
theorem long_add_mul (hg : g ≠ 0) (f w : R[X]) :
    longTops (w * monicDivisor g + f) g = w + longTops f g ∧
      longRemainder (w * monicDivisor g + f) g = longRemainder f g := by
  refine long_unique hg ?_ (degree_longRemainder_lt hg)
  rw [add_mul, add_assoc, longTops_mul_add f g]

/-- What two dividends leave is low together, so it is what their sum leaves, whatever rounds it
takes to get there. -/
theorem long_add (hg : g ≠ 0) (f f' : R[X]) :
    longTops (f + f') g = longTops f g + longTops f' g ∧
      longRemainder (f + f') g = longRemainder f g + longRemainder f' g := by
  apply long_unique hg
  · linear_combination -longTops_mul_add f g - longTops_mul_add f' g
  · exact (degree_add_le _ _).trans_lt
      (max_lt (degree_longRemainder_lt hg) (degree_longRemainder_lt hg))

theorem long_C_mul (hg : g ≠ 0) (c : R) (f : R[X]) :
    longTops (C c * f) g = C c * longTops f g ∧
      longRemainder (C c * f) g = C c * longRemainder f g := by
  apply long_unique hg
  · linear_combination -C c * longTops_mul_add f g
  · rw [← smul_eq_C_mul]
    exact (degree_smul_le c _).trans_lt (degree_longRemainder_lt hg)

/-- The tops found before move up by one exponent under the next coefficient. What else is found is
the division of the old remainder and that coefficient alone. -/
theorem long_bringDown (hg : g ≠ 0) (f : R[X]) (a : R) :
    longTops (C a + X * f) g = X * longTops f g + longTops (C a + X * longRemainder f g) g ∧
      longRemainder (C a + X * f) g = longRemainder (C a + X * longRemainder f g) g := by
  have hmoved : C a + X * f =
      X * longTops f g * monicDivisor g + (C a + X * longRemainder f g) := by
    conv_lhs => rw [← longTops_mul_add f g]
    ring
  rw [hmoved]
  exact long_add_mul hg (C a + X * longRemainder f g) (X * longTops f g)

/-- What is left of a dividend when its top term is dropped and the multiple of the lower terms
subtracted. -/
noncomputable def cancelLead (f g : R[X]) : R[X] :=
  f.eraseLead - monomial (f.natDegree - g.natDegree)
    (f.leadingCoeff * Coeff.reciprocal g.leadingCoeff) * g.eraseLead

theorem mul_add_cancelLead (hle : g.natDegree ≤ f.natDegree) :
    monomial (f.natDegree - g.natDegree) f.leadingCoeff * monicDivisor g + cancelLead f g = f := by
  have htop : monomial (f.natDegree - g.natDegree) f.leadingCoeff * X ^ g.natDegree =
      monomial f.natDegree f.leadingCoeff := by
    rw [monomial_mul_X_pow, Nat.sub_add_cancel hle]
  conv_rhs => rw [← eraseLead_add_monomial_natDegree_leadingCoeff f, ← htop]
  rw [monicDivisor, cancelLead, ← monomial_mul_C]
  ring

/-- Where the dividend reaches the divisor's degree, its top coefficient is found at the difference
of the degrees, and it is the only one there. -/
theorem long_cancelLead (hg : g ≠ 0) (hf : f ≠ 0) (hle : g.natDegree ≤ f.natDegree) :
    longTops f g =
        monomial (f.natDegree - g.natDegree) f.leadingCoeff + longTops (cancelLead f g) g ∧
      longRemainder f g = longRemainder (cancelLead f g) g ∧
        longSteps f g = longSteps (cancelLead f g) g + 1 := by
  have hR : Nontrivial R := Nontrivial.of_polynomial_ne hg
  have hmonic := monic_monicDivisor hg
  obtain ⟨htops, hrem⟩ := long_add_mul hg (cancelLead f g)
    (monomial (f.natDegree - g.natDegree) f.leadingCoeff)
  rw [mul_add_cancelLead hle] at htops hrem
  refine ⟨htops, hrem, ?_⟩
  have hlead : (longTops f g).leadingCoeff = f.leadingCoeff := by
    refine leadingCoeff_divByMonic_of_monic hmonic ?_
    rw [degree_monicDivisor hg, degree_eq_natDegree hf]
    exact_mod_cast hle
  have hcoeff : (longTops (cancelLead f g) g).coeff (f.natDegree - g.natDegree) = 0 := by
    rw [leadingCoeff, natDegree_longTops hg, htops, coeff_add, coeff_monomial_same] at hlead
    exact left_eq_add.mp hlead.symm
  rw [longSteps, htops, card_support_monomial_add (leadingCoeff_ne_zero.mpr hf) hcoeff, longSteps]

/-- No more rounds than exponents from the divisor's degree up to the dividend's. -/
theorem longSteps_le (hg : g ≠ 0) {n : ℕ} (hn : f.degree < n) :
    longSteps f g ≤ n - g.natDegree := by
  by_cases hdeg : f.degree < g.natDegree
  · obtain ⟨ht, -⟩ := long_of_degree_lt hg hdeg
    rw [longSteps, ht, support_zero, Finset.card_empty]
    exact Nat.zero_le _
  · have hf : f ≠ 0 := by
      rintro rfl
      simp at hdeg
    rw [degree_eq_natDegree hf, Nat.cast_lt] at hn hdeg
    have hcard := card_supp_le_succ_natDegree (longTops f g)
    rw [natDegree_longTops hg] at hcard
    rw [longSteps]
    omega

/-- What the division misses: every top term that was taken to cancel, times the error of the
reciprocal. All of it lies at exponents that the divisor reaches. -/
theorem sub_longQuotient_mul_add (f g : R[X]) :
    f - (longQuotient f g * g + longRemainder f g) =
      C (1 - g.leadingCoeff * Coeff.reciprocal g.leadingCoeff) *
        (X ^ g.natDegree * longTops f g) := by
  have hf := longTops_mul_add f g
  have hg := eraseLead_add_C_mul_X_pow g
  rw [monicDivisor] at hf
  rw [longQuotient, C_sub, C_mul, C_1]
  linear_combination C (Coeff.reciprocal g.leadingCoeff) * longTops f g * hg - hf

/-- A monic divisor is subtracted as it is, if dividing by one changes nothing. -/
theorem monicDivisor_of_monic (hone : Coeff.reciprocal (1 : R) = 1) (hg : g.Monic) :
    monicDivisor g = g := by
  have hlead := eraseLead_add_C_mul_X_pow g
  rw [hg.leadingCoeff, C_1, one_mul] at hlead
  rw [monicDivisor, hg.leadingCoeff, hone, C_1, one_mul, add_comm, hlead]

theorem longQuotient_mul_add_of_inverse
    (h : g.leadingCoeff * Coeff.reciprocal g.leadingCoeff = 1) :
    longQuotient f g * g + longRemainder f g = f := by
  have hmissed := sub_longQuotient_mul_add f g
  rw [h, sub_self, C_0, zero_mul, sub_eq_zero] at hmissed
  exact hmissed.symm

/-- Over a field the subtracted multiple is one of the divisor itself. -/
theorem monicDivisor_eq [FieldDiv R] (hg : g ≠ 0) :
    monicDivisor g = C (Coeff.reciprocal g.leadingCoeff) * g := by
  have hinv := FieldDiv.mul_reciprocal (leadingCoeff_ne_zero.mpr hg)
  calc monicDivisor g
      = C (g.leadingCoeff * Coeff.reciprocal g.leadingCoeff) * X ^ g.natDegree +
          C (Coeff.reciprocal g.leadingCoeff) * g.eraseLead := by
        rw [hinv, C_1, one_mul, monicDivisor]
    _ = C (Coeff.reciprocal g.leadingCoeff) *
          (g.eraseLead + C g.leadingCoeff * X ^ g.natDegree) := by
        rw [C_mul]
        ring
    _ = C (Coeff.reciprocal g.leadingCoeff) * g := by
        rw [eraseLead_add_C_mul_X_pow]

theorem longQuotient_mul_add [FieldDiv R] (hg : g ≠ 0) :
    longQuotient f g * g + longRemainder f g = f :=
  longQuotient_mul_add_of_inverse (FieldDiv.mul_reciprocal (leadingCoeff_ne_zero.mpr hg))

/-- Over a field the quotient and the remainder are the only ones. -/
theorem longQuotient_unique [FieldDiv R] (hg : g ≠ 0) (h : f = w * g + r)
    (hr : r.degree < g.natDegree) : longQuotient f g = w ∧ longRemainder f g = r := by
  have hinv := FieldDiv.mul_reciprocal (leadingCoeff_ne_zero.mpr hg)
  have hone : C g.leadingCoeff * C (Coeff.reciprocal g.leadingCoeff) = 1 := by
    rw [← C_mul, hinv, C_1]
  have hsub : f = w * C g.leadingCoeff * monicDivisor g + r := by
    rw [h, monicDivisor_eq hg]
    linear_combination -(w * g) * hone
  obtain ⟨htops, hrem⟩ := long_unique hg hsub hr
  refine ⟨?_, hrem⟩
  rw [longQuotient, htops]
  linear_combination w * hone

theorem natDegree_longQuotient_add_le (hg : g ≠ 0) (f : R[X]) :
    (longQuotient f g).natDegree + g.natDegree ≤ max f.natDegree g.natDegree := by
  have hle := natDegree_C_mul_le (Coeff.reciprocal g.leadingCoeff) (longTops f g)
  rw [natDegree_longTops hg] at hle
  rw [longQuotient]
  omega

/-- What normalising gives: nothing is done to a polynomial that is monic already. -/
noncomputable def monicForm [DecidableEq R] (f : R[X]) : R[X] :=
  if f.leadingCoeff = 1 then f else C (Coeff.reciprocal f.leadingCoeff) * f

end Univariate
