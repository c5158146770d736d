import Univariate.Proofs.RingLaws
import Univariate.Proofs.UniqueDivision

/-! Over a field normalising picks one polynomial out of all the multiples by constants. -/
namespace Univariate

open Polynomial

variable {R P : Type} [Coeff R]

/-- Zero is refused. Any other polynomial is its leading coefficient times its monic form, which it
shares with the other multiples of itself by constants and with no more. -/
structure DivisionStore.PicksMonic (S : DivisionStore R P) (Room : ℕ → Prop) : Prop where
  zero : S.monic S.zero = .error .zeroPolynomial
  nonzero {a : P} : S.Canonical a → a ≠ S.zero → ∃ u m,
    S.leadingCoeff? a = some u ∧ S.monic a = .ok m ∧ S.isMonic m = true ∧
      S.height m = S.height a ∧ S.scale m u = .ok a
  idempotent {a : P} : S.Canonical a → (S.monic a >>= S.monic) = S.monic a
  eq_iff {a b : P} : S.Canonical a → S.Canonical b → a ≠ S.zero → b ≠ S.zero →
    (S.monic a = S.monic b ↔ ∃ c : R, c ≠ Coeff.zero ∧ S.scale a c = .ok b)
  mul {a b : P} : S.Canonical a → S.Canonical b → a ≠ S.zero → b ≠ S.zero →
    Room (S.top a + S.top b) → Coincide (S.mul a b >>= S.monic)
      (S.monic a >>= fun m => S.monic b >>= fun n => S.mul m n)

variable [CommRing R] [CoeffDiv R] [DecidableEq R] {f g m : R[X]}

section Formal

variable [FieldDiv R]

/-- Where nothing is divided, the reciprocal of one would have changed nothing. -/
theorem monicForm_eq_C_mul (hf : f ≠ 0) :
    monicForm f = C (Coeff.reciprocal f.leadingCoeff) * f := by
  rw [monicForm_eq hf, monicDivisor_eq hf]

theorem monic_monicForm (hf : f ≠ 0) : (monicForm f).Monic := by
  rw [monicForm_eq hf]
  exact monic_monicDivisor hf

theorem degree_monicForm (hf : f ≠ 0) : (monicForm f).degree = f.degree := by
  rw [monicForm_eq hf, degree_monicDivisor hf, degree_eq_natDegree hf]

/-- Whether anything was divided or not, multiplying by the leading coefficient takes it back. -/
theorem C_mul_monicForm (hf : f ≠ 0) : C f.leadingCoeff * monicForm f = f := by
  have hinv := FieldDiv.mul_reciprocal (leadingCoeff_ne_zero.mpr hf)
  rw [monicForm_eq_C_mul hf, ← mul_assoc, ← C_mul, hinv, C_1, one_mul]

/-- Every multiple of a monic polynomial by a constant is brought back to it. -/
theorem monicForm_C_mul (hm : m.Monic) {c : R} (hc : c ≠ 0) : monicForm (C c * m) = m := by
  have hlead : (C c * m).leadingCoeff = c := by
    rw [leadingCoeff_mul_monic hm, leadingCoeff_C]
  have hne : C c * m ≠ 0 := by
    intro hzero
    rw [hzero, leadingCoeff_zero] at hlead
    exact hc hlead.symm
  have hinv := FieldDiv.mul_reciprocal hc
  rw [monicForm_eq_C_mul hne, hlead, ← mul_assoc, ← C_mul, mul_comm _ c, hinv, C_1, one_mul]

theorem monicForm_idem (hf : f ≠ 0) : monicForm (monicForm f) = monicForm f := by
  have hlead : (monicForm f).leadingCoeff = 1 := monic_monicForm hf
  rw [monicForm, if_pos hlead]

theorem monicForm_mul (hf : f ≠ 0) (hg : g ≠ 0) :
    monicForm (f * g) = monicForm f * monicForm g := by
  have hR : NoZeroDivisors R := FieldDiv.noZeroDivisors
  have hlead : f.leadingCoeff * g.leadingCoeff ≠ 0 :=
    mul_ne_zero (leadingCoeff_ne_zero.mpr hf) (leadingCoeff_ne_zero.mpr hg)
  have hfg : f * g = C (f.leadingCoeff * g.leadingCoeff) * (monicForm f * monicForm g) := by
    calc f * g = C f.leadingCoeff * monicForm f * (C g.leadingCoeff * monicForm g) := by
          rw [C_mul_monicForm hf, C_mul_monicForm hg]
      _ = C (f.leadingCoeff * g.leadingCoeff) * (monicForm f * monicForm g) := by
          rw [C_mul]
          ring
  rw [hfg]
  exact monicForm_C_mul ((monic_monicForm hf).mul (monic_monicForm hg)) hlead

theorem monicForm_eq_iff (hf : f ≠ 0) (hg : g ≠ 0) :
    monicForm f = monicForm g ↔ ∃ c, c ≠ 0 ∧ C c * f = g := by
  constructor
  · intro heq
    have hmul : C (g.leadingCoeff * Coeff.reciprocal f.leadingCoeff) * f = g := by
      calc C (g.leadingCoeff * Coeff.reciprocal f.leadingCoeff) * f
          = C g.leadingCoeff * monicForm f := by
            rw [monicForm_eq_C_mul hf, C_mul, mul_assoc]
        _ = g := by rw [heq, C_mul_monicForm hg]
    refine ⟨_, ?_, hmul⟩
    intro hzero
    rw [hzero, C_0, zero_mul] at hmul
    exact hg hmul.symm
  · rintro ⟨c, hc, rfl⟩
    have hR : NoZeroDivisors R := FieldDiv.noZeroDivisors
    have hlead : c * f.leadingCoeff ≠ 0 := mul_ne_zero hc (leadingCoeff_ne_zero.mpr hf)
    have hmul : C c * f = C (c * f.leadingCoeff) * monicForm f := by
      rw [C_mul, mul_assoc, C_mul_monicForm hf]
    rw [hmul, monicForm_C_mul (monic_monicForm hf) hlead]

end Formal

namespace DivisionStore.Lawful

variable {S : DivisionStore R P} {Rep : P → R[X] → Prop} {Room : ℕ → Prop} {a b n : P}

theorem exists_rep_ne_zero (h : S.Lawful Rep Room) (ha : S.Canonical a) (hne : a ≠ S.zero) :
    ∃ f, Rep a f ∧ f ≠ 0 := by
  obtain ⟨f, hf⟩ := h.represented ha
  exact ⟨f, hf, mt (h.eq_zero_iff hf).mpr hne⟩

/-- The multiples of a stored polynomial by constants are those of the formal one. -/
theorem exists_scale_iff [ExactCoeff R] (h : S.Lawful Rep Room) (ha : Rep a f) (hb : Rep b g) :
    (∃ c : R, c ≠ Coeff.zero ∧ S.scale a c = .ok b) ↔ ∃ c, c ≠ 0 ∧ C c * f = g := by
  rw [ExactCoeff.zero_eq]
  constructor
  · rintro ⟨c, hc, hrun⟩
    exact ⟨c, hc, h.eq_of_rep ((h.scale c ha).of_eq_ok hrun) hb⟩
  · rintro ⟨c, hc, hmul⟩
    exact ⟨c, hc, h.eq_ok (h.scale c ha) hb hmul⟩

theorem monic_eq_iff (h : S.Lawful Rep Room) (ha : Rep a f) (hb : Rep b g) (hf : f ≠ 0)
    (hg : g ≠ 0) : S.monic a = S.monic b ↔ monicForm f = monicForm g := by
  obtain ⟨m, hm, hmf⟩ := h.monic ha hf
  obtain ⟨n, hn, hng⟩ := h.monic hb hg
  rw [hm, hn, Except.ok.injEq]
  constructor
  · rintro rfl
    exact h.eq_of_rep hmf hng
  · intro heq
    rw [heq] at hmf
    exact h.unique hmf hng

variable [FieldDiv R]

theorem height_of_monicForm (h : S.Lawful Rep Room) (ha : Rep a f) (hf : f ≠ 0)
    (hn : Rep n (monicForm f)) : S.height n = S.height a := by
  have hiff (k : ℕ) : S.height n ≤ k ↔ S.height a ≤ k := by
    rw [h.height_le_iff hn, h.height_le_iff ha, degree_monicForm hf]
  exact le_antisymm ((hiff _).mpr le_rfl) ((hiff _).mp le_rfl)

theorem monic_mul (h : S.Lawful Rep Room) (ha : Rep a f) (hb : Rep b g) (hf : f ≠ 0) (hg : g ≠ 0)
    (hroom : Room (f.natDegree + g.natDegree)) : Coincide (S.mul a b >>= S.monic)
      (S.monic a >>= fun m => S.monic b >>= fun n => S.mul m n) := by
  have hR : NoZeroDivisors R := FieldDiv.noZeroDivisors
  have hleft : Returns (S.mul a b >>= S.monic) (Rep · (monicForm (f * g))) := by
    refine (h.mul ha hb hroom).bind ?_
    intro p hp
    exact h.monic hp (mul_ne_zero hf hg)
  have hright : Returns (S.monic a >>= fun m => S.monic b >>= fun n => S.mul m n)
      (Rep · (monicForm f * monicForm g)) := by
    refine (h.monic ha hf).bind ?_
    intro m hm
    refine (h.monic hb hg).bind ?_
    intro n hn
    refine h.mul hm hn ?_
    rwa [natDegree_eq_of_degree_eq (degree_monicForm hf),
      natDegree_eq_of_degree_eq (degree_monicForm hg)]
  exact h.coincide hleft hright (monicForm_mul hf hg)

theorem picksMonic [ExactCoeff R] (h : S.Lawful Rep Room) : S.PicksMonic Room where
  zero := h.monic_zero h.zero
  nonzero {a} ha hne := by
    obtain ⟨f, hf, hf_ne⟩ := h.exists_rep_ne_zero ha hne
    obtain ⟨m, hm, hmf⟩ := h.monic hf hf_ne
    have hmonic := monic_monicForm hf_ne
    have hR : Nontrivial R := Nontrivial.of_polynomial_ne hf_ne
    refine ⟨f.leadingCoeff, m, h.leadingCoeff?_eq hf hf_ne, hm,
      (h.isMonic_iff hmf hmonic.ne_zero).mpr hmonic, h.height_of_monicForm hf hf_ne hmf, ?_⟩
    exact h.eq_ok (h.scale _ hmf) hf (C_mul_monicForm hf_ne)
  idempotent {a} ha := by
    obtain ⟨f, hf⟩ := h.represented ha
    by_cases hzero : f = 0
    · subst f
      rw [h.monic_zero hf]
      rfl
    · obtain ⟨m, hm, hmf⟩ := h.monic hf hzero
      have hR : Nontrivial R := Nontrivial.of_polynomial_ne hzero
      rw [hm, Fault.ok_bind]
      exact h.eq_ok (h.monic hmf (monic_monicForm hzero).ne_zero) hmf (monicForm_idem hzero)
  eq_iff {a b} ha hb hza hzb := by
    obtain ⟨f, hf, hf_ne⟩ := h.exists_rep_ne_zero ha hza
    obtain ⟨g, hg, hg_ne⟩ := h.exists_rep_ne_zero hb hzb
    rw [h.monic_eq_iff hf hg hf_ne hg_ne, monicForm_eq_iff hf_ne hg_ne, h.exists_scale_iff hf hg]
  mul {a b} ha hb hza hzb hroom := by
    obtain ⟨f, hf, hf_ne⟩ := h.exists_rep_ne_zero ha hza
    obtain ⟨g, hg, hg_ne⟩ := h.exists_rep_ne_zero hb hzb
    rw [h.top_eq hf, h.top_eq hg] at hroom
    exact h.monic_mul hf hg hf_ne hg_ne hroom

end DivisionStore.Lawful

/-- Monic forms in both representations, over the rationals and modulo every prime. Among terms the
factors of a product must have room for it. -/
theorem monic_canonical_associate :
    (Dense.divisionStore (R := Rat)).PicksMonic (fun _ => True) ∧
      (Sparse.divisionStore (R := Rat)).PicksMonic (· < UInt64.size) ∧
        ∀ m : Modulus, m.word.toNat.Prime →
          (Dense.divisionStore (R := Residue m)).PicksMonic (fun _ => True) ∧
            (Sparse.divisionStore (R := Residue m)).PicksMonic (· < UInt64.size) := by
  refine ⟨Dense.lawful.picksMonic, Sparse.lawful.picksMonic, ?_⟩
  intro m hm
  have hprime : Fact m.word.toNat.Prime := ⟨hm⟩
  exact ⟨Dense.lawful.picksMonic, Sparse.lawful.picksMonic⟩

/-- Modulo seven, `2 * x ^ (2 ^ 63) + 3` and `3 * x ^ (2 ^ 63 - 1)`, whose product has the largest
exponent there is. -/
theorem monic_canonical_associate_seven :
    let residue := Residue.ofNat seven
    let a : Sparse (Residue seven) :=
      ⟨[(0, residue 3), (9223372036854775808, residue 2)], by decide⟩
    let b := Sparse.monomial (residue 3) 9223372036854775807
    let n : Sparse (Residue seven) :=
      ⟨[(0, residue 5), (9223372036854775808, residue 1)], by decide⟩
    seven.word.toNat.Prime ∧ a.monic = .ok n ∧ Coincide (a.mul b >>= Sparse.monic)
      (a.monic >>= fun m => b.monic >>= fun n => m.mul n) := by
  intro residue a b n
  have hprime : seven.word.toNat.Prime := by
    change Nat.Prime 7
    decide
  have hpicks := (monic_canonical_associate.2.2 seven hprime).2
  have ha : a.Canonical := by
    change ∀ t ∈ _, _
    decide
  have hn : n.Canonical := by
    change ∀ t ∈ _, _
    decide
  refine ⟨hprime, ?_, ?_⟩
  · have hscale : ∃ c, c ≠ Coeff.zero ∧ a.scale c = .ok n := ⟨residue 4, by decide, by decide⟩
    have hsame := (hpicks.eq_iff ha hn (by decide) (by decide)).mpr hscale
    exact hsame.trans (by decide)
  · exact hpicks.mul ha (Sparse.canonical_monomial _ _) (by decide) (by decide) (by decide)

end Univariate
