import Univariate.Proofs.StoreLaws

/-! Over a field long division finds the one quotient and the one remainder. -/
namespace Univariate

open Polynomial

variable {R P : Type}

/-- A quotient and a remainder of `a` by `b`, in the operations of the store itself. -/
structure Store.IsDivision (S : Store R P) (a b q r : P) : Prop where
  quotient : S.Canonical q
  remainder : S.Canonical r
  reconstruct : (S.mul q b >>= fun m => S.add m r) = .ok a
  height_lt : S.height r < S.height b

/-- Division by zero is refused. Any other succeeds, and its results are the only ones that
multiply and add up to the dividend. -/
structure DivisionStore.DividesUniquely (S : DivisionStore R P) : Prop where
  by_zero (a : P) : S.divRem a S.zero = .error .zeroPolynomial ∧
    S.div a S.zero = .error .zeroPolynomial ∧ S.rem a S.zero = .error .zeroPolynomial
  by_nonzero {a b : P} : S.Canonical a → S.Canonical b → b ≠ S.zero → ∃ q r log,
    S.divRem a b = .ok ⟨(q, r), log⟩ ∧ S.div a b = .ok ⟨q, log⟩ ∧ S.rem a b = .ok ⟨r, log⟩ ∧
      S.IsDivision a b q r ∧ ∀ q' r', S.IsDivision a b q' r' → q' = q ∧ r' = r

namespace DivisionStore.Lawful

variable [CommRing R] [Coeff R] [CoeffDiv R] [DecidableEq R] [FieldDiv R] {S : DivisionStore R P}
  {Rep : P → R[X] → Prop} {Room : ℕ → Prop} {a b q r : P} {f g u v : R[X]}

theorem isDivision_long (h : S.Lawful Rep Room) (ha : Rep a f) (hb : Rep b g) (hg : g ≠ 0)
    (hq : Rep q (longQuotient f g)) (hr : Rep r (longRemainder f g)) : S.IsDivision a b q r := by
  have hsum := h.mul_add_long ha hb hg hq hr
  rw [longQuotient_mul_add hg] at hsum
  obtain ⟨a', ha', hf⟩ := hsum
  refine ⟨h.canonical hq, h.canonical hr, ?_, ?_⟩
  · rw [ha', h.unique hf ha]
  · exact (h.height_lt_iff hb hg hr).mpr (degree_longRemainder_lt hg)

theorem eq_long_of_isDivision (h : S.Lawful Rep Room) (ha : Rep a f) (hb : Rep b g) (hg : g ≠ 0)
    (hd : S.IsDivision a b q r) : Rep q (longQuotient f g) ∧ Rep r (longRemainder f g) := by
  obtain ⟨u, hu⟩ := h.represented hd.quotient
  obtain ⟨v, hv⟩ := h.represented hd.remainder
  obtain ⟨m, hm, hadd⟩ := Fault.bind_eq_ok.mp hd.reconstruct
  have hprod : Rep m (u * g) := (h.mul hu hb (h.room_of_mul hu hb hm)).of_eq_ok hm
  have hsum : Rep a (u * g + v) := (h.add hprod hv).of_eq_ok hadd
  have hdeg := (h.height_lt_iff hb hg hv).mp hd.height_lt
  obtain ⟨hquotient, hremainder⟩ := longQuotient_unique hg (h.eq_of_rep ha hsum) hdeg
  rw [hquotient, hremainder]
  exact ⟨hu, hv⟩

theorem dividesUniquely (h : S.Lawful Rep Room) : S.DividesUniquely where
  by_zero a := by
    rw [h.div_eq, h.rem_eq, h.divRem_zero]
    exact ⟨rfl, rfl, rfl⟩
  by_nonzero {a b} ha hb hne := by
    obtain ⟨f, hf⟩ := h.represented ha
    obtain ⟨g, hg⟩ := h.represented hb
    have hg_ne : g ≠ 0 := fun hzero => hne ((h.eq_zero_iff hg).mpr hzero)
    obtain ⟨⟨⟨q, r⟩, log⟩, ht, hq, hr⟩ := h.divRem hf hg hg_ne
    refine ⟨q, r, log, ht, ?_, ?_, h.isDivision_long hf hg hg_ne hq hr, fun q' r' hd => ?_⟩
    · rw [h.div_eq, ht]
      rfl
    · rw [h.rem_eq, ht]
      rfl
    · obtain ⟨hq', hr'⟩ := h.eq_long_of_isDivision hf hg hg_ne hd
      exact ⟨h.unique hq' hq, h.unique hr' hr⟩

end DivisionStore.Lawful

/-- Long division in both representations, over the rationals and modulo every prime. -/
theorem long_division_unique :
    (Dense.divisionStore (R := Rat)).DividesUniquely ∧
      (Sparse.divisionStore (R := Rat)).DividesUniquely ∧
        ∀ m : Modulus, m.word.toNat.Prime →
          (Dense.divisionStore (R := Residue m)).DividesUniquely ∧
            (Sparse.divisionStore (R := Residue m)).DividesUniquely := by
  refine ⟨Dense.lawful.dividesUniquely, Sparse.lawful.dividesUniquely, fun m hm => ?_⟩
  have hprime : Fact m.word.toNat.Prime := ⟨hm⟩
  exact ⟨Dense.lawful.dividesUniquely, Sparse.lawful.dividesUniquely⟩

def seven : Modulus := ⟨7, by decide⟩

/-- Modulo seven, `x ^ (2 ^ 64 - 1) + 6` over `2 * x ^ (2 ^ 63) + 3`. -/
theorem long_division_unique_seven :
    seven.word.toNat.Prime ∧ ∃ log,
      Sparse.divRem (R := Residue seven)
        ⟨[(0, .ofNat seven 6), (18446744073709551615, .ofNat seven 1)], by decide⟩
        ⟨[(0, .ofNat seven 3), (9223372036854775808, .ofNat seven 2)], by decide⟩ =
      .ok ⟨(⟨[(9223372036854775807, .ofNat seven 4)], by decide⟩,
        ⟨[(0, .ofNat seven 6), (9223372036854775807, .ofNat seven 2)], by decide⟩), log⟩ := by
  have hprime : seven.word.toNat.Prime := by
    change Nat.Prime 7
    decide
  refine ⟨hprime, ?_⟩
  obtain ⟨q, r, log, ht, -, -, -, hunique⟩ := ((long_division_unique.2.2 seven hprime).2).by_nonzero
    (a := ⟨[(0, .ofNat seven 6), (18446744073709551615, .ofNat seven 1)], by decide⟩)
    (b := ⟨[(0, .ofNat seven 3), (9223372036854775808, .ofNat seven 2)], by decide⟩)
    (by change ∀ t ∈ _, _; decide) (by change ∀ t ∈ _, _; decide) (by decide)
  obtain ⟨rfl, rfl⟩ := hunique ⟨[(9223372036854775807, .ofNat seven 4)], by decide⟩
    ⟨[(0, .ofNat seven 6), (9223372036854775807, .ofNat seven 2)], by decide⟩
    ⟨by change ∀ t ∈ _, _; decide, by change ∀ t ∈ _, _; decide, by decide, by decide⟩
  exact ⟨log, ht⟩

end Univariate
