import Univariate.Proofs.Dense.Calculus
import Univariate.Proofs.Sparse.Calculus
import Univariate.Proofs.Sparse.Carried

/-! Dense and sparse polynomials over another ring. What becomes zero on the way is left out. -/
namespace Univariate

open Polynomial

variable {R R' : Type}

namespace Dense

/-- The images of the coefficients, without those at the end that have become zero. -/
def change [Coeff R'] [DecidableEq R'] (φ : R → R') (p : Dense R) : Dense R' :=
  ofList (p.coeffs.map φ)

variable [CommRing R] [CommRing R']

theorem polyOf_map (φ : R →+* R') (l : List R) : polyOf (l.map φ) = (polyOf l).map φ := by
  induction l with
  | nil => simp
  | cons a l ih => simp [ih]

theorem change_represents [Coeff R] [Coeff R'] [ExactCoeff R'] [DecidableEq R'] (φ : R →+* R')
    (p : Dense R) (f : R[X]) (hp : p.Represents f) : (p.change φ).Represents (f.map φ) := by
  refine represents_ofList ?_
  rw [polyOf_map, hp.polyOf_eq]

end Dense

namespace Sparse

/-- The images of the terms, without those whose coefficients have become zero. -/
def change [Coeff R'] [DecidableEq R'] (φ : R → R') (p : Sparse R) : Sparse R' :=
  ⟨(p.map φ).terms.filter fun t => t.2 ≠ Coeff.zero, (p.map φ).ascending.filter _⟩

section SumOf

variable [CommRing R] [CommRing R']

theorem termOf_mapTerm (φ : R →+* R') (t : Exponent × R) :
    termOf (mapTerm φ t) = (termOf t).map φ := (Polynomial.map_monomial φ).symm

theorem sumOf_map (φ : R →+* R') (l : List (Exponent × R)) :
    sumOf (l.map (mapTerm φ)) = (sumOf l).map φ := by
  induction l with
  | nil => simp
  | cons t l ih =>
    rw [List.map_cons, sumOf_cons, ih, sumOf_cons, Polynomial.map_add, termOf_mapTerm]

/-- What comes to nothing at coefficients of zero may be summed over the others. -/
theorem sum_filter_ne_zero [Coeff R] [ExactCoeff R] [DecidableEq R] {M : Type} [AddCommMonoid M]
    {g : Exponent × R → M} (hg : ∀ e, g (e, 0) = 0) (l : List (Exponent × R)) :
    ((l.filter fun t => t.2 ≠ Coeff.zero).map g).sum = (l.map g).sum := by
  rw [sum_map_filter]
  refine congrArg List.sum (List.map_congr_left ?_)
  rintro ⟨e, c⟩ -
  rw [ExactCoeff.zero_eq]
  split
  · rfl
  · rename_i hc
    have hzero : c = 0 := not_not.mp hc
    rw [hzero, hg]

theorem derivedTerm_zero (e : Exponent) : derivedTerm (e, (0 : R)) = 0 := by
  rw [derivedTerm, smul_zero, termOf, Polynomial.monomial_zero_right, ite_self]

theorem derivedTerm_mapTerm (φ : R →+* R') (t : Exponent × R) :
    derivedTerm (mapTerm φ t) = (derivedTerm t).map φ := by
  rw [derivedTerm, derivedTerm, mapTerm]
  split
  · rw [← map_zsmul φ, ← termOf_mapTerm]
    rfl
  · rw [Polynomial.map_zero]

end SumOf

variable [CommRing R] [Coeff R] [CommRing R'] [Coeff R'] [ExactCoeff R'] [DecidableEq R']

theorem change_represents (φ : R →+* R') (p : Sparse R) (f : R[X]) (hp : p.Represents f) :
    (p.change φ).Represents (f.map φ) := by
  constructor
  · intro t ht
    exact of_decide_eq_true (List.mem_filter.mp ht).2
  · have hzero : ∀ e, termOf (e, (0 : R')) = 0 := fun e => Polynomial.monomial_zero_right _
    rw [toPoly, sumOf, change, sum_filter_ne_zero hzero]
    change sumOf (p.terms.map (mapTerm φ)) = _
    rw [sumOf_map, ← toPoly, hp.toPoly_eq]

omit [Coeff R] in
theorem sum_derivedTerm_change (φ : R →+* R') (p : Sparse R) :
    ((p.change φ).terms.map derivedTerm).sum = ((p.terms.map derivedTerm).sum).map φ := by
  rw [change, sum_filter_ne_zero derivedTerm_zero, map, List.map_map, ← coe_mapRingHom,
    map_list_sum, List.map_map]
  exact congrArg List.sum (List.map_congr_left fun t _ => derivedTerm_mapTerm φ t)

end Sparse

end Univariate
