import Univariate.Proofs.RingLaws

/-! Scaling and shifting are products with a constant and with a power of the indeterminate. The
short paths come to what the general product, which convolves, skips zeros and trims, makes of the
same factors. -/
namespace Univariate

open Polynomial

variable {R P : Type} [CommRing R]

/-- Constants, and such terms as are formed, agree with the formal ones. -/
structure Store.LawfulTerms (S : Store R P) (const : R → P) (term : R → Exponent → Except Fault P)
    (Rep : P → R[X] → Prop) (Room : ℕ → Prop) : Prop extends Store.Lawful S Rep Room where
  const_rep (c : R) : Rep (const c) (C c)
  term_rep {c : R} {n : Exponent} {m : P} : term c n = .ok m →
    Rep m (Polynomial.monomial n.toNat c)

namespace Store.LawfulTerms

variable {S : Store R P} {const : R → P} {term : R → Exponent → Except Fault P}
  {Rep : P → R[X] → Prop} {Room : ℕ → Prop} {p m : P} {f : R[X]} {c : R} {n : Exponent}

theorem fits_iff (h : S.LawfulTerms const term Rep Room) (hp : Rep p f) :
    (p ≠ S.zero → Room (S.top p + n.toNat)) ↔ (f ≠ 0 → Room (f.natDegree + n.toNat)) := by
  rw [Ne, h.eq_zero_iff hp, h.top_eq hp]

end Store.LawfulTerms

variable [Coeff R] [ExactCoeff R] [DecidableEq R]

end Univariate
