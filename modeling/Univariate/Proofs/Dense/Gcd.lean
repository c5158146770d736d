import Univariate.Proofs.Euclid
import Univariate.Proofs.Dense.Division

/-! Euclid's algorithm on dense polynomials. -/
namespace Univariate.Dense

open Polynomial

variable {R : Type} [CommRing R] [Coeff R] [ExactCoeff R] [DecidableEq R] [CoeffDiv R]
  [ReciprocalDiv R] {p q : Dense R} {f g : R[X]}

omit [CommRing R] [ExactCoeff R] [ReciprocalDiv R] in
theorem remainders_eq (p q : Dense R) : remainders p q =
    if q.isZero then .ok ⟨p, 0, []⟩ else do
      let r ← rem p q
      let chain ← remainders q r.value
      return ⟨chain.last, chain.rounds + 1, r.log ++ chain.log⟩ := by
  rw [remainders]
  split
  · rfl
  · split
    · rename_i e he
      rw [he]
      rfl
    · rename_i r hr
      rw [hr]
      rfl

/-- The divisions of the formal polynomials are recorded one after the other, and counted. What they
leave is normalised. -/
theorem gcd_eq (hp : p.Represents f) (hq : q.Represents g) :
    ∃ last : Dense R, last.Represents (lastRemainder f g) ∧ p.gcd q = last.monic >>= fun d =>
      pure ⟨d, ((divisions f g).flatMap fun d => divisionLog d.1 d.2) ++
        [.denseGcd (divisions f g).length d.degree]⟩ := by
  obtain ⟨chain, hchain, hlast, hrounds, hlog⟩ :=
    ChainOf.of_loop remainders_eq Represents.isZero_iff rem_returns hp hq
  refine ⟨chain.last, hlast, ?_⟩
  rw [gcd, hchain, Fault.ok_bind, hrounds, hlog]

theorem gcd_returns (hp : p.Represents f) (hq : q.Represents g) (hne : ¬ (f = 0 ∧ g = 0)) :
    Returns (p.gcd q) fun t => t.value.Represents (longGcd f g) ∧
      t.log = ((divisions f g).flatMap fun d => divisionLog d.1 d.2) ++
        [.denseGcd (divisions f g).length t.value.degree] := by
  obtain ⟨last, hlast, hgcd⟩ := gcd_eq hp hq
  rw [hgcd]
  refine (monic_represents hlast (mt (lastRemainder_eq_zero_iff f g).mp hne)).bind ?_
  intro d hd
  exact .pure ⟨hd, rfl⟩

end Univariate.Dense
