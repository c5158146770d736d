import Univariate.Proofs.Sparse.Arithmetic

/-! When a list of slots and a list of terms are the same polynomial. -/
namespace Univariate

open Polynomial

section Slots

variable {R : Type} [Coeff R]

/-- Two canonical values with the same coefficient at every exponent. -/
structure Related (p : Dense R) (s : Sparse R) : Prop where
  dense : p.Canonical
  sparse : s.Canonical
  coeff_eq (n : ℕ) : p.coeff n = s.coeff n

theorem Related.hasSlots {p : Dense R} {s : Sparse R} (h : Related p s) : s.HasSlots p.coeffs where
  canonical := h.sparse
  coeff_eq n := (h.coeff_eq n).symm

/-- Both computations end, with related results. -/
def ReturnRelated (x : Except Fault (Dense R)) (y : Except Fault (Sparse R)) : Prop :=
  Returns x fun p => Returns y (Related p)

variable [DecidableEq R]

theorem related_of_hasSlots {l : List R} {s : Sparse R} (h : s.HasSlots l) :
    Related (Dense.ofList l) s where
  dense := Dense.canonical_ofList l
  sparse := h.canonical
  coeff_eq n := by rw [Dense.coeff_ofList, h.coeff_eq]

/-- One list of coefficients is read alike, as far as its places are words. -/
theorem related_ofList {l : List R} (h : l.length ≤ UInt64.size) :
    Related (Dense.ofList l) (Sparse.ofList l) := related_of_hasSlots (Sparse.hasSlots_ofList h)

end Slots

variable {R : Type} [CommRing R] [Coeff R] [ExactCoeff R] {p : Dense R} {s : Sparse R} {f : R[X]}

theorem related_of_represents (hp : p.Represents f) (hs : s.Represents f) : Related p s where
  dense := hp.canonical
  sparse := hs.canonical
  coeff_eq n := by rw [hp.coeff_eq, hs.coeff_eq]

theorem returnRelated_of_represents {x : Except Fault (Dense R)} {y : Except Fault (Sparse R)}
    (hx : Returns x (·.Represents f)) (hy : Returns y (·.Represents f)) : ReturnRelated x y :=
  hx.imp fun _ hp => hy.imp fun _ hs => related_of_represents hp hs

/-- Related values say one formal polynomial. -/
theorem Related.represents (h : Related p s) : ∃ f, p.Represents f ∧ s.Represents f := by
  refine ⟨p.toPoly, Dense.represents_toPoly h.dense, h.sparse, ?_⟩
  ext n
  rw [Sparse.coeff_toPoly, Dense.coeff_toPoly, h.coeff_eq]

end Univariate
