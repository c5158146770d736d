import Mathlib.Tactic.LinearCombination
import Univariate.Dense.Arithmetic
import Univariate.Proofs.Coeff.Power
import Univariate.Proofs.Dense.Polynomial

/-! Sums, products and powers of dense polynomials, read as formal polynomials. None fails over
exact coefficients. -/
namespace Univariate.Dense

open Polynomial

variable {R : Type} [CommRing R] [Coeff R] [ExactCoeff R] {p q : Dense R} {f g : R[X]}

omit [Coeff R] [ExactCoeff R] in
/-- A sum takes `s = 1` and a difference `s = -1`. -/
theorem combine_returns (op : R → R → Except Fault R) {s : R}
    (hop : ∀ a b, op a b = .ok (a + s * b)) [Coeff R] [ExactCoeff R] (l l' : List R) :
    Returns (combine op l l') (polyOf · = polyOf l + C s * polyOf l') := by
  induction l' generalizing l with
  | nil =>
    rw [combine_nil]
    exact .ok (by simp)
  | cons b l' ih =>
    have hl : polyOf l = C (l.headD 0) + X * polyOf l.tail := by cases l <;> simp
    rw [combine_cons, hop, Fault.ok_bind]
    refine (ih l.tail).bind fun r hr => .pure ?_
    rw [polyOf_cons, hr, hl, polyOf_cons, ExactCoeff.zero_eq, C_add, C_mul]
    ring

/-- A row adds a multiple of one list to the slots of another, which has no fewer. -/
theorem addMultiples_returns (a : R) {l acc : List R} (h : l.length ≤ acc.length) :
    Returns (addMultiples a l acc)
      fun r => r.length = acc.length ∧ polyOf r = polyOf acc + C a * polyOf l := by
  induction l generalizing acc with
  | nil => exact .ok (by simp)
  | cons b l ih =>
    cases acc with
    | nil => simp at h
    | cons s acc =>
      rw [addMultiples, ExactCoeff.mul_eq, Fault.ok_bind, ExactCoeff.add_eq, Fault.ok_bind]
      refine (ih (by simpa using h)).bind fun r hr => .pure ⟨by simp [hr.1], ?_⟩
      rw [polyOf_cons, hr.2, polyOf_cons, polyOf_cons, C_add, C_mul]
      ring

theorem neg_represents (hp : p.Represents f) : Returns p.neg (·.Represents (-f)) := by
  have hcanonical := neg_canonical hp.canonical
  have hneg : ∀ a ∈ p.coeffs, Coeff.neg a = .ok (-1 * a) := fun a _ => by
    rw [ExactCoeff.neg_eq, neg_one_mul]
  rw [neg, Returns.mapM hneg] at hcanonical ⊢
  refine .pure ⟨hcanonical, ?_⟩
  rw [toPoly, polyOf_map_mul, hp.polyOf_eq, C_neg, C_1, neg_one_mul]

theorem shift_represents (hp : p.Represents f) (n : Exponent) :
    (p.shift n).Represents (X ^ n.toNat * f) := by
  refine ⟨canonical_shift hp.canonical n, ?_⟩
  rw [shift]
  split
  · rename_i hzero
    rw [hp.isZero_iff] at hzero
    subst hzero
    rw [hp.toPoly_eq, mul_zero]
  · rw [toPoly, polyOf_append, ExactCoeff.zero_eq, polyOf_replicate_zero, List.length_replicate,
      zero_add, hp.polyOf_eq]

variable [DecidableEq R]

theorem add_represents (hp : p.Represents f) (hq : q.Represents g) :
    Returns (p.add q) (·.Represents (f + g)) := by
  have h := combine_returns Coeff.add (s := 1) (fun a b => by simp) p.coeffs q.coeffs
  refine h.bind fun l hl => .pure (represents_ofList ?_)
  rw [hl, hp.polyOf_eq, hq.polyOf_eq, C_1, one_mul]

theorem sub_represents (hp : p.Represents f) (hq : q.Represents g) :
    Returns (p.sub q) (·.Represents (f - g)) := by
  have h := combine_returns Coeff.sub (s := -1) (fun a b => by simp [sub_eq_add_neg])
    p.coeffs q.coeffs
  refine h.bind fun l hl => .pure (represents_ofList ?_)
  rw [hl, hp.polyOf_eq, hq.polyOf_eq, C_neg, C_1, neg_one_mul, ← sub_eq_add_neg]

/-- The row of zero, which is left out, would add nothing. -/
theorem addRow_returns (a : R) {l acc : List R} (h : l.length ≤ acc.length) :
    Returns (addRow a l acc)
      fun r => r.length = acc.length ∧ polyOf r = polyOf acc + C a * polyOf l := by
  rw [addRow, ExactCoeff.zero_eq]
  split
  · subst a
    exact .ok (by simp)
  · exact addMultiples_returns a h

/-- Each row finds a slot for its every product. -/
theorem addRows_returns {l l' acc : List R} (hl' : l' ≠ [])
    (h : l.length + l'.length ≤ acc.length + 1) :
    Returns (addRows l' l acc) (polyOf · = polyOf acc + polyOf l * polyOf l') := by
  have hpos := List.length_pos_iff.mpr hl'
  induction l generalizing acc with
  | nil => exact .ok (by simp)
  | cons a l ih =>
    rw [List.length_cons] at h
    rw [addRows]
    refine (addRow_returns a (by omega)).bind fun row hrow => ?_
    obtain ⟨hlen, hrow⟩ := hrow
    cases row with
    | nil =>
      rw [List.length_nil] at hlen
      omega
    | cons s row =>
      rw [List.length_cons] at hlen
      have hrest : l.length + l'.length ≤ row.length + 1 := by omega
      refine (ih hrest).bind fun r hr => .pure ?_
      rw [polyOf_cons] at hrow
      rw [polyOf_cons, hr, polyOf_cons]
      linear_combination hrow

theorem mul_represents (hp : p.Represents f) (hq : q.Represents g) :
    Returns (p.mul q) (·.Represents (f * g)) := by
  rw [mul]
  split
  · rename_i hzero
    rw [hp.isZero_iff, hq.isZero_iff] at hzero
    have hprod : f * g = 0 := by rcases hzero with rfl | rfl <;> simp
    rw [hprod]
    exact .ok represents_zero
  · rename_i hzero
    have hne : q.coeffs ≠ [] := by
      intro hnil
      exact hzero (.inr (by simp [isZero, hnil]))
    rw [ExactCoeff.zero_eq]
    have hroom : p.coeffs.length + q.coeffs.length ≤
        (List.replicate (p.coeffs.length + q.coeffs.length - 1) (0 : R)).length + 1 := by
      rw [List.length_replicate]
      omega
    refine (addRows_returns hne hroom).bind fun l hl => .pure (represents_ofList ?_)
    rw [hl, polyOf_replicate_zero, zero_add, hp.polyOf_eq, hq.polyOf_eq]

/-- Over zero, which is told apart, the general path would find nothing but zeros. -/
theorem scale_represents (hp : p.Represents f) (c : R) :
    Returns (p.scale c) (·.Represents (C c * f)) := by
  rw [scale, ExactCoeff.zero_eq]
  split
  · subst c
    rw [C_0, zero_mul]
    exact .ok represents_zero
  · rw [Returns.mapM fun a _ => (ExactCoeff.mul_eq a c).trans (by rw [mul_comm])]
    refine .pure (represents_ofList ?_)
    rw [polyOf_map_mul, hp.polyOf_eq]

theorem pow_represents (hp : p.Represents f) (n : ℕ) :
    Returns (p.pow n) (·.Represents (f ^ n)) := by
  have hone : (one : Dense R).Represents (f ^ 0) := by simpa using represents_one
  have hbase : p.Represents (f ^ 1) := by simpa using hp
  have hpow := repeated_returns Represents (n := n) (k := n) (fun i j a b _ ha hb => by
    rw [pow_add]
    exact mul_represents ha hb) (by omega) hone hbase
  rwa [zero_add, one_mul] at hpow

end Univariate.Dense
