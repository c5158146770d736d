import Univariate.Proofs.RingLaws

/-! Division by `x - c` leaves the value at `c`. Its divisor is monic, so this holds modulo any
number that tells one from zero, prime or not. -/
namespace Univariate

open Polynomial

variable {R P : Type} [Coeff R]

/-- The division of `a` by `d` ends with the quotient `q` and the constant `y`, misses nothing, and
goes in exactly where `y` is zero. -/
structure DivisionStore.LeavesConstant (S : DivisionStore R P) (constant : R → P) (a d q : P)
    (y : R) (log : List Event) : Prop where
  divRem : S.divRem a d = .ok ⟨(q, constant y), log⟩
  quotient : S.Canonical q
  reconstruct : (S.mul q d >>= fun m => S.add m (constant y)) = .ok a
  rem : S.rem a d = .ok ⟨constant y, log⟩
  isZero_iff : S.isZero (constant y) = true ↔ y = Coeff.zero

/-- Every polynomial has a value at every `c`, and leaves that value when it is divided by
`x - c`. -/
def DivisionStore.LeavesValue (S : DivisionStore R P) (x : P) (constant : R → P) : Prop :=
  ∀ (a : P) (c : R), S.Canonical a → ∃ d y q log,
    S.sub x (constant c) = .ok d ∧ S.eval a c = .ok y ∧ S.LeavesConstant constant a d q y log

section LongDivision

variable [CommRing R] [CoeffDiv R]

/-- What is left is a constant because the divisor has degree one, and it is the value because the
divisor vanishes at `c`. -/
theorem longRemainder_X_sub_C (hone : Coeff.reciprocal (1 : R) = 1) (f : R[X]) (c : R) :
    longRemainder f (X - C c) = C (f.eval c) := by
  rw [longRemainder, monicDivisor_of_monic hone (monic_X_sub_C c), modByMonic_X_sub_C_eq_C_eval]

theorem longQuotient_mul_add_eval (hone : Coeff.reciprocal (1 : R) = 1) (f : R[X]) (c : R) :
    longQuotient f (X - C c) * (X - C c) + C (f.eval c) = f := by
  have hinverse : (X - C c).leadingCoeff * Coeff.reciprocal (X - C c).leadingCoeff = 1 := by
    rw [(monic_X_sub_C c).leadingCoeff, hone, one_mul]
  have hexact := longQuotient_mul_add_of_inverse (f := f) hinverse
  rwa [longRemainder_X_sub_C hone] at hexact

end LongDivision

theorem DivisionStore.Lawful.leavesValue [CommRing R] [ExactCoeff R] [Nontrivial R] [CoeffDiv R]
    [DecidableEq R] {S : DivisionStore R P} {Rep : P → R[X] → Prop} {Room : ℕ → Prop}
    (h : S.Lawful Rep Room) (hone : Coeff.reciprocal (1 : R) = 1) {x : P} {constant : R → P}
    (hx : Rep x X) (hconstant : ∀ v, Rep (constant v) (C v)) : S.LeavesValue x constant := by
  intro a c ha
  obtain ⟨f, hf⟩ := h.represented ha
  obtain ⟨d, hd, hdivisor⟩ := h.sub hx (hconstant c)
  obtain ⟨y, hy, rfl⟩ := h.eval c hf
  have hne : X - C c ≠ 0 := X_sub_C_ne_zero c
  obtain ⟨⟨⟨q, r⟩, log⟩, ht, hq, hr⟩ := h.divRem hf hdivisor hne
  have hsum := h.mul_add_long hf hdivisor hne hq hr
  rw [longRemainder_X_sub_C hone] at hr hsum
  obtain rfl := h.unique hr (hconstant _)
  rw [longQuotient_mul_add_eval hone] at hsum
  refine ⟨d, _, q, log, hd, hy, ht, h.canonical hq, h.eq_ok hsum hf rfl, ?_, ?_⟩
  · rw [h.rem_eq, ht]
    rfl
  · rw [h.isZero_iff hr, C_eq_zero, ExactCoeff.zero_eq]

/-- Over the rationals, and modulo every number from two on. -/
theorem remainder_is_value :
    (Dense.divisionStore (R := ℚ)).LeavesValue Dense.x Dense.constant ∧
      (Sparse.divisionStore (R := ℚ)).LeavesValue Sparse.x Sparse.constant ∧
        ∀ m : Modulus, 2 ≤ m.word.toNat →
          (Dense.divisionStore (R := Residue m)).LeavesValue Dense.x Dense.constant ∧
            (Sparse.divisionStore (R := Residue m)).LeavesValue Sparse.x Sparse.constant := by
  refine ⟨?_, ?_, ?_⟩
  · exact Dense.lawful.leavesValue FieldDiv.reciprocal_one Dense.represents_x
      Dense.represents_constant
  · exact Sparse.lawful.leavesValue FieldDiv.reciprocal_one Sparse.represents_x
      Sparse.represents_constant
  · intro m hm
    have hnontrivial := Residue.nontrivial hm
    constructor
    · exact Dense.lawful.leavesValue Residue.reciprocal_one Dense.represents_x
        Dense.represents_constant
    · exact Sparse.lawful.leavesValue Residue.reciprocal_one Sparse.represents_x
        Sparse.represents_constant

/-- Modulo six, `x ^ (2 ^ 64 - 1) + 5` over `x - 2`: odd powers of two are two. -/
theorem remainder_is_value_six :
    let residue := Residue.ofNat ⟨6, by decide⟩
    let a : Sparse (Residue ⟨6, by decide⟩) :=
      ⟨[(0, residue 5), (18446744073709551615, residue 1)], by decide⟩
    let d := Sparse.ofList [residue 4, residue 1]
    Sparse.x.sub (.constant (residue 2)) = .ok d ∧ ∃ q log,
      Sparse.divisionStore.LeavesConstant Sparse.constant a d q (residue 1) log := by
  intro residue a d
  have hd : Sparse.x.sub (.constant (residue 2)) = .ok d := by decide +kernel
  have hy : a.eval (residue 2) = .ok (residue 1) := by decide +kernel
  have ha : a.Canonical := by
    intro t ht
    rcases List.mem_pair.mp ht with rfl | rfl
    · decide
    · decide
  obtain ⟨_, _, q, log, hd', hy', hleaves⟩ :=
    (remainder_is_value.2.2 ⟨6, by decide⟩ (by decide)).2 a (residue 2) ha
  cases hd.symm.trans hd'
  cases hy.symm.trans hy'
  exact ⟨hd, q, log, hleaves⟩

end Univariate
