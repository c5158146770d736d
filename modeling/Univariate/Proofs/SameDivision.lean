import Univariate.Proofs.Related
import Univariate.Proofs.StoreLaws

/-! Both representations divide alike, whatever the division of coefficients comes to. -/
namespace Univariate

open Polynomial

section Agree

variable {A B : Type} {c : Prop} {rel : A → B → Prop} {x : Except Fault A} {y : Except Fault B}

/-- Where `c` holds, both runs refuse a zero polynomial; elsewhere both succeed, with results in
relation. -/
def Agree (c : Prop) (rel : A → B → Prop) (x : Except Fault A) (y : Except Fault B) : Prop :=
  (c ∧ x = .error .zeroPolynomial ∧ y = .error .zeroPolynomial) ∨
    (¬ c ∧ ∃ a b, x = .ok a ∧ y = .ok b ∧ rel a b)

theorem Agree.of_refused (hc : c) (hx : x = .error .zeroPolynomial)
    (hy : y = .error .zeroPolynomial) : Agree c rel x y := .inl ⟨hc, hx, hy⟩

theorem Agree.of_returns {P : A → Prop} {Q : B → Prop} (hc : ¬ c) (hx : Returns x P)
    (hy : Returns y Q) (hrel : ∀ a b, P a → Q b → rel a b) : Agree c rel x y := by
  obtain ⟨a, ha, hP⟩ := hx
  obtain ⟨b, hb, hQ⟩ := hy
  exact .inr ⟨hc, a, b, ha, hb, hrel a b hP hQ⟩

end Agree

variable {R : Type} [CommRing R] [Coeff R] [CoeffDiv R] [DecidableEq R]

/-- Every operation that divides sends related operands to related results, and refuses the same
operands. -/
structure DividesAlike (a b : Dense R) (s t : Sparse R) : Prop where
  divRem : Agree (b = Dense.zero)
    (fun x y => Related x.value.1 y.value.1 ∧ Related x.value.2 y.value.2)
    (a.divRem b) (s.divRem t)
  div : Agree (b = Dense.zero) (fun x y => Related x.value y.value) (a.div b) (s.div t)
  rem : Agree (b = Dense.zero) (fun x y => Related x.value y.value) (a.rem b) (s.rem t)
  monic : Agree (a = Dense.zero) Related a.monic s.monic
  gcd : Agree (a = Dense.zero ∧ b = Dense.zero) (fun x y => Related x.value y.value)
    (a.gcd b) (s.gcd t)

variable [ExactCoeff R] [ReciprocalDiv R] {a b : Dense R} {s t : Sparse R} {f g : R[X]}

theorem monic_agrees (ha : a.Represents f) (hs : s.Represents f) :
    Agree (a = Dense.zero) Related a.monic s.monic := by
  rw [ha.eq_zero_iff]
  by_cases hf : f = 0
  · subst f
    exact .of_refused rfl (Dense.monic_zero ha) (Sparse.monic_zero hs)
  · exact .of_returns hf (Dense.monic_represents ha hf) (Sparse.monic_represents hs hf)
      fun _ _ => related_of_represents

theorem gcd_agrees (ha : a.Represents f) (hb : b.Represents g) (hs : s.Represents f)
    (ht : t.Represents g) : Agree (a = Dense.zero ∧ b = Dense.zero)
      (fun x y => Related x.value y.value) (a.gcd b) (s.gcd t) := by
  rw [ha.eq_zero_iff, hb.eq_zero_iff]
  by_cases hzero : f = 0 ∧ g = 0
  · obtain ⟨rfl, rfl⟩ := hzero
    exact .of_refused ⟨rfl, rfl⟩ (Dense.lawful.gcd_zero ha hb) (Sparse.lawful.gcd_zero hs ht)
  · exact .of_returns hzero (Dense.lawful.gcd ha hb hzero) (Sparse.lawful.gcd hs ht hzero)
      fun _ _ => related_of_represents

/-- What is computed is a matter of the formal polynomials alone. -/
theorem dividesAlike (ha : a.Represents f) (hb : b.Represents g) (hs : s.Represents f)
    (ht : t.Represents g) : DividesAlike a b s t := by
  by_cases hg : g = 0
  · subst g
    have hzero := hb.eq_zero_iff.mpr rfl
    have hdense := Dense.divRem_zero a hb
    have hsparse := Sparse.divRem_zero s ht
    refine ⟨.of_refused hzero hdense hsparse, .of_refused hzero ?_ ?_, .of_refused hzero ?_ ?_,
      monic_agrees ha hs, gcd_agrees ha hb hs ht⟩
    · rw [Dense.div, hdense]
      rfl
    · rw [Sparse.div, hsparse]
      rfl
    · rw [Dense.rem, hdense]
      rfl
    · rw [Sparse.rem, hsparse]
      rfl
  · have hne := mt hb.eq_zero_iff.mp hg
    refine ⟨.of_returns hne (Dense.divRem_returns ha hb hg) (Sparse.divRem_returns hs ht hg) ?_,
      .of_returns hne (Dense.div_returns ha hb hg) (Sparse.div_returns hs ht hg) ?_,
      .of_returns hne (Dense.rem_returns ha hb hg) (Sparse.rem_returns hs ht hg) ?_,
      monic_agrees ha hs, gcd_agrees ha hb hs ht⟩
    · intro x y hx hy
      exact ⟨related_of_represents hx.1 hy.1, related_of_represents hx.2.1 hy.2.1⟩
    · intro x y hx hy
      exact related_of_represents hx hy
    · intro x y hx hy
      exact related_of_represents hx.1 hy.1

/-- Division over the rationals, and over every modulus, also where a reciprocal inverts nothing. -/
theorem division_same_in_both_stores :
    (∀ (a b : Dense Rat) (s t : Sparse Rat), Related a s → Related b t → DividesAlike a b s t) ∧
      ∀ (m : Modulus) (a b : Dense (Residue m)) (s t : Sparse (Residue m)),
        Related a s → Related b t → DividesAlike a b s t := by
  constructor
  · intro a b s t has hbt
    obtain ⟨f, ha, hs⟩ := has.represents
    obtain ⟨g, hb, ht⟩ := hbt.represents
    exact dividesAlike ha hb hs ht
  · intro m a b s t has hbt
    obtain ⟨f, ha, hs⟩ := has.represents
    obtain ⟨g, hb, ht⟩ := hbt.represents
    exact dividesAlike ha hb hs ht

/-- Modulo six, where three is a divisor of zero: `3 * x ^ 3 + 5 * x ^ 2 + 1` over `3 * x + 2`. -/
theorem division_same_in_both_stores_six :
    DividesAlike (R := Residue ⟨6, by decide⟩)
      (Dense.ofList [.ofNat _ 1, .ofNat _ 0, .ofNat _ 5, .ofNat _ 3])
      (Dense.ofList [.ofNat _ 2, .ofNat _ 3])
      (Sparse.ofList [.ofNat _ 1, .ofNat _ 0, .ofNat _ 5, .ofNat _ 3])
      (Sparse.ofList [.ofNat _ 2, .ofNat _ 3]) :=
  division_same_in_both_stores.2 _ _ _ _ _ (related_ofList (by decide)) (related_ofList (by decide))

end Univariate
