import Univariate.Proofs.StoreLaws

/-! Sparse polynomials over rings without divisors of zero. An exponent overflows on the way to a
result only where the largest exponent of the result itself is no word. -/
namespace Univariate

open Polynomial

/-- The operations on `p` and `q` that form exponents fail where an exponent of the exact result
lies outside the words, and the others never fail. Only polynomials that are not zero have a leading
term. -/
structure Sparse.OverflowsExactly {R : Type} [Coeff R] [DecidableEq R] (p q : Sparse R) : Prop where
  mul : FailsIff (.overflow .add)
    (∃ s ∈ p.lead?, ∃ t ∈ q.lead?, UInt64.size ≤ s.1.toNat + t.1.toNat) (p.mul q)
  shift (n : Exponent) : FailsIff (.overflow .add)
    (∃ t ∈ p.lead?, UInt64.size ≤ t.1.toNat + n.toNat) (p.shift n)
  pow (n : ℕ) : FailsIff (.overflow .add)
    (∃ t ∈ p.lead?, UInt64.size ≤ t.1.toNat * n) (p.pow n)
  compose : FailsIff (.overflow .add)
    (∃ s ∈ p.lead?, ∃ t ∈ q.lead?, UInt64.size ≤ s.1.toNat * t.1.toNat) (p.compose q)
  add : ∃ r, p.add q = .ok r
  sub : ∃ r, p.sub q = .ok r
  neg : ∃ r, p.neg = .ok r
  scale (c : R) : ∃ r, p.scale c = .ok r
  eval (x : R) : ∃ y, p.eval x = .ok y
  derivative : ∃ r, p.derivative = .ok r

/-- The operations that divide `a` by `b` fail with nothing but the refusal of a zero polynomial. -/
structure DivisionStore.RefusesZeroAlone {R P : Type} (S : DivisionStore R P) (a b : P) : Prop where
  divRem : FailsIff .zeroPolynomial (b = S.zero) (S.divRem a b)
  div : FailsIff .zeroPolynomial (b = S.zero) (S.div a b)
  rem : FailsIff .zeroPolynomial (b = S.zero) (S.rem a b)
  monic : FailsIff .zeroPolynomial (a = S.zero) (S.monic a)
  gcd : FailsIff .zeroPolynomial (a = S.zero ∧ b = S.zero) (S.gcd a b)

variable {R : Type} [CommRing R] [Coeff R] [ExactCoeff R] [DecidableEq R]

namespace Sparse

variable {p q : Sparse R} {f g : R[X]}

omit [DecidableEq R] in
/-- The exponent of the leading term is the degree. -/
theorem Represents.exists_lead?_iff (hp : p.Represents f) {c : ℕ → Prop} :
    (∃ t ∈ p.lead?, c t.1.toNat) ↔ f ≠ 0 ∧ c f.natDegree := by
  constructor
  · rintro ⟨t, ht, hc⟩
    obtain ⟨hf, hexp, -⟩ := hp.lead?_spec ht
    rw [hexp] at hc
    exact ⟨hf, hc⟩
  · rintro ⟨hf, hc⟩
    obtain ⟨t, ht⟩ := hp.exists_lead? hf
    rw [← (hp.lead?_spec ht).2.1] at hc
    exact ⟨t, ht, hc⟩

omit [DecidableEq R] in
theorem Represents.exists_leads_iff (hp : p.Represents f) (hq : q.Represents g)
    {c : ℕ → ℕ → Prop} : (∃ s ∈ p.lead?, ∃ t ∈ q.lead?, c s.1.toNat t.1.toNat) ↔
      f ≠ 0 ∧ g ≠ 0 ∧ c f.natDegree g.natDegree := by
  rw [hp.exists_lead?_iff (c := fun m => ∃ t ∈ q.lead?, c m t.1.toNat), hq.exists_lead?_iff]

theorem mul_failsIff (hp : p.Represents f) (hq : q.Represents g) : FailsIff (.overflow .add)
    (∃ s ∈ p.lead?, ∃ t ∈ q.lead?, UInt64.size ≤ s.1.toNat + t.1.toNat) (p.mul q) := by
  rw [hp.exists_leads_iff hq (c := fun m n => UInt64.size ≤ m + n)]
  -- The leading exponents are added before their coefficients meet, so no product hides the sum.
  have hmul : FailsIff (.overflow .add)
      (¬ (f ≠ 0 → g ≠ 0 → f.natDegree + g.natDegree < UInt64.size)) (p.mul q) :=
    (store_lawful.mul_returnsIff hp hq).failsIff
  rwa [Classical.not_imp, Classical.not_imp, not_lt] at hmul

omit [DecidableEq R] in
theorem shift_failsIff (hp : p.Represents f) (n : Exponent) : FailsIff (.overflow .add)
    (∃ t ∈ p.lead?, UInt64.size ≤ t.1.toNat + n.toNat) (p.shift n) := by
  rw [hp.exists_lead?_iff (c := fun m => UInt64.size ≤ m + n.toNat)]
  have hshift := (shift_returnsIff hp n).failsIff
  rwa [Classical.not_imp, not_lt] at hshift

variable [NoZeroDivisors R]

/-- Powers that are formed on the way are lower than the one asked for, and that one has the full
degree. -/
theorem pow_failsIff (hp : p.Represents f) (n : ℕ) : FailsIff (.overflow .add)
    (∃ t ∈ p.lead?, UInt64.size ≤ t.1.toNat * n) (p.pow n) := by
  have hpow := pow_ends hp n
  rw [hp.exists_lead?_iff (c := fun m => UInt64.size ≤ m * n)]
  refine .of_ends (hpow.weaken fun _ ⟨_, _, _, he⟩ => he.1) ?_ ?_
  · rintro r hr ⟨-, hlarge⟩
    have hlt := (hpow.of_eq_ok hr).natDegree_lt
    rw [natDegree_pow, mul_comm] at hlt
    omega
  · intro hfit
    have hlt : n * f.natDegree < UInt64.size := by
      by_cases hf : f = 0
      · rw [hf, natDegree_zero, mul_zero]
        decide
      · by_contra hlarge
        rw [mul_comm, not_lt] at hlarge
        exact hfit ⟨hf, hlarge⟩
    exact (store_lawful.pow_of_room hp hlt).exists_ok

theorem compose_failsIff (hp : p.Represents f) (hq : q.Represents g) : FailsIff (.overflow .add)
    (∃ s ∈ p.lead?, ∃ t ∈ q.lead?, UInt64.size ≤ s.1.toNat * t.1.toNat) (p.compose q) := by
  have hcomp : Ends (NoRoomForPowers (· < UInt64.size) g f.natDegree) (p.compose q)
      (·.Represents (f.comp g)) := store_lawful.compose_ends hp hq
  rw [hp.exists_leads_iff hq (c := fun m n => UInt64.size ≤ m * n)]
  refine .of_ends (hcomp.weaken fun _ ⟨_, _, _, he⟩ => he.1) ?_ ?_
  · rintro r hr ⟨-, -, hlarge⟩
    have hlt := (hcomp.of_eq_ok hr).natDegree_lt
    rw [natDegree_comp] at hlt
    omega
  · intro hfit
    have hlt : f.natDegree * g.natDegree < UInt64.size := by
      by_cases hf : f = 0
      · rw [hf, natDegree_zero, zero_mul]
        decide
      · by_cases hg : g = 0
        · rw [hg, natDegree_zero, mul_zero]
          decide
        · by_contra hlarge
          exact hfit ⟨hf, hg, not_lt.mp hlarge⟩
    exact (store_lawful.compose_of_room hp hq le_rfl le_rfl hlt).exists_ok

theorem overflowsExactly (hp : p.Canonical) (hq : q.Canonical) : OverflowsExactly p q := by
  have hf := represents_toPoly hp
  have hg := represents_toPoly hq
  exact {
    mul := mul_failsIff hf hg
    shift := shift_failsIff hf
    pow := pow_failsIff hf
    compose := compose_failsIff hf hg
    add := (add_represents hf hg).exists_ok
    sub := (sub_represents hf hg).exists_ok
    neg := (neg_represents hf).exists_ok
    scale := fun c => (scale_represents hf c).exists_ok
    eval := fun x => (eval_returns hf x).exists_ok
    derivative := (derivative_represents_derivedTerms p).exists_ok }

end Sparse

omit [ExactCoeff R] in
theorem DivisionStore.Lawful.refusesZeroAlone {P : Type} [CoeffDiv R] {S : DivisionStore R P}
    {Rep : P → R[X] → Prop} {Room : ℕ → Prop} (h : S.Lawful Rep Room) {a b : P}
    (ha : S.Canonical a) (hb : S.Canonical b) : S.RefusesZeroAlone a b := by
  obtain ⟨f, hf⟩ := h.represented ha
  obtain ⟨g, hg⟩ := h.represented hb
  have hdivRem := h.divRem_failsIff hf hg
  refine ⟨hdivRem, ?_, ?_, h.monic_failsIff hf, h.gcd_failsIff hf hg⟩
  · rw [h.div_eq]
    exact hdivRem.map _
  · rw [h.rem_eq]
    exact hdivRem.map _

/-- Sparse polynomials over the integers, the rationals, and the residues of any prime. -/
theorem sparse_overflows_exactly :
    (∀ p q : Sparse ℤ, p.Canonical → q.Canonical → p.OverflowsExactly q) ∧
      (∀ p q : Sparse ℚ, p.Canonical → q.Canonical → p.OverflowsExactly q ∧
        Sparse.divisionStore.RefusesZeroAlone p q) ∧
        ∀ m : Modulus, m.word.toNat.Prime → ∀ p q : Sparse (Residue m), p.Canonical →
          q.Canonical → p.OverflowsExactly q ∧ Sparse.divisionStore.RefusesZeroAlone p q := by
  refine ⟨?_, ?_, ?_⟩
  · intro p q hp hq
    exact Sparse.overflowsExactly hp hq
  · intro p q hp hq
    exact ⟨Sparse.overflowsExactly hp hq, Sparse.lawful.refusesZeroAlone hp hq⟩
  · intro m hm p q hp hq
    have hprime : Fact m.word.toNat.Prime := ⟨hm⟩
    have hdomain : NoZeroDivisors (Residue m) := FieldDiv.noZeroDivisors
    exact ⟨Sparse.overflowsExactly hp hq, Sparse.lawful.refusesZeroAlone hp hq⟩

/-- The third power of `x ^ (2 ^ 62)` over the residues of two has a word for its exponent, and the
fourth has none. -/
theorem sparse_overflows_exactly_two :
    let p : Sparse (Residue ⟨2, by decide⟩) := .monomial Coeff.one 4611686018427387904
    Nat.Prime 2 ∧ p.Canonical ∧ (∃ r, p.pow 3 = .ok r) ∧ p.pow 4 = .error (.overflow .add) := by
  intro p
  have hp : p.Canonical := Sparse.canonical_monomial _ _
  have hpow := ((sparse_overflows_exactly.2.2 ⟨2, by decide⟩ Nat.prime_two p p hp hp).1).pow
  have hlead : p.lead? = some (4611686018427387904, Coeff.one) := by decide
  refine ⟨Nat.prime_two, hp, (hpow 3).result ?_, (hpow 4).fails ?_⟩
  · rw [hlead]
    rintro ⟨t, ht, hlarge⟩
    obtain rfl := Option.some.inj ht
    exact absurd hlarge (by decide)
  · exact ⟨_, hlead, by decide⟩

end Univariate
