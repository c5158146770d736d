import Mathlib.Algebra.Polynomial.Derivative
import Univariate.Proofs.Sparse.Arithmetic
import Univariate.Sparse.Calculus

/-! Values, compositions and derivatives of sparse polynomials, read as formal polynomials. -/
namespace Univariate.Sparse

open Polynomial

variable {R : Type} [CommRing R] [Coeff R] [ExactCoeff R] [DecidableEq R] {p q : Sparse R}
  {f g : R[X]}

omit [DecidableEq R] in
theorem eval_returns (hp : p.Represents f) (x : R) :
    Returns (p.eval x) (· = Polynomial.eval x f) := by
  rw [eval, ExactCoeff.zero_eq, ← zero_add (Polynomial.eval x f)]
  refine foldlM_terms (fun a y : R => a = y) (Polynomial.evalRingHom x).toAddMonoidHom hp rfl
    fun t _ a y ha => ?_
  change Returns (Coeff.pow x t.1.toNat >>= fun power => Coeff.mul t.2 power >>= Coeff.add a) _
  rw [Coeff.pow_eq, Fault.ok_bind, ExactCoeff.mul_eq, Fault.ok_bind, ExactCoeff.add_eq, ha]
  refine .ok ?_
  change y + _ = y + Polynomial.eval x (termOf t)
  rw [termOf, eval_monomial]

/-- Only the powers at stored exponents are formed, and nothing else can fail. -/
theorem compose_ends {E : Fault → Prop} (hp : p.Represents f)
    (hq : ∀ t ∈ p.terms, Ends E (q.pow t.1.toNat) (·.Represents (g ^ t.1.toNat))) :
    Ends E (p.compose q) (·.Represents (f.comp g)) := by
  rw [← zero_add (f.comp g)]
  refine foldlM_terms_ends Represents (Polynomial.compRingHom g).toAddMonoidHom hp represents_zero
    fun t ht s x hs => ?_
  refine (hq t ht).bind fun power hpower => ?_
  refine (scale_represents hpower t.2).ends.bind fun product hproduct => ?_
  have hsum := add_represents hs hproduct
  rw [← monomial_comp] at hsum
  exact hsum.ends

theorem compose_represents (hp : p.Represents f)
    (hq : ∀ t ∈ p.terms, Returns (q.pow t.1.toNat) (·.Represents (g ^ t.1.toNat))) :
    Returns (p.compose q) (·.Represents (f.comp g)) :=
  (compose_ends (E := fun _ => False) hp fun t ht => (hq t ht).ends).returns fun _ => id

/-- The exponent `n` as a signed word has it. -/
def signedExponent (n : ℕ) : ℤ :=
  if n < 9223372036854775808 then n else n - 18446744073709551616

theorem signedExponent_of_lt {n : ℕ} (h : n < 9223372036854775808) : signedExponent n = n :=
  if_pos h

theorem toInt_toInt64 (e : Exponent) : e.toInt64.toInt = signedExponent e.toNat := by
  change e.toBitVec.toInt = _
  rw [BitVec.toInt_eq_toNat_cond, UInt64.toNat_toBitVec, signedExponent]
  split <;> split <;> omega

/-- What the derivative makes of a term, its exponent read as a signed word. -/
noncomputable def derivedTerm (t : Exponent × R) : R[X] :=
  if 0 < t.1 then termOf (t.1 - 1, t.1.toInt64.toInt • t.2) else 0

omit [Coeff R] [ExactCoeff R] [DecidableEq R] in
theorem coeff_derivedTerm (t : Exponent × R) (n : ℕ) :
    (derivedTerm t).coeff n = signedExponent (n + 1) • (termOf t).coeff (n + 1) := by
  rw [derivedTerm, coeff_termOf t]
  by_cases hpos : 0 < t.1
  · have hnat : 0 < t.1.toNat := UInt64.lt_iff_toNat_lt.mp hpos
    have hpred : (t.1 - 1).toNat = t.1.toNat - 1 :=
      UInt64.toNat_sub_of_le _ _ (UInt64.le_iff_toNat_le.mpr hnat)
    rw [if_pos hpos, coeff_termOf, hpred, toInt_toInt64]
    by_cases hn : t.1.toNat = n + 1
    · rw [if_pos (by omega), if_pos hn, hn]
    · rw [if_neg (by omega), if_neg hn, smul_zero]
  · have ht : t.1 = 0 := UInt64.le_antisymm (UInt64.not_lt.mp hpos) UInt64.zero_le
    have hn : ¬ t.1.toNat = n + 1 := by
      rw [ht, UInt64.toNat_zero]
      omega
    rw [if_neg hpos, if_neg hn, smul_zero, Polynomial.coeff_zero]

omit [Coeff R] [ExactCoeff R] [DecidableEq R] in
theorem coeff_sum_derivedTerm (l : List (Exponent × R)) (n : ℕ) :
    (l.map derivedTerm).sum.coeff n = signedExponent (n + 1) • (sumOf l).coeff (n + 1) := by
  induction l with
  | nil => simp
  | cons t l ih =>
    rw [List.map_cons, List.sum_cons, Polynomial.coeff_add, coeff_derivedTerm, ih, ← smul_add,
      ← Polynomial.coeff_add, ← sumOf_cons]

theorem sum_map_filter {M : Type} [AddCommMonoid M] {T : Type} (c : T → Prop) [DecidablePred c]
    (φ : T → M) (l : List T) :
    ((l.filter fun t => c t).map φ).sum = (l.map fun t => if c t then φ t else 0).sum := by
  induction l with
  | nil => rfl
  | cons t l ih => by_cases ht : c t <;> simp [ht, ih]

theorem derivative_represents_derivedTerms (p : Sparse R) :
    Returns p.derivative (·.Represents (p.terms.map derivedTerm).sum) := by
  unfold derivedTerm
  rw [← sum_map_filter, ← zero_add (List.sum _)]
  refine Returns.foldlM Represents _ represents_zero fun t _ s x hs => ?_
  change Returns (Coeff.multiple t.2 t.1.toInt64.toInt >>= s.addTerm (t.1 - 1)) _
  rw [Coeff.multiple_eq, Fault.ok_bind]
  exact addTerm_represents hs _ _

/-- The derivative has no fault, and takes every coefficient as often as the signed word says. -/
theorem derivative_coeff (p : Sparse R) : Returns p.derivative fun r =>
    ∀ n, r.coeff n = signedExponent (n + 1) • p.coeff (n + 1) := by
  refine (derivative_represents_derivedTerms p).imp fun r hr n => ?_
  rw [hr.coeff_eq, coeff_sum_derivedTerm, ← toPoly, coeff_toPoly]

/-- Below `2 ^ 63` the signed words are the exponents. -/
theorem derivative_represents (hp : p.Represents f)
    (h : ∀ t ∈ p.terms, t.1.toNat < 9223372036854775808) :
    Returns p.derivative (·.Represents (Polynomial.derivative f)) := by
  have hsum : (p.terms.map derivedTerm).sum = Polynomial.derivative f := by
    ext n
    rw [coeff_sum_derivedTerm, coeff_derivative, ← hp.toPoly_eq, toPoly]
    by_cases hn : n + 1 < 9223372036854775808
    · rw [signedExponent_of_lt hn, natCast_zsmul, nsmul_eq_mul, Nat.cast_add_one, mul_comm]
    · have hfree : (sumOf p.terms).coeff (n + 1) = 0 := by
        refine coeff_sumOf_eq_zero fun t ht heq => ?_
        have hlt := h t ht
        omega
      rw [hfree, smul_zero, zero_mul]
  have hterms := derivative_represents_derivedTerms p
  rwa [hsum] at hterms

end Univariate.Sparse
