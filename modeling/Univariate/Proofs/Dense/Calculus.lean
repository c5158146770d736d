import Mathlib.Algebra.Polynomial.Derivative
import Univariate.Dense.Calculus
import Univariate.Proofs.Dense.Arithmetic

/-! Values, compositions and derivatives of dense polynomials, read as formal polynomials. -/
namespace Univariate.Dense

open Polynomial

variable {R : Type} [CommRing R] [Coeff R] [ExactCoeff R] [DecidableEq R] {p q : Dense R}
  {f g : R[X]}

/-- No term is formed for zero, and none is missed. -/
theorem addTermOf_returns {A M : Type} [CommRing M] (φ : R →+* M) (rep : A → M → Prop)
    {term : R → A → Except Fault A} {add : A → A → Except Fault A} {c : R} {sum power : A}
    {x y : M} (hterm : Returns (term c power) (rep · (φ c * y)))
    (hadd : ∀ a, rep a (φ c * y) → Returns (add sum a) (rep · (x + φ c * y)))
    (hsum : rep sum x) : Returns (addTermOf term add c sum power) (rep · (x + φ c * y)) := by
  rw [addTermOf, ExactCoeff.zero_eq]
  split
  · subst c
    exact .ok (by simpa using hsum)
  · exact hterm.bind hadd

omit [Coeff R] [ExactCoeff R] [DecidableEq R] in
/-- The term of the lowest coefficient goes to the sum, and the power goes up by one. -/
theorem add_mul_eval₂_polyOf {M : Type} [CommRing M] (φ : R →+* M) (c : R) (l : List R)
    (x y z : M) : x + y * (polyOf (c :: l)).eval₂ φ z =
      x + φ c * y + y * z * (polyOf l).eval₂ φ z := by
  rw [polyOf_cons, eval₂_add, eval₂_mul, eval₂_C, eval₂_X]
  ring

/-- The running power is multiplied once between two coefficients, so the powers formed are those
up to the last coefficient's. -/
theorem substitute_returns {A M : Type} [CommRing M] (φ : R →+* M) (rep : A → M → Prop)
    {term : R → A → Except Fault A} {add mul : A → A → Except Fault A} {arg : A} {z : M}
    (hterm : ∀ c a x, rep a x → Returns (term c a) (rep · (φ c * x)))
    (hadd : ∀ a b x y, rep a x → rep b y → Returns (add a b) (rep · (x + y)))
    (hmul : ∀ a x, rep a x → Returns (mul a arg) (rep · (x * z)))
    {l : List R} {sum power : A} {x y : M} (hsum : rep sum x) (hpower : rep power y) :
    Returns (substitute term add mul arg sum power l)
      (rep · (x + y * (polyOf l).eval₂ φ z)) := by
  induction l generalizing sum power x y with
  | nil => exact .ok (by simpa using hsum)
  | cons c l ih =>
    have hstep := addTermOf_returns φ rep (hterm c power y hpower)
      (fun a ha => hadd sum a x _ hsum ha) hsum
    cases l with
    | nil =>
      rw [substitute]
      simpa [mul_comm] using hstep
    | cons b l =>
      rw [substitute]
      refine hstep.bind fun sum hsum => (hmul power y hpower).bind fun power hpower => ?_
      rw [add_mul_eval₂_polyOf]
      exact ih hsum hpower

theorem eval_returns (hp : p.Represents f) (x : R) : Returns (p.eval x) (· = f.eval x) := by
  have h : Returns (substitute Coeff.mul Coeff.add Coeff.mul x 0 1 p.coeffs)
      (· = 0 + 1 * (polyOf p.coeffs).eval₂ (RingHom.id R) x) :=
    substitute_returns (RingHom.id R) Eq (fun c a y ha => by simp [Returns, ha])
      (fun a b y z ha hb => by simp [Returns, ha, hb]) (fun a y ha => by simp [Returns, ha]) rfl rfl
  rw [hp.polyOf_eq, zero_add, one_mul] at h
  rw [eval, ExactCoeff.zero_eq, ExactCoeff.one_eq]
  exact h

theorem compose_represents (hp : p.Represents f) (hq : q.Represents g) :
    Returns (p.compose q) (·.Represents (f.comp g)) := by
  have h : Returns (p.compose q) (·.Represents (0 + 1 * (polyOf p.coeffs).eval₂ C g)) :=
    substitute_returns C Represents (fun c a x ha => scale_represents ha c)
      (fun a b x y ha hb => add_represents ha hb) (fun a x ha => mul_represents ha hq)
      represents_zero represents_one
  rw [hp.polyOf_eq, zero_add, one_mul] at h
  exact h

omit [Coeff R] [ExactCoeff R] [DecidableEq R] in
theorem polyOf_derivative (l : List R) :
    polyOf ((l.tail.zipIdx 1).map fun t => (t.2 : ℤ) • t.1) =
      Polynomial.derivative (polyOf l) := by
  ext n
  rw [coeff_polyOf, coeff_derivative, coeff_polyOf]
  cases l with
  | nil => simp
  | cons a l =>
    rw [List.tail_cons, List.getD_cons_succ, List.getD_eq_getElem?_getD, List.getElem?_map,
      List.getElem?_zipIdx, List.getD_eq_getElem?_getD]
    cases l[n]? with
    | none => simp
    | some b =>
      simp only [Option.map_some, Option.getD_some, natCast_zsmul, nsmul_eq_mul, Nat.cast_add,
        Nat.cast_one]
      ring

theorem derivative_represents (hp : p.Represents f) :
    Returns p.derivative (·.Represents (Polynomial.derivative f)) := by
  have hmap := Returns.mapM (l := p.coeffs.tail.zipIdx 1)
    (f := fun t : R × ℕ => Coeff.multiple t.1 t.2) (g := fun t => (t.2 : ℤ) • t.1)
    fun t _ => Coeff.multiple_eq t.1 t.2
  change Returns ((p.coeffs.tail.zipIdx 1).mapM (fun t : R × ℕ => Coeff.multiple t.1 t.2) >>=
    fun l => pure (ofList l)) _
  rw [hmap]
  refine .pure (represents_ofList ?_)
  rw [polyOf_derivative, hp.polyOf_eq]

end Univariate.Dense
