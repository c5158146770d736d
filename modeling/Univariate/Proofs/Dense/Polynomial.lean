import Mathlib.Algebra.Polynomial.Degree.Operations
import Mathlib.Data.Nat.WithBot
import Univariate.Proofs.Dense.Canonical

/-! Dense polynomials as formal polynomials. A canonical list is the only one that denotes its
polynomial, so every equality of lists below is one of polynomials. -/
namespace Univariate.Dense

open Polynomial

section PolyOf

variable {R : Type} [CommRing R]

/-- The polynomial with the given coefficients, ascending from the constant one. -/
noncomputable def polyOf : List R → R[X]
  | [] => 0
  | a :: l => C a + X * polyOf l

@[simp] theorem polyOf_nil : polyOf ([] : List R) = 0 := rfl

@[simp] theorem polyOf_cons (a : R) (l : List R) : polyOf (a :: l) = C a + X * polyOf l := rfl

theorem coeff_polyOf (l : List R) (n : ℕ) : (polyOf l).coeff n = l.getD n 0 := by
  induction l generalizing n with
  | nil => simp
  | cons a l ih => cases n <;> simp [coeff_C_succ, ih]

theorem polyOf_append (l l' : List R) : polyOf (l ++ l') = polyOf l + X ^ l.length * polyOf l' := by
  induction l with
  | nil => simp
  | cons a l ih =>
    rw [List.cons_append, polyOf_cons, ih, polyOf_cons, List.length_cons]
    ring

theorem polyOf_replicate_zero (n : ℕ) : polyOf (List.replicate n (0 : R)) = 0 := by
  induction n with
  | zero => rfl
  | succ n ih => simp [List.replicate_succ, ih]

theorem polyOf_map_mul (s : R) (l : List R) : polyOf (l.map (s * ·)) = C s * polyOf l := by
  induction l with
  | nil => simp
  | cons a l ih =>
    rw [List.map_cons, polyOf_cons, ih, polyOf_cons, C_mul]
    ring

theorem degree_polyOf_lt (l : List R) : (polyOf l).degree < l.length := by
  rw [degree_lt_iff_coeff_zero]
  intro n hn
  rw [coeff_polyOf, List.getD_eq_default _ _ hn]

end PolyOf

variable {R : Type} [CommRing R] [Coeff R]

/-- The formal polynomial of the stored coefficients. -/
noncomputable def toPoly (p : Dense R) : R[X] := polyOf p.coeffs

/-- The canonical list of the coefficients of `f`. -/
structure Represents (p : Dense R) (f : R[X]) : Prop where
  canonical : p.Canonical
  toPoly_eq : p.toPoly = f

variable {p q : Dense R} {f g : R[X]}

theorem represents_toPoly (h : p.Canonical) : p.Represents p.toPoly := ⟨h, rfl⟩

theorem represents_zero : (zero : Dense R).Represents 0 := ⟨canonical_zero, rfl⟩

variable [ExactCoeff R]

@[simp] theorem coeff_toPoly (p : Dense R) (n : ℕ) : p.toPoly.coeff n = p.coeff n := by
  rw [toPoly, coeff_polyOf, coeff, ExactCoeff.zero_eq]

namespace Represents

omit [ExactCoeff R] in
theorem polyOf_eq (h : p.Represents f) : polyOf p.coeffs = f := h.toPoly_eq

theorem coeff_eq (h : p.Represents f) (n : ℕ) : p.coeff n = f.coeff n := by
  rw [← coeff_toPoly, h.toPoly_eq]

/-- The last stored coefficient is not zero. -/
theorem getLast?_ne (h : p.Represents f) : p.coeffs.getLast? ≠ some 0 := by
  have hc := h.canonical
  rwa [Canonical, ExactCoeff.zero_eq] at hc

/-- No shorter list denotes the polynomial. -/
theorem length_le_iff (h : p.Represents f) {n : ℕ} : p.coeffs.length ≤ n ↔ f.degree < n := by
  rw [h.canonical.length_le_iff, degree_lt_iff_coeff_zero]
  simp only [h.coeff_eq, ExactCoeff.zero_eq]

theorem length_eq_zero_iff (h : p.Represents f) : p.coeffs.length = 0 ↔ f = 0 := by
  rw [← Nat.le_zero, h.length_le_iff, Nat.cast_zero, Nat.WithBot.lt_zero_iff, degree_eq_bot]

theorem length_eq (h : p.Represents f) (hf : f ≠ 0) : p.coeffs.length = f.natDegree + 1 := by
  have hle := h.length_le_iff (n := f.natDegree)
  have hlt := h.length_le_iff (n := f.natDegree + 1)
  rw [degree_eq_natDegree hf] at hle hlt
  have h₁ : ¬ p.coeffs.length ≤ f.natDegree := fun hn => lt_irrefl _ (hle.mp hn)
  have h₂ : p.coeffs.length ≤ f.natDegree + 1 :=
    hlt.mpr (by exact_mod_cast Nat.lt_succ_self f.natDegree)
  omega

/-- A polynomial has one canonical list. -/
theorem unique (hp : p.Represents f) (hq : q.Represents f) : p = q :=
  hp.canonical.ext hq.canonical fun n => by rw [hp.coeff_eq, hq.coeff_eq]

theorem eq_zero_iff (h : p.Represents f) : p = zero ↔ f = 0 := by
  rw [← h.length_eq_zero_iff, List.length_eq_zero_iff]
  cases p
  simp [zero]

theorem isZero_iff (h : p.Represents f) : p.isZero = true ↔ f = 0 := by
  rw [isZero, List.isEmpty_iff, ← List.length_eq_zero_iff, h.length_eq_zero_iff]

theorem leadingCoeff?_eq_none (h : p.Represents 0) : p.leadingCoeff? = none := by
  rw [leadingCoeff?, List.getLast?_eq_none_iff, ← List.length_eq_zero_iff, h.length_eq_zero_iff]

theorem leadingCoeff?_eq (h : p.Represents f) (hf : f ≠ 0) :
    p.leadingCoeff? = some f.leadingCoeff := by
  rw [(h.canonical.isTop (h.length_eq hf)).2, h.coeff_eq, leadingCoeff]

theorem degree_eq (h : p.Represents f) (hf : f ≠ 0) : p.degree = f.natDegree := by
  rw [degree, h.length_eq hf]
  push_cast
  ring

end Represents

variable [DecidableEq R]

theorem polyOf_settle (a : R) (l : List R) : polyOf (settle a l) = C a + X * polyOf l := by
  cases l with
  | nil => by_cases h : a = 0 <;> simp [settle, h]
  | cons b l => rfl

theorem polyOf_trim (l : List R) : polyOf (trim l) = polyOf l := by
  induction l with
  | nil => rfl
  | cons a l ih => rw [trim_cons, polyOf_settle, ih, polyOf_cons]

theorem represents_ofList {l : List R} (h : polyOf l = f) : (ofList l).Represents f :=
  ⟨canonical_ofList l, (polyOf_trim l).trans h⟩

theorem represents_constant (c : R) : (constant c).Represents (C c) :=
  represents_ofList (by simp)

theorem represents_one : (one : Dense R).Represents 1 := by
  simpa [one] using represents_constant (1 : R)

theorem represents_x : (x : Dense R).Represents X :=
  represents_ofList (by simp)

theorem Represents.isMonic_iff (h : p.Represents f) (hf : f ≠ 0) :
    p.isMonic = true ↔ f.Monic := by
  simp [isMonic, h.leadingCoeff?_eq hf, Monic]

end Univariate.Dense
