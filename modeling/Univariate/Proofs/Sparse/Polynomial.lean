import Mathlib.Algebra.Polynomial.Degree.Operations
import Mathlib.Data.Nat.WithBot
import Univariate.Proofs.Sparse.Canonical

/-! Sparse polynomials as formal polynomials. A canonical list of terms is the only one that
denotes its polynomial. -/
namespace Univariate.Sparse

open Polynomial

section SumOf

variable {R : Type} [CommRing R] {l : List (Exponent × R)}

/-- The formal polynomial of one term. -/
noncomputable def termOf (t : Exponent × R) : R[X] := Polynomial.monomial t.1.toNat t.2

/-- The sum of the terms of a list, in any order and with repeated exponents. -/
noncomputable def sumOf (l : List (Exponent × R)) : R[X] := (l.map termOf).sum

theorem coeff_termOf (t : Exponent × R) (n : ℕ) :
    (termOf t).coeff n = if t.1.toNat = n then t.2 else 0 := coeff_monomial

@[simp] theorem sumOf_nil : sumOf ([] : List (Exponent × R)) = 0 := rfl

@[simp] theorem sumOf_cons (t : Exponent × R) (l : List (Exponent × R)) :
    sumOf (t :: l) = termOf t + sumOf l := by
  rw [sumOf, List.map_cons, List.sum_cons, sumOf]

/-- What respects sums may be taken term by term. -/
theorem sum_map_termOf {M : Type} [AddCommMonoid M] (φ : R[X] →+ M) (l : List (Exponent × R)) :
    (l.map fun t => φ (termOf t)).sum = φ (sumOf l) := by
  rw [sumOf, map_list_sum, List.map_map]
  rfl

theorem coeff_sumOf_eq_zero {n : ℕ} (h : ∀ t ∈ l, t.1.toNat ≠ n) : (sumOf l).coeff n = 0 := by
  induction l with
  | nil => simp
  | cons t l ih =>
    have ht := h t List.mem_cons_self
    rw [sumOf_cons, coeff_add, ih fun s hs => h s (List.mem_cons_of_mem t hs),
      coeff_termOf, if_neg ht, add_zero]

/-- Where exponents ascend, one term decides a coefficient. -/
theorem coeff_sumOf (h : l.Pairwise fun s t => s.1 < t.1) (n : ℕ) :
    (sumOf l).coeff n = ((l.find? fun t => t.1.toNat = n).map Prod.snd).getD 0 := by
  induction l with
  | nil => simp
  | cons t l ih =>
    obtain ⟨ht, hl⟩ := List.pairwise_cons.mp h
    rw [sumOf_cons, coeff_add, coeff_termOf]
    by_cases hn : t.1.toNat = n
    · have hrest : ∀ s ∈ l, s.1.toNat ≠ n := by
        intro s hs
        have := UInt64.lt_iff_toNat_lt.mp (ht s hs)
        omega
      simp [hn, coeff_sumOf_eq_zero hrest]
    · simp [hn, ih hl]

end SumOf

variable {R : Type} [CommRing R] [Coeff R]

/-- The formal polynomial of the stored terms. -/
noncomputable def toPoly (p : Sparse R) : R[X] := sumOf p.terms

/-- The canonical list of the terms of `f`. -/
structure Represents (p : Sparse R) (f : R[X]) : Prop where
  canonical : p.Canonical
  toPoly_eq : p.toPoly = f

variable {p q : Sparse R} {f g : R[X]}

theorem represents_toPoly (h : p.Canonical) : p.Represents p.toPoly := ⟨h, rfl⟩

theorem represents_zero : (zero : Sparse R).Represents 0 := ⟨canonical_zero, rfl⟩

/-- Every exponent of the polynomial is a word. -/
theorem Represents.degree_lt (h : p.Represents f) : f.degree < UInt64.size := by
  rw [degree_lt_iff_coeff_zero]
  intro n hn
  rw [← h.toPoly_eq]
  refine coeff_sumOf_eq_zero fun t _ => ?_
  have := t.1.toNat_lt
  have hsize : UInt64.size = 2 ^ 64 := rfl
  omega

theorem Represents.natDegree_lt (h : p.Represents f) : f.natDegree < UInt64.size := by
  rcases eq_or_ne f 0 with rfl | hf
  · simp [UInt64.size]
  · rw [natDegree_lt_iff_degree_lt hf]
    exact h.degree_lt

/-- A loop over the terms that adds what an additive map makes of each adds what it makes of the
whole polynomial. -/
theorem foldlM_terms_ends {A M : Type} [AddCommMonoid M] {E : Fault → Prop} (rep : A → M → Prop)
    (φ : R[X] →+ M) {step : A → Exponent × R → Except Fault A} {a : A} {x : M}
    (hp : p.Represents f) (ha : rep a x)
    (hstep : ∀ t ∈ p.terms, ∀ b y, rep b y → Ends E (step b t) (rep · (y + φ (termOf t)))) :
    Ends E (p.terms.foldlM step a) (rep · (x + φ f)) := by
  have h := Ends.foldlM_sum rep (fun t => φ (termOf t)) ha hstep
  rwa [sum_map_termOf, ← toPoly, hp.toPoly_eq] at h

theorem foldlM_terms {A M : Type} [AddCommMonoid M] (rep : A → M → Prop) (φ : R[X] →+ M)
    {step : A → Exponent × R → Except Fault A} {a : A} {x : M} (hp : p.Represents f) (ha : rep a x)
    (hstep : ∀ t ∈ p.terms, ∀ b y, rep b y → Returns (step b t) (rep · (y + φ (termOf t)))) :
    Returns (p.terms.foldlM step a) (rep · (x + φ f)) := by
  refine (foldlM_terms_ends (E := fun _ => False) rep φ hp ha ?_).returns fun _ => id
  exact fun t ht b y hb => (hstep t ht b y hb).ends

variable [ExactCoeff R]

@[simp] theorem coeff_toPoly (p : Sparse R) (n : ℕ) : p.toPoly.coeff n = p.coeff n := by
  rw [toPoly, coeff_sumOf p.ascending, coeff, get?, ExactCoeff.zero_eq]

namespace Represents

theorem coeff_eq (h : p.Represents f) (n : ℕ) : p.coeff n = f.coeff n := by
  rw [← coeff_toPoly, h.toPoly_eq]

/-- The stored terms are those of coefficients that are not zero. -/
theorem mem_terms_iff (h : p.Represents f) {t : Exponent × R} :
    t ∈ p.terms ↔ t.2 ≠ 0 ∧ f.coeff t.1.toNat = t.2 := by
  rw [h.canonical.mem_terms_iff, ExactCoeff.zero_eq, h.coeff_eq]

theorem le_natDegree (h : p.Represents f) {t : Exponent × R} (ht : t ∈ p.terms) :
    t.1.toNat ≤ f.natDegree := by
  obtain ⟨hne, hcoeff⟩ := h.mem_terms_iff.mp ht
  exact le_natDegree_of_ne_zero (hcoeff.symm ▸ hne)

/-- A polynomial has one canonical list of terms. -/
theorem unique (hp : p.Represents f) (hq : q.Represents f) : p = q :=
  hp.canonical.ext hq.canonical fun n => by rw [hp.coeff_eq, hq.coeff_eq]

/-- As many terms are stored as there are coefficients that are not zero. -/
theorem length_terms (h : p.Represents f) : p.terms.length = f.support.card := by
  have hnodup : (p.terms.map fun t => t.1.toNat).Nodup :=
    List.pairwise_map.mpr (p.ascending.imp fun hlt => (UInt64.lt_iff_toNat_lt.mp hlt).ne)
  have hsupport : (p.terms.map fun t => t.1.toNat).toFinset = f.support := by
    ext n
    rw [List.mem_toFinset, List.mem_map, mem_support_iff]
    constructor
    · rintro ⟨t, ht, rfl⟩
      obtain ⟨hne, hcoeff⟩ := h.mem_terms_iff.mp ht
      exact hcoeff.symm ▸ hne
    · intro hne
      have hn : n < UInt64.size := (le_natDegree_of_ne_zero hne).trans_lt h.natDegree_lt
      have htoNat : (UInt64.ofNat n).toNat = n := UInt64.toNat_ofNat_of_lt' hn
      exact ⟨(UInt64.ofNat n, f.coeff n), h.mem_terms_iff.mpr ⟨hne, by rw [htoNat]⟩, htoNat⟩
  rw [← hsupport, List.toFinset_card_of_nodup hnodup, List.length_map]

theorem height_le_iff (h : p.Represents f) {n : ℕ} : p.height ≤ n ↔ f.degree < n := by
  rw [h.canonical.height_le_iff, degree_lt_iff_coeff_zero]
  simp only [h.coeff_eq, ExactCoeff.zero_eq]

theorem height_eq_zero_iff (h : p.Represents f) : p.height = 0 ↔ f = 0 := by
  rw [← Nat.le_zero, h.height_le_iff, Nat.cast_zero, Nat.WithBot.lt_zero_iff, degree_eq_bot]

theorem height_eq (h : p.Represents f) (hf : f ≠ 0) : p.height = f.natDegree + 1 := by
  have hle := h.height_le_iff (n := f.natDegree)
  have hlt := h.height_le_iff (n := f.natDegree + 1)
  rw [degree_eq_natDegree hf] at hle hlt
  have h₁ : ¬ p.height ≤ f.natDegree := fun hn => lt_irrefl _ (hle.mp hn)
  have h₂ : p.height ≤ f.natDegree + 1 :=
    hlt.mpr (by exact_mod_cast Nat.lt_succ_self f.natDegree)
  omega

theorem lead?_eq_none_iff (h : p.Represents f) : p.lead? = none ↔ f = 0 := by
  rw [← h.height_eq_zero_iff, height]
  cases p.lead? <;> simp

theorem isZero_iff (h : p.Represents f) : p.isZero = true ↔ f = 0 := by
  rw [← h.lead?_eq_none_iff, isZero, lead?, List.isEmpty_iff, List.getLast?_eq_none_iff]

theorem eq_zero_iff (h : p.Represents f) : p = zero ↔ f = 0 := by
  rw [← h.isZero_iff, isZero, List.isEmpty_iff]
  cases p
  simp [zero]

/-- The leading term holds the degree and the leading coefficient. -/
theorem lead?_spec (h : p.Represents f) {t : Exponent × R} (ht : p.lead? = some t) :
    f ≠ 0 ∧ t.1.toNat = f.natDegree ∧ t.2 = f.leadingCoeff := by
  have hf : f ≠ 0 := by
    intro hf
    rw [← h.lead?_eq_none_iff, ht] at hf
    cases hf
  have hheight := h.height_eq hf
  rw [height, ht] at hheight
  have hdeg : t.1.toNat = f.natDegree := by simpa using hheight
  refine ⟨hf, hdeg, ?_⟩
  rw [leadingCoeff, ← hdeg]
  exact (h.mem_terms_iff.mp (List.mem_of_getLast? ht)).2.symm

theorem exists_lead? (h : p.Represents f) (hf : f ≠ 0) : ∃ t, p.lead? = some t := by
  cases ht : p.lead? with
  | none => exact absurd (h.lead?_eq_none_iff.mp ht) hf
  | some t => exact ⟨t, rfl⟩

theorem leadingCoeff?_eq (h : p.Represents f) (hf : f ≠ 0) :
    p.leadingCoeff? = some f.leadingCoeff := by
  obtain ⟨t, ht⟩ := h.exists_lead? hf
  rw [leadingCoeff?, ht, ← (h.lead?_spec ht).2.2]
  rfl

theorem leadingCoeff?_eq_none (h : p.Represents 0) : p.leadingCoeff? = none := by
  rw [leadingCoeff?, h.lead?_eq_none_iff.mpr rfl]
  rfl

/-- Degrees from `maxDegree` on are not told apart. -/
theorem degree_eq (h : p.Represents f) (hf : f ≠ 0) :
    p.degree = Nat.min f.natDegree maxDegree := by
  obtain ⟨t, ht⟩ := h.exists_lead? hf
  rw [degree, ht, ← (h.lead?_spec ht).2.1]

end Represents

variable [DecidableEq R]

theorem Represents.isMonic_iff (h : p.Represents f) (hf : f ≠ 0) :
    p.isMonic = true ↔ f.Monic := by
  simp [isMonic, h.leadingCoeff?_eq hf, Monic]

theorem addTerm_represents (hp : p.Represents f) (e : Exponent) (c : R) :
    Returns (p.addTerm e c) (·.Represents (f + termOf (e, c))) := by
  rw [addTerm_eq hp.canonical, ExactCoeff.add_eq, Fault.ok_bind]
  refine .pure ⟨canonical_set hp.canonical e _, ?_⟩
  ext n
  rw [coeff_toPoly, coeff_set, coeff_add, coeff_termOf, ← hp.coeff_eq]
  split
  · subst n
    rfl
  · rw [add_zero]

theorem ofTerms_represents (l : List (Exponent × R)) :
    Returns (ofTerms l) (·.Represents (sumOf l)) := by
  rw [← zero_add (sumOf l)]
  exact Returns.foldlM Represents termOf represents_zero fun t _ _ _ hs =>
    addTerm_represents hs t.1 t.2

theorem represents_monomial (c : R) (n : Exponent) :
    (monomial c n).Represents (termOf (n, c)) := by
  have h := addTerm_represents represents_zero n c
  rw [addTerm, ExactCoeff.zero_eq] at h
  rw [monomial, ExactCoeff.zero_eq]
  split
  · rename_i hc
    rw [if_pos hc, zero_add] at h
    exact h.of_eq_ok rfl
  · rename_i hc
    rw [if_neg hc, zero_add] at h
    exact h.of_eq_ok rfl

theorem represents_constant (c : R) : (constant c).Represents (C c) := by
  have h := represents_monomial c 0
  rwa [termOf, UInt64.toNat_zero, monomial_zero_left] at h

theorem represents_one : (one : Sparse R).Represents 1 := by
  simpa [one] using represents_constant (1 : R)

theorem represents_x : (x : Sparse R).Represents X := by
  have h := represents_monomial (1 : R) 1
  rw [termOf, UInt64.toNat_one, monomial_one_one_eq_X] at h
  rwa [x, ExactCoeff.one_eq]

end Univariate.Sparse
