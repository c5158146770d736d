import Univariate.Proofs.LongDivision
import Univariate.Proofs.Sparse.Arithmetic
import Univariate.Sparse.Division

/-! Long division and monic forms of sparse polynomials, read as formal polynomials. -/
namespace Univariate.Sparse

open Polynomial

variable {R : Type} [CommRing R] [Coeff R] [ExactCoeff R] {p q : Sparse R} {f g : R[X]}

theorem erase_represents (hp : p.Represents f) (e : Exponent) :
    (p.erase e).Represents (f.erase e.toNat) := by
  refine ⟨canonical_erase hp.canonical e, ?_⟩
  ext n
  rw [coeff_toPoly, coeff_erase, hp.coeff_eq, Polynomial.coeff_erase, ExactCoeff.zero_eq]
  exact if_congr eq_comm rfl rfl

/-- What a round subtracts multiples of is stored below the leading term. -/
theorem Represents.sumOf_termsBelow (hq : q.Represents g) {lead : Exponent × R}
    (hlead : q.lead? = some lead) : sumOf (q.termsBelow lead.1) = g.eraseLead := by
  obtain ⟨hg, hexp, -⟩ := hq.lead?_spec hlead
  have hbelow : q.termsBelow lead.1 = (q.erase lead.1).terms := by
    apply List.filter_congr
    intro t ht
    have hle : t.1 ≤ lead.1 := by
      rw [UInt64.le_iff_toNat_le, hexp]
      exact hq.le_natDegree ht
    have hiff : t.1 < lead.1 ↔ t.1 ≠ lead.1 := by
      rw [UInt64.lt_iff_le_and_ne, and_iff_right hle]
    simp [hiff]
  rw [hbelow, eraseLead, ← hexp]
  exact (erase_represents hq lead.1).toPoly_eq

/-- The exponents that a round forms lie below the dropped one, so none overflows. -/
theorem reduce_represents [DecidableEq R] (hp : p.Represents f) (factor : R) {shift : Exponent}
    {low : List (Exponent × R)} (h : ∀ t ∈ low, t.1.toNat + shift.toNat < UInt64.size) :
    Returns (reduce factor shift p low)
      (·.Represents (f - Polynomial.monomial shift.toNat factor * sumOf low)) := by
  induction low generalizing p f with
  | nil => exact .ok (by simpa using hp)
  | cons t low ih =>
    obtain ⟨e, c⟩ := t
    have hfit : e.toNat + shift.toNat < UInt64.size := h (e, c) List.mem_cons_self
    have hadd := Word.add_eq_ok hfit
    rw [reduce, hadd, Fault.ok_bind, ExactCoeff.mul_eq, Fault.ok_bind, ExactCoeff.neg_eq,
      Fault.ok_bind]
    refine (addTerm_represents hp (e + shift) (-(factor * c))).bind fun r hr => ?_
    have hterm : termOf (e + shift, -(factor * c)) =
        -(Polynomial.monomial shift.toNat factor * termOf (e, c)) := by
      rw [termOf, termOf, monomial_mul_monomial, Word.toNat_add hadd, map_neg, add_comm]
    have hrest := ih hr fun s hs => h s (List.mem_cons_of_mem _ hs)
    rw [hterm] at hrest
    rw [sumOf_cons, mul_add, ← sub_sub, sub_eq_add_neg f]
    exact hrest

variable [CoeffDiv R]

/-- The rounds that began at `s`, with `f` left and `u` found, have come to `t`. -/
structure Divided (f g u : R[X]) (s t : LongDivision (Sparse R)) : Prop where
  quotient : t.quotient.Represents (u + longQuotient f g)
  remainder : t.remainder.Represents (longRemainder f g)
  steps_eq : t.steps = s.steps + longSteps f g

omit [ExactCoeff R] in
theorem divided_self (hg : g ≠ 0) {s : LongDivision (Sparse R)} {u : R[X]}
    (hs : s.remainder.Represents f) (hu : s.quotient.Represents u) (hf : f.degree < g.natDegree) :
    Divided f g u s s := by
  obtain ⟨ht, hr⟩ := long_of_degree_lt hg hf
  refine ⟨?_, ?_, ?_⟩
  · rwa [longQuotient, ht, mul_zero, add_zero]
  · rwa [hr]
  · rw [longSteps, ht, support_zero, Finset.card_empty, add_zero]

variable [DecidableEq R]

theorem monic_zero (hp : p.Represents 0) : p.monic = .error .zeroPolynomial := by
  rw [monic, hp.leadingCoeff?_eq_none]

theorem divRem_zero (p : Sparse R) (hq : q.Represents 0) : p.divRem q = .error .zeroPolynomial := by
  rw [divRem, hq.lead?_eq_none_iff.mpr rfl]

variable [ReciprocalDiv R]

/-- One round, when the remainder reaches the divisor's degree. -/
theorem divStep_returns (hq : q.Represents g) {lead top : Exponent × R}
    {s : LongDivision (Sparse R)} {u : R[X]} (hlead : q.lead? = some lead)
    (hs : s.remainder.Represents f) (hu : s.quotient.Represents u)
    (htop : s.remainder.lead? = some top) (hle : ¬ top.1 < lead.1) :
    Returns (divStep q lead top s) fun t =>
      t.quotient.Represents (u + C (Coeff.reciprocal g.leadingCoeff) *
          Polynomial.monomial (f.natDegree - g.natDegree) f.leadingCoeff) ∧
        t.remainder.Represents (cancelLead f g) ∧ t.steps = s.steps + 1 := by
  obtain ⟨hg, hexp, hcoeff⟩ := hq.lead?_spec hlead
  obtain ⟨hf, hexp', hcoeff'⟩ := hs.lead?_spec htop
  have hshift := UInt64.toNat_sub_of_le _ _ (UInt64.not_lt.mp hle)
  rw [UInt64.lt_iff_toNat_lt, hexp, hexp'] at hle
  rw [hexp, hexp'] at hshift
  have hfit : ∀ t ∈ q.termsBelow lead.1, t.1.toNat + (top.1 - lead.1).toNat < UInt64.size := by
    intro t ht
    have hlt : t.1 < lead.1 := by simpa using (List.mem_filter.mp ht).2
    rw [UInt64.lt_iff_toNat_lt, hexp] at hlt
    have := hs.natDegree_lt
    omega
  have hreduce := reduce_represents (erase_represents hs top.1)
    (f.leadingCoeff * Coeff.reciprocal g.leadingCoeff) hfit
  rw [hq.sumOf_termsBelow hlead, hshift, hexp'] at hreduce
  rw [divStep, hcoeff, hcoeff', ReciprocalDiv.div_eq _ (leadingCoeff_ne_zero.mpr hg)]
  refine hreduce.bind fun r hr => ?_
  refine (addTerm_represents hu (top.1 - lead.1) _).bind fun quotient hquotient => ?_
  refine .pure ⟨?_, hr, rfl⟩
  rw [C_mul_monomial, mul_comm (Coeff.reciprocal _), ← hshift]
  exact hquotient

theorem divSteps_returns (hq : q.Represents g) {lead : Exponent × R} (hlead : q.lead? = some lead)
    {s : LongDivision (Sparse R)} {u : R[X]} (hs : s.remainder.Represents f)
    (hu : s.quotient.Represents u) : Returns (divSteps q lead s) (Divided f g u s) := by
  obtain ⟨hg, hexp, -⟩ := hq.lead?_spec hlead
  fun_induction divSteps q lead s generalizing f u with
  | case1 s htop =>
    obtain rfl := hs.lead?_eq_none_iff.mp htop
    exact .ok (divided_self hg hs hu (by simp [bot_lt_iff_ne_bot]))
  | case2 s top htop hlt =>
    obtain ⟨hf, hexp', -⟩ := hs.lead?_spec htop
    rw [UInt64.lt_iff_toNat_lt, hexp, hexp'] at hlt
    refine .ok (divided_self hg hs hu ?_)
    rw [degree_eq_natDegree hf]
    exact_mod_cast hlt
  | case3 s top htop hle e he =>
    obtain ⟨t, ht, -⟩ := divStep_returns hq hlead hs hu htop hle
    cases he.symm.trans ht
  | case4 s top htop hle t ht ih =>
    obtain ⟨hf, hexp', -⟩ := hs.lead?_spec htop
    obtain ⟨hquotient, hremainder, hsteps⟩ :=
      (divStep_returns hq hlead hs hu htop hle).of_eq_ok ht
    rw [UInt64.lt_iff_toNat_lt, hexp, hexp', not_lt] at hle
    obtain ⟨htops, hrem, hcount⟩ := long_cancelLead hg hf hle
    refine (ih hremainder hquotient).imp fun t' ht' => ⟨?_, ?_, ?_⟩
    · rw [longQuotient, htops, mul_add, ← add_assoc]
      exact ht'.quotient
    · rw [hrem]
      exact ht'.remainder
    · rw [ht'.steps_eq, hsteps, hcount]
      omega

/-- Every division is recorded. -/
noncomputable def divisionLog (f g : R[X]) : List Event :=
  [.sparseDivision (longSteps f g) g.support.card]

theorem divRem_returns (hp : p.Represents f) (hq : q.Represents g) (hg : g ≠ 0) :
    Returns (p.divRem q) fun t =>
      t.value.1.Represents (longQuotient f g) ∧ t.value.2.Represents (longRemainder f g) ∧
        t.log = divisionLog f g := by
  obtain ⟨lead, hlead⟩ := hq.exists_lead? hg
  rw [divRem, hlead]
  refine (divSteps_returns (s := ⟨zero, p, 0⟩) hq hlead hp represents_zero).bind fun t ht => ?_
  obtain ⟨hquotient, hremainder, hsteps⟩ := ht
  rw [zero_add] at hquotient hsteps
  rw [hsteps, hq.length_terms, divisionLog]
  exact .pure ⟨hquotient, hremainder, rfl⟩

theorem div_returns (hp : p.Represents f) (hq : q.Represents g) (hg : g ≠ 0) :
    Returns (p.div q) (·.value.Represents (longQuotient f g)) :=
  (divRem_returns hp hq hg).bind fun _ ht => .pure ht.1

theorem rem_returns (hp : p.Represents f) (hq : q.Represents g) (hg : g ≠ 0) :
    Returns (p.rem q) fun t =>
      t.value.Represents (longRemainder f g) ∧ t.log = divisionLog f g :=
  (divRem_returns hp hq hg).bind fun _ ht => .pure ht.2

theorem monic_represents (hp : p.Represents f) (hf : f ≠ 0) :
    Returns p.monic (·.Represents (monicForm f)) := by
  rw [monic, hp.leadingCoeff?_eq hf, ExactCoeff.one_eq, monicForm]
  dsimp only
  split
  · exact .ok hp
  · rw [← zero_add (C _ * f)]
    refine foldlM_terms Represents (AddMonoidHom.mulLeft (C (Coeff.reciprocal f.leadingCoeff))) hp
      represents_zero fun t _ r x hr => ?_
    change Returns (CoeffDiv.div t.2 f.leadingCoeff >>= r.addTerm t.1) _
    rw [ReciprocalDiv.div_eq _ (leadingCoeff_ne_zero.mpr hf), Fault.ok_bind,
      AddMonoidHom.coe_mulLeft, termOf, C_mul_monomial, mul_comm (Coeff.reciprocal _)]
    exact addTerm_represents hr _ _

end Univariate.Sparse
