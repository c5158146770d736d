import Mathlib.RingTheory.Ideal.Span
import Univariate.Proofs.LongDivision
import Univariate.Proofs.Returns
import Univariate.Trace

/-! Euclid's algorithm on formal polynomials, over any reciprocals. -/
namespace Univariate

open Polynomial

variable {R : Type} [CommRing R] {f g d d' : R[X]}

/-- Of monic polynomials that divide one another there is but one. -/
theorem monic_unique (hd : d.Monic) (hd' : d'.Monic) (h : d ∣ d') (h' : d' ∣ d) : d = d' := by
  nontriviality R
  refine eq_of_monic_of_dvd_of_natDegree_le hd' hd h' ?_
  by_contra hlt
  exact hd.not_dvd_of_natDegree_lt hd'.ne_zero (not_le.mp hlt) h

variable [Coeff R] [CoeffDiv R]

open Classical in
/-- The dividends and divisors that the chain of remainders comes through, in order. -/
noncomputable def divisions (f g : R[X]) : List (R[X] × R[X]) :=
  if _h : g = 0 then [] else (f, g) :: divisions g (longRemainder f g)
termination_by g.degree
decreasing_by exact (degree_longRemainder_lt _h).trans_eq (degree_eq_natDegree _h).symm

open Classical in
/-- The last member of the chain of remainders before zero. -/
noncomputable def lastRemainder (f g : R[X]) : R[X] :=
  if _h : g = 0 then f else lastRemainder g (longRemainder f g)
termination_by g.degree
decreasing_by exact (degree_longRemainder_lt _h).trans_eq (degree_eq_natDegree _h).symm

theorem divisions_zero (f : R[X]) : divisions f 0 = [] := by
  rw [divisions, dif_pos rfl]

theorem divisions_of_ne (hg : g ≠ 0) :
    divisions f g = (f, g) :: divisions g (longRemainder f g) := by
  rw [divisions, dif_neg hg]

theorem lastRemainder_zero (f : R[X]) : lastRemainder f 0 = f := by
  rw [lastRemainder, dif_pos rfl]

theorem lastRemainder_of_ne (hg : g ≠ 0) :
    lastRemainder f g = lastRemainder g (longRemainder f g) := by
  rw [lastRemainder, dif_neg hg]

/-- Only two zeros leave zero, whatever the reciprocals are. -/
theorem lastRemainder_eq_zero_iff (f g : R[X]) : lastRemainder f g = 0 ↔ f = 0 ∧ g = 0 := by
  fun_induction lastRemainder f g with
  | case1 f => simp
  | case2 f g hg ih => simp [ih, hg]

/-- Each remainder is lower than its divisor, so no more divisions than the first divisor has
exponents at hand, whatever the reciprocals are. -/
theorem length_divisions_le (f g : R[X]) {n : ℕ} (h : g.degree < n) :
    (divisions f g).length ≤ n := by
  fun_induction divisions f g generalizing n with
  | case1 f => exact Nat.zero_le n
  | case2 f g hg ih =>
    have hle := ih (degree_longRemainder_lt hg)
    rw [degree_eq_natDegree hg, Nat.cast_lt] at h
    rw [List.length_cons]
    omega

/-- A chain of remainders that came through the divisions of `f` by `g`, when `logOf` says what
a division logs. -/
structure ChainOf {P : Type} (rep : P → R[X] → Prop) (logOf : R[X] → R[X] → List Event)
    (f g : R[X]) (c : RemainderChain P) : Prop where
  last_rep : rep c.last (lastRemainder f g)
  rounds_eq : c.rounds = (divisions f g).length
  log_eq : c.log = (divisions f g).flatMap fun d => logOf d.1 d.2

namespace ChainOf

variable {P : Type} {rep : P → R[X] → Prop} {logOf : R[X] → R[X] → List Event}

theorem stop {p : P} (hp : rep p f) : ChainOf rep logOf f 0 ⟨p, 0, []⟩ where
  last_rep := by rwa [lastRemainder_zero]
  rounds_eq := by rw [divisions_zero, List.length_nil]
  log_eq := by rw [divisions_zero, List.flatMap_nil]

theorem next {c : RemainderChain P} {l : List Event} (hg : g ≠ 0) (hl : l = logOf f g)
    (hc : ChainOf rep logOf g (longRemainder f g) c) :
    ChainOf rep logOf f g ⟨c.last, c.rounds + 1, l ++ c.log⟩ where
  last_rep := by
    rw [lastRemainder_of_ne hg]
    exact hc.last_rep
  rounds_eq := by rw [divisions_of_ne hg, List.length_cons, hc.rounds_eq]
  log_eq := by rw [divisions_of_ne hg, List.flatMap_cons, hc.log_eq, hl]

/-- A loop that stops at a divisor of zero, and else goes on with the divisor and the remainder,
never divides by zero, and comes through the divisions of the formal polynomials. -/
theorem of_loop {isZero : P → Bool} {rem : P → P → Except Fault (Traced P)}
    {chain : P → P → Except Fault (RemainderChain P)}
    (hloop : ∀ p q, chain p q = if isZero q then .ok ⟨p, 0, []⟩ else do
      let r ← rem p q
      let c ← chain q r.value
      return ⟨c.last, c.rounds + 1, r.log ++ c.log⟩)
    (hzero : ∀ {q g}, rep q g → (isZero q = true ↔ g = 0))
    (hrem : ∀ {p q f g}, rep p f → rep q g → g ≠ 0 → Returns (rem p q) fun t =>
      rep t.value (longRemainder f g) ∧ t.log = logOf f g)
    {p q : P} (hp : rep p f) (hq : rep q g) : Returns (chain p q) (ChainOf rep logOf f g) := by
  fun_induction divisions f g generalizing p q with
  | case1 f =>
    rw [hloop, if_pos ((hzero hq).mpr rfl)]
    exact .ok (.stop hp)
  | case2 f g hg ih =>
    rw [hloop, if_neg (mt (hzero hq).mp hg)]
    refine (hrem hp hq hg).bind fun r hr => ?_
    obtain ⟨hremainder, hlog⟩ := hr
    refine (ih hq hremainder).bind fun c hc => ?_
    exact .pure (.next hg hlog hc)

end ChainOf

noncomputable def longGcd [DecidableEq R] (f g : R[X]) : R[X] := monicForm (lastRemainder f g)

section Field

variable [FieldDiv R]

theorem isUnit_reciprocal (hg : g ≠ 0) : IsUnit (C (Coeff.reciprocal g.leadingCoeff)) := by
  have hinv := FieldDiv.mul_reciprocal (leadingCoeff_ne_zero.mpr hg)
  exact isUnit_C.mpr (IsUnit.of_mul_eq_one_right _ hinv)

theorem longRemainder_eq_zero_iff (hg : g ≠ 0) : longRemainder f g = 0 ↔ g ∣ f := by
  rw [longRemainder, modByMonic_eq_zero_iff_dvd (monic_monicDivisor hg), monicDivisor_eq hg,
    (isUnit_reciprocal hg).mul_left_dvd]

/-- Each division keeps the ideal that dividend and divisor generate. -/
theorem span_lastRemainder (f g : R[X]) :
    Ideal.span {lastRemainder f g} = Ideal.span {f, g} := by
  fun_induction lastRemainder f g with
  | case1 f => rw [Set.pair_comm, Ideal.span_insert_zero]
  | case2 f g hg ih =>
    rw [ih]
    calc Ideal.span {g, longRemainder f g}
        = Ideal.span {longRemainder f g + longQuotient f g * g, g} := by
          rw [Ideal.span_pair_comm, Ideal.span_pair_add_mul_right]
      _ = Ideal.span {f, g} := by rw [add_comm, longQuotient_mul_add hg]

variable [DecidableEq R]

theorem monicForm_eq (hg : g ≠ 0) : monicForm g = monicDivisor g := by
  rw [monicForm, monicDivisor_eq hg]
  split
  · rename_i hlead
    have hinv := FieldDiv.mul_reciprocal (leadingCoeff_ne_zero.mpr hg)
    rw [hlead, one_mul] at hinv
    rw [hlead, hinv, C_1, one_mul]
  · rfl

theorem monic_longGcd (h : ¬ (f = 0 ∧ g = 0)) : (longGcd f g).Monic := by
  have hne := mt (lastRemainder_eq_zero_iff f g).mp h
  rw [longGcd, monicForm_eq hne]
  exact monic_monicDivisor hne

/-- Over a field the algorithm finds a generator of the ideal of its operands. -/
theorem span_longGcd (h : ¬ (f = 0 ∧ g = 0)) :
    Ideal.span {longGcd f g} = Ideal.span {f, g} := by
  have hne := mt (lastRemainder_eq_zero_iff f g).mp h
  rw [longGcd, monicForm_eq hne, monicDivisor_eq hne,
    Ideal.span_singleton_mul_left_unit (isUnit_reciprocal hne), span_lastRemainder]

theorem longGcd_dvd (h : ¬ (f = 0 ∧ g = 0)) : longGcd f g ∣ f ∧ longGcd f g ∣ g := by
  rw [← Ideal.mem_span_singleton, ← Ideal.mem_span_singleton, span_longGcd h]
  exact ⟨Ideal.subset_span (by simp), Ideal.subset_span (by simp)⟩

theorem dvd_longGcd (h : ¬ (f = 0 ∧ g = 0)) (hf : d ∣ f) (hg : d ∣ g) : d ∣ longGcd f g := by
  have hmem : longGcd f g ∈ Ideal.span {f, g} := by
    rw [← span_longGcd h]
    exact Ideal.mem_span_singleton_self _
  obtain ⟨u, v, huv⟩ := Ideal.mem_span_pair.mp hmem
  rw [← huv]
  exact dvd_add (hf.mul_left u) (hg.mul_left v)

/-- The chains that begin with either operand end in one polynomial. -/
theorem longGcd_comm (h : ¬ (f = 0 ∧ g = 0)) : longGcd f g = longGcd g f := by
  have h' : ¬ (g = 0 ∧ f = 0) := fun hzero => h hzero.symm
  obtain ⟨hf, hg⟩ := longGcd_dvd h
  obtain ⟨hg', hf'⟩ := longGcd_dvd h'
  exact monic_unique (monic_longGcd h) (monic_longGcd h') (dvd_longGcd h' hg hf)
    (dvd_longGcd h hf' hg')

end Field

end Univariate
