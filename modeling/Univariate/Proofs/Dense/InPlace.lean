import Univariate.Proofs.Dense.Division

/-! Long division of dense polynomials as a loop that overwrites the slots of the dividend. It reads
and writes slots by their index, finds each of them, and ends as the division that brings the
coefficients of the dividend down one by one. -/
namespace Univariate.Dense

open Polynomial

section Loop

variable {R : Type}

/-- The slot at an index. An index beyond the slots raises the fault `outside`. -/
def slotAt (outside : Fault) (l : List R) (i : ℕ) : Except Fault R :=
  match l[i]? with
  | some a => .ok a
  | none => .error outside

/-- Overwrites the slot at an index, which must be there. -/
def overwrite (outside : Fault) (l : List R) (i : ℕ) (a : R) : Except Fault (List R) :=
  if i < l.length then .ok (l.set i a) else .error outside

variable [Coeff R]

/-- Subtracts `factor` times each coefficient of a list from the slots that begin at index `i`. -/
def subtractAt (outside : Fault) (factor : R) : ℕ → List R → List R → Except Fault (List R)
  | _, [], slots => .ok slots
  | i, c :: low, slots => do
    let a ← slotAt outside slots i
    let product ← Coeff.mul factor c
    let b ← Coeff.sub a product
    let slots ← overwrite outside slots i b
    subtractAt outside factor (i + 1) low slots

theorem length_subtractAt {outside : Fault} {factor : R} {i : ℕ} {low slots l : List R}
    (h : subtractAt outside factor i low slots = .ok l) : l.length = slots.length := by
  induction low generalizing i slots with
  | nil =>
    obtain rfl := Except.ok.inj h
    rfl
  | cons c low ih =>
    simp only [subtractAt, Fault.bind_eq_ok] at h
    obtain ⟨a, -, product, -, b, -, written, hwritten, h⟩ := h
    rw [ih h]
    unfold overwrite at hwritten
    split at hwritten
    · obtain rfl := Except.ok.inj hwritten
      exact List.length_set
    · cases hwritten

variable [CoeffDiv R] [DecidableEq R]

/-- One round. The top slot over the leading coefficient is a coefficient of the quotient, and the
slot itself is dropped, whatever the product of the two would be. -/
def cancelTop (outside : Fault) (lead : R) (low : List R) (s : LongDivision (List R)) :
    Except Fault (LongDivision (List R)) := do
  let top := s.remainder.length - 1
  let start := top - low.length
  let a ← slotAt outside s.remainder top
  let factor ← CoeffDiv.div a lead
  let slots ← subtractAt outside factor start low s.remainder.dropLast
  let quotient ← overwrite outside s.quotient start factor
  return ⟨quotient, trim slots, s.steps + 1⟩

theorem length_cancelTop_lt {outside : Fault} {lead : R} {low : List R}
    {s t : LongDivision (List R)} (hpos : 0 < s.remainder.length)
    (h : cancelTop outside lead low s = .ok t) : t.remainder.length < s.remainder.length := by
  simp only [cancelTop, Fault.bind_eq_ok, Fault.pure_eq_ok] at h
  obtain ⟨a, -, factor, -, slots, hslots, quotient, -, rfl⟩ := h
  have hlen := length_subtractAt hslots
  have hle := length_trim_le slots
  rw [List.length_dropLast] at hlen
  dsimp only
  omega

/-- Rounds, until there are no more slots than the divisor has below its leading coefficient. -/
def cancelTops (outside : Fault) (lead : R) (low : List R) (s : LongDivision (List R)) :
    Except Fault (LongDivision (List R)) :=
  if _hlong : s.remainder.length ≤ low.length then .ok s else
    match _h : cancelTop outside lead low s with
    | .error f => .error f
    | .ok t => cancelTops outside lead low t
termination_by s.remainder.length
decreasing_by exact length_cancelTop_lt (by omega) _h

/-- Quotient and remainder, in slots for the whole of either from the start. -/
def divRemInPlace (outside : Fault) (p q : Dense R) :
    Except Fault (Traced (Dense R × Dense R)) :=
  match q.leadingCoeff? with
  | none => .error .zeroPolynomial
  | some lead =>
    let low := q.coeffs.dropLast
    if p.coeffs.length ≤ low.length then .ok ⟨(zero, p), []⟩ else do
      let vacant := List.replicate (p.coeffs.length - low.length) Coeff.zero
      let s ← cancelTops outside lead low ⟨vacant, p.coeffs, 0⟩
      return ⟨(ofList s.quotient, ofList s.remainder), [.denseDivision s.steps low.length]⟩

end Loop

variable {R : Type} [CommRing R] (outside : Fault)

theorem polyOf_set {l : List R} {i : ℕ} (h : i < l.length) (b : R) :
    polyOf (l.set i b) = polyOf l + X ^ i * C (b - l.getD i 0) := by
  induction l generalizing i with
  | nil => simp at h
  | cons a l ih =>
    cases i with
    | zero =>
      rw [List.set_cons_zero, polyOf_cons, polyOf_cons, List.getD_cons_zero, C_sub]
      ring
    | succ i =>
      rw [List.set_cons_succ, polyOf_cons, ih (by simpa using h), polyOf_cons, List.getD_cons_succ]
      ring

omit [CommRing R] in
theorem slotAt_eq {l : List R} {i : ℕ} (h : i < l.length) (b : R) :
    slotAt outside l i = .ok (l.getD i b) := by
  rw [slotAt, List.getElem?_eq_getElem h, List.getD_eq_getElem _ _ h]

omit [CommRing R] in
theorem overwrite_eq {l : List R} {i : ℕ} (h : i < l.length) (b : R) :
    overwrite outside l i b = .ok (l.set i b) := if_pos h

variable [Coeff R] [ExactCoeff R] {p q : Dense R} {f g u : R[X]}

theorem subtractAt_returns (factor : R) {i : ℕ} {low slots : List R}
    (h : i + low.length ≤ slots.length) :
    Returns (subtractAt outside factor i low slots) fun l =>
      l.length = slots.length ∧ polyOf l = polyOf slots - X ^ i * (C factor * polyOf low) := by
  induction low generalizing i slots with
  | nil => exact .ok ⟨rfl, by simp⟩
  | cons c low ih =>
    rw [List.length_cons] at h
    have hi : i < slots.length := by omega
    rw [subtractAt, slotAt_eq outside hi 0, Fault.ok_bind, ExactCoeff.mul_eq, Fault.ok_bind,
      ExactCoeff.sub_eq, Fault.ok_bind, overwrite_eq outside hi, Fault.ok_bind]
    refine (ih (by rw [List.length_set]; omega)).imp fun l hl => ?_
    obtain ⟨hlen, hpoly⟩ := hl
    refine ⟨by rw [hlen, List.length_set], ?_⟩
    rw [hpoly, polyOf_set hi, polyOf_cons, C_sub, C_sub, C_mul]
    ring

variable [CoeffDiv R]

/-- What holds between two rounds, when `u` has been found and `f` is left. The slots that the
quotient needs are there, and those that are still to be written hold zero. -/
structure Standing (f g u : R[X]) (s : LongDivision (List R)) : Prop where
  remainder : (Dense.mk s.remainder).Represents f
  quotient_eq : polyOf s.quotient = u
  room : s.remainder.length ≤ s.quotient.length + g.natDegree
  vacant {i : ℕ} : i + g.natDegree < s.remainder.length → u.coeff i = 0

omit [ExactCoeff R] [CoeffDiv R] in
theorem Standing.polyOf_set_quotient {s : LongDivision (List R)} (hs : Standing f g u s) {i : ℕ}
    (hi : i < s.quotient.length) (hlong : i + g.natDegree < s.remainder.length) (b : R) :
    polyOf (s.quotient.set i b) = u + X ^ i * C b := by
  have hvacant : s.quotient.getD i 0 = 0 := by
    rw [← coeff_polyOf, hs.quotient_eq]
    exact hs.vacant hlong
  rw [polyOf_set hi, hs.quotient_eq, hvacant, sub_zero]

variable [DecidableEq R] [ReciprocalDiv R]

/-- In a round the top slot is dropped and its coefficient found, and no index leaves the slots. -/
theorem cancelTop_returns (hg : g ≠ 0) {low : List R} (hlen : low.length = g.natDegree)
    (hlow : polyOf low = g.eraseLead) {s : LongDivision (List R)} (hs : Standing f g u s)
    (hlong : g.natDegree < s.remainder.length) :
    Returns (cancelTop outside g.leadingCoeff low s) fun t =>
      Standing (cancelLead f g) g (u + C (Coeff.reciprocal g.leadingCoeff) *
        Polynomial.monomial (f.natDegree - g.natDegree) f.leadingCoeff) t ∧
          t.steps = s.steps + 1 := by
  have hrem := hs.remainder
  have hf : f ≠ 0 := by
    intro hzero
    have hnil := hrem.length_eq_zero_iff.mpr hzero
    dsimp only at hnil
    omega
  have htop : s.remainder.length = f.natDegree + 1 := hrem.length_eq hf
  obtain ⟨hdrop, hdropped⟩ := hrem.dropLast_eq hf
  have hslot : slotAt outside s.remainder (s.remainder.length - 1) = .ok f.leadingCoeff := by
    rw [slotAt_eq outside (by omega) 0, ← coeff_polyOf, hrem.polyOf_eq, htop, Nat.add_sub_cancel,
      leadingCoeff]
  have hstart : s.remainder.length - 1 - low.length = f.natDegree - g.natDegree := by omega
  have hroom := hs.room
  have hfound : f.natDegree - g.natDegree < s.quotient.length := by omega
  -- The slots under the divisor's lower coefficients end right below the dropped one.
  have hfit : f.natDegree - g.natDegree + low.length ≤ s.remainder.dropLast.length := by
    dsimp only at hdrop
    omega
  rw [cancelTop, hslot, Fault.ok_bind, ReciprocalDiv.div_eq _ (leadingCoeff_ne_zero.mpr hg),
    Fault.ok_bind, hstart]
  refine (subtractAt_returns outside _ hfit).bind fun slots hslots => ?_
  obtain ⟨hkept, hslots⟩ := hslots
  rw [overwrite_eq outside hfound, Fault.ok_bind]
  have hshort : (trim slots).length ≤ f.natDegree := by
    have hle := length_trim_le slots
    dsimp only at hdrop
    omega
  refine .pure ⟨⟨?_, ?_, ?_, ?_⟩, rfl⟩
  · refine represents_ofList ?_
    rw [hslots, hdropped, hlow, cancelLead, ← C_mul_X_pow_eq_monomial]
    ring
  · rw [hs.polyOf_set_quotient hfound (by omega), C_mul, ← C_mul_X_pow_eq_monomial]
    ring
  · dsimp only
    rw [List.length_set]
    omega
  · intro i hi
    dsimp only at hi
    have hne : f.natDegree - g.natDegree ≠ i := by omega
    rw [coeff_add, hs.vacant (by omega), C_mul_monomial, coeff_monomial, if_neg hne, add_zero]

/-- The rounds go through the divisions of what is left, one top term after another. -/
theorem cancelTops_returns (hg : g ≠ 0) {low : List R} (hlen : low.length = g.natDegree)
    (hlow : polyOf low = g.eraseLead) {s : LongDivision (List R)} (hs : Standing f g u s) :
    Returns (cancelTops outside g.leadingCoeff low s) fun t =>
      polyOf t.quotient = u + longQuotient f g ∧
        (Dense.mk t.remainder).Represents (longRemainder f g) ∧
          t.steps = s.steps + longSteps f g := by
  fun_induction cancelTops outside g.leadingCoeff low s generalizing f u with
  | case1 s hshort =>
    rw [hlen] at hshort
    obtain ⟨ht, hr⟩ := long_of_degree_lt hg (hs.remainder.length_le_iff.mp hshort)
    refine .ok ⟨?_, ?_, ?_⟩
    · rw [longQuotient, ht, mul_zero, add_zero, hs.quotient_eq]
    · rw [hr]
      exact hs.remainder
    · rw [longSteps, ht, support_zero, Finset.card_empty, add_zero]
  | case2 s hlong e he =>
    obtain ⟨t, ht, -⟩ := cancelTop_returns outside hg hlen hlow hs (by omega)
    cases he.symm.trans ht
  | case3 s hlong t ht ih =>
    rw [hlen, hs.remainder.length_le_iff, not_lt] at hlong
    have hf : f ≠ 0 := by
      rintro rfl
      simp at hlong
    obtain ⟨hstanding, hsteps⟩ := (cancelTop_returns outside hg hlen hlow hs (by
      rw [← not_le, hs.remainder.length_le_iff, not_lt]
      exact hlong)).of_eq_ok ht
    rw [degree_eq_natDegree hf, Nat.cast_le] at hlong
    obtain ⟨htops, hrem, hcount⟩ := long_cancelLead hg hf hlong
    refine (ih hstanding).imp fun t' ht' => ?_
    obtain ⟨hquotient, hremainder, hsteps'⟩ := ht'
    refine ⟨?_, ?_, ?_⟩
    · rw [hquotient, longQuotient, longQuotient, htops]
      ring
    · rw [hrem]
      exact hremainder
    · rw [hsteps', hsteps, hcount]
      omega

theorem divRemInPlace_returns (hp : p.Represents f) (hq : q.Represents g) (hg : g ≠ 0) :
    Returns (divRemInPlace outside p q) fun t =>
      t.value.1.Represents (longQuotient f g) ∧ t.value.2.Represents (longRemainder f g) ∧
        t.log = divisionLog f g := by
  obtain ⟨hlen, hlow⟩ := hq.dropLast_eq hg
  rw [divRemInPlace, hq.leadingCoeff?_eq hg, divisionLog]
  dsimp only
  rw [hlen]
  split
  · rename_i hshort
    have hdeg := hp.length_le_iff.mp hshort
    obtain ⟨ht, hr⟩ := long_of_degree_lt hg hdeg
    rw [longQuotient, ht, hr, mul_zero, if_pos hdeg]
    exact .ok ⟨represents_zero, hp, rfl⟩
  · rename_i hlong
    have hstanding : Standing f g 0
        ⟨List.replicate (p.coeffs.length - g.natDegree) Coeff.zero, p.coeffs, 0⟩ := by
      refine ⟨hp, ?_, ?_, fun _ => coeff_zero _⟩
      · rw [ExactCoeff.zero_eq]
        exact polyOf_replicate_zero _
      · dsimp only
        rw [List.length_replicate]
        omega
    rw [hp.length_le_iff] at hlong
    refine (cancelTops_returns outside hg hlen hlow hstanding).bind fun s hs => ?_
    obtain ⟨hquotient, hremainder, hsteps⟩ := hs
    rw [zero_add] at hquotient hsteps
    rw [if_neg hlong, ← hsteps]
    exact .pure ⟨represents_ofList hquotient, represents_ofList hremainder.polyOf_eq, rfl⟩

/-- Whatever an index beyond the slots would raise, the loop ends as the division does. -/
theorem divRemInPlace_eq (hp : p.Canonical) (hq : q.Canonical) :
    divRemInPlace outside p q = p.divRem q := by
  have hrep := represents_toPoly hp
  have hrep' := represents_toPoly hq
  by_cases hg : q.toPoly = 0
  · rw [hg] at hrep'
    rw [divRem_zero p hrep', divRemInPlace, hrep'.leadingCoeff?_eq_none]
  · obtain ⟨⟨⟨c, r⟩, log⟩, hrun, hc, hr, hlog⟩ :=
      divRemInPlace_returns outside hrep hrep' hg
    obtain ⟨⟨⟨c', r'⟩, log'⟩, hrun', hc', hr', hlog'⟩ := divRem_returns hrep hrep' hg
    obtain rfl : c = c' := hc.unique hc'
    obtain rfl : r = r' := hr.unique hr'
    obtain rfl : log = log' := hlog.trans hlog'.symm
    exact hrun.trans hrun'.symm

end Univariate.Dense
