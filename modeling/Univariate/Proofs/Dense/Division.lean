import Univariate.Dense.Division
import Univariate.Proofs.Dense.Arithmetic
import Univariate.Proofs.LongDivision

/-! Long division and monic forms of dense polynomials, read as formal polynomials. -/
namespace Univariate.Dense

open Polynomial

variable {R : Type} [CommRing R] [Coeff R] [ExactCoeff R] {p q : Dense R} {f g : R[X]}

theorem reduce_returns (factor : R) {window low : List R} (h : low.length ≤ window.length) :
    Returns (reduce factor window low) fun l => l.length = low.length ∧
      polyOf l = polyOf (window.take low.length) - C factor * polyOf low := by
  induction window generalizing low with
  | nil =>
    obtain rfl := List.length_eq_zero_iff.mp (Nat.le_zero.mp h)
    exact .ok (by simp)
  | cons a window ih =>
    cases low with
    | nil => exact .ok (by simp)
    | cons c low =>
      rw [reduce, ExactCoeff.mul_eq, Fault.ok_bind, ExactCoeff.sub_eq, Fault.ok_bind]
      refine (ih (by simpa using h)).bind fun l hl => .pure ⟨by simp [hl.1], ?_⟩
      rw [polyOf_cons, hl.2, List.length_cons, List.take_succ_cons, polyOf_cons, polyOf_cons, C_sub,
        C_mul]
      ring

/-- What a round subtracts multiples of is stored below the leading coefficient. -/
theorem Represents.dropLast_eq (hq : q.Represents g) (hg : g ≠ 0) :
    q.coeffs.dropLast.length = g.natDegree ∧ polyOf q.coeffs.dropLast = g.eraseLead := by
  have hlen : q.coeffs.dropLast.length = g.natDegree := by
    rw [List.length_dropLast, hq.length_eq hg, Nat.add_sub_cancel]
  refine ⟨hlen, ?_⟩
  have hlast := List.dropLast_append_getLast? g.leadingCoeff (hq.leadingCoeff?_eq hg)
  have hpoly := hq.polyOf_eq
  rw [← hlast, polyOf_append, hlen, polyOf_cons, polyOf_nil, mul_zero, add_zero] at hpoly
  have hlead := eraseLead_add_C_mul_X_pow g
  rw [mul_comm] at hlead
  exact add_right_cancel (hpoly.trans hlead.symm)

/-- The window under the next coefficient has at most one slot too many, and that slot is not
zero. -/
theorem settle_represents [DecidableEq R] {l : List R} {r : R[X]}
    (hl : (Dense.mk l).Represents r) (a : R) :
    (Dense.mk (settle a l)).Represents (C a + X * r) := by
  refine ⟨getLast?_settle_ne a hl.canonical, ?_⟩
  rw [← hl.polyOf_eq]
  exact polyOf_settle a l

theorem Represents.drop_eq_cons {l rest : List R} {n : ℕ} {top : R}
    (hl : (Dense.mk l).Represents f) (hlen : l.length ≤ n + 1) (h : l.drop n = top :: rest) :
    (l.take n).length = n ∧ top ≠ 0 ∧ f = polyOf (l.take n) + X ^ n * C top := by
  have hdrop := congrArg List.length h
  rw [List.length_drop, List.length_cons] at hdrop
  obtain rfl : rest = [] := List.length_eq_zero_iff.mp (by omega)
  have htake : (l.take n).length = n := by
    rw [List.length_take]
    omega
  have hsplit : l = l.take n ++ [top] := by rw [← h, List.take_append_drop]
  refine ⟨htake, ?_, ?_⟩
  · rintro rfl
    apply hl.getLast?_ne
    dsimp only
    rw [hsplit, List.getLast?_concat]
  · rw [← hl.polyOf_eq]
    dsimp only
    conv_lhs => rw [hsplit, polyOf_append, htake]
    simp

variable [CoeffDiv R]

/-- A window of one slot too many holds one multiple of what is subtracted. -/
theorem reduce_window (hg : g ≠ 0) {low window rest : List R} {top : R} {v : R[X]}
    (hlen : low.length = g.natDegree) (hlow : polyOf low = g.eraseLead)
    (hv : (Dense.mk window).Represents v) (hbound : window.length ≤ g.natDegree + 1)
    (hdrop : window.drop g.natDegree = top :: rest) :
    Returns (reduce (top * Coeff.reciprocal g.leadingCoeff) window low) fun l =>
      top ≠ 0 ∧ longTops v g = C top ∧ longRemainder v g = polyOf l := by
  obtain ⟨htake, hne, hsplit⟩ := hv.drop_eq_cons hbound hdrop
  have hle : low.length ≤ window.length := by
    rw [List.length_take] at htake
    omega
  refine (reduce_returns _ hle).imp fun l hl => ⟨hne, ?_⟩
  obtain ⟨hl_len, hl_eq⟩ := hl
  rw [hlen, hlow] at hl_eq
  have hsub : v = C top * monicDivisor g + polyOf l := by
    rw [hsplit, hl_eq, monicDivisor, C_mul]
    ring
  have hlt : (polyOf l).degree < g.natDegree := by
    rw [← hlen, ← hl_len]
    exact degree_polyOf_lt l
  exact long_unique hg hsub hlt

/-- The work is recorded only where the dividend reaches the divisor's degree. -/
noncomputable def divisionLog (f g : R[X]) : List Event :=
  if f.degree < g.natDegree then [] else [.denseDivision (longSteps f g) g.natDegree]

/-- What holds between two rounds, when `f` has been brought down so far. -/
structure Reached (f g : R[X]) (s : LongDivision (List R)) : Prop where
  quotient_eq : polyOf s.quotient = longQuotient f g
  remainder : (Dense.mk s.remainder).Represents (longRemainder f g)
  steps_eq : s.steps = longSteps f g

variable [DecidableEq R]

theorem monic_zero (hp : p.Represents 0) : p.monic = .error .zeroPolynomial := by
  rw [monic, hp.leadingCoeff?_eq_none]

theorem divRem_zero (p : Dense R) (hq : q.Represents 0) : p.divRem q = .error .zeroPolynomial := by
  rw [divRem, hq.leadingCoeff?_eq_none]

variable [ReciprocalDiv R]

theorem bringDown_reached (hg : g ≠ 0) {low : List R} (hlen : low.length = g.natDegree)
    (hlow : polyOf low = g.eraseLead) (a : R) {s : LongDivision (List R)} (hs : Reached f g s) :
    Returns (bringDown g.leadingCoeff low a s) (Reached (C a + X * f) g) := by
  have hwindow := settle_represents hs.remainder a
  have hbound : (settle a s.remainder).length ≤ g.natDegree + 1 := by
    have h₁ := length_settle_le a s.remainder
    have h₂ := hs.remainder.length_le_iff.mpr (degree_longRemainder_lt hg)
    dsimp only at h₂
    omega
  obtain ⟨htops, hrem⟩ := long_bringDown hg f a
  rw [bringDown, hlen]
  split
  · rename_i hdrop
    have hshort : (settle a s.remainder).length ≤ g.natDegree := by simpa using hdrop
    obtain ⟨ht, hr⟩ := long_of_degree_lt hg (hwindow.length_le_iff.mp hshort)
    rw [ht, add_zero] at htops
    refine .ok ⟨?_, ?_, ?_⟩
    · rw [polyOf_cons, hs.quotient_eq, longQuotient, longQuotient, htops, ExactCoeff.zero_eq, C_0]
      ring
    · rwa [hrem, hr]
    · rw [hs.steps_eq, longSteps, longSteps, htops, card_support_X_mul]
  · rename_i top rest hdrop
    rw [ReciprocalDiv.div_eq top (leadingCoeff_ne_zero.mpr hg), Fault.ok_bind]
    refine (reduce_window hg hlen hlow hwindow hbound hdrop).bind fun l hl => ?_
    obtain ⟨hne, ht, hr⟩ := hl
    rw [ht, add_comm (X * _)] at htops
    refine .pure ⟨?_, ?_, ?_⟩
    · rw [polyOf_cons, hs.quotient_eq, longQuotient, longQuotient, htops, C_mul]
      ring
    · rw [hrem, hr]
      exact represents_ofList rfl
    · rw [hs.steps_eq, longSteps, longSteps, htops, ← monomial_zero_left,
        card_support_monomial_add hne (by simp), card_support_X_mul]

/-- The dividend comes down from its top coefficient. -/
theorem foldrM_bringDown_reached (hg : g ≠ 0) {low : List R} (hlen : low.length = g.natDegree)
    (hlow : polyOf low = g.eraseLead) (l : List R) :
    Returns (l.foldrM (bringDown g.leadingCoeff low) ⟨[], [], 0⟩) (Reached (polyOf l) g) := by
  induction l with
  | nil =>
    obtain ⟨ht, hr⟩ := long_of_degree_lt (f := 0) hg (by simp [bot_lt_iff_ne_bot])
    refine .pure ⟨?_, ?_, ?_⟩
    · simp [longQuotient, ht]
    · rw [polyOf_nil, hr]
      exact represents_zero
    · simp [longSteps, ht]
  | cons a l ih =>
    rw [List.foldrM_cons]
    exact ih.bind fun s hs => bringDown_reached hg hlen hlow a hs

theorem divRem_returns (hp : p.Represents f) (hq : q.Represents g) (hg : g ≠ 0) :
    Returns (p.divRem q) fun t =>
      t.value.1.Represents (longQuotient f g) ∧ t.value.2.Represents (longRemainder f g) ∧
        t.log = divisionLog f g := by
  obtain ⟨hlen, hlow⟩ := hq.dropLast_eq hg
  rw [divRem, hq.leadingCoeff?_eq hg, divisionLog]
  dsimp only
  rw [hlen]
  split
  · rename_i hshort
    have hdeg := hp.length_le_iff.mp hshort
    obtain ⟨ht, hr⟩ := long_of_degree_lt hg hdeg
    rw [longQuotient, ht, hr, mul_zero, if_pos hdeg]
    exact .ok ⟨represents_zero, hp, rfl⟩
  · rename_i hlong
    rw [hp.length_le_iff] at hlong
    refine (foldrM_bringDown_reached hg hlen hlow p.coeffs).bind fun s hs => ?_
    rw [hp.polyOf_eq] at hs
    rw [if_neg hlong, ← hs.steps_eq]
    exact .pure ⟨represents_ofList hs.quotient_eq, represents_ofList hs.remainder.polyOf_eq, rfl⟩

theorem div_returns (hp : p.Represents f) (hq : q.Represents g) (hg : g ≠ 0) :
    Returns (p.div q) (·.value.Represents (longQuotient f g)) :=
  (divRem_returns hp hq hg).bind fun _ ht => .pure ht.1

theorem rem_returns (hp : p.Represents f) (hq : q.Represents g) (hg : g ≠ 0) :
    Returns (p.rem q) fun t =>
      t.value.Represents (longRemainder f g) ∧ t.log = divisionLog f g :=
  (divRem_returns hp hq hg).bind fun _ ht => .pure ht.2

theorem monic_represents (hp : p.Represents f) (hf : f ≠ 0) :
    Returns p.monic (·.Represents (monicForm f)) := by
  rw [monic, hp.leadingCoeff?_eq hf, ExactCoeff.one_eq, monicForm]
  dsimp only
  split
  · exact .ok hp
  · have hdiv : ∀ c ∈ p.coeffs, CoeffDiv.div c f.leadingCoeff =
        .ok (Coeff.reciprocal f.leadingCoeff * c) := fun c _ => by
      rw [ReciprocalDiv.div_eq c (leadingCoeff_ne_zero.mpr hf), mul_comm]
    rw [Returns.mapM hdiv]
    refine .pure (represents_ofList ?_)
    rw [polyOf_map_mul, hp.polyOf_eq]

end Univariate.Dense
