import Univariate.Proofs.StoreLaws

/-! Euclid's algorithm ends over every modulus. No reciprocal need invert anything: each remainder
is lower than its divisor because the top term is dropped, whatever it came to. -/
namespace Univariate

open Polynomial

variable {R P : Type}

/-- The rounds of the algorithm from `a` and `b`: the dividend and the divisor of each in order, and
the operand that is left when the divisor is zero. -/
inductive DivisionStore.Rounds (S : DivisionStore R P) : P → P → List (P × P) → P → Prop where
  | stop {a b : P} : S.isZero b = true → Rounds S a b [] a
  | next {a b r last : P} {log : List Event} {rest : List (P × P)} : S.isZero b = false →
      S.rem a b = .ok ⟨r, log⟩ → Rounds S b r rest last → Rounds S a b ((a, b) :: rest) last

namespace DivisionStore.Rounds

variable {S : DivisionStore R P} {a b last last' : P} {divisions divisions' : List (P × P)}

theorem isZero_eq_false (h : S.Rounds a b divisions last) :
    ∀ d ∈ divisions, S.isZero d.2 = false := by
  induction h with
  | stop => simp
  | next hb _ _ ih => exact List.forall_mem_cons.mpr ⟨hb, ih⟩

/-- From any two operands there is but one way to go. -/
theorem unique (h : S.Rounds a b divisions last) (h' : S.Rounds a b divisions' last') :
    divisions' = divisions ∧ last' = last := by
  induction h generalizing divisions' with
  | stop hb =>
    cases h' with
    | stop => exact ⟨rfl, rfl⟩
    | next hb' => cases hb.symm.trans hb'
  | next hb hr _ ih =>
    cases h' with
    | stop hb' => cases hb.symm.trans hb'
    | next _ hr' hrest' =>
      cases hr.symm.trans hr'
      obtain ⟨hdivisions, hlast⟩ := ih hrest'
      exact ⟨by rw [hdivisions], hlast⟩

end DivisionStore.Rounds

/-- The algorithm from `a` and `b` ends after `divisions`, and leaves `last` to be normalised. -/
structure DivisionStore.GcdRun (S : DivisionStore R P) (a b : P) (divisions : List (P × P))
    (last : P) : Prop where
  rounds : S.Rounds a b divisions last
  unique {divisions' : List (P × P)} {last' : P} : S.Rounds a b divisions' last' →
    divisions' = divisions ∧ last' = last
  /-- The height of zero is zero, and that of any other operand is one more than its largest
  exponent. -/
  length_le : divisions.length ≤ S.height b
  divisor_ne : ∀ d ∈ divisions, d.2 ≠ S.zero
  last_eq_zero_iff : last = S.zero ↔ a = S.zero ∧ b = S.zero
  value_eq : (S.gcd a b >>= fun t => pure t.value) = S.monic last
  recorded {t : Traced P} : S.gcd a b = .ok t →
    t.log.getLast?.map Event.rounds = some divisions.length

/-- From any two operands the algorithm comes to an end, and it refuses two zeros alone. -/
structure DivisionStore.GcdEnds (S : DivisionStore R P) : Prop where
  exists_run (a b : P) : S.Canonical a → S.Canonical b →
    ∃ divisions last, S.GcdRun a b divisions last
  failsIff (a b : P) : S.Canonical a → S.Canonical b →
    FailsIff .zeroPolynomial (a = S.zero ∧ b = S.zero) (S.gcd a b)

namespace DivisionStore.Lawful

variable [CommRing R] [Coeff R] [CoeffDiv R] [DecidableEq R] {S : DivisionStore R P}
  {Rep : P → R[X] → Prop} {Room : ℕ → Prop} {a b last : P} {f g : R[X]}

/-- The algorithm goes through the divisions of the formal polynomials. -/
theorem exists_rounds (h : S.Lawful Rep Room) (ha : Rep a f) (hb : Rep b g) :
    ∃ run last, S.Rounds a b run last ∧ Rep last (lastRemainder f g) ∧
      run.length = (divisions f g).length := by
  fun_induction divisions f g generalizing a b with
  | case1 f =>
    refine ⟨[], a, .stop ((h.isZero_iff hb).mpr rfl), ?_, rfl⟩
    rwa [lastRemainder_zero]
  | case2 f g hg ih =>
    obtain ⟨⟨r, log⟩, hrun, hr⟩ := h.rem ha hb hg
    obtain ⟨run, last, hrounds, hlast, hlength⟩ := ih hb hr
    have hne : S.isZero b = false := Bool.eq_false_iff.mpr (mt (h.isZero_iff hb).mp hg)
    refine ⟨(a, b) :: run, last, .next hne hrun hrounds, ?_, ?_⟩
    · rwa [lastRemainder_of_ne hg]
    · rw [List.length_cons, List.length_cons, hlength]

theorem gcdRun (h : S.Lawful Rep Room) (ha : Rep a f) (hb : Rep b g) {run : List (P × P)}
    (hrounds : S.Rounds a b run last) (hlast : Rep last (lastRemainder f g))
    (hlength : run.length = (divisions f g).length) : S.GcdRun a b run last := by
  obtain ⟨last', log, event, hlast', hevent, hgcd⟩ := h.gcd_eq ha hb
  obtain rfl := h.unique hlast' hlast
  refine ⟨hrounds, hrounds.unique, ?_, ?_, ?_, ?_, ?_⟩
  · rw [hlength]
    exact length_divisions_le f g ((h.height_le_iff hb).mp le_rfl)
  · rintro d hd hzero
    have hne := hrounds.isZero_eq_false d hd
    rw [hzero, (h.isZero_iff h.zero).mpr rfl] at hne
    cases hne
  · rw [h.eq_zero_iff hlast, h.eq_zero_iff ha, h.eq_zero_iff hb]
    exact lastRemainder_eq_zero_iff f g
  · rw [hgcd]
    cases S.monic last' <;> rfl
  · intro t ht
    rw [hgcd, Fault.bind_eq_ok] at ht
    obtain ⟨d, -, ht⟩ := ht
    obtain rfl := Fault.pure_eq_ok.mp ht
    simp [hevent, hlength]

theorem gcdEnds (h : S.Lawful Rep Room) : S.GcdEnds where
  exists_run a b ha hb := by
    obtain ⟨f, hf⟩ := h.represented ha
    obtain ⟨g, hg⟩ := h.represented hb
    obtain ⟨run, last, hrounds, hlast, hlength⟩ := h.exists_rounds hf hg
    exact ⟨run, last, h.gcdRun hf hg hrounds hlast hlength⟩
  failsIff a b ha hb := by
    obtain ⟨f, hf⟩ := h.represented ha
    obtain ⟨g, hg⟩ := h.represented hb
    exact h.gcd_failsIff hf hg

end DivisionStore.Lawful

/-- Euclid's algorithm in both representations, over the rationals and modulo any number. -/
theorem gcd_ends_within_height :
    (Dense.divisionStore (R := Rat)).GcdEnds ∧ (Sparse.divisionStore (R := Rat)).GcdEnds ∧
      ∀ m : Modulus, (Dense.divisionStore (R := Residue m)).GcdEnds ∧
        (Sparse.divisionStore (R := Residue m)).GcdEnds :=
  ⟨Dense.lawful.gcdEnds, Sparse.lawful.gcdEnds, fun _ =>
    ⟨Dense.lawful.gcdEnds, Sparse.lawful.gcdEnds⟩⟩

/-- Modulo four, where two has no inverse: one round for `x ^ 2` and `2 * x + 1`, and the operand
that is left vanishes when it is divided by its leading coefficient. -/
theorem gcd_ends_within_height_four :
    let residue := Residue.ofNat ⟨4, by decide⟩
    let a := Dense.ofList [residue 0, residue 0, residue 1]
    let b := Dense.ofList [residue 1, residue 2]
    Dense.divisionStore.GcdRun a b [(a, b)] b ∧ ∃ log, a.gcd b = .ok ⟨Dense.zero, log⟩ := by
  intro residue a b
  obtain ⟨_, _, hrun⟩ := (gcd_ends_within_height.2.2 ⟨4, by decide⟩).1.exists_run a b
    (Dense.canonical_ofList _) (Dense.canonical_ofList _)
  have hrem : Dense.divisionStore.rem a b = .ok ⟨Dense.zero, [.denseDivision 1 1]⟩ := by cbv
  obtain ⟨rfl, rfl⟩ := hrun.unique (.next (by decide) hrem (.stop (by decide)))
  have hmonic : Dense.divisionStore.monic b = .ok Dense.zero := by cbv
  obtain ⟨⟨d, log⟩, hgcd, hd⟩ := Fault.bind_eq_ok.mp (hrun.value_eq.trans hmonic)
  obtain rfl : d = Dense.zero := Fault.pure_eq_ok.mp hd
  exact ⟨hrun, log, hgcd⟩

end Univariate
