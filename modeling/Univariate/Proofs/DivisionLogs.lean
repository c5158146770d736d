import Univariate.Proofs.GcdRounds
import Univariate.Proofs.Interchange
import Univariate.Proofs.SameDivision
import Univariate.Proofs.UniqueDivision

/-! What is recorded of divisions: how many rounds they took, and that they are the same rounds in
both representations. A dividend below the divisor is recorded among terms only. -/
namespace Univariate

open Polynomial

variable {R P : Type}

section Statements

variable [Coeff R]

/-- The number of exponents with a coefficient other than zero. -/
def Store.weight [DecidableEq R] (S : Store R P) (p : P) : ℕ :=
  ((Finset.range (S.height p)).filter fun n => S.coeff p n ≠ Coeff.zero).card

/-- Every division that is recorded took one round for each coefficient of its quotient that is not
zero. -/
def DivisionStore.CountsQuotient [DecidableEq R] (S : DivisionStore R P) : Prop :=
  ∀ a b t, S.Canonical a → S.Canonical b → S.divRem a b = .ok t →
    ∀ e ∈ t.log, e.rounds = S.weight t.value.1

/-- One division in both representations: the operands, and the rounds that it takes. -/
structure PairedDivision (R : Type) where
  dense : Dense R × Dense R
  sparse : Sparse R × Sparse R
  steps : ℕ

namespace PairedDivision

variable [DecidableEq R] [CoeffDiv R]

def denseEvent (d : PairedDivision R) : Event :=
  .denseDivision d.steps (Dense.store.top d.dense.2)

def sparseEvent (d : PairedDivision R) : Event :=
  .sparseDivision d.steps d.sparse.2.terms.length

/-- The logs of the division. In slots nothing is recorded of a dividend below the divisor, of which
no round is made. -/
structure Recorded (d : PairedDivision R) (denseLog sparseLog : List Event) : Prop where
  dense : denseLog = if d.dense.1.degree < d.dense.2.degree then [] else [d.denseEvent]
  sparse : sparseLog = [d.sparseEvent]
  steps_eq_zero : d.dense.1.degree < d.dense.2.degree → d.steps = 0

/-- The division of related operands is made, and takes the rounds it says. -/
structure Made (d : PairedDivision R) : Prop where
  dividend : Related d.dense.1 d.sparse.1
  divisor : Related d.dense.2 d.sparse.2
  recorded : ∃ x y, d.dense.1.divRem d.dense.2 = .ok x ∧ d.sparse.1.divRem d.sparse.2 = .ok y ∧
    d.Recorded x.log y.log

end PairedDivision

variable [DecidableEq R] [CoeffDiv R]

/-- The rounds of the algorithm from related operands, in both representations. -/
structure PairedRounds (a b : Dense R) (s t : Sparse R) (l : List (PairedDivision R)) : Prop where
  dense : ∃ last, Dense.divisionStore.Rounds a b (l.map (·.dense)) last
  sparse : ∃ last, Sparse.divisionStore.Rounds s t (l.map (·.sparse)) last
  made : ∀ d ∈ l, d.Made

/-- A division and its remainder come before the rounds that go on with them. -/
theorem PairedRounds.next {x : Traced (Dense R × Dense R)} {y : Traced (Sparse R × Sparse R)}
    {a b : Dense R} {s t : Sparse R} {l : List (PairedDivision R)} {n : ℕ} (has : Related a s)
    (hbt : Related b t) (hb : b.isZero = false) (ht : t.isZero = false) (hx : a.divRem b = .ok x)
    (hy : s.divRem t = .ok y) (hrec : PairedDivision.Recorded ⟨(a, b), (s, t), n⟩ x.log y.log)
    (h : PairedRounds b x.value.2 t y.value.2 l) :
    PairedRounds a b s t (⟨(a, b), (s, t), n⟩ :: l) := by
  obtain ⟨⟨u, hu⟩, ⟨v, hv⟩, hmade⟩ := h
  have hxr : a.rem b = .ok ⟨x.value.2, x.log⟩ := by
    rw [Dense.rem, hx]
    rfl
  have hyr : s.rem t = .ok ⟨y.value.2, y.log⟩ := by
    rw [Sparse.rem, hy]
    rfl
  refine ⟨⟨u, .next hb hxr hu⟩, ⟨v, .next ht hyr hv⟩, ?_⟩
  rw [List.forall_mem_cons]
  exact ⟨⟨has, hbt, x, y, hx, hy, hrec⟩, hmade⟩

/-- The logs of a greatest common divisor, on the way to which the divisions of `l` are made. Only
the first can have a dividend below its divisor, and then it is missing among those in slots. -/
structure GcdRecorded (a b : Dense R) (s t : Sparse R) (l : List (PairedDivision R))
    (x : Traced (Dense R)) (y : Traced (Sparse R)) : Prop where
  rounds : PairedRounds a b s t l
  dense : x.log = (l.map (·.denseEvent)).drop (if b ≠ .zero ∧ a.degree < b.degree then 1 else 0) ++
    [.denseGcd l.length x.value.degree]
  sparse : y.log = l.map (·.sparseEvent) ++
    [.sparseGcd l.length y.value.degree y.value.terms.length]
  degree_eq : a.Fits → b.Fits → x.value.degree = y.value.degree

/-- Both representations record the same divisions. -/
structure RecordsAlike (a b : Dense R) (s t : Sparse R) : Prop where
  divRem : Agree (b = .zero)
    (fun x y => ∃ n, PairedDivision.Recorded ⟨(a, b), (s, t), n⟩ x.log y.log)
    (a.divRem b) (s.divRem t)
  gcd : Agree (a = .zero ∧ b = .zero) (fun x y => ∃ l, GcdRecorded a b s t l x y)
    (a.gcd b) (s.gcd t)

end Statements

variable [CommRing R] [Coeff R] [CoeffDiv R] {f g : R[X]}

section Formal

/-- What the chain of remainders ends in is no higher than what it starts with. -/
theorem degree_lastRemainder_lt {n : ℕ} (hf : f.degree < n) (hg : g.degree < n) :
    (lastRemainder f g).degree < n := by
  fun_induction lastRemainder f g with
  | case1 f => exact hf
  | case2 f g hg_ne ih =>
    have hlow := degree_longRemainder_lt (f := f) hg_ne
    rw [← degree_eq_natDegree hg_ne] at hlow
    exact ih hg (hlow.trans hg)

theorem degree_longGcd_lt [DecidableEq R] {n : ℕ} (hf : f.degree < n) (hg : g.degree < n) :
    (longGcd f g).degree < n := by
  have hlast := degree_lastRemainder_lt hf hg
  rw [longGcd, monicForm]
  split
  · exact hlast
  · rw [← smul_eq_C_mul]
    exact (degree_smul_le _ _).trans_lt hlast

omit [Coeff R] [CoeffDiv R] in
/-- Of two polynomials but one can be below the other. -/
theorem not_degree_lt_of_degree_lt (hg : g ≠ 0) (h : f.degree < g.natDegree) (hf : f ≠ 0) :
    ¬ g.degree < f.natDegree := by
  intro hlt
  rw [degree_eq_natDegree hf, Nat.cast_lt] at h
  rw [degree_eq_natDegree hg, Nat.cast_lt] at hlt
  omega

/-- A remainder is below its divisor, which is the next dividend. So once a dividend is not below
its divisor, none is from there on, and every division is recorded. -/
theorem flatMap_divisionLog_of_le (h : g ≠ 0 → ¬ f.degree < g.natDegree) :
    ((divisions f g).flatMap fun d => Dense.divisionLog d.1 d.2) =
      (divisions f g).map fun d => .denseDivision (longSteps d.1 d.2) d.2.natDegree := by
  fun_induction divisions f g with
  | case1 f => rfl
  | case2 f g hg ih =>
    have hnext := not_degree_lt_of_degree_lt hg (degree_longRemainder_lt (f := f) hg)
    rw [List.flatMap_cons, List.map_cons, ih hnext, Dense.divisionLog, if_neg (h hg)]
    rfl

/-- The first division alone may go unrecorded. It then does nothing but exchange the operands. -/
theorem flatMap_divisionLog {c : Prop} [Decidable c]
    (hc : c ↔ g ≠ 0 ∧ f.degree < g.natDegree) :
    ((divisions f g).flatMap fun d => Dense.divisionLog d.1 d.2) =
      ((divisions f g).map fun d => .denseDivision (longSteps d.1 d.2) d.2.natDegree).drop
        (if c then 1 else 0) := by
  by_cases hlow : g ≠ 0 ∧ f.degree < g.natDegree
  · rw [if_pos (hc.mpr hlow)]
    obtain ⟨hg, hlt⟩ := hlow
    have hnext := not_degree_lt_of_degree_lt hg hlt
    rw [divisions_of_ne hg, (long_of_degree_lt hg hlt).2, List.flatMap_cons, List.map_cons,
      flatMap_divisionLog_of_le hnext, Dense.divisionLog, if_pos hlt]
    rfl
  · rw [if_neg (mt hc.mp hlow), List.drop_zero]
    apply flatMap_divisionLog_of_le
    intro hg hlt
    exact hlow ⟨hg, hlt⟩

/-- A reciprocal that inverts takes no coefficient of the quotient away. -/
theorem card_support_longQuotient [FieldDiv R] (hg : g ≠ 0) (f : R[X]) :
    (longQuotient f g).support.card = longSteps f g := by
  have hR : Nontrivial R := Nontrivial.of_polynomial_ne hg
  have hdomain : NoZeroDivisors R := FieldDiv.noZeroDivisors
  have hinv := FieldDiv.mul_reciprocal (leadingCoeff_ne_zero.mpr hg)
  have hsupport : (longQuotient f g).support = (longTops f g).support := by
    ext n
    rw [mem_support_iff, mem_support_iff, longQuotient, coeff_C_mul, mul_ne_zero_iff]
    exact and_iff_right (right_ne_zero_of_mul_eq_one hinv)
  rw [hsupport, longSteps]

end Formal

section Counts

variable [DecidableEq R] [ExactCoeff R] {S : DivisionStore R P} {Rep : P → R[X] → Prop}
  {Room : ℕ → Prop} {p : P}

omit [CoeffDiv R] in
theorem Store.Lawful.weight_eq {S : Store R P} (h : S.Lawful Rep Room) (hp : Rep p f) :
    S.weight p = f.support.card := by
  rw [Store.weight]
  congr 1
  ext n
  rw [Finset.mem_filter, Finset.mem_range, mem_support_iff, h.coeff_eq n hp, ExactCoeff.zero_eq]
  constructor
  · rintro ⟨-, hne⟩
    exact hne
  · intro hne
    refine ⟨?_, hne⟩
    by_contra hle
    have hlt := (h.height_le_iff hp).mp (not_lt.mp hle)
    exact hne (coeff_eq_zero_of_degree_lt hlt)

theorem DivisionStore.Lawful.countsQuotient [FieldDiv R] (h : S.Lawful Rep Room)
    (hlog : ∀ {a b : P} {f g : R[X]} {t : Traced (P × P)}, Rep a f → Rep b g → g ≠ 0 →
      S.divRem a b = .ok t → ∀ e ∈ t.log, e.rounds = longSteps f g) : S.CountsQuotient := by
  intro a b t ha hb ht e he
  obtain ⟨f, hf⟩ := h.represented ha
  obtain ⟨g, hg⟩ := h.represented hb
  have hne : g ≠ 0 := by
    rintro rfl
    rw [(h.eq_zero_iff hg).mpr rfl, h.divRem_zero] at ht
    cases ht
  have hquotient := ((h.divRem hf hg hne).of_eq_ok ht).1
  rw [hlog hf hg hne ht e he, h.weight_eq hquotient, card_support_longQuotient hne]

theorem Dense.countsQuotient [FieldDiv R] : (Dense.divisionStore (R := R)).CountsQuotient := by
  apply Dense.lawful.countsQuotient
  intro a b f g t ha hb hg ht e he
  rw [((Dense.divRem_returns ha hb hg).of_eq_ok ht).2.2, Dense.divisionLog] at he
  split at he
  · cases he
  · obtain rfl := List.mem_singleton.mp he
    rfl

theorem Sparse.countsQuotient [FieldDiv R] : (Sparse.divisionStore (R := R)).CountsQuotient := by
  apply Sparse.lawful.countsQuotient
  intro a b f g t ha hb hg ht e he
  rw [((Sparse.divRem_returns ha hb hg).of_eq_ok ht).2.2, Sparse.divisionLog] at he
  obtain rfl := List.mem_singleton.mp he
  rfl

end Counts

section Logs

variable [DecidableEq R] [ExactCoeff R] [ReciprocalDiv R] {a b : Dense R} {s t : Sparse R}

omit [CoeffDiv R] [ReciprocalDiv R] in
/-- A dividend is below the divisor if its formal polynomial is. -/
theorem Dense.Represents.degree_lt_iff (ha : a.Represents f) (hb : b.Represents g) (hg : g ≠ 0) :
    a.degree < b.degree ↔ f.degree < g.natDegree := by
  have hheight := Dense.store_lawful.height_lt_iff hb hg ha
  rw [← hheight, Dense.degree, Dense.degree, Int.sub_lt_sub_right_iff, Nat.cast_lt]
  rfl

omit [ReciprocalDiv R] in
theorem recorded_of_logs (ha : a.Represents f) (hb : b.Represents g) (ht : t.Represents g)
    (hg : g ≠ 0) : PairedDivision.Recorded ⟨(a, b), (s, t), longSteps f g⟩
      (Dense.divisionLog f g) (Sparse.divisionLog f g) where
  dense := by
    rw [Dense.divisionLog, PairedDivision.denseEvent, Dense.store_lawful.top_eq hb]
    simp only [ha.degree_lt_iff hb hg]
  sparse := by
    rw [Sparse.divisionLog, PairedDivision.sparseEvent, ht.length_terms]
  steps_eq_zero hlt := by
    obtain ⟨htops, -⟩ := long_of_degree_lt hg ((ha.degree_lt_iff hb hg).mp hlt)
    change (longTops f g).support.card = 0
    rw [htops, support_zero, Finset.card_empty]

/-- The divisions of two chains of related remainders go in pairs. -/
theorem exists_pairedRounds (ha : a.Represents f) (hb : b.Represents g) (hs : s.Represents f)
    (ht : t.Represents g) : ∃ l, PairedRounds a b s t l ∧
      l.map (·.denseEvent) =
        ((divisions f g).map fun d => .denseDivision (longSteps d.1 d.2) d.2.natDegree) ∧
      l.map (·.sparseEvent) = (divisions f g).flatMap fun d => Sparse.divisionLog d.1 d.2 := by
  fun_induction divisions f g generalizing a b s t with
  | case1 f =>
    have hdense := hb.isZero_iff.mpr rfl
    have hsparse := ht.isZero_iff.mpr rfl
    refine ⟨[], ⟨⟨a, .stop hdense⟩, ⟨s, .stop hsparse⟩, ?_⟩, rfl, rfl⟩
    intro d hd
    cases hd
  | case2 f g hg ih =>
    obtain ⟨x, hx, -, hxr, hxlog⟩ := Dense.divRem_returns ha hb hg
    obtain ⟨y, hy, -, hyr, hylog⟩ := Sparse.divRem_returns hs ht hg
    have hrec := recorded_of_logs (s := s) ha hb ht hg
    rw [← hxlog, ← hylog] at hrec
    have hdense := Bool.eq_false_iff.mpr (mt hb.isZero_iff.mp hg)
    have hsparse := Bool.eq_false_iff.mpr (mt ht.isZero_iff.mp hg)
    obtain ⟨l, hrounds, hdenseLog, hsparseLog⟩ := ih hb hxr ht hyr
    refine ⟨_ :: l, hrounds.next (related_of_represents ha hs) (related_of_represents hb ht) hdense
      hsparse hx hy hrec, ?_, ?_⟩
    · rw [List.map_cons, List.map_cons, hdenseLog, PairedDivision.denseEvent,
        Dense.store_lawful.top_eq hb]
    · rw [List.map_cons, List.flatMap_cons, hsparseLog, ← hylog, hrec.sparse]
      rfl

omit [ReciprocalDiv R] in
/-- Among the exponents that fit, both representations tell the same degree. -/
theorem degree_gcd_eq (ha : a.Represents f) (hb : b.Represents g) {p : Dense R} {q : Sparse R}
    (hp : p.Represents (longGcd f g)) (hq : q.Represents (longGcd f g)) (hfa : a.Fits)
    (hfb : b.Fits) : p.degree = q.degree := by
  have hf := mem_degreeLT.mp ((fits_iff ha).mp hfa)
  have hg := mem_degreeLT.mp ((fits_iff hb).mp hfb)
  exact RelatedFitting.degree_eq ⟨_, hp, hq, mem_degreeLT.mpr (degree_longGcd_lt hf hg)⟩

theorem gcd_recorded (ha : a.Represents f) (hb : b.Represents g) (hs : s.Represents f)
    (ht : t.Represents g) (hne : ¬ (f = 0 ∧ g = 0)) : ∃ x y, a.gcd b = .ok x ∧ s.gcd t = .ok y ∧
      ∃ l, GcdRecorded a b s t l x y := by
  obtain ⟨x, hx, hxv, hxlog⟩ := Dense.gcd_returns ha hb hne
  obtain ⟨y, hy, hyv, hylog⟩ := Sparse.gcd_returns hs ht hne
  obtain ⟨l, hrounds, hdense, hsparse⟩ := exists_pairedRounds ha hb hs ht
  have hlength : l.length = (divisions f g).length := by
    simpa using congrArg List.length hdense
  have hbelow : b ≠ .zero ∧ a.degree < b.degree ↔ g ≠ 0 ∧ f.degree < g.natDegree := by
    rw [Ne, hb.eq_zero_iff]
    exact and_congr_right fun hg => ha.degree_lt_iff hb hg
  refine ⟨x, y, hx, hy, l, hrounds, ?_, ?_, degree_gcd_eq ha hb hxv hyv⟩
  · rw [hxlog, flatMap_divisionLog hbelow, hdense, hlength]
  · rw [hylog, hsparse, hlength]

/-- What is recorded is a matter of the formal polynomials alone. -/
theorem recordsAlike (has : Related a s) (hbt : Related b t) : RecordsAlike a b s t := by
  obtain ⟨f, ha, hs⟩ := has.represents
  obtain ⟨g, hb, ht⟩ := hbt.represents
  constructor
  · rw [hb.eq_zero_iff]
    by_cases hg : g = 0
    · subst g
      exact .of_refused rfl (Dense.divRem_zero a hb) (Sparse.divRem_zero s ht)
    · refine .of_returns hg (Dense.divRem_returns ha hb hg) (Sparse.divRem_returns hs ht hg) ?_
      rintro x y ⟨-, -, hxlog⟩ ⟨-, -, hylog⟩
      rw [hxlog, hylog]
      exact ⟨_, recorded_of_logs ha hb ht hg⟩
  · rw [ha.eq_zero_iff, hb.eq_zero_iff]
    by_cases hzero : f = 0 ∧ g = 0
    · obtain ⟨rfl, rfl⟩ := hzero
      exact .of_refused ⟨rfl, rfl⟩ (Dense.lawful.gcd_zero ha hb) (Sparse.lawful.gcd_zero hs ht)
    · exact .inr ⟨hzero, gcd_recorded ha hb hs ht hzero⟩

end Logs

/-- In a field the recorded rounds are the coefficients of the quotient, and over every modulus they
are the same in both representations. -/
theorem division_logs_correspond :
    ((Dense.divisionStore (R := Rat)).CountsQuotient ∧
      (Sparse.divisionStore (R := Rat)).CountsQuotient ∧
        ∀ m : Modulus, m.word.toNat.Prime →
          (Dense.divisionStore (R := Residue m)).CountsQuotient ∧
            (Sparse.divisionStore (R := Residue m)).CountsQuotient) ∧
    (∀ (a b : Dense Rat) (s t : Sparse Rat), Related a s → Related b t → RecordsAlike a b s t) ∧
      ∀ (m : Modulus) (a b : Dense (Residue m)) (s t : Sparse (Residue m)),
        Related a s → Related b t → RecordsAlike a b s t := by
  refine ⟨⟨Dense.countsQuotient, Sparse.countsQuotient, ?_⟩, ?_, ?_⟩
  · intro m hm
    have hprime : Fact m.word.toNat.Prime := ⟨hm⟩
    exact ⟨Dense.countsQuotient, Sparse.countsQuotient⟩
  · intro a b s t has hbt
    exact recordsAlike has hbt
  · intro m a b s t has hbt
    exact recordsAlike has hbt

/-- Modulo seven, `3 * x + 3` and `x ^ 2 + 3 * x + 2`: two divisions are made, and the first of them
is recorded among terms only. The quotient in the second is `5 * x + 3`. -/
theorem division_logs_correspond_seven :
    let residue := Residue.ofNat seven
    let a := Dense.ofList [residue 3, residue 3]
    let b := Dense.ofList [residue 2, residue 3, residue 1]
    let s := Sparse.ofList [residue 3, residue 3]
    let t := Sparse.ofList [residue 2, residue 3, residue 1]
    seven.word.toNat.Prime ∧ Dense.store.weight (Dense.ofList [residue 3, residue 5]) = 2 ∧
      ∃ x y l, a.gcd b = .ok x ∧ s.gcd t = .ok y ∧ GcdRecorded a b s t l x y ∧
        x.log.length = 2 ∧ y.log.length = 3 := by
  intro residue a b s t
  have hprime : seven.word.toNat.Prime := by
    change Nat.Prime 7
    decide
  obtain ⟨⟨-, -, hcounts⟩, -, halike⟩ := division_logs_correspond
  refine ⟨hprime, ?_, ?_⟩
  · have hrun : Dense.divisionStore.divRem b a =
        .ok ⟨(Dense.ofList [residue 3, residue 5], .zero), [.denseDivision 2 1]⟩ := by cbv
    have hweight := (hcounts seven hprime).1 b a _ (Dense.canonical_ofList _)
      (Dense.canonical_ofList _) hrun _ (List.mem_singleton_self _)
    exact hweight.symm
  · have has : Related a s := related_ofList (by decide)
    have hbt : Related b t := related_ofList (by decide)
    have hne : ¬ (a = .zero ∧ b = .zero) := by decide
    rcases (halike seven a b s t has hbt).gcd with ⟨hzero, -⟩ | ⟨-, x, y, hx, hy, l, hrec⟩
    · exact absurd hzero hne
    · refine ⟨x, y, l, hx, hy, hrec, ?_⟩
      obtain ⟨last, hrounds⟩ := hrec.rounds.dense
      have hfirst : Dense.divisionStore.rem a b = .ok ⟨a, []⟩ := by cbv
      have hsecond : Dense.divisionStore.rem b a = .ok ⟨.zero, [.denseDivision 2 1]⟩ := by cbv
      have hmade : Dense.divisionStore.Rounds a b [(a, b), (b, a)] a :=
        .next (by decide) hfirst (.next (by decide) hsecond (.stop (by decide)))
      have hlength := congrArg List.length (hmade.unique hrounds).1
      have hbelow : b ≠ .zero ∧ a.degree < b.degree := by decide
      rw [List.length_map] at hlength
      rw [hrec.dense, hrec.sparse, if_pos hbelow]
      simp [hlength]

end Univariate
