import Univariate.Proofs.UniqueDivision

/-! Over a field the greatest common divisor that is found is the monic one. -/
namespace Univariate

open Polynomial

variable {R P : Type}

/-- The division of `a` by `c` succeeds and leaves nothing. -/
def DivisionStore.Divides (S : DivisionStore R P) (c a : P) : Prop :=
  ∃ log, S.rem a c = .ok ⟨S.zero, log⟩

/-- A monic common divisor that every common divisor divides. -/
structure DivisionStore.IsGcd (S : DivisionStore R P) (a b g : P) : Prop where
  canonical : S.Canonical g
  monic : S.isMonic g = true
  left : S.Divides g a
  right : S.Divides g b
  greatest {c : P} : S.Canonical c → c ≠ S.zero → S.Divides c a → S.Divides c b → S.Divides c g

/-- Two zeros have no greatest common divisor. Any other operands have one, which is found from
either side, and it is the monic generator of their ideal. -/
structure DivisionStore.FindsGcd [CommRing R] (S : DivisionStore R P) : Prop where
  both_zero : S.gcd S.zero S.zero = .error .zeroPolynomial
  not_both_zero {a b : P} : S.Canonical a → S.Canonical b → ¬ (a = S.zero ∧ b = S.zero) →
    ∃ g log log', S.gcd a b = .ok ⟨g, log⟩ ∧ S.gcd b a = .ok ⟨g, log'⟩ ∧ S.IsGcd a b g ∧
      (∀ g', S.IsGcd a b g' → g' = g) ∧
        Ideal.span {S.formal g} = Ideal.span {S.formal a, S.formal b}

namespace DivisionStore.Lawful

variable [CommRing R] [Coeff R] [CoeffDiv R] [DecidableEq R] [FieldDiv R] {S : DivisionStore R P}
  {Rep : P → R[X] → Prop} {Room : ℕ → Prop} {a b c d : P} {f g u : R[X]}

theorem divides_iff (h : S.Lawful Rep Room) (hc : Rep c u) (hu : u ≠ 0) (ha : Rep a f) :
    S.Divides c a ↔ u ∣ f := by
  obtain ⟨⟨r, log⟩, hrun, hrem⟩ := h.rem ha hc hu
  rw [← longRemainder_eq_zero_iff hu, ← h.eq_zero_iff hrem, Divides, hrun]
  constructor
  · rintro ⟨_, hzero⟩
    exact congrArg Traced.value (Except.ok.inj hzero)
  · rintro rfl
    exact ⟨log, rfl⟩

omit [FieldDiv R] in
/-- Nothing is divided by zero. -/
theorem ne_zero_of_divides (h : S.Lawful Rep Room) (hc : Rep c u) (hd : S.Divides c a) :
    u ≠ 0 := by
  intro hu
  obtain ⟨log, hrun⟩ := hd
  rw [(h.eq_zero_iff hc).mpr hu, h.rem_eq, h.divRem_zero] at hrun
  cases hrun

theorem isGcd_longGcd (h : S.Lawful Rep Room) (ha : Rep a f) (hb : Rep b g)
    (hne : ¬ (f = 0 ∧ g = 0)) (hd : Rep d (longGcd f g)) : S.IsGcd a b d := by
  have hmonic := monic_longGcd hne
  obtain ⟨hf, hg⟩ := longGcd_dvd hne
  have hd_ne : longGcd f g ≠ 0 := by
    intro hzero
    rw [hzero, zero_dvd_iff] at hf hg
    exact hne ⟨hf, hg⟩
  refine ⟨h.canonical hd, (h.isMonic_iff hd hd_ne).mpr hmonic, (h.divides_iff hd hd_ne ha).mpr hf,
    (h.divides_iff hd hd_ne hb).mpr hg, fun {c} hc _ hca hcb => ?_⟩
  obtain ⟨u, hu⟩ := h.represented hc
  have hu_ne := h.ne_zero_of_divides hu hca
  rw [h.divides_iff hu hu_ne ha] at hca
  rw [h.divides_iff hu hu_ne hb] at hcb
  exact (h.divides_iff hu hu_ne hd).mpr (dvd_longGcd hne hca hcb)

/-- Two of them would divide one another. -/
theorem isGcd_unique (h : S.Lawful Rep Room) (ha : Rep a f) (hb : Rep b g)
    (hne : ¬ (f = 0 ∧ g = 0)) (hd : Rep d (longGcd f g)) (hc : S.IsGcd a b c) : c = d := by
  obtain ⟨u, hu⟩ := h.represented hc.canonical
  have hu_ne := h.ne_zero_of_divides hu hc.left
  have hgcd := h.isGcd_longGcd ha hb hne hd
  have hd_ne := h.ne_zero_of_divides hd hgcd.left
  have hle : u ∣ longGcd f g := dvd_longGcd hne ((h.divides_iff hu hu_ne ha).mp hc.left)
    ((h.divides_iff hu hu_ne hb).mp hc.right)
  have hge : longGcd f g ∣ u := (h.divides_iff hd hd_ne hu).mp
    (hc.greatest hgcd.canonical (mt (h.eq_zero_iff hd).mp hd_ne) hgcd.left hgcd.right)
  have heq := monic_unique ((h.isMonic_iff hu hu_ne).mp hc.monic) (monic_longGcd hne) hle hge
  rw [heq] at hu
  exact h.unique hu hd

theorem findsGcd (h : S.Lawful Rep Room) : S.FindsGcd where
  both_zero := h.gcd_zero h.zero h.zero
  not_both_zero {a b} ha hb hzero := by
    obtain ⟨f, hf⟩ := h.represented ha
    obtain ⟨g, hg⟩ := h.represented hb
    rw [h.eq_zero_iff hf, h.eq_zero_iff hg] at hzero
    have hzero' : ¬ (g = 0 ∧ f = 0) := fun hz => hzero hz.symm
    obtain ⟨⟨d, log⟩, hrun, hd⟩ := h.gcd hf hg hzero
    obtain ⟨⟨d', log'⟩, hrun', hd'⟩ := h.gcd hg hf hzero'
    rw [← longGcd_comm hzero] at hd'
    obtain rfl := h.unique hd hd'
    refine ⟨d, log, log', hrun, hrun', h.isGcd_longGcd hf hg hzero hd, fun c hc =>
      h.isGcd_unique hf hg hzero hd hc, ?_⟩
    rw [h.formal_eq hd, h.formal_eq hf, h.formal_eq hg, span_longGcd hzero]

end DivisionStore.Lawful

/-- Greatest common divisors in both representations, over the rationals and modulo every prime. -/
theorem gcd_monic_generator :
    (Dense.divisionStore (R := Rat)).FindsGcd ∧ (Sparse.divisionStore (R := Rat)).FindsGcd ∧
      ∀ m : Modulus, m.word.toNat.Prime →
        (Dense.divisionStore (R := Residue m)).FindsGcd ∧
          (Sparse.divisionStore (R := Residue m)).FindsGcd := by
  refine ⟨Dense.lawful.findsGcd, Sparse.lawful.findsGcd, fun m hm => ?_⟩
  have hprime : Fact m.word.toNat.Prime := ⟨hm⟩
  exact ⟨Dense.lawful.findsGcd, Sparse.lawful.findsGcd⟩

/-- Modulo seven, `x ^ 2 + 3 * x + 2` and `3 * x + 3` from either side. -/
theorem gcd_monic_generator_seven :
    seven.word.toNat.Prime ∧ ∃ g log log',
      Dense.gcd (R := Residue seven) ⟨[.ofNat seven 2, .ofNat seven 3, .ofNat seven 1]⟩
          ⟨[.ofNat seven 3, .ofNat seven 3]⟩ = .ok ⟨g, log⟩ ∧
        Dense.gcd (R := Residue seven) ⟨[.ofNat seven 3, .ofNat seven 3]⟩
          ⟨[.ofNat seven 2, .ofNat seven 3, .ofNat seven 1]⟩ = .ok ⟨g, log'⟩ ∧
        g.isMonic = true := by
  have hprime : seven.word.toNat.Prime := by
    change Nat.Prime 7
    decide
  refine ⟨hprime, ?_⟩
  obtain ⟨g, log, log', hg, hg', hgcd, -⟩ :=
    ((gcd_monic_generator.2.2 seven hprime).1).not_both_zero
      (a := ⟨[.ofNat seven 2, .ofNat seven 3, .ofNat seven 1]⟩)
      (b := ⟨[.ofNat seven 3, .ofNat seven 3]⟩)
      (by change _ ≠ _; decide) (by change _ ≠ _; decide) (by decide)
  exact ⟨g, log, log', hg, hg', hgcd.monic⟩

end Univariate
