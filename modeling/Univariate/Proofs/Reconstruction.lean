import Univariate.Proofs.Coeff.Inverse
import Univariate.Proofs.Dense.InPlace
import Univariate.Proofs.StoreLaws

/-! Long division modulo any number. The power that stands for the reciprocal of the leading
coefficient need not invert it. The division ends all the same, its remainder is low, and what it
misses of the dividend is a multiple of the error of that power. -/
namespace Univariate

open Polynomial

variable {R P : Type} [Coeff R]

/-- What a division of `a` by `b` guarantees of its results. Here `lead` is the leading coefficient
of `b`, and the division is exact where the power of `lead` with exponent `e` is one. -/
structure DivisionStore.MissesBy (S : DivisionStore R P) (e : ℕ) (a b : P) (lead : R) (q r : P)
    (log : List Event) : Prop where
  quotient : S.Canonical q
  remainder : S.Canonical r
  /-- One round for each exponent from the divisor's degree up to the dividend's, at the most. -/
  rounds_le : (log.map Event.rounds).sum ≤ S.height a - (S.height b - 1)
  height_lt : S.height r < S.height b
  missed : ∃ w, S.Canonical w ∧ (∀ n < S.height b - 1, S.coeff w n = Coeff.zero) ∧
    Coincide (S.mul q b >>= fun m => S.add m r >>= S.sub a)
      (Coeff.pow lead e >>= fun u => Coeff.sub Coeff.one u >>= S.scale w)
  exact_of_pow : Coeff.pow lead e = .ok Coeff.one → (S.mul q b >>= fun m => S.add m r) = .ok a
  exact_of_monic : S.isMonic b = true → (S.mul q b >>= fun m => S.add m r) = .ok a

/-- Any divisor but zero has a leading coefficient, and the division by it succeeds. -/
def DivisionStore.DividesUpTo (S : DivisionStore R P) (e : ℕ) : Prop :=
  ∀ a b : P, S.Canonical a → S.Canonical b → b ≠ S.zero → ∃ lead q r log,
    S.leadingCoeff? b = some lead ∧ S.divRem a b = .ok ⟨(q, r), log⟩ ∧
      S.MissesBy e a b lead q r log

namespace DivisionStore.Lawful

variable [CommRing R] [CoeffDiv R] [DecidableEq R] {S : DivisionStore R P} {Rep : P → R[X] → Prop}
  {Room : ℕ → Prop} {a b q r : P} {f g : R[X]}

theorem rounds_le (h : S.Lawful Rep Room) (ha : Rep a f) (hb : Rep b g) (hg : g ≠ 0)
    {t : Traced (P × P)} (ht : S.divRem a b = .ok t) :
    (t.log.map Event.rounds).sum ≤ S.height a - (S.height b - 1) := by
  have hsteps := longSteps_le hg ((h.height_le_iff ha).mp le_rfl)
  rw [h.rounds ha hb hg ht, h.height_eq hb hg, Nat.add_sub_cancel]
  exact hsteps

/-- The top terms that were found, moved up to the exponents that they were found at. -/
theorem exists_tops (h : S.Lawful Rep Room) (ha : Rep a f) (hb : Rep b g) (hg : g ≠ 0) :
    ∃ w, Rep w (X ^ g.natDegree * longTops f g) ∧
      ∀ n < S.height b - 1, S.coeff w n = 0 := by
  have hdeg : (X ^ g.natDegree * longTops f g).natDegree ≤ max f.natDegree g.natDegree := by
    have hmul := natDegree_mul_le (p := X ^ g.natDegree) (q := longTops f g)
    have hpow := natDegree_X_pow_le (R := R) g.natDegree
    rw [natDegree_longTops hg] at hmul
    omega
  obtain ⟨w, hw⟩ := h.stored (h.room_max ha hb hdeg)
  refine ⟨w, hw, ?_⟩
  intro n hn
  rw [h.height_eq hb hg, Nat.add_sub_cancel] at hn
  rw [h.coeff_eq n hw, coeff_X_pow_mul', if_neg (not_le.mpr hn)]

variable [ExactCoeff R]

/-- The results miss the dividend by what the power of the leading coefficient misses of one. -/
theorem missesBy (h : S.Lawful Rep Room) {e : ℕ} (ha : Rep a f) (hb : Rep b g) (hg : g ≠ 0)
    (hpow : g.leadingCoeff ^ e = g.leadingCoeff * Coeff.reciprocal g.leadingCoeff)
    {log : List Event} (ht : S.divRem a b = .ok ⟨(q, r), log⟩) (hq : Rep q (longQuotient f g))
    (hr : Rep r (longRemainder f g)) : S.MissesBy e a b g.leadingCoeff q r log := by
  obtain ⟨s, hs, hsum⟩ := h.mul_add_long ha hb hg hq hr
  have hexact : g.leadingCoeff ^ e = 1 → (S.mul q b >>= fun m => S.add m r) = .ok a := by
    intro hone
    rw [longQuotient_mul_add_of_inverse (hpow.symm.trans hone)] at hsum
    rw [hs, h.unique hsum ha]
  refine ⟨h.canonical hq, h.canonical hr, h.rounds_le ha hb hg ht,
    (h.height_lt_iff hb hg hr).mpr (degree_longRemainder_lt hg), ?_, ?_, ?_⟩
  · obtain ⟨w, hw, hlow⟩ := h.exists_tops ha hb hg
    obtain ⟨d, hd, hleft⟩ := h.sub ha hsum
    obtain ⟨d', hd', hright⟩ := h.scale (1 - g.leadingCoeff ^ e) hw
    rw [sub_longQuotient_mul_add, ← hpow] at hleft
    obtain rfl := h.unique hleft hright
    refine ⟨w, h.canonical hw, ?_, d, ?_, ?_⟩
    · intro n hn
      rw [hlow n hn, ExactCoeff.zero_eq]
    · rw [← bind_assoc, hs]
      exact hd
    · rw [Coeff.pow_eq, Fault.ok_bind, ExactCoeff.one_eq, ExactCoeff.sub_eq]
      exact hd'
  · intro hone
    rw [Coeff.pow_eq, ExactCoeff.one_eq] at hone
    exact hexact (Except.ok.inj hone)
  · intro hmonic
    have hlead : g.leadingCoeff = 1 := (h.isMonic_iff hb hg).mp hmonic
    exact hexact (by rw [hlead, one_pow])

theorem dividesUpTo (h : S.Lawful Rep Room) {e : ℕ}
    (hpow : ∀ l : R, l ≠ 0 → l ^ e = l * Coeff.reciprocal l) : S.DividesUpTo e := by
  intro a b ha hb hne
  obtain ⟨f, hf⟩ := h.represented ha
  obtain ⟨g, hg⟩ := h.represented hb
  have hg_ne : g ≠ 0 := mt (h.eq_zero_iff hg).mpr hne
  obtain ⟨⟨⟨q, r⟩, log⟩, ht, hq, hr⟩ := h.divRem hf hg hg_ne
  refine ⟨g.leadingCoeff, q, r, log, h.leadingCoeff?_eq hg hg_ne, ht, ?_⟩
  exact h.missesBy hf hg hg_ne (hpow _ (leadingCoeff_ne_zero.mpr hg_ne)) ht hq hr

end DivisionStore.Lawful

theorem Residue.pow_eq_mul_reciprocal {m : Modulus} {l : Residue m} (h : l ≠ 0) :
    l ^ (m.word.toNat - 1) = l * Coeff.reciprocal l := by
  rw [reciprocal_eq_pow h, mul_pow_sub_two h]

/-- Long division modulo any number, in both representations. Among slots no index leaves the range
of the slots that are there. -/
theorem division_exact_up_to_power (m : Modulus) :
    (Dense.divisionStore (R := Residue m)).DividesUpTo (m.word.toNat - 1) ∧
      (Sparse.divisionStore (R := Residue m)).DividesUpTo (m.word.toNat - 1) ∧
        ∀ (outside : Fault) (a b : Dense (Residue m)), a.Canonical → b.Canonical →
          Dense.divRemInPlace outside a b = a.divRem b := by
  have hpow : ∀ l : Residue m, l ≠ 0 → l ^ (m.word.toNat - 1) = l * Coeff.reciprocal l :=
    fun _ => Residue.pow_eq_mul_reciprocal
  refine ⟨Dense.lawful.dividesUpTo hpow, Sparse.lawful.dividesUpTo hpow, ?_⟩
  intro outside a b ha hb
  exact Dense.divRemInPlace_eq outside ha hb

/-- Modulo six, where three has no inverse: `3 * x ^ 3 + 5 * x ^ 2 + 1` over `3 * x + 2` leaves one
after two rounds, and misses `2 * x ^ 2`. -/
theorem division_exact_up_to_power_six :
    let residue := Residue.ofNat ⟨6, by decide⟩
    let a := Dense.ofList [residue 1, residue 0, residue 5, residue 3]
    let b := Dense.ofList [residue 2, residue 3]
    let q := Dense.ofList [residue 0, residue 3, residue 3]
    a.divRem b = .ok ⟨(q, Dense.one), [.denseDivision 2 1]⟩ ∧
      Dense.divisionStore.MissesBy 5 a b (residue 3) q Dense.one [.denseDivision 2 1] ∧
        (q.mul b >>= fun m => m.add Dense.one >>= a.sub) =
          .ok (Dense.ofList [residue 0, residue 0, residue 2]) := by
  intro residue a b q
  have hrun : a.divRem b = .ok ⟨(q, Dense.one), [.denseDivision 2 1]⟩ := by cbv
  have hlead : b.leadingCoeff? = some (residue 3) := by decide
  obtain ⟨lead, _, _, _, hlead', hrun', hmisses⟩ :=
    (division_exact_up_to_power ⟨6, by decide⟩).1 a b (Dense.canonical_ofList _)
      (Dense.canonical_ofList _) (by decide)
  cases hrun.symm.trans hrun'
  cases hlead.symm.trans hlead'
  exact ⟨hrun, hmisses, by decide⟩

end Univariate
