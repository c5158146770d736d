import Univariate.Proofs.RingLaws

/-! Long division is linear in the dividend, whatever the division of coefficients comes to. The
rounds of a sum are not those of its summands, but what they leave is. -/
namespace Univariate

open Polynomial

variable {R P : Type} [Coeff R]

/-- The divisions of `a` and `b` by `d`, which come to the quotients and remainders in `s` and `t`,
tell those of the sum and of the multiples. -/
structure DivisionStore.LinearAt (S : DivisionStore R P) (a b d : P) (s t : P × P) : Prop where
  add : Coincide (S.add a b >>= fun p => Traced.value <$> S.divRem p d)
    (S.add s.1 t.1 >>= fun q => S.add s.2 t.2 >>= fun r => pure (q, r))
  scale (c : R) : Coincide (S.scale a c >>= fun p => Traced.value <$> S.divRem p d)
    (S.scale s.1 c >>= fun q => S.scale s.2 c >>= fun r => pure (q, r))

/-- Any divisor but zero divides every two polynomials, and linearly. -/
def DivisionStore.DividesLinearly (S : DivisionStore R P) : Prop :=
  ∀ a b d : P, S.Canonical a → S.Canonical b → S.Canonical d → d ≠ S.zero → ∃ s t : Traced (P × P),
    S.divRem a d = .ok s ∧ S.divRem b d = .ok t ∧ S.LinearAt a b d s.value t.value

section LongDivision

variable [CommRing R] [CoeffDiv R] {g : R[X]}

theorem longQuotient_add (hg : g ≠ 0) (f f' : R[X]) :
    longQuotient (f + f') g = longQuotient f g + longQuotient f' g := by
  rw [longQuotient, (long_add hg f f').1, mul_add]
  rfl

theorem longQuotient_C_mul (hg : g ≠ 0) (c : R) (f : R[X]) :
    longQuotient (C c * f) g = C c * longQuotient f g := by
  rw [longQuotient, (long_C_mul hg c f).1, mul_left_comm]
  rfl

end LongDivision

namespace DivisionStore.Lawful

variable [CommRing R] [CoeffDiv R] [DecidableEq R] {S : DivisionStore R P} {Rep : P → R[X] → Prop}
  {Room : ℕ → Prop} {a b d : P} {f f' g u v : R[X]} {x y z : Except Fault P} {s t : P × P}

/-- A dividend that is formed is divided. -/
theorem bind_divRem (h : S.Lawful Rep Room) (hx : Returns x (Rep · f)) (hd : Rep d g)
    (hg : g ≠ 0) : Returns (x >>= fun p => Traced.value <$> S.divRem p d)
      fun w => Rep w.1 (longQuotient f g) ∧ Rep w.2 (longRemainder f g) := by
  refine hx.bind fun p hp => ?_
  obtain ⟨w, hw, hvalue⟩ := h.divRem hp hd hg
  rw [hw]
  exact .ok hvalue

theorem coincide_pair (h : S.Lawful Rep Room) {w : Except Fault (P × P)}
    (hw : Returns w fun w => Rep w.1 u ∧ Rep w.2 v) (hy : Returns y (Rep · u))
    (hz : Returns z (Rep · v)) :
    Coincide w (y >>= fun q => z >>= fun r => pure (q, r)) := by
  obtain ⟨⟨q, r⟩, rfl, hq, hr⟩ := hw
  obtain ⟨q', rfl, hq'⟩ := hy
  obtain ⟨r', rfl, hr'⟩ := hz
  obtain rfl := h.unique hq hq'
  obtain rfl := h.unique hr hr'
  exact ⟨_, rfl, rfl⟩

theorem linearAt (h : S.Lawful Rep Room) (ha : Rep a f) (hb : Rep b f') (hd : Rep d g)
    (hg : g ≠ 0) (hs : Rep s.1 (longQuotient f g) ∧ Rep s.2 (longRemainder f g))
    (ht : Rep t.1 (longQuotient f' g) ∧ Rep t.2 (longRemainder f' g)) :
    S.LinearAt a b d s t where
  add := by
    have hsum := h.bind_divRem (h.add ha hb) hd hg
    rw [longQuotient_add hg, (long_add hg f f').2] at hsum
    exact h.coincide_pair hsum (h.add hs.1 ht.1) (h.add hs.2 ht.2)
  scale c := by
    have hmultiple := h.bind_divRem (h.scale c ha) hd hg
    rw [longQuotient_C_mul hg, (long_C_mul hg c f).2] at hmultiple
    exact h.coincide_pair hmultiple (h.scale c hs.1) (h.scale c hs.2)

theorem dividesLinearly (h : S.Lawful Rep Room) : S.DividesLinearly := by
  intro a b d ha hb hd hne
  obtain ⟨f, hf⟩ := h.represented ha
  obtain ⟨f', hf'⟩ := h.represented hb
  obtain ⟨g, hg⟩ := h.represented hd
  have hg_ne : g ≠ 0 := mt (h.eq_zero_iff hg).mpr hne
  obtain ⟨s, hs, hs'⟩ := h.divRem hf hg hg_ne
  obtain ⟨t, ht, ht'⟩ := h.divRem hf' hg hg_ne
  exact ⟨s, t, hs, ht, h.linearAt hf hf' hg hg_ne hs' ht'⟩

end DivisionStore.Lawful

/-- Over the rationals, and modulo any number. -/
theorem division_linear_in_dividend :
    (Dense.divisionStore (R := ℚ)).DividesLinearly ∧
      (Sparse.divisionStore (R := ℚ)).DividesLinearly ∧
        ∀ m : Modulus, (Dense.divisionStore (R := Residue m)).DividesLinearly ∧
          (Sparse.divisionStore (R := Residue m)).DividesLinearly :=
  ⟨Dense.lawful.dividesLinearly, Sparse.lawful.dividesLinearly,
    fun _ => ⟨Dense.lawful.dividesLinearly, Sparse.lawful.dividesLinearly⟩⟩

/-- Modulo six the dividends have their rounds at the exponents 2 and 1, and 2 and 0. The first ones
cancel, so their sum has its rounds at 1 and 0. -/
theorem division_linear_in_dividend_six :
    let residue := Residue.ofNat ⟨6, by decide⟩
    let a := Dense.ofList [residue 1, residue 0, residue 5, residue 3]
    let b := Dense.ofList [residue 0, residue 1, residue 0, residue 3]
    let d := Dense.ofList [residue 2, residue 3]
    let q := Dense.ofList [residue 0, residue 3, residue 3]
    let q' := Dense.ofList [residue 3, residue 0, residue 3]
    a.divRem d = .ok ⟨(q, Dense.one), [.denseDivision 2 1]⟩ ∧
      b.divRem d = .ok ⟨(q', Dense.zero), [.denseDivision 2 1]⟩ ∧
        Dense.divisionStore.LinearAt a b d (q, Dense.one) (q', Dense.zero) ∧
          (a.add b >>= fun p => p.divRem d) =
            .ok ⟨(Dense.ofList [residue 3, residue 3], Dense.one), [.denseDivision 2 1]⟩ := by
  intro residue a b d q q'
  have hrun : a.divRem d = .ok ⟨(q, Dense.one), [.denseDivision 2 1]⟩ := by cbv
  have hrun' : b.divRem d = .ok ⟨(q', Dense.zero), [.denseDivision 2 1]⟩ := by cbv
  obtain ⟨s, t, hs, ht, hlinear⟩ := (division_linear_in_dividend.2.2 ⟨6, by decide⟩).1 a b d
    (Dense.canonical_ofList _) (Dense.canonical_ofList _) (Dense.canonical_ofList _) (by decide)
  cases hrun.symm.trans hs
  cases hrun'.symm.trans ht
  exact ⟨hrun, hrun', hlinear, by cbv⟩

end Univariate
