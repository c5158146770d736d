import Mathlib.Algebra.Order.Ring.Abs
import Univariate.Coeff.Signed
import Univariate.Proofs.Coeff.Power

/-! Machine integers: results in range are exact, and so are the powers and the multiples that
doubling forms. -/
namespace Univariate

/-- `n` is an integer of the width. -/
def Width.Holds (w : Width) (n : ℤ) : Prop := -w.bound ≤ n ∧ n < w.bound

/-- A power that is out of range has left it for good, whichever end it left it by. -/
theorem Width.not_holds_pow {w : Width} {a : ℤ} {i j : ℕ} (hi : ¬ w.Holds (a ^ i)) (hij : i ≤ j) :
    ¬ w.Holds (a ^ j) := by
  have hbound := w.one_lt_bound
  have hlarge : w.bound ≤ |a ^ i| := by
    by_contra hlt
    obtain ⟨hlow, hhigh⟩ := abs_lt.mp (not_le.mp hlt)
    exact hi ⟨hlow.le, hhigh⟩
  have htwo : 2 ≤ |a| := by
    by_contra hsmall
    have hone : |a| ≤ 1 := by omega
    have hpow := pow_le_one₀ (n := i) (abs_nonneg a) hone
    rw [← abs_pow] at hpow
    omega
  rcases hij.eq_or_lt with rfl | hlt
  · exact hi
  · intro hj
    have hle : |a ^ i| * 2 ≤ |a ^ j| := by
      rw [abs_pow, abs_pow]
      calc |a| ^ i * 2 ≤ |a| ^ i * |a| :=
            mul_le_mul_of_nonneg_left htwo (pow_nonneg (abs_nonneg a) i)
        _ = |a| ^ (i + 1) := (pow_succ _ _).symm
        _ ≤ |a| ^ j := pow_le_pow_right₀ (by omega) hlt
    have habs : |a ^ j| ≤ w.bound := abs_le.mpr ⟨hj.1, hj.2.le⟩
    omega

/-- A multiple that is out of range has left it for good by one end. -/
theorem Width.not_holds_mul {w : Width} {a : ℤ} {i j : ℕ} (hi : ¬ w.Holds (a * i)) (hij : i ≤ j) :
    ¬ w.Holds (a * j) := by
  intro hj
  apply hi
  have hbound := w.one_lt_bound
  have hle : (i : ℤ) ≤ j := by exact_mod_cast hij
  obtain ⟨hlow, hhigh⟩ := hj
  rcases le_total 0 a with ha | ha
  · have hpos : 0 ≤ a * i := mul_nonneg ha (Int.natCast_nonneg i)
    have hmul : a * i ≤ a * j := mul_le_mul_of_nonneg_left hle ha
    exact ⟨by omega, by omega⟩
  · have hneg : a * i ≤ 0 := mul_nonpos_of_nonpos_of_nonneg ha (Int.natCast_nonneg i)
    have hmul : a * j ≤ a * i := mul_le_mul_of_nonpos_left hle ha
    exact ⟨by omega, by omega⟩

namespace Signed

variable {w : Width} {operation : Operation} {n : ℤ}

theorem ext {a b : Signed w} (h : a.val = b.val) : a = b := by
  cases a
  cases b
  cases h
  rfl

theorem val_zero : (Coeff.zero : Signed w).val = 0 := rfl

theorem holds_val (a : Signed w) : w.Holds a.val := ⟨a.neg_bound_le, a.lt_bound⟩

theorem checked_of_not_holds (h : ¬ w.Holds n) :
    (checked operation n : Except Fault (Signed w)) = .error (.overflow operation) := by
  have hnone : ofInt? w n = none := dif_neg h
  rw [checked, hnone]

/-- A checked result, with the one fault that may take its place. -/
theorem checked_ends : Ends (fun e => e = .overflow operation ∧ ¬ w.Holds n)
    (checked operation n : Except Fault (Signed w)) (·.val = n) := by
  cases h : (checked operation n : Except Fault (Signed w)) with
  | ok a => exact checked_eq_ok_iff.mp h
  | error e =>
    by_cases hn : w.Holds n
    · have hok : checked operation n = .ok (⟨n, hn.1, hn.2⟩ : Signed w) := checked_eq_ok_iff.mpr rfl
      cases h.symm.trans hok
    · rw [checked_of_not_holds hn] at h
      exact ⟨(Except.error.inj h).symm, hn⟩

theorem checked_returnsIff : ReturnsIff (w.Holds n) (·.val = n) (· = .overflow operation)
    (checked operation n : Except Fault (Signed w)) := by
  refine .of_ends ((checked_ends.weaken fun e he => ⟨he.2, he.1⟩).imp fun a ha => ⟨?_, ha⟩)
  rw [← ha]
  exact a.holds_val

instance : ZeroLaws (Signed w) where
  zero_add a := checked_eq_ok_iff.mpr (by rw [val_zero, zero_add])
  add_zero a := checked_eq_ok_iff.mpr (by rw [val_zero, add_zero])
  zero_mul a := checked_eq_ok_iff.mpr (by rw [val_zero, zero_mul])
  mul_zero a := checked_eq_ok_iff.mpr (by rw [val_zero, mul_zero])
  neg_eq_zero_iff a := by
    refine checked_eq_ok_iff.trans ?_
    rw [val_zero, eq_comm, neg_eq_zero]
    exact ⟨fun h => ext h, fun h => h ▸ val_zero⟩

/-- Doubling forms only values up to the last, so it fails only where that is out of range, if a
value that is out of range leaves all later ones out. -/
theorem repeated_eq_checked {op : Signed w → Signed w → Except Fault (Signed w)} {v : ℕ → ℤ}
    (hop : ∀ i j (b c : Signed w), b.val = v i → c.val = v j →
      op b c = checked operation (v (i + j)))
    (hout : ∀ {i j}, ¬ w.Holds (v i) → i ≤ j → ¬ w.Holds (v j)) {acc base : Signed w}
    (hacc : acc.val = v 0) (hbase : base.val = v 1) (n : ℕ) :
    repeated op acc base n = checked operation (v n) := by
  have hstep : ∀ i j (b c : Signed w), i + j ≤ n → b.val = v i → c.val = v j →
      Ends (fun e => e = .overflow operation ∧ ¬ w.Holds (v n)) (op b c)
        (·.val = v (i + j)) := by
    intro i j b c hij hb hc
    rw [hop i j b c hb hc]
    exact checked_ends.weaken fun e he => ⟨he.1, hout he.2 hij⟩
  have hrun := Ends.repeated (I := fun i (b : Signed w) => b.val = v i) hstep (n := n)
    (by omega) hacc hbase
  rw [zero_add, one_mul] at hrun
  cases h : repeated op acc base n with
  | ok b => exact (checked_eq_ok_iff.mpr (hrun.of_eq_ok h)).symm
  | error e =>
    obtain ⟨rfl, hn⟩ := hrun.of_eq_error h
    exact (checked_of_not_holds hn).symm

/-- No square that is formed on the way to a power leaves the range on its own. -/
theorem pow_eq_checked (a : Signed w) (n : ℕ) : Coeff.pow a n = checked .multiply (a.val ^ n) := by
  apply repeated_eq_checked (v := fun i => a.val ^ i)
  · intro i j b c hb hc
    change checked .multiply (b.val * c.val) = _
    rw [hb, hc, pow_add]
  · exact Width.not_holds_pow
  · exact (pow_zero a.val).symm
  · exact (pow_one a.val).symm

/-- The copies are summed up before the sign of `n` is looked at. -/
theorem multiple_eq_checked (a : Signed w) (n : ℤ) :
    Coeff.multiple a n = checked .add (a.val * |n|) >>= fun sum =>
      if n < 0 then Coeff.neg sum else pure sum := by
  have hsum : repeated Coeff.add Coeff.zero a n.natAbs = checked .add (a.val * |n|) := by
    rw [← Int.natCast_natAbs]
    apply repeated_eq_checked (v := fun i => a.val * i)
    · intro i j b c hb hc
      change checked .add (b.val + c.val) = _
      rw [hb, hc, Nat.cast_add, mul_add]
    · exact Width.not_holds_mul
    · exact (mul_zero a.val).symm
    · exact (mul_one a.val).symm
  rw [Coeff.multiple, hsum]

end Signed

end Univariate
