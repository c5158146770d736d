import Univariate.Proofs.Coeff.Signed

/-! Powers and integer multiples of machine integers against the exact ones. Nothing that is formed
on the way overflows alone, but a negative multiple goes through its opposite. -/
namespace Univariate.Signed

variable {w : Width} {n : ℤ}

/-- The faults of a multiple: the sum of `|n|` copies is out of range, or it is the least integer,
whose negation is. -/
def MissesMultiple (a : Signed w) (n : ℤ) (e : Fault) : Prop :=
  e = .overflow .add ∧ ¬ w.Holds (a.val * |n|) ∨
    e = .overflow .negate ∧ n < 0 ∧ a.val * |n| = -w.bound

theorem multiple_ends (a : Signed w) (n : ℤ) :
    Ends (a.MissesMultiple n) (Coeff.multiple a n) fun b =>
      w.Holds (a.val * |n|) ∧ b.val = a.val * n := by
  rw [multiple_eq_checked]
  refine (checked_ends.weaken fun e he => .inl he).bind fun sum hsum => ?_
  have hholds := sum.holds_val
  rw [hsum] at hholds
  split
  · rename_i hn
    have hneg : -sum.val = a.val * n := by rw [hsum, abs_of_neg hn, mul_neg, neg_neg]
    change Ends _ (checked .negate (-sum.val)) _
    rw [hneg]
    cases hb : (checked .negate (a.val * n) : Except Fault (Signed w)) with
    | ok b => exact ⟨hholds, checked_eq_ok_iff.mp hb⟩
    | error e =>
      obtain ⟨rfl, hout⟩ := checked_ends.of_eq_error hb
      refine .inr ⟨rfl, hn, ?_⟩
      -- Of all integers in range, the least is the one whose negation is not.
      obtain ⟨hlow, hhigh⟩ := hholds
      rw [← hsum] at hlow hhigh ⊢
      by_contra hne
      exact hout ⟨by omega, by omega⟩
  · rename_i hn
    refine .ok ⟨hholds, ?_⟩
    rw [hsum, abs_of_nonneg (not_lt.mp hn)]

/-- The integers `n` for which `a * n` is formed. -/
def HasMultiple (a : Signed w) (n : ℤ) : Prop :=
  0 ≤ n ∧ w.Holds (a.val * n) ∨ n < 0 ∧ |a.val * n| ≤ w.bound - 1

theorem hasMultiple_of_val_eq {a b : Signed w} (hsum : w.Holds (a.val * |n|))
    (hb : b.val = a.val * n) : a.HasMultiple n := by
  have hholds := b.holds_val
  rw [hb] at hholds
  rcases lt_or_ge n 0 with hn | hn
  · rw [abs_of_neg hn, mul_neg] at hsum
    obtain ⟨hlow, hhigh⟩ := hsum
    have hlt := hholds.2
    exact .inr ⟨hn, abs_le.mpr ⟨by omega, by omega⟩⟩
  · exact .inl ⟨hn, hholds⟩

theorem MissesMultiple.not_hasMultiple {a : Signed w} {e : Fault} (h : a.MissesMultiple n e) :
    ¬ a.HasMultiple n := by
  rintro (⟨hn, hholds⟩ | ⟨hn, hle⟩)
  · rcases h with ⟨-, hout⟩ | ⟨-, hneg, -⟩
    · rw [abs_of_nonneg hn] at hout
      exact hout hholds
    · omega
  · obtain ⟨hlow, hhigh⟩ := abs_le.mp hle
    have hsum : a.val * |n| = -(a.val * n) := by rw [abs_of_neg hn, mul_neg]
    rcases h with ⟨-, hout⟩ | ⟨-, -, hleast⟩
    · rw [hsum] at hout
      exact hout ⟨by omega, by omega⟩
    · omega

/-- A power is formed wherever it is in range. So is a multiple, except that the least integer is no
negative multiple of anything. -/
structure OverflowsExactly (a : Signed w) : Prop where
  pow (n : ℕ) : ReturnsIff (w.Holds (a.val ^ n)) (·.val = a.val ^ n) (· = .overflow .multiply)
    (Coeff.pow a n)
  multiple (n : ℤ) : ReturnsIff (a.HasMultiple n) (·.val = a.val * n) (a.MissesMultiple n)
    (Coeff.multiple a n)
  least (n : ℤ) : n < 0 → a.val * n = -w.bound →
    w.Holds (a.val * n) ∧ Coeff.multiple a n = .error (.overflow .add)

theorem powers_and_multiples_overflow_exactly (w : Width) (a : Signed w) : a.OverflowsExactly where
  pow n := by
    rw [pow_eq_checked]
    exact checked_returnsIff
  multiple n := by
    apply ReturnsIff.of_ends
    refine ((multiple_ends a n).weaken fun e he => ⟨he.not_hasMultiple, he⟩).imp fun b hb => ?_
    exact ⟨hasMultiple_of_val_eq hb.1 hb.2, hb.2⟩
  least n hn hleast := by
    have hbound := w.one_lt_bound
    refine ⟨by rw [hleast]; exact ⟨le_rfl, by omega⟩, ?_⟩
    have hout : ¬ w.Holds (a.val * |n|) := by
      rw [abs_of_neg hn, mul_neg, hleast, neg_neg]
      exact fun hholds => lt_irrefl _ hholds.2
    rw [multiple_eq_checked, checked_of_not_holds hout]
    rfl

/-- In 32 bits the least integer is a power of minus two, and yet no multiple of `2 ^ 16`. -/
theorem powers_and_multiples_overflow_exactly_w32 :
    let minusTwo : Signed .w32 := ⟨-2, by decide, by decide⟩
    let step : Signed .w32 := ⟨65536, by decide, by decide⟩
    Returns (Coeff.pow minusTwo 31) (·.val = -2147483648) ∧
      step.val * -32768 = -2147483648 ∧ Coeff.multiple step (-32768) = .error (.overflow .add) := by
  intro minusTwo step
  refine ⟨?_, rfl, ?_⟩
  · exact ((powers_and_multiples_overflow_exactly .w32 minusTwo).pow 31).result
      ⟨by decide, by decide⟩
  · exact ((powers_and_multiples_overflow_exactly .w32 step).least (-32768) (by decide)
      (by decide)).2

end Univariate.Signed
