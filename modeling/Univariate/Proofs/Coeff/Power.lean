import Mathlib.Algebra.Group.TypeTags.Hom
import Mathlib.Tactic.Ring
import Univariate.Coeff.Power
import Univariate.Proofs.Coeff.Exact
import Univariate.Proofs.Returns

/-! What repeated doubling computes, and when two runs of it agree. -/
namespace Univariate

variable {A B M : Type}

/-- Every number comes from zero and one by doubling a number that is not zero, with or without one
more. -/
@[elab_as_elim]
theorem halving_induction {motive : ℕ → Prop} (zero : motive 0) (one : motive 1)
    (even : ∀ n, n ≠ 0 → motive n → motive (2 * n))
    (odd : ∀ n, n ≠ 0 → motive n → motive (2 * n + 1)) (n : ℕ) : motive n := by
  induction n using Nat.strong_induction_on with
  | _ n ih =>
    rcases Nat.even_or_odd' n with ⟨k, rfl | rfl⟩
    · rcases eq_or_ne k 0 with rfl | hk
      · exact zero
      · exact even k hk (ih k (by omega))
    · rcases eq_or_ne k 0 with rfl | hk
      · exact one
      · exact odd k hk (ih k (by omega))

section Steps

variable (op : A → A → Except Fault A) (acc base : A)

theorem repeated_zero : repeated op acc base 0 = .ok acc := by
  rw [repeated, if_pos rfl]

theorem repeated_one : repeated op acc base 1 = op acc base := by
  rw [repeated]
  exact bind_pure (op acc base)

theorem repeated_even {n : ℕ} (hn : n ≠ 0) :
    repeated op acc base (2 * n) = op base base >>= fun base => repeated op acc base n := by
  have hhalf : 2 * n / 2 = n := by omega
  rw [repeated, if_neg (by omega), if_neg (by omega), hhalf, Fault.ok_bind]
  exact if_neg hn

theorem repeated_odd {n : ℕ} (hn : n ≠ 0) :
    repeated op acc base (2 * n + 1) = op acc base >>= fun acc => op base base >>= fun base =>
      repeated op acc base n := by
  have hhalf : (2 * n + 1) / 2 = n := by omega
  rw [repeated, if_neg (by omega), if_pos (by omega), hhalf]
  simp only [if_neg hn]

end Steps

/-- A relation between computations that is met by results in relation `I` and handed on from one
step to the next. Both may depend on a grade. -/
structure Lifts (I : ℕ → A → B → Prop) (L : ℕ → Except Fault A → Except Fault B → Prop) : Prop where
  value {i : ℕ} {a : A} {b : B} : I i a b → L i (.ok a) (.ok b)
  bind {i j : ℕ} {x : Except Fault A} {y : Except Fault B} {f : A → Except Fault A}
    {g : B → Except Fault B} :
    L i x y → (∀ a b, I i a b → L j (f a) (g b)) → L j (x >>= f) (y >>= g)

/-- Doubling forms only multiples of its base up to the last one, `k` at most, so the operations
need only be in relation on values whose grades add up to no more. -/
theorem Lifts.repeated {I : ℕ → A → B → Prop}
    {L : ℕ → Except Fault A → Except Fault B → Prop} (h : Lifts I L)
    (op : A → A → Except Fault A) (op' : B → B → Except Fault B) {k : ℕ}
    (hop : ∀ i j a b a' b', i + j ≤ k → I i a a' → I j b b' → L (i + j) (op a b) (op' a' b'))
    {n i j : ℕ} {acc base : A} {acc' base' : B} (hk : i + j * n ≤ k) (hacc : I i acc acc')
    (hbase : I j base base') :
    L (i + j * n) (Univariate.repeated op acc base n) (Univariate.repeated op' acc' base' n) := by
  induction n using halving_induction generalizing i j acc base acc' base' with
  | zero =>
    rw [repeated_zero, repeated_zero]
    exact h.value hacc
  | one =>
    rw [mul_one] at hk ⊢
    rw [repeated_one, repeated_one]
    exact hop i j _ _ _ _ hk hacc hbase
  | even n hn ih =>
    have hsum : i + j * (2 * n) = i + (j + j) * n := by ring
    have hle : (j + j) * 1 ≤ (j + j) * n := Nat.mul_le_mul_left _ (by omega)
    rw [hsum] at hk ⊢
    rw [repeated_even _ _ _ hn, repeated_even _ _ _ hn]
    exact h.bind (hop j j _ _ _ _ (by omega) hbase hbase) fun _ _ hbase => ih hk hacc hbase
  | odd n hn ih =>
    have hsum : i + j * (2 * n + 1) = i + j + (j + j) * n := by ring
    have hle : (j + j) * 1 ≤ (j + j) * n := Nat.mul_le_mul_left _ (by omega)
    rw [hsum] at hk ⊢
    rw [repeated_odd _ _ _ hn, repeated_odd _ _ _ hn]
    refine h.bind (hop i j _ _ _ _ (by omega) hacc hbase) fun _ _ hacc => ?_
    exact h.bind (hop j j _ _ _ _ (by omega) hbase hbase) fun _ _ hbase => ih hk hacc hbase

theorem Ends.repeated {E : Fault → Prop} {I : ℕ → A → Prop} {op : A → A → Except Fault A} {k : ℕ}
    (hop : ∀ i j a b, i + j ≤ k → I i a → I j b → Ends E (op a b) (I (i + j))) {n i j : ℕ}
    {acc base : A} (hk : i + j * n ≤ k) (hacc : I i acc) (hbase : I j base) :
    Ends E (Univariate.repeated op acc base n) (I (i + j * n)) := by
  have hlift : Lifts (fun i a (b : A) => I i a ∧ a = b) fun i x _ => Ends E x (I i) :=
    ⟨fun h => .ok h.1, fun hx hf => hx.bind fun a ha => hf a a ⟨ha, rfl⟩⟩
  refine hlift.repeated op op ?_ hk ⟨hacc, rfl⟩ ⟨hbase, rfl⟩
  exact fun i j a b _ _ hij ha hb => hop i j a b hij ha.1 hb.1

/-- The grades are the powers of a value. -/
theorem repeated_returns [Monoid M] (rep : A → M → Prop) {op : A → A → Except Fault A} {y : M}
    {k : ℕ} (hop : ∀ i j a b, i + j ≤ k → rep a (y ^ i) → rep b (y ^ j) →
      Returns (op a b) (rep · (y ^ (i + j))))
    {n i j : ℕ} {acc base : A} (hk : i + j * n ≤ k) (hacc : rep acc (y ^ i))
    (hbase : rep base (y ^ j)) : Returns (repeated op acc base n) (rep · (y ^ (i + j * n))) := by
  refine (Ends.repeated (E := fun _ => False) (I := fun i a => rep a (y ^ i))
    (fun i j a b hij ha hb => ?_) hk hacc hbase).returns fun _ => id
  exact (hop i j a b hij ha hb).ends

namespace Coeff

section Zero

variable {R : Type} [Coeff R] [ZeroLaws R]

theorem multiple_zero (n : ℤ) : multiple (zero : R) n = .ok zero := by
  have hadd : ∀ i j (b c : R), i + j ≤ n.natAbs → b = zero → c = zero →
      Ends (fun _ => False) (add b c) (· = zero) := by
    rintro i j b c - rfl rfl
    rw [ZeroLaws.add_zero]
    exact .ok rfl
  have hsum := Ends.repeated (I := fun _ => (· = zero)) hadd (n := n.natAbs) (i := 0) (j := 1)
    (by omega) rfl rfl
  obtain ⟨_, hb, rfl⟩ := hsum.returns fun _ => id
  rw [multiple, hb, Fault.ok_bind]
  split
  · exact (ZeroLaws.neg_eq_zero_iff _).mpr rfl
  · rfl

end Zero

variable {R : Type} [CommRing R] [Coeff R] [ExactCoeff R]

theorem pow_eq (a : R) (n : ℕ) : pow a n = .ok (a ^ n) := by
  have h : Returns (repeated mul one a n) (· = a ^ (0 + 1 * n)) :=
    repeated_returns (fun b x : R => b = x) (k := 0 + 1 * n)
      (fun i j b c _ hb hc => by simp [hb, hc, Returns, pow_add]) le_rfl (by simp) (by simp)
  obtain ⟨b, hb, rfl⟩ := h
  simpa [pow] using hb

/-- Doubling adds up copies as it multiplies them: a multiple is a power of the additive group. -/
theorem multiple_eq (a : R) (n : ℤ) : multiple a n = .ok (n • a) := by
  have h : Returns (repeated add zero a n.natAbs)
      (fun b => Multiplicative.ofAdd b = Multiplicative.ofAdd a ^ (0 + 1 * n.natAbs)) :=
    repeated_returns (fun (b : R) x => Multiplicative.ofAdd b = x) (k := 0 + 1 * n.natAbs)
      (fun i j b c _ hb hc => by simp [← hb, ← hc, Returns, pow_add]) le_rfl (by simp) (by simp)
  obtain ⟨b, hb, hpow⟩ := h
  have hsum : b = n.natAbs • a := by
    rw [zero_add, one_mul, ← ofAdd_nsmul] at hpow
    exact Multiplicative.ofAdd.injective hpow
  rw [multiple, hb, hsum]
  change (if n < 0 then neg _ else .ok _) = _
  split
  · rename_i hn
    have habs : ((n.natAbs : ℕ) : ℤ) = -n := Int.ofNat_natAbs_of_nonpos hn.le
    rw [ExactCoeff.neg_eq, ← natCast_zsmul, habs, neg_zsmul, neg_neg]
  · rename_i hn
    have habs : ((n.natAbs : ℕ) : ℤ) = n := Int.natAbs_of_nonneg (by omega)
    rw [← natCast_zsmul, habs]

end Coeff

end Univariate
