import Univariate.Proofs.Coeff.Signed
import Univariate.Proofs.InStep

/-! Over machine integers both representations overflow alike, in the same operation if in any. -/
namespace Univariate

open Sparse (slotTerms)

section Eval

variable {w : Width}

/-- Adds the value of a term at `x`, whose power is formed on its own. -/
def addValue (x sum : Signed w) (t : Exponent × Signed w) : Except Fault (Signed w) :=
  Coeff.pow x t.1.toNat >>= fun power => Coeff.mul t.2 power >>= Coeff.add sum

/-- A power that is out of range is met again at the next term, since all later powers are out of
range as well. -/
theorem foldlM_addValue_error {x : Signed w} {l : List (Signed w)} {k : ℕ}
    (hpower : ¬ w.Holds (x.val ^ k)) (hne : slotTerms k l ≠ []) (hle : k + l.length ≤ UInt64.size)
    (sum : Signed w) : (slotTerms k l).foldlM (addValue x) sum = .error (.overflow .multiply) := by
  obtain ⟨t, rest, hterms⟩ := List.exists_cons_of_ne_nil hne
  have hk : k ≤ t.1.toNat := Sparse.le_of_mem_slotTerms hle (by simp [hterms])
  rw [hterms, List.foldlM_cons, addValue, Signed.pow_eq_checked,
    Signed.checked_of_not_holds (Width.not_holds_pow hpower hk)]
  rfl

/-- The running power at a slot is what squaring comes to there. -/
theorem substitute_inStep {x power : Signed w} {l : List (Signed w)} {k : ℕ}
    (hpower : power.val = x.val ^ k) (hlast : l.getLast? ≠ some Coeff.zero)
    (hle : k + l.length ≤ UInt64.size) (sum : Signed w) :
    SameOutcome Eq (substitute Coeff.mul Coeff.add Coeff.mul x sum power l)
      ((slotTerms k l).foldlM (addValue x) sum) := by
  induction l generalizing k sum power with
  | nil => exact .value rfl
  | cons c l ih =>
    rw [List.length_cons] at hle
    have hterm : addTermOf Coeff.mul Coeff.add c sum power =
        if c = Coeff.zero then .ok sum else addValue x sum (.ofNat k, c) := by
      have hpow : Coeff.pow x k = .ok power := by
        rw [Signed.pow_eq_checked]
        exact Signed.checked_eq_ok_iff.mpr hpower
      rw [addTermOf, addValue, UInt64.toNat_ofNat_of_lt' (by omega), hpow]
      rfl
    rw [foldlM_slotTerms, ← hterm]
    cases l with
    | nil =>
      rw [substitute]
      exact .map_right (g := id) fun _ => rfl
    | cons b l =>
      rw [List.getLast?_cons_cons] at hlast
      rw [substitute]
      refine .bind_same fun sum => ?_
      have hmul : Ends (fun e => e = .overflow .multiply ∧ ¬ w.Holds (x.val ^ (k + 1)))
          (Coeff.mul power x) (·.val = x.val ^ (k + 1)) := by
        rw [pow_succ, ← hpower]
        exact Signed.checked_ends
      cases hnext : Coeff.mul power x with
      | ok next => exact ih (hmul.of_eq_ok hnext) hlast (by omega) sum
      | error e =>
        -- The last slot is not zero, so a later term remains, and it meets the same overflow.
        obtain ⟨rfl, hrange⟩ := hmul.of_eq_error hnext
        rw [foldlM_addValue_error hrange (Sparse.slotTerms_ne_nil hlast) (by omega)]
        exact .fault _

/-- A running power and the powers formed on their own overflow for the same arguments. -/
theorem eval_sameOutcome {a : Dense (Signed w)} {s : Sparse (Signed w)} (has : Related a s)
    (ha : a.coeffs.length ≤ UInt64.size) (x : Signed w) :
    SameOutcome Eq (a.eval x) (s.eval x) := by
  have heval : s.eval x = s.terms.foldlM (addValue x) Coeff.zero := rfl
  rw [heval, has.hasSlots.terms_eq ha]
  exact substitute_inStep (pow_zero x.val).symm has.dense (by omega) _

end Eval

/-- The zero polynomial has degree minus one, and all of its powers have room. -/
theorem length_mul_lt_size {R : Type} {a : Dense R} {n : ℕ}
    (h : a.degree * n ≤ 9223372036854775807) : (a.coeffs.length - 1) * n < UInt64.size := by
  have hsize : UInt64.size = 18446744073709551616 := rfl
  rcases Nat.eq_zero_or_pos a.coeffs.length with hzero | hpos
  · simp [hzero]
  · have hdegree : ((a.coeffs.length - 1 : ℕ) : ℤ) = a.degree := by
      rw [Dense.degree]
      omega
    rw [← hdegree] at h
    have hle : (a.coeffs.length - 1) * n ≤ 9223372036854775807 := by exact_mod_cast h
    omega

variable {R : Type} [Coeff R] [DecidableEq R]

/-- Every operation returns the same polynomial or value in both representations, or fails with the
same fault in both. -/
structure FailsAlike (a b : Dense R) (s t : Sparse R) : Prop where
  add : SameOutcome Related (a.add b) (s.add t)
  mul : SameOutcome Related (a.mul b) (s.mul t)
  neg : SameOutcome Related a.neg s.neg
  scale (c : R) : SameOutcome Related (a.scale c) (s.scale c)
  pow (n : ℕ) : a.degree * n ≤ 9223372036854775807 → SameOutcome Related (a.pow n) (s.pow n)
  derivative : SameOutcome Related a.derivative s.derivative
  eval (x : R) : SameOutcome Eq (a.eval x) (s.eval x)

/-- Any two lists of machine integers, as long as a machine can index them. -/
theorem overflow_same_in_both_stores (w : Width) (u v : List (Signed w))
    (hu : u.length ≤ 9223372036854775808) (hv : v.length ≤ 9223372036854775808) :
    FailsAlike (Dense.ofList u) (Dense.ofList v) (Sparse.ofList u) (Sparse.ofList v) := by
  have hsize : UInt64.size = 18446744073709551616 := rfl
  have has := related_ofList (l := u) (by omega)
  have hbt := related_ofList (l := v) (by omega)
  have ha : (Dense.ofList u).coeffs.length ≤ 9223372036854775808 :=
    (Dense.length_trim_le u).trans hu
  have hb : (Dense.ofList v).coeffs.length ≤ 9223372036854775808 :=
    (Dense.length_trim_le v).trans hv
  refine ⟨add_sameOutcome has hbt (by omega),
    (mul_sameOutcome has hbt (by omega)).imp fun _ _ h => h.1, neg_sameOutcome has (by omega),
    scale_sameOutcome has (by omega), fun n hn => pow_sameOutcome has (length_mul_lt_size hn),
    derivative_sameOutcome has ha, eval_sameOutcome has (by omega)⟩

/-- Minus two to the power of 31 is the least integer of its width, and both reach it. -/
theorem overflow_same_in_both_stores_least :
    let l : List (Signed .w32) := List.replicate 31 Coeff.zero ++ [Coeff.one]
    let x : Signed .w32 := ⟨-2, by decide, by decide⟩
    let least : Signed .w32 := ⟨-2147483648, by decide, by decide⟩
    FailsAlike (Dense.ofList l) (Dense.ofList [least]) (Sparse.ofList l) (Sparse.ofList [least]) ∧
      (Dense.ofList l).eval x = .ok least ∧ (Sparse.ofList l).eval x = .ok least := by
  intro l x least
  have hl := overflow_same_in_both_stores .w32 l [least] (by decide) (by decide)
  have hdense : (Dense.ofList l).eval x = .ok least := by decide
  have hx := hl.eval x
  rw [hdense] at hx
  obtain ⟨_, hsparse, rfl⟩ := hx.returns_of_ok
  exact ⟨hl, hdense, hsparse⟩

end Univariate
