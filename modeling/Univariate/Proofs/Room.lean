import Mathlib.Algebra.Polynomial.Degree.Operations
import Univariate.Proofs.Returns
import Univariate.Word

/-! Exponents for which there is no room, the one cause of a fault where arithmetic is exact. -/
namespace Univariate

open Polynomial

variable {R : Type} [CommRing R] {Room : ℕ → Prop} {E : Fault → Prop}

/-- The fault of an exponent `d` for which there is no room. -/
def NoRoom (Room : ℕ → Prop) (d : ℕ) (e : Fault) : Prop := e = .overflow .add ∧ ¬ Room d

/-- The fault of a product of two powers of `f` on the way to the `n`th. -/
def NoRoomForPowers (Room : ℕ → Prop) (f : R[X]) (n : ℕ) (e : Fault) : Prop :=
  ∃ i j, i + j ≤ n ∧ NoRoom Room ((f ^ i).natDegree + (f ^ j).natDegree) e

theorem NoRoomForPowers.mono {f : R[X]} {m n : ℕ} {e : Fault} (h : NoRoomForPowers Room f m e)
    (hmn : m ≤ n) : NoRoomForPowers Room f n e := by
  obtain ⟨i, j, hij, he⟩ := h
  exact ⟨i, j, hij.trans hmn, he⟩

/-- No power up to the `n`th is larger in degree than `n` times the degree. -/
theorem not_noRoomForPowers (hmono : ∀ {m n : ℕ}, Room n → m ≤ n → Room m)
    {f : R[X]} {d m n : ℕ} {e : Fault} (hf : f.natDegree ≤ d) (hmn : m ≤ n)
    (hroom : Room (n * d)) : ¬ NoRoomForPowers Room f m e := by
  rintro ⟨i, j, hij, -, hno⟩
  refine hno (hmono hroom ?_)
  calc (f ^ i).natDegree + (f ^ j).natDegree ≤ i * f.natDegree + j * f.natDegree :=
        Nat.add_le_add natDegree_pow_le natDegree_pow_le
    _ = (i + j) * f.natDegree := (add_mul _ _ _).symm
    _ ≤ n * d := Nat.mul_le_mul (hij.trans hmn) hf

theorem wordAdd_ends {a b : UInt64} {d : ℕ} (h : a.toNat + b.toNat ≤ d) :
    Ends (NoRoom (· < UInt64.size) d) (Word.add a b) (·.toNat = a.toNat + b.toNat) := by
  cases hsum : Word.add a b with
  | ok c => exact Word.toNat_add hsum
  | error e =>
    unfold Word.add at hsum
    split at hsum
    · cases hsum
    · obtain rfl := Except.error.inj hsum
      exact ⟨rfl, by omega⟩

end Univariate
