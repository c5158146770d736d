import Mathlib.Data.ZMod.Basic
import Univariate.Coeff.Residue
import Univariate.Proofs.Coeff.Exact

/-! Residues are the integers modulo their modulus, prime or not. -/
namespace Univariate

namespace Residue

variable {m : Modulus}

/-- The residue as an integer modulo `m`. -/
def toZMod (a : Residue m) : ZMod m.word.toNat := a.value.toNat

theorem toZMod_injective : Function.Injective (toZMod (m := m)) := by
  intro a b h
  have hmod := (ZMod.natCast_eq_natCast_iff' _ _ _).mp h
  rw [Nat.mod_eq_of_lt a.isLt, Nat.mod_eq_of_lt b.isLt] at hmod
  exact eq_of_toNat_eq hmod

theorem toZMod_ofNat (n : ℕ) : toZMod (ofNat m n) = n := by
  rw [toZMod, toNat_value_ofNat, ZMod.natCast_mod]

instance : Zero (Residue m) := ⟨zero m⟩

instance : One (Residue m) := ⟨one m⟩

instance : Add (Residue m) := ⟨add⟩

instance : Mul (Residue m) := ⟨mul⟩

instance : Neg (Residue m) := ⟨neg⟩

instance : Sub (Residue m) := ⟨sub⟩

@[simp] theorem toZMod_zero : toZMod (0 : Residue m) = 0 := by
  change toZMod (zero m) = 0
  rw [zero, toZMod_ofNat, Nat.cast_zero]

@[simp] theorem toZMod_one : toZMod (1 : Residue m) = 1 := by
  change toZMod (one m) = 1
  rw [one, toZMod_ofNat, Nat.cast_one]

@[simp] theorem toZMod_add (a b : Residue m) : toZMod (a + b) = toZMod a + toZMod b := by
  change toZMod (add a b) = _
  rw [add, toZMod_ofNat, Nat.cast_add]
  rfl

@[simp] theorem toZMod_mul (a b : Residue m) : toZMod (a * b) = toZMod a * toZMod b := by
  change toZMod (mul a b) = _
  rw [mul, toZMod_ofNat, Nat.cast_mul]
  rfl

@[simp] theorem toZMod_neg (a : Residue m) : toZMod (-a) = -toZMod a := by
  change toZMod (neg a) = _
  rw [neg, toZMod_ofNat, Nat.cast_sub a.isLt.le, ZMod.natCast_self, zero_sub]
  rfl

/-- Every law holds because it holds of the integers modulo `m`. -/
instance : CommRing (Residue m) where
  add_assoc _ _ _ := toZMod_injective (by simp [add_assoc])
  zero_add _ := toZMod_injective (by simp)
  add_zero _ := toZMod_injective (by simp)
  add_comm _ _ := toZMod_injective (by simp [add_comm])
  neg_add_cancel _ := toZMod_injective (by simp)
  sub_eq_add_neg _ _ := rfl
  mul_assoc _ _ _ := toZMod_injective (by simp [mul_assoc])
  mul_comm _ _ := toZMod_injective (by simp [mul_comm])
  one_mul _ := toZMod_injective (by simp)
  mul_one _ := toZMod_injective (by simp)
  zero_mul _ := toZMod_injective (by simp)
  mul_zero _ := toZMod_injective (by simp)
  left_distrib _ _ _ := toZMod_injective (by simp [mul_add])
  right_distrib _ _ _ := toZMod_injective (by simp [add_mul])
  nsmul := nsmulRec
  zsmul := zsmulRec

instance : ExactCoeff (Residue m) where
  zero_eq := rfl
  one_eq := rfl
  add_eq _ _ := rfl
  sub_eq _ _ := rfl
  mul_eq _ _ := rfl
  neg_eq _ := rfl

/-- The residues embed in the integers modulo `m`. -/
def toZModHom (m : Modulus) : Residue m →+* ZMod m.word.toNat where
  toFun := toZMod
  map_one' := toZMod_one
  map_mul' := toZMod_mul
  map_zero' := toZMod_zero
  map_add' := toZMod_add

/-- Reading an integer is the one way from the integers to the residues that respects sums and
products. -/
theorem ofInt_eq_cast (n : ℤ) : ofInt m n = n := by
  have hpos : (m.word.toNat : ℤ) ≠ 0 := by exact_mod_cast m.pos.ne'
  have hread : toZMod (ofInt m n) = n := by
    rw [ofInt, toZMod_ofNat, ← Int.cast_natCast, Int.toNat_of_nonneg (Int.emod_nonneg n hpos),
      ZMod.intCast_mod]
  apply toZMod_injective
  rw [hread]
  exact (map_intCast (toZModHom m) n).symm

/-- The word that is stored for an integer. -/
theorem toNat_value_ofInt (n : ℤ) : ((ofInt m n).value.toNat : ℤ) = n % m.word.toNat := by
  have hpos : (m.word.toNat : ℤ) ≠ 0 := by exact_mod_cast m.pos.ne'
  rw [ofInt, toNat_value_ofNat, Int.natCast_emod, Int.toNat_of_nonneg (Int.emod_nonneg n hpos),
    Int.emod_emod]

theorem ofInt_eq_ofInt_iff {a b : ℤ} :
    ofInt m a = ofInt m b ↔ a ≡ b [ZMOD m.word.toNat] := by
  constructor
  · intro h
    rw [Int.ModEq, ← toNat_value_ofInt, ← toNat_value_ofInt, h]
  · intro h
    apply eq_of_toNat_eq
    have hvalue : ((ofInt m a).value.toNat : ℤ) = (ofInt m b).value.toNat := by
      rw [toNat_value_ofInt, toNat_value_ofInt, h]
    exact_mod_cast hvalue

theorem toZMod_surjective : Function.Surjective (toZMod (m := m)) := by
  intro z
  obtain ⟨n, rfl⟩ := ZMod.intCast_surjective z
  refine ⟨ofInt m n, ?_⟩
  rw [ofInt_eq_cast]
  exact map_intCast (toZModHom m) n

end Residue

end Univariate
