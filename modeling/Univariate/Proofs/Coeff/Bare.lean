import Univariate.Proofs.Carries
import Univariate.Proofs.Coeff.Residue

/-! Residues as a machine computes them, on 64-bit words of which nothing is known. Every step has a
type of its own to fit, and a result that does not is a fault. -/
namespace Univariate

/-- A word that stands for a residue modulo `p`. Nothing keeps it below `p`. -/
structure Bare (p : UInt64) where
  word : UInt64
deriving DecidableEq

namespace Bare

/-- The sum or product itself, where 128 bits hold it. -/
def wide (operation : Operation) (n : ℕ) : Except Fault ℕ :=
  if n < 340282366920938463463374607431768211456 then .ok n else .error (.overflow operation)

/-- The word equal to `n`, where there is one. -/
def narrow (operation : Operation) (n : ℤ) : Except Fault UInt64 :=
  if 0 ≤ n ∧ n < UInt64.size then .ok (.ofNat n.toNat) else .error (.overflow operation)

variable {p : UInt64}

def ofWord (p n : UInt64) : Bare p := ⟨n % p⟩

/-- The remainder that goes with truncated division, and the modulus on top of it where it is
negative. -/
def ofSigned (p : UInt64) (n : Int64) : Except Fault (Bare p) := do
  let r := n.toInt.tmod p.toNat
  let a ← narrow .add (if r < 0 then r + p.toNat else r)
  return ⟨a⟩

def add (a b : Bare p) : Except Fault (Bare p) := do
  let sum ← wide .add (a.word.toNat + b.word.toNat)
  let c ← narrow .add (sum % p.toNat : ℕ)
  return ⟨c⟩

def mul (a b : Bare p) : Except Fault (Bare p) := do
  let product ← wide .multiply (a.word.toNat * b.word.toNat)
  let c ← narrow .multiply (product % p.toNat : ℕ)
  return ⟨c⟩

/-- Subtracts from the modulus, which underflows at a word above it. -/
def neg (a : Bare p) : Except Fault (Bare p) :=
  if a.word = 0 then .ok a else do
    let c ← Word.sub p a.word
    return ⟨c⟩

def sub (a b : Bare p) : Except Fault (Bare p) := do
  let c ← neg b
  add a c

instance : Coeff (Bare p) where
  zero := ⟨0⟩
  one := ofWord p 1
  add := add
  sub := sub
  mul := mul
  neg := neg

theorem wide_of_lt {operation : Operation} {n : ℕ}
    (h : n < 340282366920938463463374607431768211456) : wide operation n = .ok n := if_pos h

theorem wide_add (a b : UInt64) (operation : Operation) :
    wide operation (a.toNat + b.toNat) = .ok (a.toNat + b.toNat) := by
  have ha := a.toNat_lt
  have hb := b.toNat_lt
  exact wide_of_lt (by omega)

theorem wide_mul (a b : UInt64) (operation : Operation) :
    wide operation (a.toNat * b.toNat) = .ok (a.toNat * b.toNat) := by
  refine wide_of_lt ?_
  calc a.toNat * b.toNat < 18446744073709551616 * 18446744073709551616 :=
        Nat.mul_lt_mul'' a.toNat_lt b.toNat_lt
    _ = 340282366920938463463374607431768211456 := by norm_num

/-- Both remainders differ by the modulus where the truncated one is negative. -/
theorem tmod_add_of_neg (n : ℤ) {d : ℤ} (h : 0 < d) :
    (if n.tmod d < 0 then n.tmod d + d else n.tmod d) = n % d := by
  have hlow := Int.emod_nonneg n h.ne'
  have hhigh := Int.emod_lt_of_pos n h
  rw [Int.tmod_eq_emod]
  split <;> split <;> omega

theorem narrow_natCast {operation : Operation} {n : ℕ} (h : n < UInt64.size) :
    narrow operation n = .ok (.ofNat n) := by
  rw [narrow, if_pos ⟨by omega, by exact_mod_cast h⟩, Int.toNat_natCast]

end Bare

namespace Residue

variable {m : Modulus}

/-- The word of a residue, without the bound on it. -/
def bare (a : Residue m) : Bare m.word := ⟨a.value⟩

/-- A remainder is below the modulus, so a word holds it. -/
theorem narrow_mod (operation : Operation) (n : ℕ) :
    Bare.narrow operation (n % m.word.toNat : ℕ) = .ok (ofNat m n).value := by
  have hlt := Nat.mod_lt n m.pos
  exact Bare.narrow_natCast (hlt.trans m.word.toNat_lt)

theorem bare_add (a b : Residue m) : Bare.add a.bare b.bare = .ok (add a b).bare := by
  rw [Bare.add, bare, bare, Bare.wide_add, Fault.ok_bind, narrow_mod]
  rfl

theorem bare_mul (a b : Residue m) : Bare.mul a.bare b.bare = .ok (mul a b).bare := by
  rw [Bare.mul, bare, bare, Bare.wide_mul, Fault.ok_bind, narrow_mod]
  rfl

/-- What is below the modulus can be subtracted from it; zero is told apart, because the modulus
itself is no residue. -/
theorem bare_neg (a : Residue m) : Bare.neg a.bare = .ok (neg a).bare := by
  rcases eq_or_ne a.value 0 with hzero | hne
  · have hvalue : (neg a).value = a.value := by
      apply UInt64.toNat_inj.mp
      rw [neg, hzero, UInt64.toNat_zero, Nat.sub_zero, toNat_value_ofNat, Nat.mod_self]
    rw [Bare.neg, bare, if_pos hzero, bare, hvalue]
  · have hpos : 0 < a.value.toNat := by
      apply Nat.pos_of_ne_zero
      intro h
      exact hne (UInt64.toNat_inj.mp h)
    have hle : a.value ≤ m.word := UInt64.le_iff_toNat_le.mpr a.isLt.le
    have hlt : m.word.toNat - a.value.toNat < m.word.toNat := Nat.sub_lt m.pos hpos
    have hvalue : m.word - a.value = (neg a).value := by
      apply UInt64.toNat_inj.mp
      rw [UInt64.toNat_sub_of_le _ _ hle, neg, toNat_value_ofNat, Nat.mod_eq_of_lt hlt]
    rw [Bare.neg, bare, if_neg hne, Word.sub, if_pos hle, hvalue]
    rfl

theorem bare_sub (a b : Residue m) : Bare.sub a.bare b.bare = .ok (sub a b).bare := by
  rw [Bare.sub, bare_neg, Fault.ok_bind, bare_add]
  rfl

theorem bare_zero : bare (zero m) = ⟨0⟩ := by
  apply congrArg Bare.mk
  apply UInt64.toNat_inj.mp
  rw [zero, toNat_value_ofNat, Nat.zero_mod, UInt64.toNat_zero]

theorem bare_ofNat (n : UInt64) : bare (ofNat m n.toNat) = Bare.ofWord m.word n := by
  apply congrArg Bare.mk
  apply UInt64.toNat_inj.mp
  rw [toNat_value_ofNat, UInt64.toNat_mod]

theorem bare_ofInt (n : Int64) : Bare.ofSigned m.word n = .ok (bare (ofInt m n.toInt)) := by
  have hpos : (0 : ℤ) < m.word.toNat := by exact_mod_cast m.pos
  have hmod : n.toInt % m.word.toNat = ((n.toInt % m.word.toNat).toNat % m.word.toNat : ℕ) := by
    have hlow := Int.emod_nonneg n.toInt hpos.ne'
    rw [Int.natCast_emod, Int.toNat_of_nonneg hlow, Int.emod_emod]
  rw [Bare.ofSigned, Bare.tmod_add_of_neg _ hpos, hmod, narrow_mod]
  rfl

/-- On the words of residues no step fails, and the words of residues come out. -/
theorem bare_hom : CoeffHom (fun _ => False) (bare (m := m)) where
  zero := bare_zero
  one := bare_ofNat 1
  add a b := bare_add a b
  sub a b := bare_sub a b
  mul a b := bare_mul a b
  neg a := bare_neg a

end Residue

end Univariate
