import Univariate.Coeff.Power
import Univariate.Word

/-! Residues of a fixed 64-bit modulus as coefficients. The modulus need not be prime, and
division multiplies by a power that inverts only when it is. -/
namespace Univariate

/-- A positive 64-bit word. -/
structure Modulus where
  word : UInt64
  pos : 0 < word.toNat
deriving DecidableEq

/-- A word below the modulus. -/
structure Residue (m : Modulus) where
  value : UInt64
  isLt : value.toNat < m.word.toNat
deriving DecidableEq

namespace Residue

variable {m : Modulus}

/-- The remainder of `n`. Sums and products of residues are reduced by it, so they are exact
before the reduction and never wrap. -/
def ofNat (m : Modulus) (n : Nat) : Residue m where
  value := .ofNat (n % m.word.toNat)
  isLt := by
    have h := Nat.mod_lt n m.pos
    rw [UInt64.toNat_ofNat_of_lt' (Nat.lt_trans h m.word.toNat_lt)]
    exact h

theorem toNat_value_ofNat (m : Modulus) (n : Nat) :
    (ofNat m n).value.toNat = n % m.word.toNat :=
  UInt64.toNat_ofNat_of_lt' (Nat.lt_trans (Nat.mod_lt n m.pos) m.word.toNat_lt)

/-- Residues are equal when they are the same number. -/
theorem eq_of_toNat_eq {a b : Residue m} (h : a.value.toNat = b.value.toNat) : a = b := by
  cases a
  cases b
  simpa using UInt64.toNat_inj.mp h

/-- The remainder of `n` that is not negative, also for a negative `n`. -/
def ofInt (m : Modulus) (n : Int) : Residue m := ofNat m (n % m.word.toNat).toNat

def zero (m : Modulus) : Residue m := ofNat m 0

def one (m : Modulus) : Residue m := ofNat m 1

def add (a b : Residue m) : Residue m := ofNat m (a.value.toNat + b.value.toNat)

def mul (a b : Residue m) : Residue m := ofNat m (a.value.toNat * b.value.toNat)

/-- The residue that adds up to the modulus with `a`; zero is its own. -/
def neg (a : Residue m) : Residue m := ofNat m (m.word.toNat - a.value.toNat)

def sub (a b : Residue m) : Residue m := add a (neg b)

instance : Coeff (Residue m) where
  zero := zero m
  one := one m
  add a b := .ok (add a b)
  sub a b := .ok (sub a b)
  mul a b := .ok (mul a b)
  neg a := .ok (neg a)

/-- The power of `a` two below the modulus, which inverts `a` when the modulus is prime. -/
def inverse? (a : Residue m) : Except Fault (Option (Residue m)) :=
  if a = zero m then .ok none else do
    let n ← Word.sub m.word 2
    let b ← Coeff.pow a n.toNat
    return some b

/-- Multiplies by the divisor's `inverse?`. -/
def div (a b : Residue m) : Except Fault (Residue m) := do
  match ← inverse? b with
  | some c => return mul a c
  | none => .error (.zeroResidue m.word)

instance : CoeffDiv (Residue m) where
  div := div
  inverse? := inverse?

end Residue

end Univariate
