/-! Decimal notation of integers, as lists of characters. -/
namespace Univariate.Decimal

def ofNat (n : Nat) : List Char := Nat.toDigits 10 n

/-- A minus sign stands before a negative integer and nothing before any other. -/
def ofInt (n : Int) : List Char :=
  if n < 0 then '-' :: ofNat n.natAbs else ofNat n.natAbs

/-- Reads one or more digits; leading zeros are allowed. -/
def toNat? (cs : List Char) : Option Nat :=
  if cs ≠ [] ∧ cs.all Char.isDigit then some (Nat.ofDigitChars 10 cs 0) else none

/-- Reads digits after an optional sign. -/
def toInt? : List Char → Option Int
  | '-' :: cs => (toNat? cs).map fun n => -n
  | '+' :: cs => (toNat? cs).map fun n => n
  | cs => (toNat? cs).map fun n => n

theorem isDigit_of_mem_ofNat {n : Nat} {c : Char} (h : c ∈ ofNat n) : c.isDigit :=
  Nat.isDigit_of_mem_toDigits (by decide) (by decide) h

theorem ofNat_ne_nil (n : Nat) : ofNat n ≠ [] := Nat.toDigits_ne_nil

theorem toNat?_ofNat (n : Nat) : toNat? (ofNat n) = some n := by
  have h : (ofNat n).all Char.isDigit := by
    simpa using fun c hc => isDigit_of_mem_ofNat hc
  rw [toNat?, if_pos ⟨ofNat_ne_nil n, h⟩, ofNat,
    Nat.ofDigitChars_toDigits (by decide) (by decide)]

/-- Numbers without a sign are read by their digits. -/
theorem toInt?_of_toNat? {cs : List Char} {n : Nat} (h : toNat? cs = some n) :
    toInt? cs = some n := by
  unfold toInt?
  split <;> simp_all [toNat?]

theorem toInt?_ofInt (n : Int) : toInt? (ofInt n) = some n := by
  unfold ofInt
  split
  · change ((toNat? (ofNat n.natAbs)).map fun k => -(k : Int)) = some n
    rw [toNat?_ofNat]
    exact congrArg some (by omega : -(n.natAbs : Int) = n)
  · rw [toInt?_of_toNat? (toNat?_ofNat _)]
    exact congrArg some (by omega : (n.natAbs : Int) = n)

end Univariate.Decimal
