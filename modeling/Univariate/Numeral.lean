import Univariate.Coeff.Numbers
import Univariate.Coeff.Residue
import Univariate.Coeff.Signed
import Univariate.Decimal

/-! The written form of each coefficient type. -/
namespace Univariate

/-- Written forms. Reading gives nothing for text that is no numeral, and a fault for a numeral
that denotes no value. -/
class Numeral (R : Type) where
  write : R → List Char
  read? : List Char → Option (Except Fault R)

namespace Numeral

instance : Numeral Int where
  write := Decimal.ofInt
  read? cs := (Decimal.toInt? cs).map .ok

/-- Both parts of a rational number, joined by a slash. -/
def fraction (a : Rat) : List Char := Decimal.ofInt a.num ++ '/' :: Decimal.ofNat a.den

/-- Reads an integer, or two integers joined by a slash. -/
def readRational? (cs : List Char) : Option (Except Fault Rat) :=
  match cs.dropWhile (· ≠ '/') with
  | [] => (Decimal.toInt? cs).map fun n => .ok n
  | _ :: den => do
    let num ← Decimal.toInt? (cs.takeWhile (· ≠ '/'))
    let den ← Decimal.toInt? den
    return ratio num den

/-- An integer is written without its denominator. -/
instance : Numeral Rat where
  write a := if a.den = 1 then Decimal.ofInt a.num else fraction a
  read? := readRational?

variable {m : Modulus} {w : Width}

/-- Any integer is read, and denotes its residue. -/
instance : Numeral (Residue m) where
  write a := Decimal.ofNat a.value.toNat
  read? cs := (Decimal.toInt? cs).map fun n => .ok (.ofInt m n)

instance : Numeral (Signed w) where
  write a := Decimal.ofInt a.val
  read? cs := do
    let n ← Decimal.toInt? cs
    let a ← Signed.ofInt? w n
    return .ok a

instance : Numeral Int8 where
  write a := Decimal.ofInt a.toInt
  read? cs := do
    let n ← Decimal.toInt? cs
    let a ← signedByte? n
    return .ok a

end Numeral

end Univariate
