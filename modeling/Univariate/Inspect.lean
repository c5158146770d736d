import Univariate.Decimal.Abbreviated
import Univariate.Dense.Basic
import Univariate.Numeral
import Univariate.Sparse.Basic

/-! Structural text, which shows the type of a value and how it is stored. -/
namespace Univariate

/-- Structural text of coefficients. -/
class Inspect (R : Type) where
  inspect : R → String

namespace Inspect

/-- Names the type in front of a value in parentheses. -/
def tagged (tag : String) (value : List Char) : String := tag ++ "(" ++ .ofList value ++ ")"

def separated (items : List String) : String := ", ".intercalate items

/-- Integers without a bound on their size are abbreviated when they are large. -/
instance : Inspect Int where
  inspect a := tagged "Z" (Decimal.abbreviateInt a)

/-- Both parts of a rational number are shown, the denominator also when it is one, and each is
abbreviated as an integer is. -/
instance : Inspect Rat where
  inspect a :=
    tagged "Q" (Decimal.abbreviateInt a.num ++ ' ' :: '/' :: ' ' :: Decimal.abbreviateNat a.den)

instance {m : Modulus} : Inspect (Residue m) where
  inspect a := tagged "FiniteField" (Numeral.write a)

/-- Machine integers are shown by their digits alone. -/
instance {w : Width} : Inspect (Signed w) where
  inspect a := .ofList (Numeral.write a)

instance : Inspect Int8 where
  inspect a := tagged "W8" (Numeral.write a)

end Inspect

variable {R : Type} [Inspect R]

def Dense.inspect (p : Dense R) : String :=
  "DensePoly \x7b coeffs: [" ++ Inspect.separated (p.coeffs.map Inspect.inspect) ++ "] \x7d"

def Sparse.inspect (p : Sparse R) : String :=
  let items := p.terms.map fun (e, c) => toString e ++ ": " ++ Inspect.inspect c
  "SparsePoly \x7b terms: \x7b" ++ Inspect.separated items ++ "\x7d \x7d"

end Univariate
