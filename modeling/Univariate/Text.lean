import Univariate.Dense.Basic
import Univariate.Numeral
import Univariate.Sparse.Basic

/-! The text of a polynomial, the same for both stores. -/
namespace Univariate

namespace Text

variable {R : Type} [Coeff R] [DecidableEq R] [Numeral R]

def isMinusOne (c : R) : Bool :=
  match Coeff.neg Coeff.one with
  | .ok (m : R) => c = m
  | .error _ => false

/-- What stands before a power: a sign for minus one, nothing for one, and the coefficient with an
asterisk for all others. -/
def factor (c : R) : List Char :=
  if isMinusOne c then ['-'] else if c = Coeff.one then [] else Numeral.write c ++ ['*']

/-- The power of the indeterminate with exponent `e`, which is not zero; one is not written. -/
def power (e : Nat) : List Char :=
  if e = 1 then ['x'] else 'x' :: '^' :: Decimal.ofNat e

/-- The term of exponent `e`; the constant term is its coefficient alone. -/
def term (t : Nat × R) : List Char :=
  if t.1 = 0 then Numeral.write t.2 else factor t.2 ++ power t.1

variable [LT R] [DecidableLT R]

/-- A term after the first. A plus sign joins it unless its own text brings a minus sign. -/
def laterTerm (t : Nat × R) : List Char :=
  if Coeff.isPositive t.2 then '+' :: term t else term t

/-- The text of terms in the order given, without those of coefficient zero; of no terms, the text
of zero. -/
def ofTerms (l : List (Nat × R)) : List Char :=
  match l.filter fun t => t.2 ≠ Coeff.zero with
  | [] => Numeral.write (Coeff.zero : R)
  | t :: l => term t ++ l.flatMap laterTerm

end Text

variable {R : Type} [Coeff R] [DecidableEq R] [Numeral R] [LT R] [DecidableLT R]

/-- The terms, highest exponent first. -/
def Dense.text (p : Dense R) : String :=
  .ofList (Text.ofTerms (p.coeffs.zipIdx.reverse.map fun (c, n) => (n, c)))

/-- The terms, highest exponent first. -/
def Sparse.text (p : Sparse R) : String :=
  .ofList (Text.ofTerms (p.terms.reverse.map fun (e, c) => (e.toNat, c)))

end Univariate
