import Univariate.Dense.Arithmetic
import Univariate.Text

/-! Reading a polynomial from its text, as a sum of signed terms. -/
namespace Univariate

namespace Text

/-- Cuts text in front of each sign but one at its start. -/
def summands : List Char → List (List Char)
  | [] => []
  | c :: cs =>
    match summands cs with
    | [] => [[c]]
    | s :: l => if s.head? = some '+' ∨ s.head? = some '-' then [c] :: s :: l else (c :: s) :: l

/-- Reads what stands behind the indeterminate; nothing stands for one. -/
def exponent? : List Char → Option Nat
  | [] => some 1
  | '^' :: cs => Decimal.toNat? cs
  | _ => none

variable {R : Type} [Numeral R]

/-- Reads a coefficient that stands alone. -/
def numeral? (cs : List Char) : Option R := (Numeral.read? cs).bind Except.toOption

variable [Coeff R]

/-- Reads what stands before the indeterminate; nothing stands for one, and a sign alone for minus
one. -/
def factor? : List Char → Option R
  | [] => some Coeff.one
  | ['-'] => (Coeff.neg Coeff.one).toOption
  | cs => if cs.getLast? = some '*' then numeral? cs.dropLast else none

/-- Reads a term that brings no plus sign, as its exponent and its coefficient. -/
def unsigned? (cs : List Char) : Option (Nat × R) :=
  match cs.dropWhile (· ≠ 'x') with
  | [] => do
    let c ← numeral? cs
    return (0, c)
  | _ :: rest => do
    let c ← factor? (cs.takeWhile (· ≠ 'x'))
    let n ← exponent? rest
    return (n, c)

def term? : List Char → Option (Nat × R)
  | '+' :: cs => unsigned? cs
  | cs => unsigned? cs

/-- Reads the terms in the order in which they stand. -/
def terms? (s : String) : Option (List (Nat × R)) := (summands s.toList).mapM term?

end Text

variable {R : Type} [Coeff R] [DecidableEq R] [Numeral R]

/-- The sum of the terms of a text. -/
def Dense.ofText? (s : String) : Option (Dense R) := do
  let l ← Text.terms? s
  l.foldlM (fun p (n, c) => do
    let e ← Word.ofNat? n
    let q ← (monomial c e).toOption
    (p.add q).toOption) zero

/-- The sum of the terms of a text. -/
def Sparse.ofText? (s : String) : Option (Sparse R) := do
  let l ← Text.terms? s
  l.foldlM (fun p (n, c) => do
    let e ← Word.ofNat? n
    (p.addTerm e c).toOption) zero

end Univariate
