import Mathlib.Algebra.Polynomial.Basic
import Univariate.Dense.Calculus
import Univariate.Dense.Division
import Univariate.Sparse.Calculus
import Univariate.Sparse.Division

/-! What both representations offer, as one record of operations. -/
namespace Univariate

open Polynomial

/-- The operations on polynomials over `R`, stored as `P`, that need no division. -/
structure Store (R P : Type) where
  Canonical : P → Prop
  coeff : P → ℕ → R
  /-- One more than the largest exponent, and zero for the zero polynomial. -/
  height : P → ℕ
  zero : P
  ofList : List R → Except Fault P
  add : P → P → Except Fault P
  sub : P → P → Except Fault P
  neg : P → Except Fault P
  mul : P → P → Except Fault P
  scale : P → R → Except Fault P
  shift : P → Exponent → Except Fault P
  pow : P → ℕ → Except Fault P
  derivative : P → Except Fault P
  compose : P → P → Except Fault P
  eval : P → R → Except Fault R
  degree : P → Int
  isZero : P → Bool
  leadingCoeff? : P → Option R
  isMonic : P → Bool
  equal : P → P → Bool

/-- The operations that divide coefficients, too. -/
structure DivisionStore (R P : Type) extends Store R P where
  divRem : P → P → Except Fault (Traced (P × P))
  div : P → P → Except Fault (Traced P)
  rem : P → P → Except Fault (Traced P)
  monic : P → Except Fault P
  gcd : P → P → Except Fault (Traced P)

/-- The largest exponent, and zero for the zero polynomial. -/
def Store.top {R P : Type} (S : Store R P) (p : P) : ℕ := S.height p - 1

/-- What a stored polynomial says, read coefficient by coefficient. -/
noncomputable def Store.formal {R P : Type} [Semiring R] (S : Store R P) (p : P) : R[X] :=
  ∑ n ∈ Finset.range (S.height p), monomial n (S.coeff p n)

variable {R : Type} [Coeff R] [DecidableEq R]

def Dense.store : Store R (Dense R) where
  Canonical := Canonical
  coeff := coeff
  height p := p.coeffs.length
  zero := zero
  ofList l := .ok (ofList l)
  add := add
  sub := sub
  neg := neg
  mul := mul
  scale := scale
  shift p n := .ok (p.shift n)
  pow := pow
  derivative := derivative
  compose := compose
  eval := eval
  degree := degree
  isZero := isZero
  leadingCoeff? := leadingCoeff?
  isMonic := isMonic
  equal p q := p = q

def Sparse.store : Store R (Sparse R) where
  Canonical := Canonical
  coeff := coeff
  height := height
  zero := zero
  ofList l := .ok (ofList l)
  add := add
  sub := sub
  neg := neg
  mul := mul
  scale := scale
  shift := shift
  pow := pow
  derivative := derivative
  compose := compose
  eval := eval
  degree := degree
  isZero := isZero
  leadingCoeff? := leadingCoeff?
  isMonic := isMonic
  equal p q := p = q

variable [CoeffDiv R]

def Dense.divisionStore : DivisionStore R (Dense R) where
  toStore := store
  divRem := divRem
  div := div
  rem := rem
  monic := monic
  gcd := gcd

def Sparse.divisionStore : DivisionStore R (Sparse R) where
  toStore := store
  divRem := divRem
  div := div
  rem := rem
  monic := monic
  gcd := gcd

end Univariate
