import Univariate.Coeff.Power
import Univariate.Sparse.Basic

/-! Sums, products, powers, values, compositions and derivatives of sparse polynomials, term by term
in ascending order. -/
namespace Univariate.Sparse

variable {R : Type} [Coeff R]

/-- Negation never makes a zero, so every term stays. -/
def neg (p : Sparse R) : Except Fault (Sparse R) := do
  let l ← p.terms.mapM fun (e, c) => do
    let c ← Coeff.neg c
    return (e, c)
  return collect l

omit [Coeff R] in
/-- Multiplication by `x ^ n`. Every exponent of the result must be a word. -/
def shift (p : Sparse R) (n : Exponent) : Except Fault (Sparse R) := do
  let l ← p.terms.mapM fun (e, c) => do
    let e ← Word.add e n
    return (e, c)
  return collect l

variable [DecidableEq R]

def add (p q : Sparse R) : Except Fault (Sparse R) :=
  q.terms.foldlM (fun sum (e, c) => sum.addTerm e c) p

/-- Adds the negation of each term. -/
def sub (p q : Sparse R) : Except Fault (Sparse R) :=
  q.terms.foldlM (fun sum (e, c) => do
    let c ← Coeff.neg c
    sum.addTerm e c) p

/-- Adds `c * x ^ e` times each term of `q` to `sum`. -/
def addRow (q : Sparse R) (sum : Sparse R) (e : Exponent) (c : R) : Except Fault (Sparse R) :=
  q.terms.foldlM (fun sum (f, b) => do
    let exponent ← Word.add e f
    let product ← Coeff.mul c b
    sum.addTerm exponent product) sum

def mul (p q : Sparse R) : Except Fault (Sparse R) :=
  p.terms.foldlM (fun sum (e, c) => addRow q sum e c) zero

/-- A product of zero is dropped. -/
def scale (p : Sparse R) (c : R) : Except Fault (Sparse R) :=
  p.terms.foldlM (fun q (e, a) => do
    let product ← Coeff.mul a c
    q.addTerm e product) zero

def pow (p : Sparse R) (n : Nat) : Except Fault (Sparse R) := repeated mul one p n

/-- The value at `arg`, each power of it formed on its own. -/
def eval (p : Sparse R) (arg : R) : Except Fault R :=
  p.terms.foldlM (fun sum (e, c) => do
    let power ← Coeff.pow arg e.toNat
    let product ← Coeff.mul c power
    Coeff.add sum product) Coeff.zero

/-- The polynomial `p(inner(x))`. -/
def compose (p inner : Sparse R) : Except Fault (Sparse R) :=
  p.terms.foldlM (fun sum (e, c) => do
    let power ← inner.pow e.toNat
    let product ← power.scale c
    sum.add product) zero

/-- The formal derivative. An exponent from `2 ^ 63` on counts as the negative integer with the
same 64 bits. -/
def derivative (p : Sparse R) : Except Fault (Sparse R) :=
  (p.terms.filter fun t => 0 < t.1).foldlM (fun q (e, c) => do
    let product ← Coeff.multiple c e.toInt64.toInt
    q.addTerm (e - 1) product) zero

end Univariate.Sparse
