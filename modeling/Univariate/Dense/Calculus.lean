import Univariate.Dense.Arithmetic

/-! Values, compositions and derivatives of dense polynomials. Values and compositions are sums over
the powers of an argument, which is a coefficient or a polynomial. -/
namespace Univariate

variable {R A : Type} [Coeff R] [DecidableEq R]

/-- Adds the term of a coefficient to a sum; no term is formed for zero. -/
def addTermOf (term : R → A → Except Fault A) (add : A → A → Except Fault A) (c : R)
    (sum power : A) : Except Fault A :=
  if c = Coeff.zero then .ok sum else do
    let t ← term c power
    add sum t

/-- Adds to `sum` the terms of the coefficients, ascending. The first goes with `power`, which is
multiplied by `arg` between one coefficient and the next. -/
def substitute (term : R → A → Except Fault A) (add mul : A → A → Except Fault A)
    (arg sum power : A) : List R → Except Fault A
  | [] => .ok sum
  | [c] => addTermOf term add c sum power
  | c :: b :: l => do
    let sum ← addTermOf term add c sum power
    let power ← mul power arg
    substitute term add mul arg sum power (b :: l)

namespace Dense

/-- The value at `arg`, over a running power of it. -/
def eval (p : Dense R) (arg : R) : Except Fault R :=
  substitute Coeff.mul Coeff.add Coeff.mul arg Coeff.zero Coeff.one p.coeffs

/-- The polynomial `p(inner(x))`. -/
def compose (p inner : Dense R) : Except Fault (Dense R) :=
  substitute (fun c power => power.scale c) add mul inner zero one p.coeffs

/-- The formal derivative; the slot of `x ^ k` is taken `k` times. -/
def derivative (p : Dense R) : Except Fault (Dense R) := do
  let l ← (p.coeffs.tail.zipIdx 1).mapM fun (c, k) => Coeff.multiple c k
  return ofList l

end Dense

end Univariate
