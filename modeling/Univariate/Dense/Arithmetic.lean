import Univariate.Coeff.Power
import Univariate.Dense.Basic

/-! Sums, products and powers of dense polynomials. Slots are combined in ascending order, so the
lowest slot that overflows decides the fault of a sum. -/
namespace Univariate.Dense

variable {R : Type} [Coeff R]

/-- Combines the slots of two lists over the length of the second, with zeros after the first. -/
def combine (op : R → R → Except Fault R) : List R → List R → Except Fault (List R)
  | l, [] => .ok l
  | [], b :: q => do
    let c ← op Coeff.zero b
    let rest ← combine op [] q
    return c :: rest
  | a :: p, b :: q => do
    let c ← op a b
    let rest ← combine op p q
    return c :: rest

theorem combine_nil (op : R → R → Except Fault R) (l : List R) : combine op l [] = .ok l := by
  cases l <;> rfl

/-- A list that has ended goes on with zeros. -/
theorem combine_cons (op : R → R → Except Fault R) (l : List R) (b : R) (q : List R) :
    combine op l (b :: q) = do
      let c ← op (l.headD Coeff.zero) b
      let rest ← combine op l.tail q
      return c :: rest := by
  cases l <;> rfl

/-- Negation never makes a zero, so nothing needs trimming. -/
def neg (p : Dense R) : Except Fault (Dense R) := do
  let l ← p.coeffs.mapM Coeff.neg
  return ⟨l⟩

/-- Adds `a` times each coefficient of a list onto the slots of another. -/
def addMultiples (a : R) : List R → List R → Except Fault (List R)
  | b :: q, s :: acc => do
    let product ← Coeff.mul a b
    let sum ← Coeff.add s product
    let rest ← addMultiples a q acc
    return sum :: rest
  | _, acc => .ok acc

/-- Multiplication by `x ^ n`. -/
def shift (p : Dense R) (n : Exponent) : Dense R :=
  if p.isZero then p else ⟨List.replicate n.toNat Coeff.zero ++ p.coeffs⟩

variable [DecidableEq R]

def add (p q : Dense R) : Except Fault (Dense R) := do
  let l ← combine Coeff.add p.coeffs q.coeffs
  return ofList l

def sub (p q : Dense R) : Except Fault (Dense R) := do
  let l ← combine Coeff.sub p.coeffs q.coeffs
  return ofList l

/-- Adds a row of a product; the row of zero is left out. -/
def addRow (a : R) (q acc : List R) : Except Fault (List R) :=
  if a = Coeff.zero then .ok acc else addMultiples a q acc

/-- Adds the rows of a product, one for each coefficient of the first list. A row leaves its lowest
slot final, and the next row starts above it. -/
def addRows (q : List R) : List R → List R → Except Fault (List R)
  | [], acc => .ok acc
  | a :: p, acc => do
    match ← addRow a q acc with
    | [] => return []
    | s :: acc => do
      let rest ← addRows q p acc
      return s :: rest

def mul (p q : Dense R) : Except Fault (Dense R) :=
  if p.isZero ∨ q.isZero then .ok zero else do
    let slots := List.replicate (p.coeffs.length + q.coeffs.length - 1) Coeff.zero
    let l ← addRows q.coeffs p.coeffs slots
    return ofList l

def scale (p : Dense R) (c : R) : Except Fault (Dense R) :=
  if c = Coeff.zero then .ok zero else do
    let l ← p.coeffs.mapM fun a => Coeff.mul a c
    return ofList l

def pow (p : Dense R) (n : Nat) : Except Fault (Dense R) := repeated mul one p n

end Univariate.Dense
