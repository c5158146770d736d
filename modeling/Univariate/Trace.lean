/-! Records of the work done by divisions and common divisors. -/
namespace Univariate

/-- One finished piece of work, with its counts. -/
inductive Event where
  | denseDivision (steps divisorDegree : Nat)
  | sparseDivision (steps divisorTerms : Nat)
  | denseGcd (rounds : Nat) (degree : Int)
  | sparseGcd (rounds : Nat) (degree : Int) (terms : Nat)
deriving DecidableEq, Repr

namespace Event

def message : Event → String
  | denseDivision .. => "dense long division"
  | sparseDivision .. => "sparse long division"
  | denseGcd .. => "dense gcd"
  | sparseGcd .. => "sparse gcd"

/-- The counts under their names. -/
def counts : Event → List (String × Int)
  | denseDivision steps d => [("steps", steps), ("divisor_degree", d)]
  | sparseDivision steps t => [("steps", steps), ("divisor_terms", t)]
  | denseGcd rounds d => [("rounds", rounds), ("degree", d)]
  | sparseGcd rounds d t => [("rounds", rounds), ("degree", d), ("terms", t)]

end Event

/-- A result together with the events on the way to it, in order. -/
structure Traced (A : Type) where
  value : A
  log : List Event
deriving DecidableEq

def Traced.map {A B : Type} (f : A → B) (t : Traced A) : Traced B := ⟨f t.value, t.log⟩

/-- Where a long division stands, or where it ended. -/
structure LongDivision (P : Type) where
  quotient : P
  remainder : P
  steps : Nat
deriving DecidableEq

/-- The end of a chain of remainders: its last member before zero, and its length. -/
structure RemainderChain (P : Type) where
  last : P
  rounds : Nat
  log : List Event
deriving DecidableEq

end Univariate
