import Univariate.Coeff.Basic
import Univariate.Word

/-! Polynomials as lists of coefficients indexed by exponent. How many slots memory has room for is
left out of account. -/
namespace Univariate

/-- Coefficients in ascending order of exponent, from the constant one. -/
structure Dense (R : Type) where
  coeffs : List R
deriving DecidableEq

namespace Dense

variable {R : Type}

def zero : Dense R := ⟨[]⟩

/-- The largest exponent; the zero polynomial has degree minus one. -/
def degree (p : Dense R) : Int := p.coeffs.length - 1

def isZero (p : Dense R) : Bool := p.coeffs.isEmpty

def leadingCoeff? (p : Dense R) : Option R := p.coeffs.getLast?

variable [Coeff R]

/-- The coefficient of `x ^ n`. -/
def coeff (p : Dense R) (n : Nat) : R := p.coeffs.getD n Coeff.zero

/-- The last coefficient, if any, is not zero, so that each polynomial has one list. -/
def Canonical (p : Dense R) : Prop := p.coeffs.getLast? ≠ some Coeff.zero

variable [DecidableEq R]

/-- Puts a coefficient below others; zero below nothing is nothing. -/
def settle (a : R) : List R → List R
  | [] => if a = Coeff.zero then [] else [a]
  | b :: l => a :: b :: l

/-- Drops the zeros at the end. -/
def trim (l : List R) : List R := l.foldr settle []

def ofList (l : List R) : Dense R := ⟨trim l⟩

def constant (c : R) : Dense R := ofList [c]

def one : Dense R := constant Coeff.one

/-- The indeterminate, which is zero where one is. -/
def x : Dense R := ofList [Coeff.zero, Coeff.one]

/-- The term `c * x ^ n`. It takes one slot more than `n`, and that count must be a word. -/
def monomial (c : R) (n : Exponent) : Except Fault (Dense R) :=
  if c = Coeff.zero then .ok zero else do
    let _ ← Word.add n 1
    return ⟨List.replicate n.toNat Coeff.zero ++ [c]⟩

def isMonic (p : Dense R) : Bool := p.leadingCoeff? = some Coeff.one

@[simp] theorem trim_nil : trim ([] : List R) = [] := rfl

@[simp] theorem trim_cons (a : R) (l : List R) : trim (a :: l) = settle a (trim l) := rfl

theorem getD_settle (a : R) (l : List R) (n : Nat) :
    (settle a l).getD n Coeff.zero = (a :: l).getD n Coeff.zero := by
  cases l with
  | nil => by_cases h : a = Coeff.zero <;> cases n <;> simp [settle, h]
  | cons => rfl

theorem getD_trim (l : List R) (n : Nat) :
    (trim l).getD n Coeff.zero = l.getD n Coeff.zero := by
  induction l generalizing n with
  | nil => rfl
  | cons a l ih =>
    rw [trim_cons, getD_settle]
    cases n with
    | zero => rfl
    | succ n => simpa using ih n

/-- Trimming changes no coefficient. -/
theorem coeff_ofList (l : List R) (n : Nat) : (ofList l).coeff n = l.getD n Coeff.zero :=
  getD_trim l n

theorem length_settle_le (a : R) (l : List R) : (settle a l).length ≤ l.length + 1 := by
  cases l with
  | nil => by_cases h : a = Coeff.zero <;> simp [settle, h]
  | cons => simp [settle]

theorem length_trim_le (l : List R) : (trim l).length ≤ l.length := by
  induction l with
  | nil => simp
  | cons a l ih =>
    have := length_settle_le a (trim l)
    simp only [trim_cons, List.length_cons]
    omega

theorem getLast?_settle_ne (a : R) {l : List R} (h : l.getLast? ≠ some Coeff.zero) :
    (settle a l).getLast? ≠ some Coeff.zero := by
  cases l with
  | nil => by_cases h : a = Coeff.zero <;> simp [settle, h]
  | cons b l => simpa [settle, List.getLast?_cons_cons] using h

theorem canonical_ofList (l : List R) : (ofList l).Canonical := by
  unfold Canonical ofList
  induction l with
  | nil => simp
  | cons a l ih => exact getLast?_settle_ne a ih

end Dense

end Univariate
