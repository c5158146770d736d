import Univariate.Coeff.Basic
import Univariate.Word

/-! Polynomials as terms in strictly ascending order of exponent. -/
namespace Univariate

/-- Terms at distinct exponents, in ascending order. -/
structure Sparse (R : Type) where
  terms : List (Exponent × R)
  ascending : terms.Pairwise fun s t => s.1 < t.1
deriving DecidableEq

namespace Sparse

variable {R : Type}

def zero : Sparse R := ⟨[], .nil⟩

def isZero (p : Sparse R) : Bool := p.terms.isEmpty

/-- The term of the largest exponent. -/
def lead? (p : Sparse R) : Option (Exponent × R) := p.terms.getLast?

def leadingCoeff? (p : Sparse R) : Option R := p.lead?.map Prod.snd

/-- The largest degree that is told apart from those above it, `2 ^ 63 - 1`. -/
def maxDegree : Nat := 9223372036854775807

/-- The largest exponent, up to `maxDegree`; the zero polynomial has degree minus one. -/
def degree (p : Sparse R) : Int :=
  match p.lead? with
  | none => -1
  | some t => Nat.min t.1.toNat maxDegree

/-- What is stored at exponent `n`. -/
def get? (p : Sparse R) (n : Nat) : Option R :=
  (p.terms.find? fun t => t.1.toNat = n).map Prod.snd

/-- Puts a coefficient among terms, in place of any at its exponent. -/
def put (e : Exponent) (c : R) : List (Exponent × R) → List (Exponent × R)
  | [] => [(e, c)]
  | t :: l =>
    if e < t.1 then (e, c) :: t :: l else if t.1 < e then t :: put e c l else (e, c) :: l

theorem mem_put {e : Exponent} {c : R} {l : List (Exponent × R)} {t : Exponent × R}
    (h : t ∈ put e c l) : t = (e, c) ∨ t ∈ l := by
  induction l with
  | nil => simpa [put] using h
  | cons s l ih =>
    unfold put at h
    repeat' split at h
    all_goals simp only [List.mem_cons] at h ⊢
    · exact h
    · rcases h with h | h
      · exact .inr (.inl h)
      · exact (ih h).imp_right .inr
    · exact h.imp_right .inr

theorem ascending_put (e : Exponent) (c : R) {l : List (Exponent × R)}
    (h : l.Pairwise fun s t => s.1 < t.1) : (put e c l).Pairwise fun s t => s.1 < t.1 := by
  induction l with
  | nil => simp [put]
  | cons s l ih =>
    obtain ⟨hs, hl⟩ := List.pairwise_cons.mp h
    unfold put
    split
    · rename_i he
      refine List.pairwise_cons.mpr ⟨fun t ht => ?_, h⟩
      rcases List.mem_cons.mp ht with rfl | ht
      · exact he
      · exact UInt64.lt_trans he (hs t ht)
    · split
      · rename_i he
        refine List.pairwise_cons.mpr ⟨fun t ht => ?_, ih hl⟩
        rcases mem_put ht with rfl | ht
        · exact he
        · exact hs t ht
      · rename_i h₁ h₂
        obtain rfl : e = s.1 := UInt64.le_antisymm (UInt64.not_lt.mp h₂) (UInt64.not_lt.mp h₁)
        exact List.pairwise_cons.mpr ⟨hs, hl⟩

/-- Stores a coefficient at exponent `e`, in place of any there. -/
def insert (p : Sparse R) (e : Exponent) (c : R) : Sparse R :=
  ⟨put e c p.terms, ascending_put e c p.ascending⟩

/-- Removes what is stored at exponent `e`. -/
def erase (p : Sparse R) (e : Exponent) : Sparse R :=
  ⟨p.terms.filter fun t => t.1 ≠ e, p.ascending.filter _⟩

/-- Stores each coefficient of a list at its exponent; of several at one, the last stays. -/
def collect (l : List (Exponent × R)) : Sparse R :=
  l.foldl (fun p t => p.insert t.1 t.2) zero

variable [Coeff R]

/-- The coefficient of `x ^ n`. -/
def coeff (p : Sparse R) (n : Nat) : R := (p.get? n).getD Coeff.zero

/-- No term is stored for a coefficient of zero, so that each polynomial has one list. -/
def Canonical (p : Sparse R) : Prop := ∀ t ∈ p.terms, t.2 ≠ Coeff.zero

variable [DecidableEq R]

/-- The polynomial with the given coefficients, ascending from the constant one. -/
def ofList (l : List R) : Sparse R :=
  collect ((l.zipIdx.filter fun t => t.1 ≠ Coeff.zero).map fun t => (.ofNat t.2, t.1))

/-- Adds the term `c * x ^ e`. A sum is formed only where a coefficient is stored, and a sum of
zero is removed. -/
def addTerm (p : Sparse R) (e : Exponent) (c : R) : Except Fault (Sparse R) :=
  if c = Coeff.zero then .ok p else
    match p.get? e.toNat with
    | none => .ok (p.insert e c)
    | some b => do
      let sum ← Coeff.add b c
      return if sum = Coeff.zero then p.erase e else p.insert e sum

/-- The sum of terms in any order. -/
def ofTerms (l : List (Exponent × R)) : Except Fault (Sparse R) :=
  l.foldlM (fun p t => p.addTerm t.1 t.2) zero

/-- The term `c * x ^ n`. -/
def monomial (c : R) (n : Exponent) : Sparse R :=
  if c = Coeff.zero then zero else zero.insert n c

def constant (c : R) : Sparse R := monomial c 0

def one : Sparse R := constant Coeff.one

/-- The indeterminate, which is zero where one is. -/
def x : Sparse R := monomial Coeff.one 1

def isMonic (p : Sparse R) : Bool := p.leadingCoeff? = some Coeff.one

end Sparse

end Univariate
