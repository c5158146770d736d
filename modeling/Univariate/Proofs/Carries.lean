import Univariate.Proofs.Coeff.Power
import Univariate.Proofs.Room

/-! Computations whose results a map takes to the results of other computations. -/
namespace Univariate

variable {A A' B B' T T' : Type} {E : Fault → Prop} {φ : A → A'} {ψ : B → B'}

/-- When the first computation has a result, the second one ends with its image. A fault of the
first satisfies `E`, and leaves the second open. -/
def Carries (E : Fault → Prop) (φ : A → A') (x : Except Fault A) (y : Except Fault A') : Prop :=
  Ends E x fun a => y = .ok (φ a)

namespace Carries

theorem ok {a : A} {b : A'} (h : b = φ a) : Carries E φ (.ok a) (.ok b) := by
  subst h
  exact Ends.ok rfl

theorem pure {a : A} {b : A'} (h : b = φ a) : Carries E φ (Pure.pure a) (Pure.pure b) := ok h

theorem eq_ok {x : Except Fault A} {y : Except Fault A'} {a : A} (h : Carries E φ x y)
    (hx : x = .ok a) : y = .ok (φ a) := by
  subst hx
  exact h

theorem bind {x : Except Fault A} {y : Except Fault A'} {f : A → Except Fault B}
    {g : A' → Except Fault B'} (h : Carries E φ x y)
    (hf : ∀ a, Carries E ψ (f a) (g (φ a))) : Carries E ψ (x >>= f) (y >>= g) := by
  cases x with
  | error e => exact h
  | ok a =>
    have hy : y = .ok (φ a) := h
    subst hy
    exact hf a

/-- Both form the same sum of words first, which may have no room. -/
theorem bind_wordAdd (hroom : E (.overflow .add)) {a b : UInt64} {f : UInt64 → Except Fault A}
    {g : UInt64 → Except Fault A'} (hf : ∀ c, Carries E φ (f c) (g c)) :
    Carries E φ (Word.add a b >>= f) (Word.add a b >>= g) := by
  cases hsum : Word.add a b with
  | ok c => exact hf c
  | error e =>
    obtain ⟨rfl, -⟩ := (wordAdd_ends (a := a) (b := b) le_rfl).of_eq_error hsum
    exact hroom

/-- A loop over a list follows one over another list, member by member. -/
theorem foldlM {θ : T → T'} {step : A → T → Except Fault A} {step' : A' → T' → Except Fault A'}
    (hstep : ∀ a t, Carries E φ (step a t) (step' (φ a) (θ t))) (l : List T) (a : A) :
    Carries E φ (l.foldlM step a) ((l.map θ).foldlM step' (φ a)) := by
  induction l generalizing a with
  | nil => exact pure rfl
  | cons t l ih =>
    rw [List.foldlM_cons, List.map_cons, List.foldlM_cons]
    exact (hstep a t).bind ih

theorem mapM {θ : T → T'} {f : T → Except Fault A} {g : T' → Except Fault A'}
    (hf : ∀ t, Carries E φ (f t) (g (θ t))) (l : List T) :
    Carries E (List.map φ) (l.mapM f) ((l.map θ).mapM g) := by
  induction l with
  | nil => exact pure rfl
  | cons t l ih =>
    rw [List.mapM_cons, List.map_cons, List.mapM_cons]
    exact (hf t).bind fun a => ih.bind fun r => pure rfl

theorem repeated {op : A → A → Except Fault A} {op' : A' → A' → Except Fault A'}
    (hop : ∀ a b, Carries E φ (op a b) (op' (φ a) (φ b))) (acc base : A) (n : ℕ) :
    Carries E φ (Univariate.repeated op acc base n)
      (Univariate.repeated op' (φ acc) (φ base) n) := by
  have hlift : Lifts (fun _ a b => b = φ a) fun _ x y => Carries E φ x y := by
    constructor
    · intro _ a b hab
      exact ok hab
    · intro _ _ x y f g hx hf
      exact hx.bind fun a => hf a (φ a) rfl
  refine hlift.repeated op op' (k := n) (n := n) (i := 0) (j := 1) ?_ (by omega) rfl rfl
  rintro _ _ a b _ _ - rfl rfl
  exact hop a b

end Carries

variable {R R' : Type} [Coeff R] [Coeff R']

/-- Wherever an operation on coefficients succeeds, the same operation on their images has the image
of its result. -/
structure CoeffHom (E : Fault → Prop) (φ : R → R') : Prop where
  zero : φ Coeff.zero = Coeff.zero
  one : φ Coeff.one = Coeff.one
  add (a b : R) : Carries E φ (Coeff.add a b) (Coeff.add (φ a) (φ b))
  sub (a b : R) : Carries E φ (Coeff.sub a b) (Coeff.sub (φ a) (φ b))
  mul (a b : R) : Carries E φ (Coeff.mul a b) (Coeff.mul (φ a) (φ b))
  neg (a : R) : Carries E φ (Coeff.neg a) (Coeff.neg (φ a))

namespace CoeffHom

variable {φ : R → R'}

theorem pow (h : CoeffHom E φ) (a : R) (n : ℕ) :
    Carries E φ (Coeff.pow a n) (Coeff.pow (φ a) n) := by
  have hpow := Carries.repeated h.mul Coeff.one a n
  rwa [h.one] at hpow

theorem multiple (h : CoeffHom E φ) (a : R) (n : ℤ) :
    Carries E φ (Coeff.multiple a n) (Coeff.multiple (φ a) n) := by
  have hsum := Carries.repeated h.add Coeff.zero a n.natAbs
  rw [h.zero] at hsum
  refine hsum.bind fun b => ?_
  split
  · exact h.neg b
  · exact .pure rfl

end CoeffHom

/-- Distinct coefficients keep distinct images, so tests on images come out as those on coefficients
do. -/
structure CoeffEmbedding (E : Fault → Prop) (φ : R → R') : Prop extends CoeffHom E φ where
  injective : Function.Injective φ

namespace CoeffEmbedding

variable {φ : R → R'}

theorem eq_zero_iff (h : CoeffEmbedding E φ) {a : R} : φ a = Coeff.zero ↔ a = Coeff.zero := by
  rw [← h.zero, h.injective.eq_iff]

theorem eq_one_iff (h : CoeffEmbedding E φ) {a : R} : φ a = Coeff.one ↔ a = Coeff.one := by
  rw [← h.one, h.injective.eq_iff]

/-- What is told apart by a coefficient of zero is told apart by its image, too. -/
theorem carries_ite [DecidableEq R] [DecidableEq R'] (h : CoeffEmbedding E φ) {χ : A → A'} (c : R)
    {x y : Except Fault A} {x' y' : Except Fault A'} (hx : Carries E χ x x')
    (hy : Carries E χ y y') :
    Carries E χ (if c = Coeff.zero then x else y) (if φ c = Coeff.zero then x' else y') := by
  by_cases hc : c = Coeff.zero
  · rw [if_pos hc, if_pos (h.eq_zero_iff.mpr hc)]
    exact hx
  · rw [if_neg hc, if_neg (mt h.eq_zero_iff.mp hc)]
    exact hy

end CoeffEmbedding

end Univariate
