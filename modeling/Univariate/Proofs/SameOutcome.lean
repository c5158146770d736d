import Univariate.Proofs.Coeff.Power

/-! Pairs of computations that fail alike. -/
namespace Univariate

variable {A A' B B' : Type} {rel : A → B → Prop} {rel' : A' → B' → Prop}

/-- Both computations fail, with the same fault, or both return, with results in relation. -/
inductive SameOutcome (rel : A → B → Prop) : Except Fault A → Except Fault B → Prop where
  | fault (e : Fault) : SameOutcome rel (.error e) (.error e)
  | value {a : A} {b : B} (h : rel a b) : SameOutcome rel (.ok a) (.ok b)

namespace SameOutcome

variable {x : Except Fault A} {y : Except Fault B}

theorem imp {rel' : A → B → Prop} (h : SameOutcome rel x y) (hi : ∀ a b, rel a b → rel' a b) :
    SameOutcome rel' x y := by
  cases h with
  | fault e => exact .fault e
  | value h => exact .value (hi _ _ h)

theorem bind {f : A → Except Fault A'} {g : B → Except Fault B'} (h : SameOutcome rel x y)
    (hf : ∀ a b, rel a b → SameOutcome rel' (f a) (g b)) :
    SameOutcome rel' (x >>= f) (y >>= g) := by
  cases h with
  | fault e => exact .fault e
  | value h => exact hf _ _ h

/-- Where both do the same first, only what follows is compared. -/
theorem bind_same {f : A → Except Fault A'} {g : A → Except Fault B'}
    (hf : ∀ a, SameOutcome rel' (f a) (g a)) : SameOutcome rel' (x >>= f) (x >>= g) := by
  cases x with
  | error e => exact .fault e
  | ok a => exact hf a

theorem map_left {f : A → A'} {rel' : A' → B → Prop} (h : SameOutcome rel x y)
    (hf : ∀ a b, rel a b → rel' (f a) b) :
    SameOutcome rel' (x >>= fun a => pure (f a)) y := by
  cases h with
  | fault e => exact .fault e
  | value h => exact .value (hf _ _ h)

theorem map_right {g : A → B} (hg : ∀ a, rel a (g a)) :
    SameOutcome rel x (x >>= fun a => pure (g a)) := by
  cases x with
  | error e => exact .fault e
  | ok a => exact .value (hg a)

theorem returns_of_ok {a : A} (h : SameOutcome rel (.ok a) y) : Returns y (rel a) := by
  cases h with
  | value h => exact .ok h

/-- What is known of a result in any case. -/
theorem and_left {Q : A → Prop} (hx : Yields x Q) (h : SameOutcome rel x y) :
    SameOutcome (fun a b => Q a ∧ rel a b) x y := by
  cases h with
  | fault e => exact .fault e
  | value h => exact .value ⟨hx, h⟩

/-- Two runs of doubling fail alike when their operations do on all values up to a grade. -/
theorem repeated {I : ℕ → A → B → Prop} {op : A → A → Except Fault A}
    {op' : B → B → Except Fault B} {k : ℕ}
    (hop : ∀ i j a b a' b', i + j ≤ k → I i a a' → I j b b' →
      SameOutcome (I (i + j)) (op a b) (op' a' b'))
    {n i j : ℕ} {acc base : A} {acc' base' : B} (hk : i + j * n ≤ k) (hacc : I i acc acc')
    (hbase : I j base base') :
    SameOutcome (I (i + j * n)) (Univariate.repeated op acc base n)
      (Univariate.repeated op' acc' base' n) := by
  have hlift : Lifts I fun i => SameOutcome (I i) := ⟨.value, .bind⟩
  exact hlift.repeated op op' hop hk hacc hbase

end SameOutcome

end Univariate
