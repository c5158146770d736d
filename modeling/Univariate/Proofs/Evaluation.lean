import Univariate.Proofs.StoreLaws

/-! Values of sums, products, powers and compositions. Both stores evaluate by ways of their own,
and each comes to the value of the formal polynomial. -/
namespace Univariate

open Polynomial

variable {R P : Type} [CommRing R] [Coeff R]

/-- The value at `x` respects the operations on `a` and `b`. Those that multiply polynomials may
fail for want of room, and for nothing else. -/
structure Store.EvaluationLaws (S : Store R P) (Room : ℕ → Prop) (a b : P) (x : R) : Prop where
  add : Coincide (S.add a b >>= fun p => S.eval p x)
    (S.eval a x >>= fun u => S.eval b x >>= fun v => Coeff.add u v)
  sub : Coincide (S.sub a b >>= fun p => S.eval p x)
    (S.eval a x >>= fun u => S.eval b x >>= fun v => Coeff.sub u v)
  mul : Ends (NoRoom Room ((S.formal a).natDegree + (S.formal b).natDegree)) (S.mul a b) fun p =>
    Coincide (S.eval p x) (S.eval a x >>= fun u => S.eval b x >>= fun v => Coeff.mul u v)
  pow (n : ℕ) : Ends (NoRoomForPowers Room (S.formal a) n) (S.pow a n) fun p =>
    Coincide (S.eval p x) (S.eval a x >>= fun u => Coeff.pow u n)
  compose : Ends (NoRoomForPowers Room (S.formal b) (S.formal a).natDegree) (S.compose a b) fun p =>
    Coincide (S.eval p x) (S.eval b x >>= fun u => S.eval a u)

namespace Store.Lawful

variable {S : Store R P} {Rep : P → R[X] → Prop} {Room : ℕ → Prop} {a b : P} {f g : R[X]}

omit [Coeff R] in
theorem eval_both (h : S.Lawful Rep Room) (x : R) (ha : Rep a f) (hb : Rep b g)
    {op : R → R → Except Fault R} {φ : R → R → R} (hop : ∀ u v, op u v = .ok (φ u v)) :
    Returns (S.eval a x >>= fun u => S.eval b x >>= fun v => op u v)
      (· = φ (f.eval x) (g.eval x)) := by
  refine (h.eval x ha).bind fun u hu => (h.eval x hb).bind fun v hv => ?_
  rw [hop, hu, hv]
  exact .ok rfl

variable [ExactCoeff R]

theorem evaluationLaws (h : S.Lawful Rep Room) (ha : Rep a f) (hb : Rep b g) (x : R) :
    S.EvaluationLaws Room a b x where
  add := ((h.add ha hb).bind fun _ hp => h.eval x hp).coincide
    (h.eval_both x ha hb ExactCoeff.add_eq) eval_add
  sub := ((h.sub ha hb).bind fun _ hp => h.eval x hp).coincide
    (h.eval_both x ha hb ExactCoeff.sub_eq) (eval_sub f g x)
  mul := by
    rw [h.formal_eq ha, h.formal_eq hb]
    exact (h.mul_ends ha hb).imp fun p hp =>
      (h.eval x hp).coincide (h.eval_both x ha hb ExactCoeff.mul_eq) eval_mul
  pow n := by
    have hpow : Returns (S.eval a x >>= fun u => Coeff.pow u n) (· = f.eval x ^ n) :=
      (h.eval x ha).bind fun u hu => by
        rw [Coeff.pow_eq, hu]
        exact .ok rfl
    rw [h.formal_eq ha]
    exact (h.pow_ends n ha).imp fun p hp => (h.eval x hp).coincide hpow (eval_pow n)
  compose := by
    have hcomp : Returns (S.eval b x >>= fun u => S.eval a u) (· = f.eval (g.eval x)) :=
      (h.eval x hb).bind fun u hu => by
        rw [hu]
        exact h.eval _ ha
    rw [h.formal_eq ha, h.formal_eq hb]
    exact (h.compose_ends ha hb).imp fun p hp => (h.eval x hp).coincide hcomp eval_comp

end Store.Lawful

variable [ExactCoeff R] [DecidableEq R]

/-- In slots there is always room, so nothing fails at all. -/
theorem evaluation_respects_operations :
    (∀ (a b : Dense R) (x : R), a.Canonical → b.Canonical →
      Dense.store.EvaluationLaws (fun _ => True) a b x) ∧
    ∀ (a b : Sparse R) (x : R), a.Canonical → b.Canonical →
      Sparse.store.EvaluationLaws (· < UInt64.size) a b x := by
  constructor
  · intro a b x ha hb
    exact Dense.store_lawful.evaluationLaws (Dense.represents_toPoly ha)
      (Dense.represents_toPoly hb) x
  · intro a b x ha hb
    exact Sparse.store_lawful.evaluationLaws (Sparse.represents_toPoly ha)
      (Sparse.represents_toPoly hb) x

/-- Over bytes, at a divisor of zero. -/
theorem evaluation_respects_operations_bytes :
    Dense.store.EvaluationLaws (fun _ => True) (Dense.ofList [(1 : Int8), 0, 64])
        (Dense.ofList [2, 32, -128]) 4 ∧
      Sparse.store.EvaluationLaws (· < UInt64.size)
        (Sparse.monomial (64 : Int8) 9223372036854775808) (Sparse.ofList [2, 32, -128]) 4 := by
  constructor
  · exact evaluation_respects_operations.1 _ _ _ (Dense.canonical_ofList _)
      (Dense.canonical_ofList _)
  · exact evaluation_respects_operations.2 _ _ _ (Sparse.canonical_monomial _ _)
      (Sparse.canonical_ofList _)

end Univariate
