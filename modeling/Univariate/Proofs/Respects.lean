import Univariate.Proofs.Dense.Carried
import Univariate.Proofs.Sparse.Carried
import Univariate.Proofs.Store

/-! Maps between stores that respect the operations. -/
namespace Univariate

variable {R R' P P' : Type} {E : Fault → Prop} {φ : R → R'} {ψ : P → P'}

/-- The faults that may end each of the operations on two operands. -/
structure OperationFaults where
  /-- Those of sums, differences, negations, multiples, derivatives and values. -/
  plain : Fault → Prop
  mul : Fault → Prop
  shift : Exponent → Fault → Prop
  pow : ℕ → Fault → Prop
  compose : Fault → Prop

namespace OperationFaults

/-- The same faults everywhere. -/
def any (E : Fault → Prop) : OperationFaults where
  plain := E
  mul := E
  shift _ := E
  pow _ := E
  compose := E

/-- Only the faults of exponents without room: the sum of the largest ones for a product, the
largest one in its new place for a shift, and that of a product of two powers on the way for a power
or a composition. -/
def ofRoom [CommRing R] (S : Store R P) (Room : ℕ → Prop) (a b : P) : OperationFaults where
  plain _ := False
  mul := NoRoom Room (S.top a + S.top b)
  shift n := NoRoom Room (S.top a + n.toNat)
  pow := NoRoomForPowers Room (S.formal a)
  compose := NoRoomForPowers Room (S.formal b) (S.top a)

end OperationFaults

/-- Wherever an operation on `a` and `b` has a result, the same operation on their images has its
image. Where it has none, its fault is one of `F`. -/
structure Store.Respects (S : Store R P) (S' : Store R' P') (F : OperationFaults) (φ : R → R')
    (ψ : P → P') (a b : P) : Prop where
  add : Carries F.plain ψ (S.add a b) (S'.add (ψ a) (ψ b))
  sub : Carries F.plain ψ (S.sub a b) (S'.sub (ψ a) (ψ b))
  neg : Carries F.plain ψ (S.neg a) (S'.neg (ψ a))
  mul : Carries F.mul ψ (S.mul a b) (S'.mul (ψ a) (ψ b))
  scale (c : R) : Carries F.plain ψ (S.scale a c) (S'.scale (ψ a) (φ c))
  shift (n : Exponent) : Carries (F.shift n) ψ (S.shift a n) (S'.shift (ψ a) n)
  pow (n : ℕ) : Carries (F.pow n) ψ (S.pow a n) (S'.pow (ψ a) n)
  derivative : Carries F.plain ψ (S.derivative a) (S'.derivative (ψ a))
  compose : Carries F.compose ψ (S.compose a b) (S'.compose (ψ a) (ψ b))
  eval (x : R) : Carries F.plain φ (S.eval a x) (S'.eval (ψ a) (φ x))

/-- The operations are respected on all operands, and what is read off a polynomial is read off its
image. -/
structure Store.Embeds (S : Store R P) (S' : Store R' P') (E : Fault → Prop) (φ : R → R')
    (ψ : P → P') : Prop where
  operations (a b : P) : S.Respects S' (.any E) φ ψ a b
  zero : S'.zero = ψ S.zero
  ofList (l : List R) : Carries E ψ (S.ofList l) (S'.ofList (l.map φ))
  coeff (p : P) (n : ℕ) : S'.coeff (ψ p) n = φ (S.coeff p n)
  degree (p : P) : S'.degree (ψ p) = S.degree p
  isZero (p : P) : S'.isZero (ψ p) = S.isZero p
  leadingCoeff? (p : P) : S'.leadingCoeff? (ψ p) = (S.leadingCoeff? p).map φ
  isMonic (p : P) : S'.isMonic (ψ p) = S.isMonic p
  equal (p q : P) : S'.equal (ψ p) (ψ q) = S.equal p q

variable [Coeff R] [Coeff R'] [DecidableEq R] [DecidableEq R']

theorem Dense.store_embeds (h : CoeffEmbedding E φ) :
    Dense.store.Embeds Dense.store E φ (map φ) where
  operations a b :=
    { add := add_carries h a b
      sub := sub_carries h a b
      neg := neg_carries h.toCoeffHom a
      mul := mul_carries h a b
      scale := scale_carries h a
      shift := fun n => .ok (shift_map h.toCoeffHom a n)
      pow := pow_carries h a
      derivative := derivative_carries h a
      compose := compose_carries h a b
      eval := eval_carries h a }
  zero := rfl
  ofList l := .ok (ofList_map h l)
  coeff p n := by
    change (p.coeffs.map φ).getD n Coeff.zero = φ (p.coeffs.getD n Coeff.zero)
    rw [← h.zero, List.getD_eq_getElem?_getD, List.getElem?_map, Option.getD_map,
      ← List.getD_eq_getElem?_getD]
  degree := degree_map φ
  isZero := isZero_map φ
  leadingCoeff? := leadingCoeff?_map φ
  isMonic := isMonic_map h
  equal _ _ := decide_eq_decide.mpr (map_injective h.injective).eq_iff

theorem Sparse.store_embeds (h : CoeffEmbedding E φ) (hroom : E (.overflow .add)) :
    Sparse.store.Embeds Sparse.store E φ (map φ) where
  operations a b :=
    { add := add_carries h a b
      sub := sub_carries h a b
      neg := neg_carries h.toCoeffHom a
      mul := mul_carries h hroom a b
      scale := scale_carries h a
      shift := shift_carries hroom φ a
      pow := pow_carries h hroom a
      derivative := derivative_carries h a
      compose := compose_carries h hroom a b
      eval := eval_carries h.toCoeffHom a }
  zero := rfl
  ofList l := .ok (ofList_map h l)
  coeff p n := by
    change ((p.map φ).get? n).getD Coeff.zero = φ ((p.get? n).getD Coeff.zero)
    rw [get?_map, ← h.zero, Option.getD_map]
  degree := degree_map φ
  isZero := isZero_map φ
  leadingCoeff? := leadingCoeff?_map φ
  isMonic := isMonic_map h
  equal _ _ := decide_eq_decide.mpr (map_injective h.injective).eq_iff

end Univariate
