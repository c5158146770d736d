import Univariate.Proofs.Change
import Univariate.Proofs.Respects
import Univariate.Proofs.StoreLaws

/-! Polynomials over the integers and their images over other rings. Leading terms, and any others,
may vanish on the way, and whatever is done before the change may be done after it. -/
namespace Univariate

open Polynomial

variable {R R' P P' : Type} [CommRing R] [CommRing R'] {φ : R →+* R'} {E : Fault → Prop}

namespace Store.Lawful

variable {S : Store R P} {S' : Store R' P'} {Rep : P → R[X] → Prop} {Rep' : P' → R'[X] → Prop}
  {Room : ℕ → Prop} {ψ : P → P'} {a b : P} {f g : R[X]}

/-- Both sides are told by the formal polynomials that they denote. -/
theorem carries (h' : S'.Lawful Rep' Room) (hψ : ∀ p f, Rep p f → Rep' (ψ p) (f.map φ))
    {x : Except Fault P} {y : Except Fault P'} (hx : Ends E x (Rep · f))
    (hy : ∀ p, x = .ok p → Returns y (Rep' · (f.map φ))) : Carries E ψ x y := by
  cases x with
  | error e => exact hx
  | ok p =>
    obtain ⟨q, rfl, hq⟩ := hy p rfl
    exact .ok (h'.unique hq (hψ p f hx))

/-- Without divisors of zero, a result has the full degree that its operands promise, so there is
room for what their images promise. -/
theorem respects [NoZeroDivisors R] (h : S.Lawful Rep Room) (h' : S'.Lawful Rep' Room)
    (hψ : ∀ p f, Rep p f → Rep' (ψ p) (f.map φ)) (ha : Rep a f) (hb : Rep b g)
    (hderivative : Carries (fun _ => False) ψ (S.derivative a) (S'.derivative (ψ a))) :
    S.Respects S' (.ofRoom S Room a b) φ ψ a b where
  add := by
    refine h'.carries hψ (h.add ha hb).ends fun _ _ => ?_
    rw [Polynomial.map_add]
    exact h'.add (hψ a f ha) (hψ b g hb)
  sub := by
    refine h'.carries hψ (h.sub ha hb).ends fun _ _ => ?_
    rw [Polynomial.map_sub]
    exact h'.sub (hψ a f ha) (hψ b g hb)
  neg := by
    refine h'.carries hψ (h.neg ha).ends fun _ _ => ?_
    rw [Polynomial.map_neg]
    exact h'.neg (hψ a f ha)
  mul := by
    refine h'.carries hψ (h.multiplied ha hb fun _ => id) fun p hp => ?_
    rw [Polynomial.map_mul]
    refine h'.mul (hψ a f ha) (hψ b g hb) (h'.room_mono (h.room_of_mul ha hb hp) ?_)
    exact Nat.add_le_add natDegree_map_le natDegree_map_le
  scale c := by
    refine h'.carries hψ (h.scale c ha).ends fun _ _ => ?_
    rw [Polynomial.map_mul, map_C]
    exact h'.scale (φ c) (hψ a f ha)
  shift n := by
    refine h'.carries hψ (h.shifted ha fun _ => id) fun p hp => ?_
    rw [Polynomial.map_mul, Polynomial.map_pow, map_X]
    refine (h'.shift_returnsIff n (hψ a f ha)).result fun hne => ?_
    -- The largest exponent may vanish with its coefficient, and none comes in its place.
    have hf : f ≠ 0 := by
      rintro rfl
      exact hne (Polynomial.map_zero _)
    have hroom := ((h.shift_returnsIff n ha).ends.of_eq_ok hp).1 hf
    exact h'.room_mono hroom (Nat.add_le_add_right natDegree_map_le _)
  pow n := by
    refine h'.carries hψ (h.raised ha fun _ => id) fun p hp => ?_
    -- The power that has been formed is as large as any that its image forms on the way.
    have hroom := h.room ((h.pow_ends n ha).of_eq_ok hp) (natDegree_pow f n).ge
    rw [Polynomial.map_pow]
    exact (h'.pow_ends n (hψ a f ha)).returns fun e =>
      not_noRoomForPowers h'.room_mono natDegree_map_le le_rfl hroom
  derivative := hderivative
  compose := by
    refine h'.carries hψ (h.composed ha hb fun _ => id) fun p hp => ?_
    have hroom := h.room ((h.compose_ends ha hb).of_eq_ok hp) natDegree_comp.ge
    rw [Polynomial.map_comp]
    exact (h'.compose_ends (hψ a f ha) (hψ b g hb)).returns fun e =>
      not_noRoomForPowers h'.room_mono natDegree_map_le natDegree_map_le hroom
  eval x := by
    obtain ⟨y, hy, rfl⟩ := h.eval x ha
    obtain ⟨z, hz, rfl⟩ := h'.eval (φ x) (hψ a f ha)
    rw [hy, hz]
    exact .ok (eval_map_apply φ x)

end Store.Lawful

variable [Coeff R] [ExactCoeff R] [DecidableEq R] [Coeff R'] [ExactCoeff R'] [DecidableEq R']

theorem Dense.change_respects [NoZeroDivisors R] (φ : R →+* R') {a b : Dense R}
    (ha : a.Canonical) (hb : b.Canonical) :
    store.Respects store (.ofRoom store (fun _ => True) a b) φ (change φ) a b := by
  have hrep := represents_toPoly ha
  have hderivative := derivative_represents hrep
  refine store_lawful.respects store_lawful (change_represents φ) hrep (represents_toPoly hb) ?_
  refine store_lawful.carries (change_represents φ) hderivative.ends fun _ _ => ?_
  rw [← derivative_map]
  exact derivative_represents (change_represents φ a a.toPoly hrep)

theorem Sparse.change_respects [NoZeroDivisors R] (φ : R →+* R') {a b : Sparse R}
    (ha : a.Canonical) (hb : b.Canonical) :
    store.Respects store (.ofRoom store (· < UInt64.size) a b) φ (change φ) a b := by
  have hderivative := derivative_represents_derivedTerms a
  refine store_lawful.respects store_lawful (change_represents φ) (represents_toPoly ha)
    (represents_toPoly hb) ?_
  refine store_lawful.carries (change_represents φ) hderivative.ends fun _ _ => ?_
  rw [← sum_derivedTerm_change]
  exact derivative_represents_derivedTerms (a.change φ)

theorem Sparse.change_ofTerms (φ : R →+* R') (l : List (Exponent × R)) :
    Carries (fun _ => False) (change φ) (ofTerms l) (ofTerms (l.map (mapTerm φ))) := by
  have hterms := ofTerms_represents l
  refine store_lawful.carries (change_represents φ) hterms.ends fun _ _ => ?_
  rw [← sumOf_map]
  exact ofTerms_represents (l.map (mapTerm φ))

/-- Signed bytes wrap, so reading an integer respects sums and products. -/
def signedByteHom : ℤ →+* Int8 where
  toFun := Int8.ofInt
  map_one' := rfl
  map_mul' := Int8.ofInt_mul
  map_zero' := rfl
  map_add' := Int8.ofInt_add

/-- Polynomials over the integers may be taken along `φ` before an operation or after it. Only an
exponent that the operation itself forms, and that finds no room, stands in the way. Slots are taken
to have room for all. -/
structure ChangeCommutes {R : Type} [Coeff R] [DecidableEq R] (φ : ℤ → R) : Prop where
  dense (a b : Dense ℤ) : a.Canonical → b.Canonical → Dense.store.Respects Dense.store
    (.ofRoom Dense.store (fun _ => True) a b) φ (Dense.change φ) a b
  sparse (a b : Sparse ℤ) : a.Canonical → b.Canonical → Sparse.store.Respects Sparse.store
    (.ofRoom Sparse.store (· < UInt64.size) a b) φ (Sparse.change φ) a b
  ofTerms (l : List (Exponent × ℤ)) :
    Carries (fun _ => False) (Sparse.change φ) (Sparse.ofTerms l)
      (Sparse.ofTerms (l.map (Sparse.mapTerm φ)))

theorem changeCommutes_of_ringHom (φ : ℤ →+* R') : ChangeCommutes φ where
  dense _ _ := Dense.change_respects φ
  sparse _ _ := Sparse.change_respects φ
  ofTerms := Sparse.change_ofTerms φ

/-- Reduction by any modulus, wrapping to bytes, and the embedding in the rational numbers. -/
theorem change_of_coefficients_commutes :
    (∀ m, ChangeCommutes (Residue.ofInt m)) ∧ ChangeCommutes Int8.ofInt ∧
      ChangeCommutes (Int.cast : ℤ → ℚ) := by
  refine ⟨fun m => ?_, changeCommutes_of_ringHom signedByteHom,
    changeCommutes_of_ringHom (Int.castRingHom ℚ)⟩
  have hcast : Residue.ofInt m = Int.castRingHom (Residue m) := funext Residue.ofInt_eq_cast
  rw [hcast]
  exact changeCommutes_of_ringHom _

/-- Modulo four, where two is a divisor of zero: the squares of `2 * x + 1` and of
`2 * x ^ (2 ^ 62) + 1`, whose higher terms vanish, and a shift of a term that has vanished. -/
theorem change_of_coefficients_commutes_four :
    let φ : ℤ → Residue ⟨4, by decide⟩ := Residue.ofInt _
    let a : Dense ℤ := .ofList [1, 2]
    let s : Sparse ℤ := ⟨[(0, 1), (4611686018427387904, 2)], by decide⟩
    let t : Sparse ℤ := .monomial 4 9223372036854775808
    (a.mul a = .ok ⟨[1, 4, 4]⟩ ∧ (a.change φ).mul (a.change φ) = .ok .one) ∧
      (s.pow 2 =
          .ok ⟨[(0, 1), (4611686018427387904, 4), (9223372036854775808, 4)], by decide⟩ ∧
        (s.change φ).pow 2 = .ok .one) ∧
      t.shift 7 = .ok (.monomial 4 9223372036854775815) ∧ (t.change φ).shift 7 = .ok .zero := by
  intro φ a s t
  have hcommutes := change_of_coefficients_commutes.1 ⟨4, by decide⟩
  have hs : s.Canonical := by
    intro c hc
    rcases List.mem_pair.mp hc with rfl | rfl <;> decide
  have hdense := hcommutes.dense a a (Dense.canonical_ofList _) (Dense.canonical_ofList _)
  have hpow := (hcommutes.sparse s s hs hs).pow 2
  have hshift := (hcommutes.sparse t s (Sparse.canonical_monomial _ _) hs).shift 7
  have hmul : a.mul a = .ok ⟨[1, 4, 4]⟩ := by decide
  have hsquare : s.pow 2 =
      .ok ⟨[(0, 1), (4611686018427387904, 4), (9223372036854775808, 4)], by decide⟩ := by
    decide +kernel
  have hmoved : t.shift 7 = .ok (.monomial 4 9223372036854775815) := by decide
  exact ⟨⟨hmul, hdense.mul.eq_ok hmul⟩, ⟨hsquare, hpow.eq_ok hsquare⟩, hmoved, hshift.eq_ok hmoved⟩

end Univariate
