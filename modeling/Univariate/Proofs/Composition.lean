import Univariate.Proofs.RingLaws

/-! Composition of stored polynomials. It is associative, the indeterminate is neutral for it, and
it respects the operations on the outer polynomial. -/
namespace Univariate

open Polynomial

variable {R P : Type} [CommRing R]

/-- The laws of composition with `x` and with constants, on three polynomials. Every step on the
way either has a result or finds no room for the sum of two exponents; it finds room where the
largest exponents, multiplied, have some. -/
structure Store.CompositionLaws (S : Store R P) (x : P) (constant : R → P) (Room : ℕ → Prop)
    (a b c : P) : Prop where
  assoc : S.Composed Room a b fun p => S.Composed Room p c fun l =>
    S.Composed Room b c fun q => S.Composed Room a q (· = l)
  assoc_of_room : Room (S.top a * S.top b) → Room (S.top b * S.top c) →
    Room (S.top a * S.top b * S.top c) →
    Coincide (S.compose a b >>= fun p => S.compose p c) (S.compose b c >>= fun q => S.compose a q)
  compose_x : S.compose a x = .ok a
  x_compose : S.compose x a = .ok a
  add : Returns (S.add a b) fun s => S.Composed Room s c fun l =>
    S.Composed Room a c fun p => S.Composed Room b c fun q => S.add p q = .ok l
  add_of_room : Room (S.top a * S.top c) → Room (S.top b * S.top c) →
    Coincide (S.add a b >>= fun s => S.compose s c)
      (S.compose a c >>= fun p => S.compose b c >>= fun q => S.add p q)
  mul : S.Multiplied Room a b fun m => S.Composed Room m c fun l =>
    S.Composed Room a c fun p => S.Composed Room b c fun q => S.Multiplied Room p q (· = l)
  mul_of_room : Room (S.top a + S.top b) → Room ((S.top a + S.top b) * S.top c) →
    Coincide (S.mul a b >>= fun m => S.compose m c)
      (S.compose a c >>= fun p => S.compose b c >>= fun q => S.mul p q)
  constant (v : R) : Coincide (S.compose a (constant v))
    (S.eval a v >>= fun u => pure (constant u))

namespace Store.Lawful

variable {S : Store R P} {Rep : P → R[X] → Prop} {Room : ℕ → Prop} {a b c x : P} {f g k : R[X]}

section OfRoom

theorem compose_compose_left (h : S.Lawful Rep Room) (ha : Rep a f) (hb : Rep b g) (hc : Rep c k)
    (hab : Room (f.natDegree * g.natDegree))
    (habc : Room (f.natDegree * g.natDegree * k.natDegree)) :
    Returns (S.compose a b >>= fun p => S.compose p c) (Rep · ((f.comp g).comp k)) :=
  (h.compose_of_room ha hb le_rfl le_rfl hab).bind fun _ hp =>
    h.compose_of_room hp hc natDegree_comp_le le_rfl habc

theorem compose_compose_right (h : S.Lawful Rep Room) (ha : Rep a f) (hb : Rep b g) (hc : Rep c k)
    (hbc : Room (g.natDegree * k.natDegree))
    (habc : Room (f.natDegree * g.natDegree * k.natDegree)) :
    Returns (S.compose b c >>= fun q => S.compose a q) (Rep · (f.comp (g.comp k))) := by
  rw [mul_assoc] at habc
  exact (h.compose_of_room hb hc le_rfl le_rfl hbc).bind fun _ hq =>
    h.compose_of_room ha hq le_rfl natDegree_comp_le habc

/-- The degree of a sum is one of two, and there is room for both. -/
theorem add_compose (h : S.Lawful Rep Room) (ha : Rep a f) (hb : Rep b g) (hc : Rep c k)
    (hac : Room (f.natDegree * k.natDegree)) (hbc : Room (g.natDegree * k.natDegree)) :
    Returns (S.add a b >>= fun s => S.compose s c) (Rep · ((f + g).comp k)) := by
  refine (h.add ha hb).bind fun s hs => ?_
  rcases le_max_iff.mp (natDegree_add_le f g) with hle | hle
  · exact h.compose_of_room hs hc hle le_rfl hac
  · exact h.compose_of_room hs hc hle le_rfl hbc

theorem mul_compose (h : S.Lawful Rep Room) (ha : Rep a f) (hb : Rep b g) (hc : Rep c k)
    (hab : Room (f.natDegree + g.natDegree))
    (habc : Room ((f.natDegree + g.natDegree) * k.natDegree)) :
    Returns (S.mul a b >>= fun m => S.compose m c) (Rep · ((f * g).comp k)) :=
  (h.mul ha hb hab).bind fun _ hm => h.compose_of_room hm hc natDegree_mul_le le_rfl habc

theorem compose_mul_compose (h : S.Lawful Rep Room) (ha : Rep a f) (hb : Rep b g) (hc : Rep c k)
    (habc : Room ((f.natDegree + g.natDegree) * k.natDegree)) :
    Returns (S.compose a c >>= fun p => S.compose b c >>= fun q => S.mul p q)
      (Rep · (f.comp k * g.comp k)) := by
  rw [add_mul] at habc
  have hac := h.room_mono habc (Nat.le_add_right _ _)
  have hbc := h.room_mono habc (Nat.le_add_left _ _)
  refine (h.compose_of_room ha hc le_rfl le_rfl hac).bind fun p hp => ?_
  refine (h.compose_of_room hb hc le_rfl le_rfl hbc).bind fun q hq => h.mul hp hq ?_
  exact h.room_mono habc (Nat.add_le_add natDegree_comp_le natDegree_comp_le)

/-- A power of `x` is no larger than the exponent that asks for it. -/
theorem compose_x (h : S.Lawful Rep Room) (hx : Rep x X) (ha : Rep a f) :
    S.compose a x = .ok a := by
  have hroom : Room (f.natDegree * 1) := h.room ha (Nat.mul_one _).le
  exact h.eq_ok (h.compose_of_room ha hx le_rfl natDegree_X_le hroom) ha comp_X

theorem x_compose (h : S.Lawful Rep Room) (hx : Rep x X) (ha : Rep a f) :
    S.compose x a = .ok a := by
  have hroom : Room (1 * f.natDegree) := h.room ha (Nat.one_mul _).le
  exact h.eq_ok (h.compose_of_room hx ha natDegree_X_le le_rfl hroom) ha X_comp

/-- The powers of a constant are constants. -/
theorem compose_constant (h : S.Lawful Rep Room) {constant : R → P}
    (hconstant : ∀ v, Rep (constant v) (C v)) (ha : Rep a f) (v : R) :
    Coincide (S.compose a (constant v)) (S.eval a v >>= fun u => pure (constant u)) := by
  have hroom : Room (f.natDegree * 0) := h.room ha (Nat.zero_le _)
  have hcompose := h.compose_of_room ha (hconstant v) le_rfl (natDegree_C v).le hroom
  have hvalue : Returns (S.eval a v >>= fun u => pure (constant u)) (Rep · (C (f.eval v))) :=
    (h.eval v ha).bind fun u hu => .pure (hu ▸ hconstant u)
  exact h.coincide hcompose hvalue comp_C

end OfRoom

theorem compositionLaws (h : S.Lawful Rep Room) {constant : R → P} (hx : Rep x X)
    (hconstant : ∀ v, Rep (constant v) (C v)) (ha : Rep a f) (hb : Rep b g) (hc : Rep c k) :
    S.CompositionLaws x constant Room a b c where
  assoc := by
    refine h.composed ha hb fun p hp => h.composed hp hc fun l hl => ?_
    refine h.composed hb hc fun q hq => h.composed ha hq fun r hr => ?_
    rw [← comp_assoc] at hr
    exact h.unique hr hl
  assoc_of_room hab hbc habc := by
    rw [h.top_eq ha, h.top_eq hb] at hab habc
    rw [h.top_eq hb, h.top_eq hc] at hbc
    rw [h.top_eq hc] at habc
    exact h.coincide (h.compose_compose_left ha hb hc hab habc)
      (h.compose_compose_right ha hb hc hbc habc) (comp_assoc f g k)
  compose_x := h.compose_x hx ha
  x_compose := h.x_compose hx ha
  add := by
    refine (h.add ha hb).imp fun s hs => h.composed hs hc fun l hl => ?_
    refine h.composed ha hc fun p hp => h.composed hb hc fun q hq => ?_
    exact h.eq_ok (h.add hp hq) hl add_comp.symm
  add_of_room hac hbc := by
    rw [h.top_eq ha, h.top_eq hc] at hac
    rw [h.top_eq hb, h.top_eq hc] at hbc
    exact h.coincide (h.add_compose ha hb hc hac hbc)
      (h.add_products (h.compose_of_room ha hc le_rfl le_rfl hac)
        (h.compose_of_room hb hc le_rfl le_rfl hbc)) add_comp
  mul := by
    refine h.multiplied ha hb fun m hm => h.composed hm hc fun l hl => ?_
    refine h.composed ha hc fun p hp => h.composed hb hc fun q hq => ?_
    refine h.multiplied hp hq fun r hr => ?_
    rw [← mul_comp] at hr
    exact h.unique hr hl
  mul_of_room hab habc := by
    rw [h.top_eq ha, h.top_eq hb] at hab habc
    rw [h.top_eq hc] at habc
    exact h.coincide (h.mul_compose ha hb hc hab habc) (h.compose_mul_compose ha hb hc habc)
      (mul_comp f g k)
  constant := h.compose_constant hconstant ha

end Store.Lawful

variable [Coeff R] [ExactCoeff R] [DecidableEq R]

/-- In slots there is always room, so both sides are always formed. -/
theorem composition_laws :
    (∀ a b c : Dense R, a.Canonical → b.Canonical → c.Canonical →
      Dense.store.CompositionLaws Dense.x Dense.constant (fun _ => True) a b c) ∧
    ∀ a b c : Sparse R, a.Canonical → b.Canonical → c.Canonical →
      Sparse.store.CompositionLaws Sparse.x Sparse.constant (· < UInt64.size) a b c := by
  constructor
  · intro a b c ha hb hc
    exact Dense.store_lawful.compositionLaws Dense.represents_x Dense.represents_constant
      (Dense.represents_toPoly ha) (Dense.represents_toPoly hb) (Dense.represents_toPoly hc)
  · intro a b c ha hb hc
    exact Sparse.store_lawful.compositionLaws Sparse.represents_x Sparse.represents_constant
      (Sparse.represents_toPoly ha) (Sparse.represents_toPoly hb) (Sparse.represents_toPoly hc)

/-- Over bytes: next to divisors of zero, and where the largest exponents multiply to `2 ^ 63`. -/
theorem composition_laws_bytes :
    let a := Sparse.monomial (64 : Int8) 4
    let b := Sparse.monomial (3 : Int8) 1073741824
    let c := Sparse.monomial (5 : Int8) 2147483648
    Dense.store.CompositionLaws Dense.x Dense.constant (fun _ => True)
        (Dense.ofList [(1 : Int8), 0, 64]) (Dense.ofList [2, 32, -128]) (Dense.ofList [3, 16]) ∧
      Sparse.store.CompositionLaws Sparse.x Sparse.constant (· < UInt64.size) a b c ∧
        Coincide (a.compose b >>= fun p => p.compose c) (b.compose c >>= fun q => a.compose q) := by
  intro a b c
  have hlaws := composition_laws.2 a b c (Sparse.canonical_monomial _ _)
    (Sparse.canonical_monomial _ _) (Sparse.canonical_monomial _ _)
  refine ⟨?_, hlaws, hlaws.assoc_of_room (by decide) (by decide) (by decide)⟩
  exact composition_laws.1 _ _ _ (Dense.canonical_ofList _) (Dense.canonical_ofList _)
    (Dense.canonical_ofList _)

end Univariate
