import Univariate.Proofs.StoreLaws

/-! Stored polynomials form a commutative ring, in which a product is a convolution. Equalities are
of stored values, which exist on both sides. -/
namespace Univariate

open Polynomial

variable {R P : Type} [CommRing R]

/-- There is room for the sum of the largest exponents, if each of the polynomials has one. -/
def Store.SumFits (S : Store R P) (Room : ℕ → Prop) (l : List P) : Prop :=
  (∀ p ∈ l, S.height p ≠ 0) → Room ((l.map fun p => S.height p - 1).sum)

/-- The laws of a commutative ring with `one`, on three polynomials. -/
structure Store.RingLaws (S : Store R P) (one : P) (Room : ℕ → Prop) (a b c : P) : Prop where
  coeff_zero (n : ℕ) : S.coeff S.zero n = 0
  coeff_one (n : ℕ) : S.coeff one n = if n = 0 then 1 else 0
  coeff_add : Returns (S.add a b) fun r => ∀ n, S.coeff r n = S.coeff a n + S.coeff b n
  coeff_sub : Returns (S.sub a b) fun r => ∀ n, S.coeff r n = S.coeff a n - S.coeff b n
  coeff_neg : Returns (S.neg a) fun r => ∀ n, S.coeff r n = -S.coeff a n
  coeff_mul : S.SumFits Room [a, b] → Returns (S.mul a b) fun r =>
    ∀ n, S.coeff r n = ∑ ij ∈ Finset.HasAntidiagonal.antidiagonal n, S.coeff a ij.1 * S.coeff b ij.2
  add_comm : Coincide (S.add a b) (S.add b a)
  add_assoc : Coincide (S.add a b >>= fun p => S.add p c) (S.add b c >>= fun p => S.add a p)
  add_zero : S.add a S.zero = .ok a
  zero_add : S.add S.zero a = .ok a
  add_neg : (S.neg a >>= fun p => S.add a p) = .ok S.zero
  sub_eq_add_neg : Coincide (S.sub a b) (S.neg b >>= fun p => S.add a p)
  add_sub_cancel : (S.add a b >>= fun p => S.sub p b) = .ok a
  mul_comm : S.SumFits Room [a, b] → Coincide (S.mul a b) (S.mul b a)
  mul_assoc : S.SumFits Room [a, b] → S.SumFits Room [b, c] → S.SumFits Room [a, b, c] →
    Coincide (S.mul a b >>= fun p => S.mul p c) (S.mul b c >>= fun p => S.mul a p)
  mul_one : S.mul a one = .ok a
  one_mul : S.mul one a = .ok a
  mul_add : S.SumFits Room [a, b] → S.SumFits Room [a, c] →
    Coincide (S.add b c >>= fun p => S.mul a p)
      (S.mul a b >>= fun p => S.mul a c >>= fun q => S.add p q)
  add_mul : S.SumFits Room [a, c] → S.SumFits Room [b, c] →
    Coincide (S.add a b >>= fun p => S.mul p c)
      (S.mul a c >>= fun p => S.mul b c >>= fun q => S.add p q)

namespace Store.Lawful

variable {S : Store R P} {Rep : P → R[X] → Prop} {Room : ℕ → Prop} {a b c one : P} {f g k : R[X]}
  {x y : Except Fault P}

theorem eq_ok (h : S.Lawful Rep Room) (hx : Returns x (Rep · f)) (ha : Rep a g) (hfg : f = g) :
    x = .ok a := by
  obtain ⟨b, rfl, hb⟩ := hx
  subst hfg
  rw [h.unique hb ha]

theorem coincide (h : S.Lawful Rep Room) (hx : Returns x (Rep · f)) (hy : Returns y (Rep · g))
    (hfg : f = g) : Coincide x y := by
  obtain ⟨b, rfl, hb⟩ := hy
  exact ⟨b, h.eq_ok hx hb hfg, rfl⟩

theorem height_ne_zero (h : S.Lawful Rep Room) (ha : Rep a f) (hf : f ≠ 0) : S.height a ≠ 0 := by
  rw [h.height_eq ha hf]
  exact Nat.succ_ne_zero _

section Rooms

theorem room_add (h : S.Lawful Rep Room) (ha : Rep a f) (hb : Rep b g)
    (hfit : S.SumFits Room [a, b]) : Room (f.natDegree + g.natDegree) := by
  refine h.room_sum ha hb ?_
  intro hf hg
  have hroom := hfit (by simp [h.height_ne_zero ha hf, h.height_ne_zero hb hg])
  simpa [h.height_eq ha hf, h.height_eq hb hg] using hroom

theorem room_add_add (h : S.Lawful Rep Room) (ha : Rep a f) (hb : Rep b g) (hc : Rep c k)
    (hfit : S.SumFits Room [a, b, c]) (hf : f ≠ 0) (hg : g ≠ 0) (hk : k ≠ 0) :
    Room (f.natDegree + (g.natDegree + k.natDegree)) := by
  have hroom := hfit (by
    simp [h.height_ne_zero ha hf, h.height_ne_zero hb hg, h.height_ne_zero hc hk])
  simpa [h.height_eq ha hf, h.height_eq hb hg, h.height_eq hc hk] using hroom

/-- A product has no larger degree than its factors together, and none where one of them is zero. -/
theorem room_mul_add (h : S.Lawful Rep Room) (hc : Rep c k)
    (hfg : Room (f.natDegree + g.natDegree))
    (hfgk : f ≠ 0 → g ≠ 0 → k ≠ 0 → Room (f.natDegree + (g.natDegree + k.natDegree))) :
    Room ((f * g).natDegree + k.natDegree) := by
  have hle : (f * g).natDegree ≤ f.natDegree + g.natDegree := natDegree_mul_le
  rcases eq_or_ne k 0 with rfl | hk
  · exact h.room_mono hfg (by simpa using hle)
  · by_cases hzero : f * g = 0
    · exact h.room hc (by simp [hzero])
    · refine h.room_mono (hfgk (left_ne_zero_of_mul hzero) (right_ne_zero_of_mul hzero) hk) ?_
      omega

theorem room_add_of_max (h : S.Lawful Rep Room) (hfg : Room (f.natDegree + g.natDegree))
    (hfk : Room (f.natDegree + k.natDegree)) : Room (f.natDegree + (g + k).natDegree) := by
  rcases le_max_iff.mp (natDegree_add_le g k) with hle | hle
  · exact h.room_mono hfg (by omega)
  · exact h.room_mono hfk (by omega)

end Rooms

section Products

theorem mul_of_fits (h : S.Lawful Rep Room) (ha : Rep a f) (hb : Rep b g)
    (hab : S.SumFits Room [a, b]) : Returns (S.mul a b) (Rep · (f * g)) :=
  h.mul ha hb (h.room_add ha hb hab)

theorem mul_swap (h : S.Lawful Rep Room) (ha : Rep a f) (hb : Rep b g)
    (hab : S.SumFits Room [a, b]) : Returns (S.mul b a) (Rep · (g * f)) :=
  h.mul hb ha (h.room_mono (h.room_add ha hb hab) (Nat.add_comm _ _).le)

theorem mul_mul_left (h : S.Lawful Rep Room) (ha : Rep a f) (hb : Rep b g) (hc : Rep c k)
    (hab : S.SumFits Room [a, b]) (habc : S.SumFits Room [a, b, c]) :
    Returns (S.mul a b >>= fun p => S.mul p c) (Rep · (f * g * k)) := by
  refine (h.mul_of_fits ha hb hab).bind fun p hp => h.mul hp hc ?_
  exact h.room_mul_add hc (h.room_add ha hb hab) (h.room_add_add ha hb hc habc)

theorem mul_mul_right (h : S.Lawful Rep Room) (ha : Rep a f) (hb : Rep b g) (hc : Rep c k)
    (hbc : S.SumFits Room [b, c]) (habc : S.SumFits Room [a, b, c]) :
    Returns (S.mul b c >>= fun p => S.mul a p) (Rep · (f * (g * k))) := by
  refine (h.mul_of_fits hb hc hbc).bind fun p hp => h.mul ha hp ?_
  refine h.room_mono (h.room_mul_add ha (h.room_add hb hc hbc) fun hg hk hf => ?_)
    (Nat.add_comm _ _).le
  exact h.room_mono (h.room_add_add ha hb hc habc hf hg hk) (by omega)

theorem mul_add_left (h : S.Lawful Rep Room) (ha : Rep a f) (hb : Rep b g) (hc : Rep c k)
    (hab : S.SumFits Room [a, b]) (hac : S.SumFits Room [a, c]) :
    Returns (S.add b c >>= fun p => S.mul a p) (Rep · (f * (g + k))) := by
  refine (h.add hb hc).bind fun p hp => h.mul ha hp ?_
  exact h.room_add_of_max (h.room_add ha hb hab) (h.room_add ha hc hac)

theorem add_mul_right (h : S.Lawful Rep Room) (ha : Rep a f) (hb : Rep b g) (hc : Rep c k)
    (hac : S.SumFits Room [a, c]) (hbc : S.SumFits Room [b, c]) :
    Returns (S.add a b >>= fun p => S.mul p c) (Rep · ((f + g) * k)) := by
  refine (h.add ha hb).bind fun p hp => h.mul hp hc ?_
  have hkf := h.room_mono (h.room_add ha hc hac) (Nat.add_comm _ _).le
  have hkg := h.room_mono (h.room_add hb hc hbc) (Nat.add_comm _ _).le
  exact h.room_mono (h.room_add_of_max hkf hkg) (Nat.add_comm _ _).le

/-- Two products, added. -/
theorem add_products (h : S.Lawful Rep Room) {u v : R[X]} (hx : Returns x (Rep · u))
    (hy : Returns y (Rep · v)) :
    Returns (x >>= fun p => y >>= fun q => S.add p q) (Rep · (u + v)) :=
  hx.bind fun _ hp => hy.bind fun _ hq => h.add hp hq

end Products

theorem ringLaws (h : S.Lawful Rep Room) (hone : Rep one 1) (ha : Rep a f) (hb : Rep b g)
    (hc : Rep c k) : S.RingLaws one Room a b c where
  coeff_zero n := by rw [h.coeff_eq n h.zero, Polynomial.coeff_zero]
  coeff_one n := by rw [h.coeff_eq n hone, Polynomial.coeff_one]
  coeff_add := (h.add ha hb).imp fun r hr n => by
    rw [h.coeff_eq n hr, Polynomial.coeff_add, h.coeff_eq n ha, h.coeff_eq n hb]
  coeff_sub := (h.sub ha hb).imp fun r hr n => by
    rw [h.coeff_eq n hr, Polynomial.coeff_sub, h.coeff_eq n ha, h.coeff_eq n hb]
  coeff_neg := (h.neg ha).imp fun r hr n => by
    rw [h.coeff_eq n hr, Polynomial.coeff_neg, h.coeff_eq n ha]
  coeff_mul hab := (h.mul_of_fits ha hb hab).imp fun r hr n => by
    simp only [h.coeff_eq n hr, Polynomial.coeff_mul, h.coeff_eq _ ha, h.coeff_eq _ hb]
  add_comm := h.coincide (h.add ha hb) (h.add hb ha) (add_comm f g)
  add_assoc := h.coincide ((h.add ha hb).bind fun _ hp => h.add hp hc)
    ((h.add hb hc).bind fun _ hp => h.add ha hp) (add_assoc f g k)
  add_zero := h.eq_ok (h.add ha h.zero) ha (add_zero f)
  zero_add := h.eq_ok (h.add h.zero ha) ha (zero_add f)
  add_neg := h.eq_ok ((h.neg ha).bind fun _ hp => h.add ha hp) h.zero (add_neg_cancel f)
  sub_eq_add_neg := h.coincide (h.sub ha hb) ((h.neg hb).bind fun _ hp => h.add ha hp)
    (sub_eq_add_neg f g)
  add_sub_cancel := h.eq_ok ((h.add ha hb).bind fun _ hp => h.sub hp hb) ha
    (add_sub_cancel_right f g)
  mul_comm hab := h.coincide (h.mul_of_fits ha hb hab) (h.mul_swap ha hb hab) (mul_comm f g)
  mul_assoc hab hbc habc := h.coincide (h.mul_mul_left ha hb hc hab habc)
    (h.mul_mul_right ha hb hc hbc habc) (mul_assoc f g k)
  mul_one := h.eq_ok (h.mul ha hone (h.room ha (by simp))) ha (mul_one f)
  one_mul := h.eq_ok (h.mul hone ha (h.room ha (by simp))) ha (one_mul f)
  mul_add hab hac := h.coincide (h.mul_add_left ha hb hc hab hac)
    (h.add_products (h.mul_of_fits ha hb hab) (h.mul_of_fits ha hc hac)) (mul_add f g k)
  add_mul hac hbc := h.coincide (h.add_mul_right ha hb hc hac hbc)
    (h.add_products (h.mul_of_fits ha hc hac) (h.mul_of_fits hb hc hbc)) (add_mul f g k)

end Store.Lawful

section Stores

variable [Coeff R] [ExactCoeff R] [DecidableEq R]

/-- In slots there is room for every product, and among terms for those whose largest exponents add
up to a word. -/
theorem stored_ring_laws :
    (∀ a b c : Dense R, a.Canonical → b.Canonical → c.Canonical →
      Dense.store.RingLaws Dense.one (fun _ => True) a b c) ∧
    ∀ a b c : Sparse R, a.Canonical → b.Canonical → c.Canonical →
      Sparse.store.RingLaws Sparse.one (· < UInt64.size) a b c := by
  constructor
  · intro a b c ha hb hc
    exact Dense.store_lawful.ringLaws Dense.represents_one (Dense.represents_toPoly ha)
      (Dense.represents_toPoly hb) (Dense.represents_toPoly hc)
  · intro a b c ha hb hc
    exact Sparse.store_lawful.ringLaws Sparse.represents_one (Sparse.represents_toPoly ha)
      (Sparse.represents_toPoly hb) (Sparse.represents_toPoly hc)

end Stores

/-- Over bytes, where `16 * 16` is zero, with the largest exponents for which a product of three has
room. -/
theorem stored_ring_laws_bytes :
    Dense.store.RingLaws Dense.one (fun _ => True) (Dense.ofList [(1 : Int8), 16])
        (Dense.ofList [2, -16]) (Dense.ofList [0, 0, 64]) ∧
      Sparse.store.RingLaws Sparse.one (· < UInt64.size)
        (Sparse.monomial (16 : Int8) 9223372036854775808)
        (Sparse.monomial 16 9223372036854775802) (Sparse.monomial 3 5) ∧
      Sparse.store.SumFits (· < UInt64.size) [Sparse.monomial (16 : Int8) 9223372036854775808,
        Sparse.monomial 16 9223372036854775802, Sparse.monomial 3 5] := by
  refine ⟨?_, ?_, fun _ => by decide⟩
  · exact stored_ring_laws.1 _ _ _ (Dense.canonical_ofList _) (Dense.canonical_ofList _)
      (Dense.canonical_ofList _)
  · exact stored_ring_laws.2 _ _ _ (Sparse.canonical_monomial _ _) (Sparse.canonical_monomial _ _)
      (Sparse.canonical_monomial _ _)

end Univariate
