import Univariate.Proofs.RingLaws

/-! Doubling against the plain loop that combines one copy after another, for powers of
coefficients and of stored polynomials and for integer multiples. -/
namespace Univariate

open Polynomial

/-- Combines `n` copies of `base` onto `acc`, one at a time. -/
def oneByOne {A : Type} (op : A → A → Except Fault A) (acc base : A) : ℕ → Except Fault A
  | 0 => .ok acc
  | n + 1 => op acc base >>= fun acc => oneByOne op acc base n

/-- What holds of the copies so far holds of all `k`, if each copy but the last may be followed by
one more. -/
theorem Ends.oneByOne {A : Type} {E : Fault → Prop} {I : ℕ → A → Prop}
    {op : A → A → Except Fault A} {base : A} {k : ℕ}
    (hop : ∀ i < k, ∀ a, I i a → Ends E (op a base) (I (i + 1))) {i n : ℕ} {acc : A}
    (hk : i + n = k) (hacc : I i acc) : Ends E (oneByOne op acc base n) (I k) := by
  induction n generalizing i acc with
  | zero =>
    obtain rfl := hk
    exact .ok hacc
  | succ n ih =>
    have hlt : i < k := by omega
    exact (hop i hlt acc hacc).bind fun a ha => ih (by omega) ha

/-- Where no copy fails, the loop comes to the last of the values on the way. -/
theorem oneByOne_eq_ok {A : Type} {op : A → A → Except Fault A} {acc base : A} (value : ℕ → A)
    (hacc : acc = value 0) (hop : ∀ i, op (value i) base = .ok (value (i + 1))) (n : ℕ) :
    oneByOne op acc base n = .ok (value n) := by
  have hcopies : Ends (fun _ => False) (oneByOne op acc base n) (· = value n) := by
    refine Ends.oneByOne (I := fun i b => b = value i) ?_ (zero_add n) hacc
    rintro i - _ rfl
    rw [hop]
    exact .ok rfl
  obtain ⟨_, hrun, rfl⟩ := hcopies.returns fun _ => id
  exact hrun

section Coefficients

variable {R : Type} [Coeff R]

/-- Powers and multiples of `a` come to what its copies do, taken one at a time, and obey the laws
of exponents and of multipliers. A negative multiple is the negated sum. -/
structure Coeff.DoublingLaws (a b : R) : Prop where
  pow (n : ℕ) : Coincide (Coeff.pow a n) (oneByOne mul one a n)
  pow_zero : Coeff.pow a 0 = .ok one
  pow_add (m n : ℕ) : Coincide (Coeff.pow a m >>= fun x => Coeff.pow a n >>= fun y => mul x y)
    (Coeff.pow a (m + n))
  pow_mul (m n : ℕ) : Coincide (Coeff.pow a m >>= fun x => Coeff.pow x n) (Coeff.pow a (m * n))
  multiple (n : ℤ) : Coincide (Coeff.multiple a n)
    (oneByOne add zero a n.natAbs >>= fun sum => if n < 0 then neg sum else pure sum)
  add_multiple (n : ℤ) : Coincide (add a b >>= fun s => Coeff.multiple s n)
    (Coeff.multiple a n >>= fun x => Coeff.multiple b n >>= fun y => add x y)
  multiple_add (m n : ℤ) : Coincide (Coeff.multiple a (m + n))
    (Coeff.multiple a m >>= fun x => Coeff.multiple a n >>= fun y => add x y)

variable [CommRing R] [ExactCoeff R]

namespace Coeff

theorem oneByOne_mul (a : R) (n : ℕ) : oneByOne mul one a n = .ok (a ^ n) := by
  refine oneByOne_eq_ok (a ^ ·) ?_ ?_ n
  · rw [ExactCoeff.one_eq, pow_zero]
  · intro i
    rw [ExactCoeff.mul_eq, pow_succ]

theorem oneByOne_add (a : R) (n : ℕ) : oneByOne add zero a n = .ok (n • a) := by
  refine oneByOne_eq_ok (· • a) ?_ ?_ n
  · rw [ExactCoeff.zero_eq, zero_nsmul]
  · intro i
    rw [ExactCoeff.add_eq, succ_nsmul]

/-- The sum is formed of `|n|` copies, and negated afterwards where `n` is negative. -/
theorem multiple_coincides (a : R) (n : ℤ) : Coincide (multiple a n)
    (oneByOne add zero a n.natAbs >>= fun sum => if n < 0 then neg sum else pure sum) := by
  refine ⟨n • a, multiple_eq a n, ?_⟩
  rw [oneByOne_add, Fault.ok_bind]
  split
  · rename_i hn
    have habs : -((n.natAbs : ℕ) : ℤ) = n := by omega
    rw [ExactCoeff.neg_eq, ← natCast_zsmul, ← neg_zsmul, habs]
  · rename_i hn
    have habs : ((n.natAbs : ℕ) : ℤ) = n := by omega
    rw [← natCast_zsmul, habs]
    rfl

theorem doublingLaws (a b : R) : DoublingLaws a b where
  pow n := ⟨a ^ n, pow_eq a n, oneByOne_mul a n⟩
  pow_zero := repeated_zero mul one a
  pow_add m n := by
    refine ⟨a ^ (m + n), ?_, pow_eq a (m + n)⟩
    rw [pow_eq, Fault.ok_bind, pow_eq, Fault.ok_bind, ExactCoeff.mul_eq, pow_add]
  pow_mul m n := by
    refine ⟨a ^ (m * n), ?_, pow_eq a (m * n)⟩
    rw [pow_eq, Fault.ok_bind, pow_eq, pow_mul]
  multiple := multiple_coincides a
  add_multiple n := by
    refine ⟨n • (a + b), ?_, ?_⟩
    · rw [ExactCoeff.add_eq, Fault.ok_bind, multiple_eq]
    · rw [multiple_eq, Fault.ok_bind, multiple_eq, Fault.ok_bind, ExactCoeff.add_eq, zsmul_add]
  multiple_add m n := by
    refine ⟨(m + n) • a, multiple_eq a (m + n), ?_⟩
    rw [multiple_eq, Fault.ok_bind, multiple_eq, Fault.ok_bind, ExactCoeff.add_eq, add_zsmul]

end Coeff

end Coefficients

section Polynomials

variable {R P : Type} [CommRing R]

/-- Powers of `a` come to what its copies do, taken one at a time, and obey the laws of exponents.
Every step on the way either has a result or finds no room for the sum of two exponents; it finds
room where the largest power has some. -/
structure Store.PowerLaws (S : Store R P) (one : P) (Room : ℕ → Prop) (a : P) : Prop where
  pow (n : ℕ) : S.Raised Room a n fun p =>
    Ends (NoRoomForPowers Room (S.formal a) n) (oneByOne S.mul one a n) (· = p)
  pow_of_room (n : ℕ) : Room (n * S.top a) → Coincide (S.pow a n) (oneByOne S.mul one a n)
  pow_zero : S.pow a 0 = .ok one
  pow_add (m n : ℕ) : S.Raised Room a (m + n) fun l =>
    S.Raised Room a m fun p => S.Raised Room a n fun q => S.Multiplied Room p q (· = l)
  pow_add_of_room (m n : ℕ) : Room ((m + n) * S.top a) →
    Coincide (S.pow a m >>= fun p => S.pow a n >>= fun q => S.mul p q) (S.pow a (m + n))
  pow_mul (m n : ℕ) : S.Raised Room a (m * n) fun l =>
    S.Raised Room a m fun p => S.Raised Room p n (· = l)
  pow_mul_of_room (m n : ℕ) : Room (m * S.top a) → Room (m * n * S.top a) →
    Coincide (S.pow a m >>= fun p => S.pow p n) (S.pow a (m * n))

namespace Store.Lawful

variable {S : Store R P} {Rep : P → R[X] → Prop} {Room : ℕ → Prop} {a one : P} {f : R[X]}

/-- Each copy is multiplied onto a lower power, so it asks for room that the power itself may ask
for. -/
theorem copies_ends (h : S.Lawful Rep Room) (hone : Rep one 1) (ha : Rep a f) (n : ℕ) :
    Ends (NoRoomForPowers Room f n) (oneByOne S.mul one a n) (Rep · (f ^ n)) := by
  refine Ends.oneByOne (I := fun i p => Rep p (f ^ i)) ?_ (zero_add n) (by rwa [pow_zero])
  intro i hi p hp
  have hmul := h.mul_ends hp ha
  rw [← pow_succ] at hmul
  refine hmul.weaken fun e he => ⟨i, 1, hi, ?_⟩
  rwa [pow_one]

theorem pow_mul_pow (h : S.Lawful Rep Room) (ha : Rep a f) {m n : ℕ}
    (hroom : Room ((m + n) * f.natDegree)) :
    Returns (S.pow a m >>= fun p => S.pow a n >>= fun q => S.mul p q) (Rep · (f ^ (m + n))) := by
  rw [add_mul] at hroom
  have hm := h.room_mono hroom (Nat.le_add_right _ _)
  have hn := h.room_mono hroom (Nat.le_add_left _ _)
  refine (h.pow_of_room ha hm).bind fun p hp => (h.pow_of_room ha hn).bind fun q hq => ?_
  rw [pow_add]
  exact h.mul hp hq (h.room_mono hroom (Nat.add_le_add natDegree_pow_le natDegree_pow_le))

theorem pow_pow (h : S.Lawful Rep Room) (ha : Rep a f) {m n : ℕ} (hm : Room (m * f.natDegree))
    (hroom : Room (m * n * f.natDegree)) :
    Returns (S.pow a m >>= fun p => S.pow p n) (Rep · (f ^ (m * n))) := by
  refine (h.pow_of_room ha hm).bind fun p hp => ?_
  rw [pow_mul]
  refine h.pow_of_room hp (h.room_mono hroom ?_)
  calc n * (f ^ m).natDegree ≤ n * (m * f.natDegree) := Nat.mul_le_mul_left n natDegree_pow_le
    _ = m * n * f.natDegree := by ring

theorem powerLaws (h : S.Lawful Rep Room) (hone : Rep one 1) (ha : Rep a f) :
    S.PowerLaws one Room a where
  pow n := by
    refine h.raised ha fun p hp => ?_
    rw [h.formal_eq ha]
    exact (h.copies_ends hone ha n).imp fun q hq => h.unique hq hp
  pow_of_room n hroom := by
    rw [h.top_eq ha] at hroom
    have hcopies := (h.copies_ends hone ha n).returns fun _ =>
      not_noRoomForPowers h.room_mono le_rfl le_rfl hroom
    exact h.coincide (h.pow_of_room ha hroom) hcopies rfl
  pow_zero := by
    have hroom : Room (0 * f.natDegree) := h.room ha (by simp)
    exact h.eq_ok (h.pow_of_room ha hroom) hone (pow_zero f)
  pow_add m n := by
    refine h.raised ha fun l hl => h.raised ha fun p hp => h.raised ha fun q hq => ?_
    refine h.multiplied hp hq fun r hr => ?_
    rw [← pow_add] at hr
    exact h.unique hr hl
  pow_add_of_room m n hroom := by
    rw [h.top_eq ha] at hroom
    exact h.coincide (h.pow_mul_pow ha hroom) (h.pow_of_room ha hroom) rfl
  pow_mul m n := by
    refine h.raised ha fun l hl => h.raised ha fun p hp => h.raised hp fun q hq => ?_
    rw [← pow_mul] at hq
    exact h.unique hq hl
  pow_mul_of_room m n hm hroom := by
    rw [h.top_eq ha] at hm hroom
    exact h.coincide (h.pow_pow ha hm hroom) (h.pow_of_room ha hroom) rfl

end Store.Lawful

end Polynomials

section Exact

variable {R : Type} [CommRing R] [Coeff R] [ExactCoeff R] [DecidableEq R]

/-- In slots every power has room, and among terms those do whose largest exponent is a word. -/
theorem doubling_combines_copies :
    (∀ a b : R, Coeff.DoublingLaws a b) ∧
      (∀ a : Dense R, a.Canonical → Dense.store.PowerLaws Dense.one (fun _ => True) a) ∧
        ∀ a : Sparse R, a.Canonical →
          Sparse.store.PowerLaws Sparse.one (· < UInt64.size) a := by
  refine ⟨Coeff.doublingLaws, ?_, ?_⟩
  · intro a ha
    exact Dense.store_lawful.powerLaws Dense.represents_one (Dense.represents_toPoly ha)
  · intro a ha
    exact Sparse.store_lawful.powerLaws Sparse.represents_one (Sparse.represents_toPoly ha)

/-- Over bytes: at the least signed word, next to a nilpotent, and where three times the exponent
is the largest word. -/
theorem doubling_combines_copies_bytes :
    let a := Sparse.monomial (3 : Int8) 6148914691236517205
    Coincide (Coeff.multiple (7 : Int8) (-9223372036854775808))
        (oneByOne Coeff.add Coeff.zero 7 9223372036854775808 >>= Coeff.neg) ∧
      Coincide (Dense.store.pow (Dense.ofList [(1 : Int8), 16]) 18446744073709551615)
        (oneByOne Dense.store.mul Dense.one (Dense.ofList [1, 16]) 18446744073709551615) ∧
          Coincide (a.pow 3) (oneByOne Sparse.mul Sparse.one a 3) := by
  intro a
  refine ⟨?_, ?_, ?_⟩
  · exact (doubling_combines_copies.1 (7 : Int8) 0).multiple (-9223372036854775808)
  · exact (doubling_combines_copies.2.1 _ (Dense.canonical_ofList _)).pow_of_room _ trivial
  · exact (doubling_combines_copies.2.2 a (Sparse.canonical_monomial _ _)).pow_of_room 3
      (by decide)

end Exact

end Univariate
