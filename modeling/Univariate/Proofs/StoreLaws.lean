import Univariate.Proofs.Dense.Calculus
import Univariate.Proofs.Dense.Gcd
import Univariate.Proofs.Sparse.Calculus
import Univariate.Proofs.Sparse.Gcd
import Univariate.Proofs.Store

/-! The laws of both representations in terms of formal polynomials. -/
namespace Univariate

open Polynomial

variable {R P : Type} [CommRing R]

/-- The operations agree with those on formal polynomials, which `Rep` relates to the stored ones.
Products and shifts need room for their degrees, and nothing else can fail. -/
structure Store.Lawful (S : Store R P) (Rep : P → R[X] → Prop) (Room : ℕ → Prop) : Prop where
  canonical {p : P} {f : R[X]} : Rep p f → S.Canonical p
  represented {p : P} : S.Canonical p → ∃ f, Rep p f
  unique {p q : P} {f : R[X]} : Rep p f → Rep q f → p = q
  coeff_eq {p : P} {f : R[X]} (n : ℕ) : Rep p f → S.coeff p n = f.coeff n
  height_le_iff {p : P} {f : R[X]} {n : ℕ} : Rep p f → (S.height p ≤ n ↔ f.degree < n)
  room {p : P} {f : R[X]} {n : ℕ} : Rep p f → n ≤ f.natDegree → Room n
  room_mono {m n : ℕ} : Room n → m ≤ n → Room m
  zero : Rep S.zero 0
  monomial {n : ℕ} (c : R) : Room n → ∃ p, Rep p (Polynomial.monomial n c)
  isZero_iff {p : P} {f : R[X]} : Rep p f → (S.isZero p = true ↔ f = 0)
  leadingCoeff?_eq {p : P} {f : R[X]} : Rep p f → f ≠ 0 →
    S.leadingCoeff? p = some f.leadingCoeff
  isMonic_iff {p : P} {f : R[X]} : Rep p f → f ≠ 0 → (S.isMonic p = true ↔ f.Monic)
  add {p q : P} {f g : R[X]} : Rep p f → Rep q g → Returns (S.add p q) (Rep · (f + g))
  sub {p q : P} {f g : R[X]} : Rep p f → Rep q g → Returns (S.sub p q) (Rep · (f - g))
  neg {p : P} {f : R[X]} : Rep p f → Returns (S.neg p) (Rep · (-f))
  scale {p : P} {f : R[X]} (c : R) : Rep p f → Returns (S.scale p c) (Rep · (C c * f))
  shift_returnsIff {p : P} {f : R[X]} (n : Exponent) : Rep p f →
    ReturnsIff (f ≠ 0 → Room (f.natDegree + n.toNat)) (Rep · (X ^ n.toNat * f))
      (· = .overflow .add) (S.shift p n)
  mul_ends {p q : P} {f g : R[X]} : Rep p f → Rep q g →
    Ends (NoRoom Room (f.natDegree + g.natDegree)) (S.mul p q) (Rep · (f * g))
  room_of_mul {p q m : P} {f g : R[X]} : Rep p f → Rep q g → S.mul p q = .ok m →
    Room (f.natDegree + g.natDegree)
  pow_ends {p : P} {f : R[X]} (n : ℕ) : Rep p f →
    Ends (NoRoomForPowers Room f n) (S.pow p n) (Rep · (f ^ n))
  compose_ends {p q : P} {f g : R[X]} : Rep p f → Rep q g →
    Ends (NoRoomForPowers Room g f.natDegree) (S.compose p q) (Rep · (f.comp g))
  eval {p : P} {f : R[X]} (x : R) : Rep p f → Returns (S.eval p x) (· = f.eval x)

section Formed

variable (S : Store R P) (Room : ℕ → Prop)

/-- The product is formed, and satisfies `Q`, unless there is no room for the sum of the largest
exponents. -/
def Store.Multiplied (p q : P) (Q : P → Prop) : Prop :=
  Ends (NoRoom Room (S.top p + S.top q)) (S.mul p q) Q

/-- The product with `x ^ n` is formed, and satisfies `Q`, unless there is no room for the largest
exponent in its new place. -/
def Store.Shifted (p : P) (n : Exponent) (Q : P → Prop) : Prop :=
  Ends (NoRoom Room (S.top p + n.toNat)) (S.shift p n) Q

/-- The power is formed, and satisfies `Q`, unless there is no room for a product of two powers on
the way. -/
def Store.Raised (p : P) (n : ℕ) (Q : P → Prop) : Prop :=
  Ends (NoRoomForPowers Room (S.formal p) n) (S.pow p n) Q

/-- The polynomial `p(q(x))` is formed, and satisfies `Q`, unless there is no room for a product of
two powers of `q` on the way. -/
def Store.Composed (p q : P) (Q : P → Prop) : Prop :=
  Ends (NoRoomForPowers Room (S.formal q) (S.top p)) (S.compose p q) Q

end Formed

namespace Store.Lawful

variable {S : Store R P} {Rep : P → R[X] → Prop} {Room : ℕ → Prop} {p q : P} {f g : R[X]}
  {Q : P → Prop}

theorem mul (h : S.Lawful Rep Room) (hp : Rep p f) (hq : Rep q g)
    (hroom : Room (f.natDegree + g.natDegree)) : Returns (S.mul p q) (Rep · (f * g)) :=
  (h.mul_ends hp hq).returns fun _ he => he.2 hroom

/-- The sum of two degrees needs room of its own only where neither polynomial is zero. -/
theorem room_sum (h : S.Lawful Rep Room) (hp : Rep p f) (hq : Rep q g)
    (hroom : f ≠ 0 → g ≠ 0 → Room (f.natDegree + g.natDegree)) :
    Room (f.natDegree + g.natDegree) := by
  rcases eq_or_ne f 0 with rfl | hf
  · exact h.room hq (by simp)
  · rcases eq_or_ne g 0 with rfl | hg
    · exact h.room hp (by simp)
    · exact hroom hf hg

/-- A product is formed exactly where there is room for its factors together. -/
theorem mul_returnsIff (h : S.Lawful Rep Room) (hp : Rep p f) (hq : Rep q g) :
    ReturnsIff (f ≠ 0 → g ≠ 0 → Room (f.natDegree + g.natDegree)) (Rep · (f * g))
      (· = .overflow .add) (S.mul p q) := by
  constructor
  · intro hroom
    exact h.mul hp hq (h.room_sum hp hq hroom)
  · intro hno
    cases hm : S.mul p q with
    | ok m => exact absurd (fun _ _ => h.room_of_mul hp hq hm) hno
    | error e => exact ⟨e, rfl, ((h.mul_ends hp hq).of_eq_error hm).1⟩

theorem pow_of_room (h : S.Lawful Rep Room) (hp : Rep p f) {n : ℕ}
    (hroom : Room (n * f.natDegree)) : Returns (S.pow p n) (Rep · (f ^ n)) :=
  (h.pow_ends n hp).returns fun _ => not_noRoomForPowers h.room_mono le_rfl le_rfl hroom

theorem compose_of_room (h : S.Lawful Rep Room) (hp : Rep p f) (hq : Rep q g) {m n : ℕ}
    (hf : f.natDegree ≤ m) (hg : g.natDegree ≤ n) (hroom : Room (m * n)) :
    Returns (S.compose p q) (Rep · (f.comp g)) :=
  (h.compose_ends hp hq).returns fun _ => not_noRoomForPowers h.room_mono hg hf hroom

/-- A stored polynomial says but one thing. -/
theorem eq_of_rep (h : S.Lawful Rep Room) (hf : Rep p f) (hg : Rep p g) : f = g := by
  ext n
  rw [← h.coeff_eq n hf, h.coeff_eq n hg]

theorem formal_eq (h : S.Lawful Rep Room) (hp : Rep p f) : S.formal p = f := by
  ext n
  rw [Store.formal, finsetSum_coeff]
  simp only [coeff_monomial, Finset.sum_ite_eq', Finset.mem_range]
  split
  · exact h.coeff_eq n hp
  · rename_i hn
    have hlt := (h.height_le_iff hp).mp le_rfl
    exact (degree_lt_iff_coeff_zero f _).mp hlt n (not_lt.mp hn) |>.symm

theorem eq_zero_iff (h : S.Lawful Rep Room) (hp : Rep p f) : p = S.zero ↔ f = 0 := by
  constructor
  · rintro rfl
    exact h.eq_of_rep hp h.zero
  · rintro rfl
    exact h.unique hp h.zero

/-- A height that is not zero is one more than the degree. -/
theorem height_eq (h : S.Lawful Rep Room) (hp : Rep p f) (hf : f ≠ 0) :
    S.height p = f.natDegree + 1 := by
  have hle := h.height_le_iff hp (n := f.natDegree)
  have hlt := h.height_le_iff hp (n := f.natDegree + 1)
  rw [degree_eq_natDegree hf] at hle hlt
  have h₁ : ¬ S.height p ≤ f.natDegree := fun hn => lt_irrefl _ (hle.mp hn)
  have h₂ : S.height p ≤ f.natDegree + 1 :=
    hlt.mpr (by exact_mod_cast Nat.lt_succ_self f.natDegree)
  omega

theorem top_eq (h : S.Lawful Rep Room) (hp : Rep p f) : S.top p = f.natDegree := by
  rcases eq_or_ne f 0 with rfl | hf
  · have hheight : S.height p ≤ 0 := (h.height_le_iff hp).mpr (by simp)
    rw [Store.top, natDegree_zero]
    omega
  · rw [Store.top, h.height_eq hp hf, Nat.add_sub_cancel]

theorem multiplied (h : S.Lawful Rep Room) (hp : Rep p f) (hq : Rep q g)
    (hQ : ∀ m, Rep m (f * g) → Q m) : S.Multiplied Room p q Q := by
  rw [Store.Multiplied, h.top_eq hp, h.top_eq hq]
  exact (h.mul_ends hp hq).imp hQ

theorem shifted (h : S.Lawful Rep Room) (hp : Rep p f) {n : Exponent}
    (hQ : ∀ m, Rep m (X ^ n.toNat * f) → Q m) : S.Shifted Room p n Q := by
  rw [Store.Shifted, h.top_eq hp]
  refine ((h.shift_returnsIff n hp).ends.weaken fun e he => ?_).imp fun m hm => hQ m hm.2
  exact ⟨he.2, fun hroom => he.1 fun _ => hroom⟩

theorem raised (h : S.Lawful Rep Room) (hp : Rep p f) {n : ℕ} (hQ : ∀ m, Rep m (f ^ n) → Q m) :
    S.Raised Room p n Q := by
  rw [Store.Raised, h.formal_eq hp]
  exact (h.pow_ends n hp).imp hQ

theorem composed (h : S.Lawful Rep Room) (hp : Rep p f) (hq : Rep q g)
    (hQ : ∀ m, Rep m (f.comp g) → Q m) : S.Composed Room p q Q := by
  rw [Store.Composed, h.formal_eq hq, h.top_eq hp]
  exact (h.compose_ends hp hq).imp hQ

theorem room_max (h : S.Lawful Rep Room) (hp : Rep p f) (hq : Rep q g) {n : ℕ}
    (hn : n ≤ max f.natDegree g.natDegree) : Room n := by
  rcases le_max_iff.mp hn with hn | hn
  · exact h.room hp hn
  · exact h.room hq hn

/-- Nothing that there is room for is beyond storing. -/
theorem stored (h : S.Lawful Rep Room) (hroom : Room f.natDegree) : ∃ p, Rep p f := by
  refine induction_with_natDegree_le (fun f => ∃ p, Rep p f) f.natDegree ⟨_, h.zero⟩ ?_ ?_ f le_rfl
  · intro n c _ hn
    rw [C_mul_X_pow_eq_monomial]
    exact h.monomial c (h.room_mono hroom hn)
  · rintro u v - - ⟨p, hp⟩ ⟨q, hq⟩
    obtain ⟨r, -, hr⟩ := h.add hp hq
    exact ⟨r, hr⟩

theorem height_lt_iff (h : S.Lawful Rep Room) (hq : Rep q g) (hg : g ≠ 0) (hp : Rep p f) :
    S.height p < S.height q ↔ f.degree < g.natDegree := by
  rw [← h.height_le_iff hp, h.height_eq hq hg, Nat.lt_succ_iff]

end Store.Lawful

/-- The rounds of the division or of the common divisor that is recorded. -/
def Event.rounds : Event → ℕ
  | denseDivision steps _ => steps
  | sparseDivision steps _ => steps
  | denseGcd rounds _ => rounds
  | sparseGcd rounds _ _ => rounds

variable [Coeff R] [DecidableEq R]

/-- The same of the operations that divide. -/
structure DivisionStore.Lawful [CoeffDiv R] (S : DivisionStore R P) (Rep : P → R[X] → Prop)
    (Room : ℕ → Prop) : Prop extends Store.Lawful S.toStore Rep Room where
  divRem {p q : P} {f g : R[X]} : Rep p f → Rep q g → g ≠ 0 → Returns (S.divRem p q)
    fun t => Rep t.value.1 (longQuotient f g) ∧ Rep t.value.2 (longRemainder f g)
  rounds {p q : P} {f g : R[X]} {t : Traced (P × P)} : Rep p f → Rep q g → g ≠ 0 →
    S.divRem p q = .ok t → (t.log.map Event.rounds).sum = longSteps f g
  divRem_zero (p : P) : S.divRem p S.zero = .error .zeroPolynomial
  div_eq (p q : P) : S.div p q = S.divRem p q >>= fun t => pure (t.map Prod.fst)
  rem_eq (p q : P) : S.rem p q = S.divRem p q >>= fun t => pure (t.map Prod.snd)
  monic {p : P} {f : R[X]} : Rep p f → f ≠ 0 → Returns (S.monic p) (Rep · (monicForm f))
  monic_zero {p : P} : Rep p 0 → S.monic p = .error .zeroPolynomial
  gcd_eq {p q : P} {f g : R[X]} : Rep p f → Rep q g → ∃ last log, ∃ event : P → Event,
    Rep last (lastRemainder f g) ∧ (∀ d, (event d).rounds = (divisions f g).length) ∧
      S.gcd p q = S.monic last >>= fun d => pure ⟨d, log ++ [event d]⟩

namespace DivisionStore.Lawful

variable [CoeffDiv R] {S : DivisionStore R P} {Rep : P → R[X] → Prop} {Room : ℕ → Prop} {p q : P}
  {f g : R[X]}

/-- The product of quotient and divisor needs no more room than dividend and divisor have. -/
theorem mul_add_long (h : S.Lawful Rep Room) {c r : P} (hp : Rep p f) (hq : Rep q g) (hg : g ≠ 0)
    (hc : Rep c (longQuotient f g)) (hr : Rep r (longRemainder f g)) :
    Returns (S.mul c q >>= fun m => S.add m r)
      (Rep · (longQuotient f g * g + longRemainder f g)) := by
  have hroom := h.room_max hp hq (natDegree_longQuotient_add_le hg f)
  exact (h.mul hc hq hroom).bind fun m hm => h.add hm hr

theorem rem (h : S.Lawful Rep Room) (hp : Rep p f) (hq : Rep q g) (hg : g ≠ 0) :
    Returns (S.rem p q) (Rep ·.value (longRemainder f g)) := by
  rw [h.rem_eq]
  exact (h.divRem hp hq hg).bind fun t ht => .pure ht.2

theorem gcd (h : S.Lawful Rep Room) (hp : Rep p f) (hq : Rep q g) (hne : ¬ (f = 0 ∧ g = 0)) :
    Returns (S.gcd p q) (Rep ·.value (longGcd f g)) := by
  obtain ⟨last, log, event, hlast, -, hgcd⟩ := h.gcd_eq hp hq
  rw [hgcd]
  refine (h.monic hlast (mt (lastRemainder_eq_zero_iff f g).mp hne)).bind fun d hd => ?_
  exact .pure hd

theorem gcd_zero (h : S.Lawful Rep Room) (hp : Rep p 0) (hq : Rep q 0) :
    S.gcd p q = .error .zeroPolynomial := by
  obtain ⟨last, log, event, hlast, -, hgcd⟩ := h.gcd_eq hp hq
  rw [lastRemainder_zero] at hlast
  rw [hgcd, h.monic_zero hlast]
  rfl

/-- The zero polynomial alone is refused as a divisor. -/
theorem divRem_failsIff (h : S.Lawful Rep Room) (hp : Rep p f) (hq : Rep q g) :
    FailsIff .zeroPolynomial (q = S.zero) (S.divRem p q) := by
  constructor
  · rintro rfl
    exact h.divRem_zero p
  · intro hne
    rw [h.eq_zero_iff hq] at hne
    obtain ⟨t, ht, -⟩ := h.divRem hp hq hne
    exact ⟨t, ht⟩

theorem monic_failsIff (h : S.Lawful Rep Room) (hp : Rep p f) :
    FailsIff .zeroPolynomial (p = S.zero) (S.monic p) := by
  constructor
  · rintro rfl
    exact h.monic_zero h.zero
  · intro hne
    rw [h.eq_zero_iff hp] at hne
    obtain ⟨r, hr, -⟩ := h.monic hp hne
    exact ⟨r, hr⟩

theorem gcd_failsIff (h : S.Lawful Rep Room) (hp : Rep p f) (hq : Rep q g) :
    FailsIff .zeroPolynomial (p = S.zero ∧ q = S.zero) (S.gcd p q) := by
  constructor
  · rintro ⟨rfl, rfl⟩
    exact h.gcd_zero h.zero h.zero
  · intro hne
    rw [h.eq_zero_iff hp, h.eq_zero_iff hq] at hne
    obtain ⟨t, ht, -⟩ := h.gcd hp hq hne
    exact ⟨t, ht⟩

end DivisionStore.Lawful

variable [ExactCoeff R]

/-- Every degree has room in a list of slots. -/
theorem Dense.store_lawful : (store (R := R)).Lawful Represents fun _ => True where
  canonical h := h.canonical
  represented h := ⟨_, represents_toPoly h⟩
  unique := Represents.unique
  coeff_eq n h := h.coeff_eq n
  height_le_iff h := h.length_le_iff
  room _ _ := trivial
  room_mono _ _ := trivial
  zero := represents_zero
  monomial {n} c _ := by
    refine ⟨ofList (List.replicate n 0 ++ [c]), represents_ofList ?_⟩
    rw [polyOf_append, polyOf_replicate_zero, List.length_replicate, polyOf_cons, polyOf_nil,
      ← C_mul_X_pow_eq_monomial]
    ring
  isZero_iff := Represents.isZero_iff
  leadingCoeff?_eq := Represents.leadingCoeff?_eq
  isMonic_iff := Represents.isMonic_iff
  add := add_represents
  sub := sub_represents
  neg := neg_represents
  scale c hp := scale_represents hp c
  shift_returnsIff n hp := .of_returns (.ok (shift_represents hp n)) fun _ => trivial
  mul_ends hp hq := (mul_represents hp hq).ends
  room_of_mul _ _ _ := trivial
  pow_ends n hp := (pow_represents hp n).ends
  compose_ends hp hq := (compose_represents hp hq).ends
  eval x hp := eval_returns hp x

/-- Among terms a degree must be a word. -/
theorem Sparse.store_lawful : (store (R := R)).Lawful Represents (· < UInt64.size) where
  canonical h := h.canonical
  represented h := ⟨_, represents_toPoly h⟩
  unique := Represents.unique
  coeff_eq n h := h.coeff_eq n
  height_le_iff h := h.height_le_iff
  room h hn := hn.trans_lt h.natDegree_lt
  room_mono hn hmn := hmn.trans_lt hn
  zero := represents_zero
  monomial {n} c hn := by
    have hrep := represents_monomial c (.ofNat n)
    rw [termOf, UInt64.toNat_ofNat_of_lt' hn] at hrep
    exact ⟨_, hrep⟩
  isZero_iff := Represents.isZero_iff
  leadingCoeff?_eq := Represents.leadingCoeff?_eq
  isMonic_iff := Represents.isMonic_iff
  add := add_represents
  sub := sub_represents
  neg := neg_represents
  scale c hp := scale_represents hp c
  shift_returnsIff n hp := shift_returnsIff hp n
  mul_ends := mul_ends
  room_of_mul := natDegree_add_lt_of_mul_eq_ok
  pow_ends n hp := pow_ends hp n
  compose_ends hp hq := compose_ends hp fun t ht =>
    (pow_ends hq t.1.toNat).weaken fun _ he => he.mono (hp.le_natDegree ht)
  eval x hp := eval_returns hp x

variable [CoeffDiv R] [ReciprocalDiv R]

theorem Dense.lawful : (divisionStore (R := R)).Lawful Represents fun _ => True where
  toLawful := store_lawful
  divRem hp hq hg := (divRem_returns hp hq hg).imp fun _ ht => ⟨ht.1, ht.2.1⟩
  rounds {p q f g t} hp hq hg ht := by
    obtain ⟨-, -, hlog⟩ := (divRem_returns hp hq hg).of_eq_ok ht
    rw [hlog, divisionLog]
    split
    · rename_i hdeg
      obtain ⟨htops, -⟩ := long_of_degree_lt hg hdeg
      rw [longSteps, htops, support_zero, Finset.card_empty]
      rfl
    · rfl
  divRem_zero p := Dense.divRem_zero p represents_zero
  div_eq _ _ := rfl
  rem_eq _ _ := rfl
  monic := monic_represents
  monic_zero := Dense.monic_zero
  gcd_eq hp hq := by
    obtain ⟨last, hlast, hgcd⟩ := Dense.gcd_eq hp hq
    exact ⟨last, _, _, hlast, fun _ => rfl, hgcd⟩

theorem Sparse.lawful : (divisionStore (R := R)).Lawful Represents (· < UInt64.size) where
  toLawful := store_lawful
  divRem hp hq hg := (divRem_returns hp hq hg).imp fun _ ht => ⟨ht.1, ht.2.1⟩
  rounds hp hq hg ht := by
    obtain ⟨-, -, hlog⟩ := (divRem_returns hp hq hg).of_eq_ok ht
    rw [hlog]
    rfl
  divRem_zero p := Sparse.divRem_zero p represents_zero
  div_eq _ _ := rfl
  rem_eq _ _ := rfl
  monic := monic_represents
  monic_zero := Sparse.monic_zero
  gcd_eq hp hq := by
    obtain ⟨last, hlast, hgcd⟩ := Sparse.gcd_eq hp hq
    exact ⟨last, _, _, hlast, fun _ => rfl, hgcd⟩

end Univariate
