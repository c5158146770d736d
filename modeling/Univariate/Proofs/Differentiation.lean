import Univariate.Proofs.RingLaws

/-! Derivatives as they are stored: their coefficients, and the rules of sums, products and
compositions. -/
namespace Univariate

open Polynomial

variable {R P : Type} [CommRing R]

section Coefficients

theorem Sparse.signedExponent_smul_eq_iff (n : ℕ) (c : R) : signedExponent n • c = n • c ↔
    n < 9223372036854775808 ∨ UInt64.size • c = 0 := by
  by_cases hn : n < 9223372036854775808
  · rw [signedExponent_of_lt hn, natCast_zsmul]
    exact ⟨fun _ => .inl hn, fun _ => rfl⟩
  · have hsigned : signedExponent n = (n : ℤ) - (UInt64.size : ℕ) := if_neg hn
    rw [hsigned, sub_smul, natCast_zsmul, natCast_zsmul, sub_eq_self, or_iff_right hn]

variable [Coeff R] [ExactCoeff R] [DecidableEq R]

/-- The derivative takes the coefficient of `x ^ (n + 1)` as often as the signed word of the
exponent says. That is `n + 1` times below `2 ^ 63`, and from there on only where `2 ^ 64` copies of
the coefficient come to nothing. -/
theorem derivative_of_terms_formal_up_to_sign (p : Sparse R) : Returns p.derivative fun r => ∀ n,
    r.coeff n = Sparse.signedExponent (n + 1) • p.coeff (n + 1) ∧
      (r.coeff n = (n + 1) • p.coeff (n + 1) ↔
        n + 1 < 9223372036854775808 ∨ UInt64.size • p.coeff (n + 1) = 0) := by
  refine (Sparse.derivative_coeff p).imp fun r hr n => ⟨hr n, ?_⟩
  rw [hr n]
  exact Sparse.signedExponent_smul_eq_iff (n + 1) (p.coeff (n + 1))

/-- Over the integers, the least of the later exponents brings out the opposite. -/
theorem derivative_of_terms_negates_at_half :
    let p := Sparse.monomial (1 : ℤ) 9223372036854775808
    let r := Sparse.monomial (-9223372036854775808 : ℤ) 9223372036854775807
    p.derivative = .ok r ∧ r.coeff 9223372036854775807 = -9223372036854775808 ∧
      (9223372036854775807 + 1) • p.coeff (9223372036854775807 + 1) = 9223372036854775808 := by
  decide +kernel

/-- Of a byte `2 ^ 64` copies come to nothing, so no exponent is too large. -/
theorem derivative_of_terms_formal_up_to_sign_bytes :
    let p := Sparse.monomial (5 : Int8) 9223372036854775809
    Returns p.derivative fun r => r.coeff 9223372036854775808 =
      (9223372036854775808 + 1) • p.coeff (9223372036854775808 + 1) := by
  intro p
  refine (derivative_of_terms_formal_up_to_sign p).imp fun r hr => ?_
  refine (hr 9223372036854775808).2.mpr (.inr ?_)
  have hsize : UInt64.size = 256 * 72057594037927936 := rfl
  have hbyte : 256 • p.coeff (9223372036854775808 + 1) = 0 := by decide +kernel
  rw [hsize, mul_nsmul, hbyte, nsmul_zero]

end Coefficients

/-- Both sides of the rule of compositions are formed, and are the same. -/
def Store.ChainRule (S : Store R P) (a b : P) : Prop :=
  Coincide (S.compose a b >>= S.derivative) (S.derivative a >>= fun u => S.compose u b >>= fun q =>
    S.derivative b >>= fun v => S.mul q v)

/-- The derivative respects the operations on `a` and `b`, as long as `Low` holds of the exponents
of the results. Compositions may fail for want of room, and for nothing else. They do not, if `Low`
holds of every power of `b` that they could form, or if there are no divisors of zero. -/
structure Store.DerivativeLaws (S : Store R P) (Room Low : ℕ → Prop) (a b : P) : Prop where
  add : Coincide (S.add a b >>= S.derivative)
    (S.derivative a >>= fun u => S.derivative b >>= fun v => S.add u v)
  mul : Returns (S.mul a b) fun p => Low (S.top p) → Coincide (S.derivative p)
    ((S.derivative a >>= fun u => S.mul u b) >>= fun m =>
      (S.derivative b >>= fun v => S.mul a v) >>= fun n => S.add m n)
  compose : Ends (NoRoomForPowers Room (S.formal b) (S.top a)) (S.compose a b) fun p =>
    Low (S.top p) → Returns (S.derivative a) fun u =>
      Ends (NoRoomForPowers Room (S.formal b) (S.top u)) (S.compose u b) fun q =>
        Low (S.top q) → Coincide (S.derivative p) (S.derivative b >>= fun v => S.mul q v)
  compose_of_powers : (∀ i ≤ S.top a, Low (S.formal b ^ i).natDegree) → S.ChainRule a b
  compose_of_noZeroDivisors : NoZeroDivisors R →
    Low ((S.formal a).comp (S.formal b)).natDegree → S.ChainRule a b

/-- The derivative agrees with that of formal polynomials where `Low` holds of the degree. Of two
such degrees there is room for the sum. -/
structure Store.LawfulDerivative (S : Store R P) (Rep : P → R[X] → Prop)
    (Room Low : ℕ → Prop) : Prop extends Store.Lawful S Rep Room where
  derivative {p : P} {f : R[X]} : Rep p f → Low f.natDegree →
    Returns (S.derivative p) (Rep · (Polynomial.derivative f))
  low_mono {m n : ℕ} : Low n → m ≤ n → Low m
  room_of_low {m n : ℕ} : Low m → Low n → Room (m + n)

/-- No composition is larger in degree than all the powers that it is made of. -/
theorem exists_natDegree_comp_le (f g : R[X]) :
    ∃ i ≤ f.natDegree, (f.comp g).natDegree ≤ (g ^ i).natDegree := by
  by_cases hzero : f.comp g = 0
  · exact ⟨0, Nat.zero_le _, by rw [hzero, natDegree_zero]; exact Nat.zero_le _⟩
  · have hne : (f.comp g).leadingCoeff ≠ 0 := leadingCoeff_ne_zero.mpr hzero
    rw [leadingCoeff, comp_eq_sum_left, sum_def, finsetSum_coeff] at hne
    obtain ⟨i, hi, hne⟩ := Finset.exists_ne_zero_of_sum_ne_zero hne
    rw [coeff_C_mul] at hne
    refine ⟨i, le_natDegree_of_mem_supp i hi, ?_⟩
    rw [comp_eq_sum_left, sum_def]
    exact le_natDegree_of_ne_zero (right_ne_zero_of_mul hne)

/-- A summand that the coefficient annihilates does not show. -/
theorem monomial_comp_of_mul_eq_zero {c k : R} (hck : c * k = 0) (y : R[X]) (n : ℕ) :
    (monomial n c).comp (X + C k * y) = monomial n c := by
  obtain ⟨z, hz⟩ := sub_dvd_pow_sub_pow (X + C k * y) X n
  have hpow : (X + C k * y) ^ n = X ^ n + C k * (y * z) := by
    rw [sub_eq_iff_eq_add'.mp hz, add_sub_cancel_left, mul_assoc]
  rw [monomial_comp, hpow, mul_add, ← mul_assoc (C c), ← C_mul, hck, C_0, zero_mul, add_zero,
    C_mul_X_pow_eq_monomial]

namespace Store.LawfulDerivative

variable {S : Store R P} {Rep : P → R[X] → Prop} {Room Low : ℕ → Prop} {a b : P} {f g : R[X]}

theorem low_derivative (h : S.LawfulDerivative Rep Room Low) (hf : Low f.natDegree) :
    Low (Polynomial.derivative f).natDegree :=
  h.low_mono hf ((natDegree_derivative_le f).trans (Nat.sub_le _ _))

theorem low_add (h : S.LawfulDerivative Rep Room Low) (hf : Low f.natDegree)
    (hg : Low g.natDegree) : Low (f + g).natDegree := by
  rcases le_max_iff.mp (natDegree_add_le f g) with hle | hle
  · exact h.low_mono hf hle
  · exact h.low_mono hg hle

/-- Low factors have a product. -/
theorem mul_of_low (h : S.LawfulDerivative Rep Room Low) (ha : Rep a f) (hb : Rep b g)
    (hf : Low f.natDegree) (hg : Low g.natDegree) : Returns (S.mul a b) (Rep · (f * g)) :=
  h.mul ha hb (h.room_of_low hf hg)

/-- The derivative of the second factor, multiplied by the first. -/
theorem mul_derivative (h : S.LawfulDerivative Rep Room Low) (ha : Rep a f) (hb : Rep b g)
    (hf : Low f.natDegree) (hg : Low g.natDegree) :
    Returns (S.derivative b >>= fun v => S.mul a v) (Rep · (f * Polynomial.derivative g)) :=
  (h.derivative hb hg).bind fun _ hv => h.mul_of_low ha hv hf (h.low_derivative hg)

theorem derivative_mul_add (h : S.LawfulDerivative Rep Room Low) (ha : Rep a f) (hb : Rep b g)
    (hf : Low f.natDegree) (hg : Low g.natDegree) :
    Returns ((S.derivative a >>= fun u => S.mul u b) >>= fun m =>
      (S.derivative b >>= fun v => S.mul a v) >>= fun n => S.add m n)
      (Rep · (Polynomial.derivative f * g + f * Polynomial.derivative g)) := by
  have hleft : Returns (S.derivative a >>= fun u => S.mul u b)
      (Rep · (Polynomial.derivative f * g)) :=
    (h.derivative ha hf).bind fun _ hu => h.mul_of_low hu hb (h.low_derivative hf) hg
  exact h.add_products hleft (h.mul_derivative ha hb hf hg)

theorem not_noRoomForPowers (h : S.LawfulDerivative Rep Room Low) {n : ℕ} {e : Fault}
    (hpowers : ∀ i ≤ n, Low (g ^ i).natDegree) : ¬ NoRoomForPowers Room g n e := by
  rintro ⟨i, j, hij, -, hno⟩
  exact hno (h.room_of_low (hpowers i (by omega)) (hpowers j (by omega)))

theorem compose_of_low (h : S.LawfulDerivative Rep Room Low) (ha : Rep a f) (hb : Rep b g) {n : ℕ}
    (hn : f.natDegree ≤ n) (hpowers : ∀ i ≤ n, Low (g ^ i).natDegree) :
    Low (f.comp g).natDegree ∧ Returns (S.compose a b) (Rep · (f.comp g)) := by
  constructor
  · obtain ⟨i, hi, hle⟩ := exists_natDegree_comp_le f g
    exact h.low_mono (hpowers i (hi.trans hn)) hle
  · exact (h.compose_ends ha hb).returns fun e he => h.not_noRoomForPowers hpowers (he.mono hn)

theorem chainRule (h : S.LawfulDerivative Rep Room Low) (ha : Rep a f) (hb : Rep b g)
    (hf : Low f.natDegree) (hg : Low g.natDegree)
    (hpowers : ∀ i ≤ f.natDegree, Low (g ^ i).natDegree) : S.ChainRule a b := by
  have hle : (Polynomial.derivative f).natDegree ≤ f.natDegree :=
    (natDegree_derivative_le f).trans (Nat.sub_le _ _)
  have hleft : Returns (S.compose a b >>= S.derivative)
      (Rep · (Polynomial.derivative (f.comp g))) := by
    obtain ⟨hlow, hcomp⟩ := h.compose_of_low ha hb le_rfl hpowers
    exact hcomp.bind fun p hp => h.derivative hp hlow
  have hright : Returns (S.derivative a >>= fun u => S.compose u b >>= fun q =>
      S.derivative b >>= fun v => S.mul q v)
      (Rep · ((Polynomial.derivative f).comp g * Polynomial.derivative g)) := by
    refine (h.derivative ha hf).bind fun u hu => ?_
    obtain ⟨hlow, hcomp⟩ := h.compose_of_low hu hb hle hpowers
    exact hcomp.bind fun q hq => h.mul_derivative hq hb hlow hg
  refine h.coincide hleft hright ?_
  rw [derivative_comp, mul_comm]

/-- Without divisors of zero, a composition is the largest of its powers in degree. -/
theorem low_powers (h : S.LawfulDerivative Rep Room Low) [NoZeroDivisors R]
    (hcomp : Low (f.comp g).natDegree) : ∀ i ≤ f.natDegree, Low (g ^ i).natDegree := by
  intro i hi
  apply h.low_mono hcomp
  rw [natDegree_comp, natDegree_pow]
  exact Nat.mul_le_mul_right _ hi

theorem derivativeLaws (h : S.LawfulDerivative Rep Room Low) (ha : Rep a f) (hb : Rep b g)
    (hf : Low f.natDegree) (hg : Low g.natDegree) : S.DerivativeLaws Room Low a b where
  add := by
    refine h.coincide ((h.add ha hb).bind fun p hp => h.derivative hp (h.low_add hf hg))
      (h.add_products (h.derivative ha hf) (h.derivative hb hg)) derivative_add
  mul := by
    refine (h.mul_of_low ha hb hf hg).imp fun p hp hlow => ?_
    rw [h.top_eq hp] at hlow
    exact h.coincide (h.derivative hp hlow) (h.derivative_mul_add ha hb hf hg) derivative_mul
  compose := by
    rw [h.formal_eq hb, h.top_eq ha]
    refine (h.compose_ends ha hb).imp fun p hp hp' => (h.derivative ha hf).imp fun u hu => ?_
    rw [h.top_eq hu]
    refine (h.compose_ends hu hb).imp fun q hq hq' => ?_
    rw [h.top_eq hp] at hp'
    rw [h.top_eq hq] at hq'
    refine h.coincide (h.derivative hp hp') (h.mul_derivative hq hb hq' hg) ?_
    rw [derivative_comp, mul_comm]
  compose_of_powers hpowers := by
    rw [h.formal_eq hb, h.top_eq ha] at hpowers
    exact h.chainRule ha hb hf hg hpowers
  compose_of_noZeroDivisors hdomain hcomp := by
    rw [h.formal_eq ha, h.formal_eq hb] at hcomp
    exact h.chainRule ha hb hf hg (h.low_powers hcomp)

end Store.LawfulDerivative

variable [Coeff R] [ExactCoeff R] [DecidableEq R]

/-- In slots every exponent is a natural number. -/
theorem Dense.store_lawfulDerivative :
    (store (R := R)).LawfulDerivative Represents (fun _ => True) fun _ => True where
  toLawful := store_lawful
  derivative hp _ := derivative_represents hp
  low_mono _ _ := trivial
  room_of_low _ _ := trivial

/-- Among terms the exponents below `2 ^ 63` are read as they are, and two of them add up to a
word. -/
theorem Sparse.store_lawfulDerivative : (store (R := R)).LawfulDerivative Represents
    (· < UInt64.size) (· < 9223372036854775808) where
  toLawful := store_lawful
  derivative hp hlow := derivative_represents hp fun _ ht => (hp.le_natDegree ht).trans_lt hlow
  low_mono hn hmn := hmn.trans_lt hn
  room_of_low {m n} hm hn := by
    have hsize : UInt64.size = 18446744073709551616 := rfl
    omega

/-- In slots every exponent is low enough, so both sides of the rule of compositions are always
formed. -/
theorem derivative_respects_operations :
    (∀ a b : Dense R, a.Canonical → b.Canonical →
      Dense.store.DerivativeLaws (fun _ => True) (fun _ => True) a b) ∧
    ∀ a b : Sparse R, a.Canonical → b.Canonical → Sparse.store.top a < 9223372036854775808 →
      Sparse.store.top b < 9223372036854775808 →
      Sparse.store.DerivativeLaws (· < UInt64.size) (· < 9223372036854775808) a b := by
  constructor
  · intro a b ha hb
    exact Dense.store_lawfulDerivative.derivativeLaws (Dense.represents_toPoly ha)
      (Dense.represents_toPoly hb) trivial trivial
  · intro a b ha hb hlow hlow'
    have hf := Sparse.represents_toPoly ha
    have hg := Sparse.represents_toPoly hb
    rw [Sparse.store_lawfulDerivative.top_eq hf] at hlow
    rw [Sparse.store_lawfulDerivative.top_eq hg] at hlow'
    exact Sparse.store_lawfulDerivative.derivativeLaws hf hg hlow hlow'

/-- Over bytes, `8 * x ^ 8` after `x + 4 * x ^ d` is itself, and its derivative `64 * x ^ 7` would
be, too. But the seventh power goes through the third, where `4 ^ 3` is not zero yet. -/
theorem chain_rule_overflows_on_the_way :
    let a := Sparse.monomial (8 : Int8) 8
    let b : Sparse Int8 := ⟨[(1, 1), (4000000000000000000, 4)], by decide⟩
    let u := Sparse.monomial (64 : Int8) 7
    a.compose b = .ok a ∧ a.derivative = .ok u ∧ b.derivative = .ok .one ∧
      (Sparse.store.formal u).comp (Sparse.store.formal b) = Sparse.store.formal u ∧
      u.compose b = .error (.overflow .add) ∧ ¬ Sparse.store.ChainRule a b := by
  intro a b u
  have hcanonical : b.Canonical := by
    intro t ht
    rcases List.mem_pair.mp ht with rfl | rfl
    · decide
    · decide
  have hu : Sparse.store.formal u = monomial 7 64 :=
    Sparse.store_lawful.formal_eq (Sparse.represents_monomial 64 7)
  have hb : Sparse.store.formal b = X + C 4 * monomial 4000000000000000000 1 := by
    rw [Sparse.store_lawful.formal_eq (Sparse.represents_toPoly hcanonical), C_mul_monomial,
      ← monomial_one_one_eq_X]
    change Sparse.sumOf [(1, 1), (4000000000000000000, 4)] = _
    rw [Sparse.sumOf_cons, Sparse.sumOf_cons, Sparse.sumOf_nil, add_zero]
    rfl
  have hderivative : a.derivative = .ok u := by decide +kernel
  have hover : u.compose b = .error (.overflow .add) := by decide +kernel
  refine ⟨by decide +kernel, hderivative, by decide +kernel, ?_, hover, ?_⟩
  · rw [hu, hb]
    exact monomial_comp_of_mul_eq_zero (by decide) _ 7
  · rintro ⟨r, -, hr⟩
    change (a.derivative >>= fun u => u.compose b >>= fun q =>
      b.derivative >>= fun v => q.mul v) = _ at hr
    rw [hderivative, Fault.ok_bind, hover] at hr
    cases hr

/-- Over bytes: next to a divisor of zero, and at the largest exponent of which twice as much is
low. -/
theorem derivative_respects_operations_bytes :
    Dense.store.DerivativeLaws (fun _ => True) (fun _ => True) (Dense.ofList [(1 : Int8), 0, 64])
        (Dense.ofList [2, 32, -128]) ∧
      Sparse.store.DerivativeLaws (· < UInt64.size) (· < 9223372036854775808)
        (Sparse.monomial (64 : Int8) 2) (Sparse.monomial 3 4611686018427387903) := by
  constructor
  · exact derivative_respects_operations.1 _ _ (Dense.canonical_ofList _)
      (Dense.canonical_ofList _)
  · exact derivative_respects_operations.2 _ _ (Sparse.canonical_monomial _ _)
      (Sparse.canonical_monomial _ _) (by decide) (by decide)

end Univariate
