import Mathlib.RingTheory.Polynomial.DegreeLT
import Univariate.Proofs.Commands
import Univariate.Proofs.Dense.Calculus
import Univariate.Proofs.Related
import Univariate.Proofs.Sparse.Calculus

/-! How the operations on slots and on terms keep step as long as the exponents fit, and which
exponent is too large where they do not. -/
namespace Univariate

open Polynomial

variable {R : Type} [CommRing R]

/-- The formal polynomials whose exponents fit. -/
noncomputable abbrev Fitting (R : Type) [CommRing R] : Submodule R R[X] :=
  degreeLT R 9223372036854775808

section Formal

variable {f g : R[X]}

theorem natDegree_lt_of_fits (h : f ∈ Fitting R) : f.natDegree < 9223372036854775808 := by
  rcases eq_or_ne f 0 with rfl | hf
  · simp
  · rw [natDegree_lt_iff_degree_lt hf]
    exact mem_degreeLT.mp h

/-- The sum of two exponents below `2 ^ 63` is a word. -/
theorem natDegree_add_lt_of_fits (hf : f ∈ Fitting R) (hg : g ∈ Fitting R) :
    f.natDegree + g.natDegree < UInt64.size := by
  have h₁ := natDegree_lt_of_fits hf
  have h₂ := natDegree_lt_of_fits hg
  have hsize : UInt64.size = 18446744073709551616 := rfl
  omega

theorem one_fits : (1 : R[X]) ∈ Fitting R :=
  mem_degreeLT.mpr (degree_one_le.trans_lt (by norm_num))

/-- A composition has no larger exponent than the powers that it adds up. -/
theorem comp_fits (h : ∀ i ≤ f.natDegree, g ^ i ∈ Fitting R) : f.comp g ∈ Fitting R := by
  rw [comp, eval₂_eq_sum_range]
  refine Submodule.sum_mem _ fun i hi => ?_
  rw [← smul_eq_C_mul]
  exact Submodule.smul_mem _ _ (h i (Nat.lt_succ_iff.mp (Finset.mem_range.mp hi)))

end Formal

variable [Coeff R] {a b p : Dense R} {s t : Sparse R} {f g : R[X]} {E E' : Fault → Prop}
  {x y : Except Fault (Dense R)} {z : Except Fault (Sparse R)}

/-- Slots and terms that say the one polynomial `f`, whose exponents fit. -/
structure BothRepresent (p : Dense R) (s : Sparse R) (f : R[X]) : Prop where
  dense : p.Represents f
  sparse : s.Represents f
  fits : f ∈ Fitting R

/-- Slots and terms that say one polynomial whose exponents fit. -/
def RelatedFitting (p : Dense R) (s : Sparse R) : Prop := ∃ f, BothRepresent p s f

theorem relatedFitting_zero : RelatedFitting (Dense.zero : Dense R) Sparse.zero :=
  ⟨0, Dense.represents_zero, Sparse.represents_zero, Submodule.zero_mem _⟩

/-- Unless a fault of `E` ends the first computation, both form the polynomial `f`, which fits. -/
def FormTogether (E : Fault → Prop) (x : Except Fault (Dense R)) (z : Except Fault (Sparse R))
    (f : R[X]) : Prop :=
  Ends E x fun p => Returns z fun s => BothRepresent p s f

/-- Unless a fault of `E` ends the first computation, the second one has the same result, and the
third one a result that is related to it. -/
def Followed (E : Fault → Prop) (x y : Except Fault (Dense R)) (z : Except Fault (Sparse R)) :
    Prop :=
  Ends E x fun p => y = .ok p ∧ Returns z (RelatedFitting p)

/-- Nothing new is asked of an operation that forms no larger exponent. -/
theorem formTogether_of_represents (hx : Returns x (·.Represents f))
    (hz : Returns z (·.Represents f)) (hf : f ∈ Fitting R) : FormTogether E x z f := by
  obtain ⟨p, rfl, hp⟩ := hx
  exact .ok (hz.imp fun s hs => ⟨hp, hs, hf⟩)

/-- A step that both have taken is followed by the next on either side. -/
theorem FormTogether.lifts (E : Fault → Prop) (f : R[X]) :
    Lifts (fun i (p : Dense R) s => BothRepresent p s (f ^ i)) fun i x z =>
      FormTogether E x z (f ^ i) := by
  constructor
  · intro i p s hps
    exact .ok (.ok hps)
  · intro i j x z r r' hx hr
    refine Ends.bind hx fun p hp => ?_
    obtain ⟨s, rfl, hps⟩ := hp
    exact hr p s hps

variable [ExactCoeff R]

theorem fits_iff (hp : p.Represents f) : p.Fits ↔ f ∈ Fitting R := by
  rw [mem_degreeLT]
  exact hp.length_le_iff

theorem relatedFitting_iff : RelatedFitting p s ↔ Related p s ∧ p.Fits := by
  constructor
  · rintro ⟨f, hp, hs, hf⟩
    exact ⟨related_of_represents hp hs, (fits_iff hp).mpr hf⟩
  · rintro ⟨hps, hp⟩
    obtain ⟨f, hdense, hsparse⟩ := hps.represents
    exact ⟨f, hdense, hsparse, (fits_iff hdense).mp hp⟩

theorem BothRepresent.toNat_lt (h : BothRepresent a s f) {u : Exponent × R} (hu : u ∈ s.terms) :
    u.1.toNat < 9223372036854775808 :=
  (h.sparse.le_natDegree hu).trans_lt (natDegree_lt_of_fits h.fits)

theorem oversized_iff (hx : Returns x (·.Represents f)) :
    Dense.Oversized x ↔ f ∉ Fitting R := by
  obtain ⟨p, rfl, hp⟩ := hx
  rw [← fits_iff hp]
  constructor
  · rintro ⟨q, hq, hno⟩
    obtain rfl := Except.ok.inj hq
    exact hno
  · intro hno
    exact ⟨p, rfl, hno⟩

/-- A computation without a limit has the one result that says `f`. -/
theorem FormTogether.followed (h : FormTogether E x z f) (hy : Returns y (·.Represents f))
    (hE : ∀ e, E e → E' e) : Followed E' x y z := by
  obtain ⟨q, rfl, hq⟩ := hy
  refine (h.weaken hE).imp fun p hp => ?_
  obtain ⟨s, rfl, hboth⟩ := hp
  exact ⟨by rw [hboth.dense.unique hq], .ok ⟨f, hboth⟩⟩

/-- A polynomial is handed on where it fits, and only there. -/
theorem fitting_ends (hx : Returns x (·.Represents f)) :
    Ends (fun _ => f ∉ Fitting R) (x >>= Dense.fitting) fun p =>
      p.Represents f ∧ f ∈ Fitting R := by
  obtain ⟨p, rfl, hp⟩ := hx
  rw [Fault.ok_bind, Dense.fitting]
  split
  · rename_i hfit
    exact .ok ⟨hp, (fits_iff hp).mp hfit⟩
  · rename_i hno
    exact .error (mt (fits_iff hp).mpr hno)

theorem fitting_formTogether (hx : Returns x (·.Represents f))
    (hz : f ∈ Fitting R → Returns z (·.Represents f)) :
    FormTogether (fun _ => f ∉ Fitting R) (x >>= Dense.fitting) z f :=
  (fitting_ends hx).imp fun _ hp => (hz hp.2).imp fun _ hs => ⟨hp.1, hs, hp.2⟩

theorem neg_formTogether (h : BothRepresent a s f) :
    FormTogether (fun _ => False) a.neg s.neg (-f) :=
  formTogether_of_represents (Dense.neg_represents h.dense) (Sparse.neg_represents h.sparse)
    (Submodule.neg_mem _ h.fits)

/-- A shift has the full degree, so where it fits there is room for its terms, too. -/
theorem shift_formTogether (h : BothRepresent a s f) (n : Exponent) :
    FormTogether (fun _ => X ^ n.toNat * f ∉ Fitting R) (a.shift n).fitting (s.shift n)
      (X ^ n.toNat * f) := by
  refine fitting_formTogether (x := .ok (a.shift n)) (.ok (Dense.shift_represents h.dense n)) ?_
  intro hfit
  refine Sparse.shift_represents h.sparse ?_
  intro hf
  have hR : Nontrivial R := Nontrivial.of_polynomial_ne hf
  have hlt := natDegree_lt_of_fits hfit
  have hsize : UInt64.size = 18446744073709551616 := rfl
  rw [X_pow_mul, natDegree_mul_X_pow _ hf] at hlt
  omega

variable [DecidableEq R]

theorem add_formTogether (h : BothRepresent a s f) (k : BothRepresent b t g) :
    FormTogether (fun _ => False) (a.add b) (s.add t) (f + g) :=
  formTogether_of_represents (Dense.add_represents h.dense k.dense)
    (Sparse.add_represents h.sparse k.sparse) (Submodule.add_mem _ h.fits k.fits)

theorem sub_formTogether (h : BothRepresent a s f) (k : BothRepresent b t g) :
    FormTogether (fun _ => False) (a.sub b) (s.sub t) (f - g) :=
  formTogether_of_represents (Dense.sub_represents h.dense k.dense)
    (Sparse.sub_represents h.sparse k.sparse) (Submodule.sub_mem _ h.fits k.fits)

theorem scale_formTogether (h : BothRepresent a s f) (c : R) :
    FormTogether (fun _ => False) (a.scale c) (s.scale c) (C c * f) := by
  refine formTogether_of_represents (Dense.scale_represents h.dense c)
    (Sparse.scale_represents h.sparse c) ?_
  rw [← smul_eq_C_mul]
  exact Submodule.smul_mem _ c h.fits

/-- No exponent is read as a negative one. -/
theorem derivative_formTogether (h : BothRepresent a s f) :
    FormTogether (fun _ => False) a.derivative s.derivative (Polynomial.derivative f) := by
  refine formTogether_of_represents (Dense.derivative_represents h.dense)
    (Sparse.derivative_represents h.sparse fun _ => h.toNat_lt) ?_
  have hf := h.fits
  rw [mem_degreeLT] at hf ⊢
  exact degree_derivative_le.trans_lt hf

theorem fittingMul_ends (ha : a.Represents f) (hb : b.Represents g) :
    Ends (fun _ => f * g ∉ Fitting R) (a.fittingMul b) fun p =>
      p.Represents (f * g) ∧ f * g ∈ Fitting R :=
  fitting_ends (Dense.mul_represents ha hb)

theorem mul_formTogether (h : BothRepresent a s f) (k : BothRepresent b t g) :
    FormTogether (fun _ => f * g ∉ Fitting R) (a.fittingMul b) (s.mul t) (f * g) := by
  have hroom := natDegree_add_lt_of_fits h.fits k.fits
  refine fitting_formTogether (Dense.mul_represents h.dense k.dense) ?_
  intro _
  exact Sparse.mul_represents h.sparse k.sparse hroom

/-- The stores run through the same products, each of which is a power up to the last. -/
theorem pow_formTogether (h : BothRepresent a s f) (n : ℕ) :
    FormTogether (fun _ => ∃ k ≤ n, f ^ k ∉ Fitting R) (repeated Dense.fittingMul Dense.one a n)
      (s.pow n) (f ^ n) := by
  have hop : ∀ i j (p q : Dense R) (u v : Sparse R), i + j ≤ n → BothRepresent p u (f ^ i) →
      BothRepresent q v (f ^ j) → FormTogether (fun _ => ∃ k ≤ n, f ^ k ∉ Fitting R)
        (p.fittingMul q) (u.mul v) (f ^ (i + j)) := by
    intro i j p q u v hij hp hq
    rw [pow_add]
    refine Ends.weaken (mul_formTogether hp hq) ?_
    intro _ hno
    exact ⟨i + j, hij, by rwa [pow_add]⟩
  have hone : BothRepresent (Dense.one : Dense R) Sparse.one (f ^ 0) := by
    rw [pow_zero]
    exact ⟨Dense.represents_one, Sparse.represents_one, one_fits⟩
  have hbase : BothRepresent a s (f ^ 1) := by rwa [pow_one]
  have hpow := (FormTogether.lifts _ f).repeated Dense.fittingMul Sparse.mul (n := n) hop (by omega)
    hone hbase
  rwa [zero_add, one_mul] at hpow

/-- A running power is multiplied once between two slots, and the first of them that does not fit
ends the substitution. -/
theorem substitute_ends (hb : b.Represents g) {l : List R} {sum power : Dense R} {u : R[X]} {k : ℕ}
    (hsum : sum.Represents u) (hpower : power.Represents (g ^ k)) (hk : g ^ k ∈ Fitting R) :
    Ends (fun _ => ∃ i < k + l.length, g ^ i ∉ Fitting R)
      (substitute (fun c power => power.scale c) Dense.add Dense.fittingMul b sum power l)
      fun p => p.Represents (u + g ^ k * (Dense.polyOf l).eval₂ C g) ∧
        ∀ i < l.length, g ^ (k + i) ∈ Fitting R := by
  induction l generalizing sum power u k with
  | nil =>
    refine .ok ⟨by simpa using hsum, ?_⟩
    intro i hi
    cases hi
  | cons c l ih =>
    have hstep : Returns (addTermOf (fun c power => power.scale c) Dense.add c sum power)
        (·.Represents (u + C c * g ^ k)) :=
      Dense.addTermOf_returns C Dense.Represents (Dense.scale_represents hpower c)
        (fun a ha => Dense.add_represents hsum ha) hsum
    cases l with
    | nil =>
      rw [substitute]
      refine hstep.ends.imp fun p hp => ⟨by simpa [mul_comm] using hp, ?_⟩
      intro i hi
      obtain rfl : i = 0 := by simpa using hi
      exact hk
    | cons d l =>
      rw [substitute]
      refine hstep.ends.bind fun sum hsum => ?_
      have hnext := fittingMul_ends hpower hb
      rw [← pow_succ] at hnext
      refine (hnext.weaken fun _ hno => ⟨k + 1, by simp, hno⟩).bind ?_
      rintro power ⟨hpower, hk'⟩
      refine ((ih hsum hpower hk').weaken ?_).imp ?_
      · rintro _ ⟨i, hi, hno⟩
        exact ⟨i, by rw [List.length_cons]; omega, hno⟩
      · rintro p ⟨hp, hfits⟩
        rw [Dense.add_mul_eval₂_polyOf, ← pow_succ]
        refine ⟨hp, fun i hi => ?_⟩
        cases i with
        | zero => exact hk
        | succ i =>
          have hpow := hfits i (by simpa using hi)
          rwa [add_right_comm, add_assoc] at hpow

/-- Terms take powers of their own, and two of those fit together as far as slots go. -/
theorem compose_formTogether (h : BothRepresent a s f) (k : BothRepresent b t g) :
    FormTogether (fun _ => ∃ i < a.coeffs.length, g ^ i ∉ Fitting R)
      (Dense.fittingStore.compose a b) (s.compose t) (f.comp g) := by
  have hends := substitute_ends (k := 0) (l := a.coeffs) k.dense Dense.represents_zero
    (by simpa using Dense.represents_one) (by simpa using one_fits)
  simp only [zero_add, pow_zero, one_mul, h.dense.polyOf_eq] at hends
  refine hends.imp ?_
  rintro p ⟨hp, hpows⟩
  have hfits : ∀ i ≤ f.natDegree, g ^ i ∈ Fitting R := by
    intro i hi
    rcases eq_or_ne f 0 with rfl | hf
    · rw [natDegree_zero, Nat.le_zero] at hi
      rw [hi, pow_zero]
      exact one_fits
    · have hlen := h.dense.length_eq hf
      exact hpows i (by omega)
  have hsparse : Returns (s.compose t) (·.Represents (f.comp g)) := by
    refine Sparse.compose_represents h.sparse fun e he =>
      Sparse.pow_represents k.sparse fun i j hij => ?_
    have hle := h.sparse.le_natDegree he
    exact natDegree_add_lt_of_fits (hfits i (by omega)) (hfits j (by omega))
  exact hsparse.imp fun q hq => ⟨hp, hq, comp_fits hfits⟩

end Univariate
