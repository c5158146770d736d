import Univariate.Proofs.Coeff.Power
import Univariate.Proofs.Dense.Polynomial
import Univariate.Proofs.Room
import Univariate.Proofs.Sparse.Polynomial
import Univariate.Proofs.Sparse.Slots
import Univariate.Sparse.Calculus

/-! Sums, products and powers of sparse polynomials, read as formal polynomials. Over exact
coefficients an operation fails only where it forms an exponent that is no word. -/
namespace Univariate.Sparse

open Polynomial

variable {R : Type} [CommRing R] [Coeff R] {p q : Sparse R} {f g : R[X]}

theorem collect_represents {l : List (Exponent × R)} (h : l.Pairwise fun s t => s.1 < t.1)
    (hne : ∀ t ∈ l, t.2 ≠ Coeff.zero) : (collect l).Represents (sumOf l) := by
  refine ⟨canonical_collect hne, ?_⟩
  rw [toPoly, terms_collect h]

variable [ExactCoeff R]

/-- A loop that changes the terms one by one and keeps their order stores what an additive map
makes of the polynomial. -/
theorem mapM_terms {step : Exponent × R → Except Fault (Exponent × R)}
    (next : Exponent × R → Exponent × R) (φ : R[X] →+ R[X]) (hp : p.Represents f)
    (hstep : ∀ t ∈ p.terms, step t = .ok (next t)) (hne : ∀ t ∈ p.terms, (next t).2 ≠ 0)
    (hlt : ∀ s ∈ p.terms, ∀ t ∈ p.terms, s.1 < t.1 → (next s).1 < (next t).1)
    (hterm : ∀ t ∈ p.terms, termOf (next t) = φ (termOf t)) :
    Returns (p.terms.mapM step >>= fun l => pure (collect l)) (·.Represents (φ f)) := by
  have hasc : (p.terms.map next).Pairwise fun s t => s.1 < t.1 :=
    List.pairwise_map.mpr (p.ascending.imp_of_mem fun hs ht => hlt _ hs _ ht)
  have hnext : ∀ t ∈ p.terms.map next, t.2 ≠ Coeff.zero := by
    intro t ht
    obtain ⟨s, hs, rfl⟩ := List.mem_map.mp ht
    rw [ExactCoeff.zero_eq]
    exact hne s hs
  have hsum : sumOf (p.terms.map next) = φ f := by
    rw [← hp.toPoly_eq, toPoly, ← sum_map_termOf, sumOf, List.map_map]
    exact congrArg List.sum (List.map_congr_left hterm)
  rw [Returns.mapM hstep, ← hsum]
  exact .pure (collect_represents hasc hnext)

/-- Exponents stay as they are, and no coefficient becomes zero. -/
theorem neg_represents (hp : p.Represents f) : Returns p.neg (·.Represents (-f)) := by
  refine mapM_terms (fun t => (t.1, -t.2)) (-AddMonoidHom.id R[X]) hp ?_ ?_ ?_ ?_
  · rintro ⟨e, c⟩ _
    change (Coeff.neg c >>= fun c => pure (e, c)) = _
    rw [ExactCoeff.neg_eq]
    rfl
  · intro t ht
    have hne := hp.canonical t ht
    rw [ExactCoeff.zero_eq] at hne
    exact neg_ne_zero.mpr hne
  · intro s _ t _ hlt
    exact hlt
  · intro t _
    exact monomial_neg _ _

/-- Each exponent moves up by `n`, where the largest one still fits. -/
theorem shift_represents (hp : p.Represents f) {n : Exponent}
    (h : f ≠ 0 → f.natDegree + n.toNat < UInt64.size) :
    Returns (p.shift n) (·.Represents (X ^ n.toNat * f)) := by
  have hadd : ∀ t ∈ p.terms, Word.add t.1 n = .ok (t.1 + n) := by
    intro t ht
    have hf : f ≠ 0 := by
      intro hzero
      rw [hp.eq_zero_iff.mpr hzero] at ht
      simp [zero] at ht
    have hle := hp.le_natDegree ht
    have hfit := h hf
    exact Word.add_eq_ok (by omega)
  refine mapM_terms (fun t => (t.1 + n, t.2)) (AddMonoidHom.mulLeft (X ^ n.toNat)) hp
    ?_ ?_ ?_ ?_
  · rintro ⟨e, c⟩ ht
    change (Word.add e n >>= fun e => pure (e, c)) = _
    rw [hadd (e, c) ht]
    rfl
  · intro t ht
    have hne := hp.canonical t ht
    rwa [ExactCoeff.zero_eq] at hne
  · intro s hs t ht hlt
    rw [UInt64.lt_iff_toNat_lt] at hlt ⊢
    rw [Word.toNat_add (hadd s hs), Word.toNat_add (hadd t ht)]
    omega
  · intro t ht
    rw [AddMonoidHom.coe_mulLeft, termOf, termOf, Word.toNat_add (hadd t ht), X_pow_mul_monomial,
      add_comm]

omit [CommRing R] [Coeff R] [ExactCoeff R] in
/-- A shift that succeeds has found a word for every exponent. -/
theorem add_lt_of_shift_eq_ok {n : Exponent} (h : p.shift n = .ok q)
    {t : Exponent × R} (ht : t ∈ p.terms) : t.1.toNat + n.toNat < UInt64.size := by
  obtain ⟨l, hl, -⟩ := Fault.bind_eq_ok.mp h
  obtain ⟨s, hs⟩ := Returns.exists_of_mem_of_mapM hl ht
  obtain ⟨e, he, -⟩ := Fault.bind_eq_ok.mp hs
  rw [← Word.toNat_add he]
  exact e.toNat_lt

theorem natDegree_add_lt_of_shift_eq_ok {n : Exponent} (hp : p.Represents f)
    (h : p.shift n = .ok q) (hf : f ≠ 0) : f.natDegree + n.toNat < UInt64.size := by
  obtain ⟨t, ht⟩ := hp.exists_lead? hf
  rw [← (hp.lead?_spec ht).2.1]
  exact add_lt_of_shift_eq_ok h (List.mem_of_getLast? ht)

omit [CommRing R] [Coeff R] [ExactCoeff R] in
theorem shift_fault (p : Sparse R) (n : Exponent) :
    Ends (· = .overflow .add) (p.shift n) fun _ => True := by
  refine (Ends.forall_mapM (S := fun _ => True) fun t _ => ?_).bind fun _ _ => .pure trivial
  exact ((wordAdd_ends le_rfl).weaken fun _ he => he.1).bind fun _ _ => .pure trivial

/-- A shift is formed exactly where its largest exponent is a word. -/
theorem shift_returnsIff (hp : p.Represents f) (n : Exponent) :
    ReturnsIff (f ≠ 0 → f.natDegree + n.toNat < UInt64.size)
      (·.Represents (X ^ n.toNat * f)) (· = .overflow .add) (p.shift n) := by
  constructor
  · exact shift_represents hp
  · intro hno
    cases h : p.shift n with
    | ok q => exact absurd (natDegree_add_lt_of_shift_eq_ok hp h) hno
    | error e => exact ⟨e, rfl, (shift_fault p n).of_eq_error h⟩

variable [DecidableEq R]

theorem add_represents (hp : p.Represents f) (hq : q.Represents g) :
    Returns (p.add q) (·.Represents (f + g)) :=
  foldlM_terms Represents (AddMonoidHom.id R[X]) hq hp fun t _ _ _ hs =>
    addTerm_represents hs t.1 t.2

/-- Each term is negated before it is added, which over exact coefficients is no detour. -/
theorem sub_represents (hp : p.Represents f) (hq : q.Represents g) :
    Returns (p.sub q) (·.Represents (f - g)) := by
  rw [sub_eq_add_neg]
  refine foldlM_terms Represents (-AddMonoidHom.id R[X]) hq hp fun t _ s x hs => ?_
  change Returns (Coeff.neg t.2 >>= s.addTerm t.1) _
  rw [ExactCoeff.neg_eq, Fault.ok_bind, AddMonoidHom.neg_apply, AddMonoidHom.id_apply, termOf,
    ← monomial_neg]
  exact addTerm_represents hs t.1 (-t.2)

/-- A row of a product forms the sums of one exponent with all of a list. -/
theorem addRow_ends (hp : p.Represents f) (hq : q.Represents g) {t : Exponent × R} {d : ℕ}
    (h : ∀ s ∈ q.terms, t.1.toNat + s.1.toNat ≤ d) :
    Ends (NoRoom (· < UInt64.size) d) (addRow q p t.1 t.2) (·.Represents (f + termOf t * g)) := by
  refine foldlM_terms_ends Represents (AddMonoidHom.mulLeft (termOf t)) hq hp fun s hs r x hr => ?_
  change Ends _ (Word.add t.1 s.1 >>= fun e => Coeff.mul t.2 s.2 >>= r.addTerm e) _
  refine (wordAdd_ends (h s hs)).bind fun e he => ?_
  have hmul : termOf t * termOf s = termOf (e, t.2 * s.2) := by
    rw [termOf, termOf, termOf, monomial_mul_monomial, he]
  rw [ExactCoeff.mul_eq, Fault.ok_bind, AddMonoidHom.coe_mulLeft, hmul]
  exact (addTerm_represents hr _ _).ends

/-- The largest exponent formed is the sum of the degrees, also where its coefficient is zero. -/
theorem mul_ends (hp : p.Represents f) (hq : q.Represents g) :
    Ends (NoRoom (· < UInt64.size) (f.natDegree + g.natDegree)) (p.mul q)
      (·.Represents (f * g)) := by
  rw [← zero_add (f * g)]
  refine foldlM_terms_ends Represents (AddMonoidHom.mulRight g) hp represents_zero
    fun t ht r x hr => addRow_ends hr hq fun s hs => ?_
  exact Nat.add_le_add (hp.le_natDegree ht) (hq.le_natDegree hs)

theorem mul_represents (hp : p.Represents f) (hq : q.Represents g)
    (h : f.natDegree + g.natDegree < UInt64.size) :
    Returns (p.mul q) (·.Represents (f * g)) := (mul_ends hp hq).returns fun _ he => he.2 h

omit [CommRing R] [ExactCoeff R] in
/-- A product that is formed has formed the sum of every two exponents. -/
theorem add_lt_of_mul_eq_ok {m : Sparse R} (h : p.mul q = .ok m) {t s : Exponent × R}
    (ht : t ∈ p.terms) (hs : s ∈ q.terms) : t.1.toNat + s.1.toNat < UInt64.size := by
  obtain ⟨sum, sum', hrow⟩ := Returns.exists_step_of_foldlM h ht
  obtain ⟨r, r', hstep⟩ := Returns.exists_step_of_foldlM hrow hs
  obtain ⟨e, he, -⟩ := Fault.bind_eq_ok.mp hstep
  rw [← Word.toNat_add he]
  exact e.toNat_lt

theorem natDegree_add_lt_of_mul_eq_ok {m : Sparse R} (hp : p.Represents f) (hq : q.Represents g)
    (h : p.mul q = .ok m) : f.natDegree + g.natDegree < UInt64.size := by
  rcases eq_or_ne f 0 with rfl | hf
  · simpa using hq.natDegree_lt
  · rcases eq_or_ne g 0 with rfl | hg
    · simpa using hp.natDegree_lt
    · obtain ⟨t, ht⟩ := hp.exists_lead? hf
      obtain ⟨s, hs⟩ := hq.exists_lead? hg
      rw [← (hp.lead?_spec ht).2.1, ← (hq.lead?_spec hs).2.1]
      exact add_lt_of_mul_eq_ok h (List.mem_of_getLast? ht) (List.mem_of_getLast? hs)

theorem scale_represents (hp : p.Represents f) (c : R) :
    Returns (p.scale c) (·.Represents (C c * f)) := by
  rw [← zero_add (C c * f)]
  refine foldlM_terms Represents (AddMonoidHom.mulLeft (C c)) hp represents_zero ?_
  intro t _ r x hr
  change Returns (Coeff.mul t.2 c >>= r.addTerm t.1) _
  rw [ExactCoeff.mul_eq, Fault.ok_bind, AddMonoidHom.coe_mulLeft, termOf, C_mul_monomial,
    mul_comm c]
  exact addTerm_represents hr t.1 (t.2 * c)

/-- Squaring forms no power above the one asked for, so a product without room is one of two powers
that multiply to one of the powers up to it. -/
theorem pow_ends (hp : p.Represents f) (n : ℕ) :
    Ends (NoRoomForPowers (· < UInt64.size) f n) (p.pow n) (·.Represents (f ^ n)) := by
  have hop : ∀ i j (a b : Sparse R), i + j ≤ n → a.Represents (f ^ i) → b.Represents (f ^ j) →
      Ends (NoRoomForPowers (· < UInt64.size) f n) (a.mul b) (·.Represents (f ^ (i + j))) := by
    intro i j a b hij ha hb
    rw [pow_add]
    exact (mul_ends ha hb).weaken fun e he => ⟨i, j, hij, he⟩
  have hone : (one : Sparse R).Represents (f ^ 0) := by simpa using represents_one
  have hbase : p.Represents (f ^ 1) := by simpa using hp
  have hpow := Ends.repeated (I := fun i (a : Sparse R) => a.Represents (f ^ i)) hop (n := n)
    (by omega) hone hbase
  rwa [zero_add, one_mul] at hpow

theorem pow_represents (hp : p.Represents f) {n : ℕ}
    (h : ∀ i j, i + j ≤ n → (f ^ i).natDegree + (f ^ j).natDegree < UInt64.size) :
    Returns (p.pow n) (·.Represents (f ^ n)) := by
  refine (pow_ends hp n).returns ?_
  rintro e ⟨i, j, hij, -, hroom⟩
  exact hroom (h i j hij)

end Univariate.Sparse
