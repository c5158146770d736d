import Mathlib.Data.List.GetD
import Univariate.Dense.Calculus
import Univariate.Dense.Division
import Univariate.Proofs.Coeff.Power

/-! Canonical dense polynomials: what is read off one, and that every operation makes one. Nothing
is asked of the coefficients but that negation keeps them from zero. -/
namespace Univariate.Dense

section Reading

variable {R : Type} [Coeff R] {p q : Dense R}

theorem Canonical.length_le_iff (h : p.Canonical) {n : ℕ} :
    p.coeffs.length ≤ n ↔ ∀ m, n ≤ m → p.coeff m = Coeff.zero := by
  constructor
  · intro hn m hm
    exact List.getD_eq_default _ _ (hn.trans hm)
  · intro hzero
    by_contra hn
    have hlast := hzero (p.coeffs.length - 1) (by omega)
    rw [coeff, List.getD_eq_getElem _ _ (by omega)] at hlast
    apply h
    rw [List.getLast?_eq_getElem?, List.getElem?_eq_getElem (by omega), hlast]

/-- A canonical list is told by its coefficients. -/
theorem Canonical.ext (hp : p.Canonical) (hq : q.Canonical) (h : ∀ n, p.coeff n = q.coeff n) :
    p = q := by
  have hlen : p.coeffs.length = q.coeffs.length := by
    apply le_antisymm
    · rw [hp.length_le_iff]
      intro m hm
      rw [h]
      exact hq.length_le_iff.mp le_rfl m hm
    · rw [hq.length_le_iff]
      intro m hm
      rw [← h]
      exact hp.length_le_iff.mp le_rfl m hm
  have hcoeffs : p.coeffs = q.coeffs := by
    apply List.ext_getElem hlen
    intro n hn hn'
    have hcoeff := h n
    rwa [coeff, coeff, List.getD_eq_getElem _ _ hn, List.getD_eq_getElem _ _ hn'] at hcoeff
  cases p
  cases q
  exact congrArg Dense.mk hcoeffs

theorem Canonical.isZero_iff (h : p.Canonical) :
    p.isZero = true ↔ ∀ n, p.coeff n = Coeff.zero := by
  rw [isZero, List.isEmpty_iff, ← List.length_eq_zero_iff, ← Nat.le_zero, h.length_le_iff]
  simp

/-- The last slot is the top one. -/
theorem Canonical.isTop (h : p.Canonical) {n : ℕ} (hn : p.coeffs.length = n + 1) :
    IsTop p.coeff n ∧ p.leadingCoeff? = some (p.coeff n) := by
  have hlast : p.leadingCoeff? = some (p.coeff n) := by
    rw [leadingCoeff?, List.getLast?_eq_getElem?, hn, Nat.add_sub_cancel,
      List.getElem?_eq_getElem (by omega), coeff, List.getD_eq_getElem _ _ (by omega)]
  refine ⟨⟨?_, h.length_le_iff.mp hn.le⟩, hlast⟩
  intro hzero
  apply h
  rw [← leadingCoeff?, hlast, hzero]

end Reading

variable {R : Type} [Coeff R] {p q : Dense R}

theorem canonical_zero : (zero : Dense R).Canonical := by simp [Canonical, zero]

theorem canonical_shift (hp : p.Canonical) (n : Exponent) : (p.shift n).Canonical := by
  rw [shift]
  split
  · exact hp
  · rename_i hzero
    have hne : p.coeffs ≠ [] := by
      intro hnil
      exact hzero (by simp [isZero, hnil])
    rw [Canonical] at hp ⊢
    rwa [List.getLast?_append_of_ne_nil _ hne]

theorem getLast?_ne_of_forall₂ {l r : List R}
    (h : List.Forall₂ (fun a b => a ≠ Coeff.zero → b ≠ Coeff.zero) l r)
    (hl : l.getLast? ≠ some Coeff.zero) : r.getLast? ≠ some Coeff.zero := by
  induction h with
  | nil => exact hl
  | @cons a b l r hab hrest ih =>
    cases hrest with
    | nil =>
      rw [List.getLast?_singleton, Ne, Option.some.injEq] at hl ⊢
      exact hab hl
    | cons =>
      rw [List.getLast?_cons_cons] at hl ⊢
      exact ih hl

/-- Nothing is trimmed after a negation, and nothing has to be. -/
theorem neg_canonical [ZeroLaws R] (hp : p.Canonical) : Yields p.neg Canonical := by
  have hneg : ∀ a ∈ p.coeffs, Yields (Coeff.neg a) fun b => a ≠ Coeff.zero → b ≠ Coeff.zero := by
    intro a _
    cases hb : Coeff.neg a with
    | error => exact .error trivial
    | ok b =>
      refine .ok fun ha hzero => ha ?_
      rw [← ZeroLaws.neg_eq_zero_iff, hb, hzero]
  exact (Ends.mapM hneg).bind fun l hl => .pure (getLast?_ne_of_forall₂ hl hp)

variable [DecidableEq R]

omit [DecidableEq R] in
theorem getD_replicate_append (n : ℕ) (c : R) (k : ℕ) :
    (List.replicate n Coeff.zero ++ [c]).getD k Coeff.zero = if n = k then c else Coeff.zero := by
  rcases Nat.lt_trichotomy k n with hk | rfl | hk
  · rw [List.getD_append _ _ _ _ (by simpa using hk), List.getD_replicate _ hk, if_neg hk.ne']
  · simp
  · rw [List.getD_eq_default _ _ (by simpa using Nat.succ_le_of_lt hk), if_neg hk.ne]

/-- A term that is formed has its coefficient at its exponent, and nothing besides. -/
theorem monomial_yields (c : R) (n : Exponent) : Yields (monomial c n)
    fun p => p.Canonical ∧ ∀ k, p.coeff k = if n.toNat = k then c else Coeff.zero := by
  rw [monomial]
  split
  · rename_i hc
    exact .ok ⟨canonical_zero, fun k => by simp [coeff, zero, hc]⟩
  · rename_i hc
    refine .bind_any fun _ => .pure ⟨?_, getD_replicate_append n.toNat c⟩
    rw [Canonical, List.getLast?_concat]
    simpa using hc

theorem exists_monomial (c : R) {n : Exponent} (h : n.toNat + 1 < UInt64.size) :
    ∃ p, monomial c n = .ok p := by
  rw [monomial, Word.add_eq_ok h]
  split
  · exact ⟨_, rfl⟩
  · exact ⟨_, rfl⟩

theorem monomial_canonical (c : R) (n : Exponent) : Yields (monomial c n) Canonical :=
  (monomial_yields c n).imp fun _ hp => hp.1

/-- A computation of slots that are trimmed in the end. -/
theorem ofList_canonical (x : Except Fault (List R)) :
    Yields (x >>= fun l => pure (ofList l)) Canonical :=
  .bind_any fun l => .pure (canonical_ofList l)

theorem add_canonical (p q : Dense R) : Yields (p.add q) Canonical := ofList_canonical _

theorem sub_canonical (p q : Dense R) : Yields (p.sub q) Canonical := ofList_canonical _

theorem mul_canonical (p q : Dense R) : Yields (p.mul q) Canonical := by
  rw [mul]
  split
  · exact .ok canonical_zero
  · exact ofList_canonical _

theorem scale_canonical (p : Dense R) (c : R) : Yields (p.scale c) Canonical := by
  rw [scale]
  split
  · exact .ok canonical_zero
  · exact ofList_canonical _

theorem derivative_canonical (p : Dense R) : Yields p.derivative Canonical := ofList_canonical _

theorem pow_canonical (hp : p.Canonical) (n : ℕ) : Yields (p.pow n) Canonical :=
  Ends.repeated (I := fun _ => Canonical) (fun _ _ a b _ _ _ => mul_canonical a b) (i := 0) (j := 1)
    le_rfl (canonical_ofList _) hp

theorem addTermOf_canonical (c : R) {sum : Dense R} (hsum : sum.Canonical) (power : Dense R) :
    Yields (addTermOf (fun c power => power.scale c) add c sum power) Canonical := by
  rw [addTermOf]
  split
  · exact .ok hsum
  · exact .bind_any fun t => add_canonical sum t

/-- Whatever the powers are, the sum stays canonical. -/
theorem substitute_canonical (l : List R) {sum : Dense R} (hsum : sum.Canonical)
    (arg power : Dense R) :
    Yields (substitute (fun c power => power.scale c) add mul arg sum power l) Canonical := by
  induction l generalizing sum power with
  | nil => exact .ok hsum
  | cons c l ih =>
    cases l with
    | nil => exact addTermOf_canonical c hsum power
    | cons b l =>
      rw [substitute]
      refine (addTermOf_canonical c hsum power).bind fun sum hsum => ?_
      exact .bind_any fun power => ih hsum power

theorem compose_canonical (p inner : Dense R) : Yields (p.compose inner) Canonical :=
  substitute_canonical p.coeffs canonical_zero inner one

variable [CoeffDiv R]

/-- A dividend that is short enough is its own remainder. -/
theorem divRem_canonical (hp : p.Canonical) (q : Dense R) :
    Yields (p.divRem q) fun t => t.value.1.Canonical ∧ t.value.2.Canonical := by
  rw [divRem]
  split
  · exact .error trivial
  · dsimp only
    split
    · exact .ok ⟨canonical_zero, hp⟩
    · exact .bind_any fun s => .pure ⟨canonical_ofList _, canonical_ofList _⟩

theorem div_canonical (hp : p.Canonical) (q : Dense R) : Yields (p.div q) (·.value.Canonical) :=
  (divRem_canonical hp q).bind fun _ ht => .pure ht.1

theorem rem_canonical (hp : p.Canonical) (q : Dense R) : Yields (p.rem q) (·.value.Canonical) :=
  (divRem_canonical hp q).bind fun _ ht => .pure ht.2

theorem monic_canonical (hp : p.Canonical) : Yields p.monic Canonical := by
  rw [monic]
  split
  · exact .error trivial
  · split
    · exact .ok hp
    · exact ofList_canonical _

theorem remainders_canonical (hp : p.Canonical) (hq : q.Canonical) :
    Yields (remainders p q) (·.last.Canonical) := by
  fun_induction remainders p q with
  | case1 p q => exact .ok hp
  | case2 => exact .error trivial
  | case3 p q _ r hr ih =>
    exact (ih hq ((rem_canonical hp q).of_eq_ok hr)).bind fun _ hc => .pure hc

theorem gcd_canonical (hp : p.Canonical) (hq : q.Canonical) :
    Yields (p.gcd q) (·.value.Canonical) :=
  (remainders_canonical hp hq).bind fun _ hc => (monic_canonical hc).bind fun _ hg => .pure hg

end Univariate.Dense
