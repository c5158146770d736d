import Univariate.Proofs.Coeff.Residue
import Univariate.Proofs.Coeff.Signed
import Univariate.Proofs.Commands
import Univariate.Proofs.Dense.Canonical
import Univariate.Proofs.Sparse.Canonical

/-! Every polynomial that a sequence of constructions and operations comes to is canonical, so that
comparisons, tests for zero, leading coefficients and degrees are told by coefficients alone. -/
namespace Univariate

variable {R P : Type}

/-- Ways to form polynomials by dividing. Operands are named by their places among those formed
before. -/
inductive Division where
  | divRem (i j : ℕ)
  | div (i j : ℕ)
  | rem (i j : ℕ)
  | monic (i : ℕ)
  | gcd (i j : ℕ)

/-- What a division forms; quotient and remainder are two polynomials. -/
def DivisionStore.divide (S : DivisionStore R P) (l : List P) : Division → Except Fault (List P)
  | .divRem i j => do
    let t ← S.divRem (S.read l i) (S.read l j)
    return [t.value.1, t.value.2]
  | .div i j => do
    let t ← S.div (S.read l i) (S.read l j)
    return [t.value]
  | .rem i j => do
    let t ← S.rem (S.read l i) (S.read l j)
    return [t.value]
  | .monic i => do
    let p ← S.monic (S.read l i)
    return [p]
  | .gcd i j => do
    let t ← S.gcd (S.read l i) (S.read l j)
    return [t.value]

/-- An operation on polynomials of the list has returned `p`. -/
def Store.Results (S : Store R P) (l : List P) (p : P) : Prop := ∃ f, S.form l f = .ok p

/-- The same, with division. -/
def DivisionStore.Results (S : DivisionStore R P) (l : List P) (p : P) : Prop :=
  S.toStore.Results l p ∨ ∃ d r, S.divide l d = .ok r ∧ p ∈ r

/-- Polynomials formed one after another, each outright or out of those before it. -/
inductive Formed (Start : P → Prop) (Results : List P → P → Prop) : List P → Prop where
  | nil : Formed Start Results []
  | start {l : List P} {p : P} : Formed Start Results l → Start p → Formed Start Results (l ++ [p])
  | operation {l : List P} {p : P} :
      Formed Start Results l → Results l p → Formed Start Results (l ++ [p])

/-- What every operation keeps holds of all that is formed. -/
theorem Formed.forall {Start I : P → Prop} {Results : List P → P → Prop} {l : List P}
    (h : Formed Start Results l) (hstart : ∀ p, Start p → I p)
    (hresults : ∀ l p, (∀ q ∈ l, I q) → Results l p → I p) : ∀ p ∈ l, I p := by
  induction h with
  | nil => simp
  | start _ hp ih => exact List.forall_mem_append.mpr ⟨ih, by simpa using hstart _ hp⟩
  | operation _ hp ih => exact List.forall_mem_append.mpr ⟨ih, by simpa using hresults _ _ ih hp⟩

/-- In a run without division, what every operation keeps is told one operation at a time. -/
theorem Formed.forall_of_form {S : Store R P} {Start I : P → Prop} {l : List P}
    (h : Formed Start S.Results l) (hstart : ∀ p, Start p → I p)
    (hform : ∀ l, (∀ p ∈ l, I p) → ∀ f, Yields (S.form l f) I) : ∀ p ∈ l, I p := by
  refine h.forall hstart ?_
  rintro l p hl ⟨f, hp⟩
  exact (hform l hl f).of_eq_ok hp

/-- The same with division, whose results may be several. -/
theorem Formed.forall_of_divide {S : DivisionStore R P} {Start I : P → Prop} {l : List P}
    (h : Formed Start S.Results l) (hstart : ∀ p, Start p → I p)
    (hform : ∀ l, (∀ p ∈ l, I p) → ∀ f, Yields (S.form l f) I)
    (hdivide : ∀ l, (∀ p ∈ l, I p) → ∀ d, Yields (S.divide l d) (∀ p ∈ ·, I p)) :
    ∀ p ∈ l, I p := by
  refine h.forall hstart ?_
  rintro l p hl (⟨f, hp⟩ | ⟨d, r, hr, hp⟩)
  · exact (hform l hl f).of_eq_ok hp
  · exact (hdivide l hl d).of_eq_ok hr p hp

/-- A place that is not taken reads as zero, which is as good as what is formed. -/
theorem Store.read_of_forall {S : Store R P} {I : P → Prop} {l : List P} (hzero : I S.zero)
    (hl : ∀ p ∈ l, I p) (i : ℕ) : I (S.read l i) := by
  rw [Store.read, List.getD_eq_getElem?_getD]
  cases hi : l[i]? with
  | none => exact hzero
  | some p => exact hl p (List.mem_of_getElem? hi)

/-- What the divisions keep is kept whatever their operands are named. -/
theorem DivisionStore.divide_yields {S : DivisionStore R P} {I : P → Prop} {l : List P}
    (hread : ∀ i, I (S.read l i))
    (hdivRem : ∀ p q, I p → Yields (S.divRem p q) fun t => I t.value.1 ∧ I t.value.2)
    (hdiv : ∀ p q, I p → Yields (S.div p q) (I ·.value))
    (hrem : ∀ p q, I p → Yields (S.rem p q) (I ·.value))
    (hmonic : ∀ p, I p → Yields (S.monic p) I)
    (hgcd : ∀ p q, I p → I q → Yields (S.gcd p q) (I ·.value)) (d : Division) :
    Yields (S.divide l d) (∀ p ∈ ·, I p) := by
  cases d with
  | divRem i j => exact (hdivRem _ _ (hread i)).bind fun _ ht => .pure (by simpa using ht)
  | div i j => exact (hdiv _ _ (hread i)).bind fun _ ht => .pure (by simpa using ht)
  | rem i j => exact (hrem _ _ (hread i)).bind fun _ ht => .pure (by simpa using ht)
  | monic i => exact (hmonic _ (hread i)).bind fun _ hp => .pure (by simpa using hp)
  | gcd i j => exact (hgcd _ _ (hread i) (hread j)).bind fun _ ht => .pure (by simpa using ht)

variable [Coeff R]

/-- What is read off the polynomials of a list is a matter of their coefficients. -/
structure Store.Legible (S : Store R P) (l : List P) : Prop where
  canonical : ∀ p ∈ l, S.Canonical p
  equal_iff : ∀ p ∈ l, ∀ q ∈ l, S.equal p q = true ↔ ∀ n, S.coeff p n = S.coeff q n
  isZero_iff : ∀ p ∈ l, S.isZero p = true ↔ ∀ n, S.coeff p n = Coeff.zero
  leadingCoeff : ∀ p ∈ l, (∀ n, S.coeff p n = Coeff.zero) ∧ S.leadingCoeff? p = none ∨
    ∃ n, IsTop (S.coeff p) n ∧ S.leadingCoeff? p = some (S.coeff p n)

variable [DecidableEq R]

namespace Dense

/-- Ways to a polynomial from nothing. -/
inductive Constructed : Dense R → Prop where
  | ofList (l : List R) : Constructed (ofList l)
  | zero : Constructed zero
  | one : Constructed one
  | x : Constructed x
  | constant (c : R) : Constructed (constant c)
  | monomial {c : R} {n : Exponent} {p : Dense R} (h : monomial c n = .ok p) : Constructed p

theorem Constructed.canonical {p : Dense R} (h : p.Constructed) : p.Canonical := by
  cases h with
  | zero => exact canonical_zero
  | monomial h => exact (monomial_canonical _ _).of_eq_ok h
  | _ => exact canonical_ofList _

/-- The degree, too, is told from the coefficients. -/
structure Legible (l : List (Dense R)) : Prop extends store.Legible l where
  degree : ∀ p ∈ l, (∀ n, p.coeff n = Coeff.zero) ∧ p.degree = -1 ∨
    ∃ n : ℕ, IsTop p.coeff n ∧ p.degree = n

theorem legible_of_canonical {l : List (Dense R)} (h : ∀ p ∈ l, p.Canonical) : Legible l where
  canonical := h
  equal_iff p hp q hq := by
    change decide (p = q) = true ↔ _
    rw [decide_eq_true_iff]
    exact ⟨fun heq n => heq ▸ rfl, (h p hp).ext (h q hq)⟩
  isZero_iff p hp := (h p hp).isZero_iff
  leadingCoeff p hp := by
    cases hlen : p.coeffs.length with
    | zero =>
      have hnil := List.length_eq_zero_iff.mp hlen
      refine .inl ⟨fun n => (h p hp).length_le_iff.mp hlen.le n n.zero_le, ?_⟩
      exact List.getLast?_eq_none_iff.mpr hnil
    | succ n => exact .inr ⟨n, (h p hp).isTop hlen⟩
  degree p hp := by
    cases hlen : p.coeffs.length with
    | zero =>
      refine .inl ⟨fun n => (h p hp).length_le_iff.mp hlen.le n n.zero_le, ?_⟩
      rw [degree, hlen]
      rfl
    | succ n =>
      refine .inr ⟨n, ((h p hp).isTop hlen).1, ?_⟩
      rw [degree, hlen, Nat.cast_succ, add_sub_cancel_right]

theorem form_canonical [ZeroLaws R] {l : List (Dense R)} (h : ∀ p ∈ l, p.Canonical)
    (f : Formation R) : Yields (store.form l f) Canonical := by
  have hread := Store.read_of_forall (S := store) (I := Canonical) canonical_zero h
  cases f with
  | new l => exact .ok (canonical_ofList l)
  | add i j => exact add_canonical _ _
  | sub i j => exact sub_canonical _ _
  | neg i => exact neg_canonical (hread i)
  | mul i j => exact mul_canonical _ _
  | scale i c => exact scale_canonical _ c
  | shift i n => exact .ok (canonical_shift (hread i) n)
  | pow i n => exact pow_canonical (hread i) n
  | derivative i => exact derivative_canonical _
  | compose i j => exact compose_canonical _ _

theorem divide_canonical [CoeffDiv R] {l : List (Dense R)} (h : ∀ p ∈ l, p.Canonical)
    (d : Division) : Yields (divisionStore.divide l d) (∀ p ∈ ·, p.Canonical) := by
  exact DivisionStore.divide_yields (Store.read_of_forall (S := store) canonical_zero h)
    (fun _ q hp => divRem_canonical hp q) (fun _ q hp => div_canonical hp q)
    (fun _ q hp => rem_canonical hp q) (fun _ hp => monic_canonical hp)
    (fun _ _ hp hq => gcd_canonical hp hq) d

end Dense

namespace Sparse

/-- Ways to a polynomial from nothing. Terms may repeat an exponent, and may be zero. -/
inductive Constructed : Sparse R → Prop where
  | ofList (l : List R) : Constructed (ofList l)
  | ofTerms {l : List (Exponent × R)} {p : Sparse R} (h : ofTerms l = .ok p) : Constructed p
  | zero : Constructed zero
  | one : Constructed one
  | x : Constructed x
  | constant (c : R) : Constructed (constant c)
  | monomial (c : R) (n : Exponent) : Constructed (monomial c n)

theorem Constructed.canonical [ZeroLaws R] {p : Sparse R} (h : p.Constructed) : p.Canonical := by
  cases h with
  | ofList l => exact canonical_ofList l
  | ofTerms h => exact (ofTerms_canonical _).of_eq_ok h
  | zero => exact canonical_zero
  | _ => exact canonical_monomial _ _

theorem legible_of_canonical {l : List (Sparse R)} (h : ∀ p ∈ l, p.Canonical) :
    store.Legible l where
  canonical := h
  equal_iff p hp q hq := by
    change decide (p = q) = true ↔ _
    rw [decide_eq_true_iff]
    exact ⟨fun heq n => heq ▸ rfl, (h p hp).ext (h q hq)⟩
  isZero_iff p hp := (h p hp).isZero_iff
  leadingCoeff p hp := by
    cases hlead : p.lead? with
    | none =>
      have hheight : p.height ≤ 0 := by simp [height, hlead]
      refine .inl ⟨fun n => (h p hp).height_le_iff.mp hheight n n.zero_le, ?_⟩
      exact congrArg (Option.map Prod.snd) hlead
    | some t => exact .inr ⟨_, (h p hp).isTop hlead⟩

variable [ZeroLaws R]

theorem form_canonical {l : List (Sparse R)} (h : ∀ p ∈ l, p.Canonical) (f : Formation R) :
    Yields (store.form l f) Canonical := by
  have hread := Store.read_of_forall (S := store) (I := Canonical) canonical_zero h
  cases f with
  | new l => exact .ok (canonical_ofList l)
  | add i j => exact add_canonical (hread i) _
  | sub i j => exact sub_canonical (hread i) _
  | neg i => exact neg_canonical (hread i)
  | mul i j => exact mul_canonical _ _
  | scale i c => exact scale_canonical _ c
  | shift i n => exact shift_canonical (hread i) n
  | pow i n => exact pow_canonical (hread i) n
  | derivative i => exact derivative_canonical _
  | compose i j => exact compose_canonical _ _

theorem divide_canonical [CoeffDiv R] {l : List (Sparse R)} (h : ∀ p ∈ l, p.Canonical)
    (d : Division) : Yields (divisionStore.divide l d) (∀ p ∈ ·, p.Canonical) := by
  exact DivisionStore.divide_yields (Store.read_of_forall (S := store) canonical_zero h)
    (fun _ q hp => divRem_canonical hp q) (fun _ q hp => div_canonical hp q)
    (fun _ q hp => rem_canonical hp q) (fun _ hp => monic_canonical hp)
    (fun _ _ hp hq => gcd_canonical hp hq) d

end Sparse

/-- Over `R`, all that is formed without division is legible, in both stores. -/
def LegibleFormed (R : Type) [Coeff R] [DecidableEq R] : Prop :=
  (∀ l, Formed Dense.Constructed (Dense.store (R := R)).Results l → Dense.Legible l) ∧
    ∀ l, Formed Sparse.Constructed (Sparse.store (R := R)).Results l → Sparse.store.Legible l

/-- The same of all that is formed with division, too. -/
def LegibleFormedDividing (R : Type) [Coeff R] [CoeffDiv R] [DecidableEq R] : Prop :=
  (∀ l, Formed Dense.Constructed (Dense.divisionStore (R := R)).Results l → Dense.Legible l) ∧
    ∀ l, Formed Sparse.Constructed (Sparse.divisionStore (R := R)).Results l →
      Sparse.store.Legible l

theorem legibleFormed_of_zeroLaws [ZeroLaws R] : LegibleFormed R := by
  constructor
  · intro l hl
    exact Dense.legible_of_canonical
      (hl.forall_of_form (fun _ hp => hp.canonical) fun _ => Dense.form_canonical)
  · intro l hl
    exact Sparse.legible_of_canonical
      (hl.forall_of_form (fun _ hp => hp.canonical) fun _ => Sparse.form_canonical)

theorem legibleFormedDividing_of_zeroLaws [CoeffDiv R] [ZeroLaws R] : LegibleFormedDividing R := by
  constructor
  · intro l hl
    exact Dense.legible_of_canonical (hl.forall_of_divide (fun _ hp => hp.canonical)
      (fun _ => Dense.form_canonical) fun _ => Dense.divide_canonical)
  · intro l hl
    exact Sparse.legible_of_canonical (hl.forall_of_divide (fun _ hp => hp.canonical)
      (fun _ => Sparse.form_canonical) fun _ => Sparse.divide_canonical)

/-- Neither divisors of zero nor wrapping, neither a modulus of one nor a division that inverts
nothing leaves a zero behind that should not be stored. -/
theorem formed_legible :
    (LegibleFormed Int ∧ LegibleFormed Int8 ∧ ∀ w, LegibleFormed (Signed w)) ∧
      LegibleFormedDividing Rat ∧ ∀ m, LegibleFormedDividing (Residue m) :=
  ⟨⟨legibleFormed_of_zeroLaws, legibleFormed_of_zeroLaws, fun _ => legibleFormed_of_zeroLaws⟩,
    legibleFormedDividing_of_zeroLaws, fun _ => legibleFormedDividing_of_zeroLaws⟩

/-- Modulo four: `2 * x + 1`, its square, which is one, and its monic form, which is zero because
the reciprocal of two is. -/
theorem formed_legible_four :
    Dense.Legible (R := Residue ⟨4, by decide⟩)
      [Dense.ofList [.ofNat _ 1, .ofNat _ 2], Dense.one, Dense.zero] := by
  refine (formed_legible.2.2 ⟨4, by decide⟩).1 _ (.operation (.operation (.start .nil (.ofList _))
    (.inl ⟨.mul 0 0, ?_⟩)) (.inr ⟨.monic 0, [Dense.zero], ?_, List.mem_singleton_self _⟩))
  · cbv
  · decide

end Univariate
