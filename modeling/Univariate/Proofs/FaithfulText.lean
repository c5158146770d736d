import Univariate.Proofs.Store
import Univariate.Proofs.Text.Reading

/-! Text that loses nothing of a polynomial. -/
namespace Univariate

variable {R P : Type} [Coeff R] [Numeral R]

/-- The text of a polynomial shows its terms, and nothing else has the same text. It is read back as
the polynomial, where that has room for its exponents. -/
structure FaithfulText (S : Store R P) (Room : P → Prop) (text : P → String)
    (ofText? : String → Option P) : Prop where
  shows (p : P) : S.Canonical p → ∃ l, Text.terms? (text p) = some l ∧ Text.Shows l (S.coeff p)
  read_back (p : P) : S.Canonical p → Room p → ofText? (text p) = some p
  text_eq_iff (p q : P) : S.Canonical p → S.Canonical q → (text p = text q ↔ p = q)

variable [DecidableEq R] [LT R] [DecidableLT R]

/-- The same in both stores, and across them: text is a matter of coefficients. The exponents that a
dense polynomial has room for are those whose slots can be counted by a word. -/
structure TextLosesNothing (R : Type) [Coeff R] [Numeral R] [DecidableEq R] [LT R]
    [DecidableLT R] : Prop where
  dense : FaithfulText Dense.store (fun p : Dense R => p.coeffs.length < UInt64.size) Dense.text
    Dense.ofText?
  sparse : FaithfulText Sparse.store (fun _ : Sparse R => True) Sparse.text Sparse.ofText?
  across (p : Dense R) (s : Sparse R) : p.text = s.text ↔ ∀ n, p.coeff n = s.coeff n

variable [LawfulNumeral R]

/-- Texts differ exactly where coefficients do. -/
theorem Text.ofTerms_eq_iff {l m : List (ℕ × R)} {f g : ℕ → R} (hl : Shows (shown l) f)
    (hm : Shows (shown m) g) :
    String.ofList (ofTerms l) = .ofList (ofTerms m) ↔ ∀ n, f n = g n := by
  constructor
  · intro h
    have hterms : some (shown l) = some (shown m) := by
      rw [← terms?_ofTerms l, h, terms?_ofTerms m]
    rw [← Option.some.inj hterms] at hm
    exact hl.coeff_eq hm
  · intro h
    obtain rfl : f = g := funext h
    rw [← ofTerms_shown l, hl.terms_eq hm, ofTerms_shown m]

variable [ZeroLaws R]

theorem Dense.ofText?_text {p : Dense R} (hp : p.Canonical)
    (hlen : p.coeffs.length < UInt64.size) : Dense.ofText? p.text = some p := by
  have hbelow : ∀ n, p.coeff n ≠ Coeff.zero → n < UInt64.size - 1 := by
    intro n hn
    by_contra hle
    exact hn (List.getD_eq_default _ _ (by omega))
  obtain ⟨q, hq, hcanonical, hcoeff⟩ := p.shows.foldlM (S := store)
    (fun _ _ _ => addTerm?_of_free) (p.shows.lt_of_mem (by decide) hbelow) canonical_zero
    fun n => rfl
  rw [Dense.ofText?, text, Text.terms?_ofTerms]
  exact hq.trans (congrArg some (hcanonical.ext hp hcoeff))

theorem Sparse.ofText?_text {p : Sparse R} (hp : p.Canonical) :
    Sparse.ofText? p.text = some p := by
  have hbelow : ∀ n, p.coeff n ≠ Coeff.zero → n < UInt64.size := by
    intro n hn
    obtain ⟨t, -, rfl, -⟩ := exists_mem_of_coeff_ne hn
    exact t.1.toNat_lt
  obtain ⟨q, hq, hcanonical, hcoeff⟩ := p.shows.foldlM (S := store)
    (fun _ _ => addTerm?_of_free) (p.shows.lt_of_mem (by decide) hbelow) canonical_zero
    fun n => rfl
  rw [Sparse.ofText?, text, Text.terms?_ofTerms]
  exact hq.trans (congrArg some (hcanonical.ext hp hcoeff))

theorem textLosesNothing : TextLosesNothing R where
  dense :=
    { shows := fun p _ => ⟨_, Text.terms?_ofTerms _, p.shows⟩
      read_back := fun _ => Dense.ofText?_text
      text_eq_iff := fun p q hp hq => (Text.ofTerms_eq_iff p.shows q.shows).trans
        ⟨hp.ext hq, fun h _ => h ▸ rfl⟩ }
  sparse :=
    { shows := fun p _ => ⟨_, Text.terms?_ofTerms _, p.shows⟩
      read_back := fun _ hp _ => Sparse.ofText?_text hp
      text_eq_iff := fun p q hp hq => (Text.ofTerms_eq_iff p.shows q.shows).trans
        ⟨hp.ext hq, fun h _ => h ▸ rfl⟩ }
  across p s := Text.ofTerms_eq_iff p.shows s.shows

/-- Over the integers, the rational numbers and the machine integers of every width. -/
theorem text_loses_nothing :
    TextLosesNothing ℤ ∧ TextLosesNothing ℚ ∧ ∀ w, TextLosesNothing (Signed w) :=
  ⟨textLosesNothing, textLosesNothing, fun _ => textLosesNothing⟩

/-- A sign for minus one, a fraction, and the largest exponent. -/
theorem text_loses_nothing_largest :
    let p : Sparse ℚ := .collect [(0, -3), (1, 1 / 2), (18446744073709551615, -1)]
    p.text = "-x^18446744073709551615+1/2*x-3" ∧ Sparse.ofText? p.text = some p := by
  intro p
  have hp : p.Canonical := Sparse.canonical_collect (by decide +kernel)
  exact ⟨by decide +kernel, text_loses_nothing.2.1.sparse.read_back p hp trivial⟩

end Univariate
