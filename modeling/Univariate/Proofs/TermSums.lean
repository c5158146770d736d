import Univariate.Proofs.RingLaws
import Univariate.Walk

/-! Terms may be given in any order, with repeated exponents and with coefficients of zero: what is
stored is their sum. A term may come and go any number of times on the way. -/
namespace Univariate.Sparse

variable {R : Type}

/-- The sum of the coefficients that are given at exponent `n`. -/
def total [AddCommMonoid R] (l : List (Exponent × R)) (n : ℕ) : R :=
  ((l.filter fun t => t.1.toNat = n).map Prod.snd).sum

/-- The terms of `p` are taken from the front one by one: those that are not zero, once each and in
strictly ascending order of exponent. -/
structure Iterates [Coeff R] (p : Sparse R) (l : List (Exponent × R)) : Prop where
  taken (n : ℕ) :
    (walk (List.replicate n .front) p.terms).map Prod.fst = (List.range n).map fun i => l[i]?
  ascending : l.Pairwise fun s t => s.1 < t.1
  mem_iff (t : Exponent × R) : t ∈ l ↔ t.2 ≠ Coeff.zero ∧ p.coeff t.1.toNat = t.2

theorem Canonical.iterates_terms [Coeff R] {p : Sparse R} (h : p.Canonical) :
    p.Iterates p.terms where
  taken n := walk_front n p.terms
  ascending := p.ascending
  mem_iff _ := h.mem_terms_iff

/-- Lists of terms are summed exponent by exponent, in whatever order they come and wherever they
are cut, and the terms of a polynomial are summed to itself. -/
structure SumsTerms (R : Type) [CommRing R] [Coeff R] [DecidableEq R] : Prop where
  coeff (l : List (Exponent × R)) :
    Returns (ofTerms l) fun p => p.Canonical ∧ ∀ n, p.coeff n = total l n
  perm {l l' : List (Exponent × R)} : l.Perm l' → Coincide (ofTerms l) (ofTerms l')
  append (l l' : List (Exponent × R)) : Coincide (ofTerms (l ++ l'))
    (ofTerms l >>= fun p => ofTerms l' >>= fun q => p.add q)
  iterated {p : Sparse R} : p.Canonical → p.Iterates p.terms ∧ ofTerms p.terms = .ok p

section SumOf

variable [CommRing R] {l l' : List (Exponent × R)}

theorem coeff_sumOf_eq_total (l : List (Exponent × R)) (n : ℕ) :
    (sumOf l).coeff n = total l n := by
  induction l with
  | nil => rfl
  | cons t l ih =>
    rw [sumOf_cons, Polynomial.coeff_add, coeff_termOf, ih]
    by_cases hn : t.1.toNat = n
    · simp [total, hn]
    · simp [total, hn]

theorem sumOf_append (l l' : List (Exponent × R)) : sumOf (l ++ l') = sumOf l + sumOf l' := by
  rw [sumOf, List.map_append, List.sum_append]
  rfl

theorem sumOf_perm (h : l.Perm l') : sumOf l = sumOf l' := (h.map termOf).sum_eq

end SumOf

variable [CommRing R] [Coeff R] [ExactCoeff R] [DecidableEq R] {p : Sparse R}

theorem coeff_ofTerms (l : List (Exponent × R)) :
    Returns (ofTerms l) fun p => p.Canonical ∧ ∀ n, p.coeff n = total l n := by
  refine (ofTerms_represents l).imp ?_
  intro p hp
  refine ⟨hp.canonical, ?_⟩
  intro n
  rw [hp.coeff_eq, coeff_sumOf_eq_total]

theorem ofTerms_perm {l l' : List (Exponent × R)} (h : l.Perm l') :
    Coincide (ofTerms l) (ofTerms l') :=
  store_lawful.coincide (ofTerms_represents l) (ofTerms_represents l') (sumOf_perm h)

theorem ofTerms_append (l l' : List (Exponent × R)) : Coincide (ofTerms (l ++ l'))
    (ofTerms l >>= fun p => ofTerms l' >>= fun q => p.add q) := by
  have hsum : Returns (ofTerms l >>= fun p => ofTerms l' >>= fun q => p.add q)
      (·.Represents (sumOf l + sumOf l')) := by
    refine (ofTerms_represents l).bind ?_
    intro p hp
    refine (ofTerms_represents l').bind ?_
    intro q hq
    exact add_represents hp hq
  exact store_lawful.coincide (ofTerms_represents (l ++ l')) hsum (sumOf_append l l')

/-- Given in their order, the stored terms are stored again as they were. -/
theorem ofTerms_terms (h : p.Canonical) : ofTerms p.terms = .ok p :=
  store_lawful.eq_ok (ofTerms_represents p.terms) (represents_toPoly h) rfl

/-- Over any ring whose arithmetic is exact, whatever vanishes on the way. -/
theorem terms_sum_in_any_order : SumsTerms R where
  coeff := coeff_ofTerms
  perm := ofTerms_perm
  append := ofTerms_append
  iterated h := ⟨h.iterates_terms, ofTerms_terms h⟩

/-- Over bytes the first three coefficients at the exponent three add up to zero, and the term is
stored anew by the fourth; backwards it never vanishes. -/
theorem terms_sum_in_any_order_bytes :
    let l : List (Exponent × Int8) := [(3, 100), (0, 1), (3, 100), (5, 0), (3, 56), (3, 7), (0, 6)]
    ∃ p, ofTerms l = .ok p ∧ ofTerms l.reverse = .ok p ∧ p.coeff 0 = 7 ∧ p.coeff 3 = 7 ∧
      p.coeff 5 = 0 := by
  intro l
  have hsums := terms_sum_in_any_order (R := Int8)
  obtain ⟨p, hl, hreverse⟩ := hsums.perm l.reverse_perm.symm
  obtain ⟨-, hcoeff⟩ := (hsums.coeff l).of_eq_ok hl
  refine ⟨p, hl, hreverse, ?_, ?_, ?_⟩
  · exact (hcoeff 0).trans (by decide)
  · exact (hcoeff 3).trans (by decide)
  · exact (hcoeff 5).trans (by decide)

end Univariate.Sparse
