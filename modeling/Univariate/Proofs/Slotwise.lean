import Univariate.Dense.Arithmetic
import Univariate.Proofs.Returns
import Univariate.Proofs.Sparse.Canonical

/-! Loops that combine two polynomials exponent by exponent. Whether slots or terms are combined, a
coefficient depends on the two at its exponent alone. -/
namespace Univariate

variable {R P : Type} [Coeff R] {op : R → R → Except Fault R}

/-- The coefficients of a result are those that `op` makes of two families, exponent by exponent,
and a fault is one of `op` at some exponent. -/
def Slotwise (op : R → R → Except Fault R) (f g : ℕ → R) (coeff : P → ℕ → R) (x : Except Fault P) :
    Prop :=
  Ends (fun e => ∃ n, op (f n) (g n) = .error e) x fun r => ∀ n, op (f n) (g n) = .ok (coeff r n)

/-- Slots are combined in their order, and those after the second list stay. -/
theorem Dense.combine_slotwise (hzero : ∀ a, op a Coeff.zero = .ok a) (l q : List R) :
    Slotwise op (l.getD · Coeff.zero) (q.getD · Coeff.zero) (fun r n => r.getD n Coeff.zero)
      (combine op l q) := by
  induction q generalizing l with
  | nil =>
    rw [combine_nil]
    intro n
    exact hzero _
  | cons b q ih =>
    have hhead : l.getD 0 Coeff.zero = l.headD Coeff.zero := by cases l <;> rfl
    have htail : ∀ n, l.getD (n + 1) Coeff.zero = l.tail.getD n Coeff.zero := by
      intro n
      cases l <;> rfl
    rw [combine_cons, ← hhead]
    cases hc : op (l.getD 0 Coeff.zero) b with
    | error e => exact ⟨0, hc⟩
    | ok c =>
      have hrest := ih l.tail
      simp only [← htail] at hrest
      refine (hrest.weaken fun e ⟨n, hn⟩ => ⟨n + 1, hn⟩).bind fun r hr => .pure fun n => ?_
      cases n with
      | zero => exact hc
      | succ n => exact hr n

variable [DecidableEq R]

/-- Exponents ascend, so each term finds what stood at its exponent before the loop. -/
theorem Sparse.foldlM_set_ends {step : Sparse R → Exponent × R → Except Fault (Sparse R)}
    (hstep : ∀ s t, s.Canonical →
      step s t = op (s.coeff t.1.toNat) t.2 >>= fun c => pure (s.set t.1 c))
    {l : List (Exponent × R)} (hl : l.Pairwise fun s t => s.1 < t.1) {p : Sparse R}
    (hp : p.Canonical) :
    Ends (fun e => ∃ t ∈ l, op (p.coeff t.1.toNat) t.2 = .error e) (l.foldlM step p) fun r =>
      (∀ t ∈ l, op (p.coeff t.1.toNat) t.2 = .ok (r.coeff t.1.toNat)) ∧
        ∀ n, (∀ t ∈ l, t.1.toNat ≠ n) → r.coeff n = p.coeff n := by
  induction l generalizing p with
  | nil => exact .pure ⟨by simp, fun _ _ => rfl⟩
  | cons t l ih =>
    obtain ⟨hlater, hl⟩ := List.pairwise_cons.mp hl
    rw [List.foldlM_cons, hstep p t hp]
    cases hc : op (p.coeff t.1.toNat) t.2 with
    | error e => exact ⟨t, List.mem_cons_self, hc⟩
    | ok c =>
      have hne : ∀ u ∈ l, u.1.toNat ≠ t.1.toNat := fun u hu =>
        (UInt64.lt_iff_toNat_lt.mp (hlater u hu)).ne'
      have hkeep : ∀ u ∈ l, (p.set t.1 c).coeff u.1.toNat = p.coeff u.1.toNat := by
        intro u hu
        rw [coeff_set, if_neg (hne u hu).symm]
      refine ((ih hl (canonical_set hp t.1 c)).weaken ?_).imp ?_
      · rintro e ⟨u, hu, he⟩
        rw [hkeep u hu] at he
        exact ⟨u, List.mem_cons_of_mem t hu, he⟩
      · rintro r ⟨hterms, hrest⟩
        constructor
        · intro u hu
          rcases List.mem_cons.mp hu with rfl | hu
          · rw [hrest _ hne, coeff_set, if_pos rfl]
            exact hc
          · rw [← hkeep u hu]
            exact hterms u hu
        · intro n hn
          obtain ⟨htn, hn⟩ := List.forall_mem_cons.mp hn
          rw [hrest n hn, coeff_set, if_neg htn]

/-- Where no term is stored, zero is combined, which changes nothing. -/
theorem Sparse.foldlM_set_slotwise (hzero : ∀ a, op a Coeff.zero = .ok a)
    {step : Sparse R → Exponent × R → Except Fault (Sparse R)}
    (hstep : ∀ s t, s.Canonical →
      step s t = op (s.coeff t.1.toNat) t.2 >>= fun c => pure (s.set t.1 c))
    {p : Sparse R} (hp : p.Canonical) (q : Sparse R) :
    Slotwise op p.coeff q.coeff coeff (q.terms.foldlM step p) := by
  refine ((foldlM_set_ends hstep q.ascending hp).weaken ?_).imp ?_
  · rintro e ⟨t, ht, he⟩
    refine ⟨t.1.toNat, ?_⟩
    rw [coeff_of_mem ht]
    exact he
  · rintro r ⟨hterms, hrest⟩ n
    by_cases hn : ∃ t ∈ q.terms, t.1.toNat = n
    · obtain ⟨t, ht, rfl⟩ := hn
      rw [coeff_of_mem ht]
      exact hterms t ht
    · have hfree : ∀ t ∈ q.terms, t.1.toNat ≠ n := fun t ht hn' => hn ⟨t, ht, hn'⟩
      have hcoeff : q.coeff n = Coeff.zero := by
        by_contra hne
        obtain ⟨t, ht, htn, -⟩ := exists_mem_of_coeff_ne hne
        exact hfree t ht htn
      rw [hcoeff, hrest n hfree]
      exact hzero _

end Univariate
