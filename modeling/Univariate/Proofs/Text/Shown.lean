import Univariate.Proofs.Dense.Canonical
import Univariate.Proofs.Sparse.Canonical
import Univariate.Proofs.Text.Terms

/-! The terms that a text shows, which tell all coefficients and are told by them. -/
namespace Univariate

namespace Text

variable {R : Type} [Coeff R] {l m : List (ℕ × R)} {f g : ℕ → R}

/-- The terms of the coefficients `f`, the highest exponent first. No term is zero but the only one
of the zero polynomial. -/
structure Shows (l : List (ℕ × R)) (f : ℕ → R) : Prop where
  descending : l.Pairwise fun s t => t.1 < s.1
  eq_of_mem {t : ℕ × R} : t ∈ l → f t.1 = t.2
  mem_of_ne {n : ℕ} : f n ≠ Coeff.zero → (n, f n) ∈ l
  zero_or : l = [(0, Coeff.zero)] ∨ l ≠ [] ∧ ∀ t ∈ l, t.2 ≠ Coeff.zero

namespace Shows

theorem coeff_eq (hf : Shows l f) (hg : Shows l g) (n : ℕ) : f n = g n := by
  by_cases hn : f n = Coeff.zero
  · by_contra hne
    rw [hn] at hne
    exact hne (hn ▸ hf.eq_of_mem (hg.mem_of_ne (Ne.symm hne)))
  · exact (hg.eq_of_mem (hf.mem_of_ne hn)).symm

/-- Terms of one polynomial agree in every member that is not zero, and one of them has none only if
the other has none. -/
theorem subset (hl : Shows l f) (hm : Shows m f) : l ⊆ m := by
  intro t ht
  by_cases hzero : t.2 = Coeff.zero
  · have hl' : l = [(0, Coeff.zero)] := hl.zero_or.resolve_right fun h => h.2 t ht hzero
    rcases hm.zero_or with hm' | ⟨hne, hm'⟩
    · rwa [hm', ← hl']
    · obtain ⟨s, hs⟩ := List.exists_mem_of_ne_nil m hne
      have hf : f s.1 ≠ Coeff.zero := by
        rw [hm.eq_of_mem hs]
        exact hm' s hs
      have hmem := hl.mem_of_ne hf
      rw [hl', List.mem_singleton, Prod.mk.injEq] at hmem
      exact absurd hmem.2 hf
  · have hf := hl.eq_of_mem ht
    have hmem := hm.mem_of_ne (n := t.1) (hf ▸ hzero)
    rwa [hf] at hmem

theorem terms_eq (hl : Shows l f) (hm : Shows m f) : l = m := by
  have hirrefl : Std.Irrefl fun s t : ℕ × R => t.1 < s.1 := ⟨fun t => lt_irrefl t.1⟩
  have hantisymm : Std.Antisymm fun s t : ℕ × R => t.1 < s.1 :=
    ⟨fun s t hst hts => absurd hts hst.asymm⟩
  exact List.Subset.antisymm_of_pairwise hl.descending hm.descending (hl.subset hm) (hm.subset hl)

theorem lt_of_mem {bound : ℕ} (h : Shows l f) (hpos : 0 < bound)
    (hf : ∀ n, f n ≠ Coeff.zero → n < bound) : ∀ t ∈ l, t.1 < bound := by
  intro t ht
  rcases h.zero_or with hl | ⟨-, hl⟩
  · rw [hl, List.mem_singleton] at ht
    rwa [ht]
  · apply hf
    rw [h.eq_of_mem ht]
    exact hl t ht

end Shows

variable [DecidableEq R]

theorem shows_shown (hdescending : l.Pairwise fun s t => t.1 < s.1)
    (heq : ∀ t ∈ l, t.2 ≠ Coeff.zero → f t.1 = t.2)
    (hmem : ∀ n, f n ≠ Coeff.zero → (n, f n) ∈ l) : Shows (shown l) f := by
  have hfilter : ∀ n, f n ≠ Coeff.zero → (n, f n) ∈ l.filter fun t => t.2 ≠ Coeff.zero :=
    fun n hn => List.mem_filter.mpr ⟨hmem n hn, decide_eq_true hn⟩
  rw [shown]
  split
  · rename_i hnil
    rw [hnil] at hfilter
    have hzero : f 0 = Coeff.zero := by
      by_contra hne
      simpa using hfilter 0 hne
    refine ⟨List.pairwise_singleton _ _, ?_, fun hn => by simpa using hfilter _ hn, .inl rfl⟩
    intro t ht
    rw [List.mem_singleton.mp ht, hzero]
  · rename_i s r hcons
    rw [← hcons]
    have hne : ∀ t ∈ l.filter fun t => t.2 ≠ Coeff.zero, t ∈ l ∧ t.2 ≠ Coeff.zero :=
      fun t ht => (List.mem_filter.mp ht).imp_right of_decide_eq_true
    refine ⟨hdescending.filter _, ?_, hfilter _, .inr ⟨?_, fun t ht => (hne t ht).2⟩⟩
    · intro t ht
      exact heq t (hne t ht).1 (hne t ht).2
    · rw [hcons]
      exact List.cons_ne_nil s r

end Text

variable {R : Type} [Coeff R] [DecidableEq R]

theorem Dense.shows (p : Dense R) :
    Text.Shows (Text.shown (p.coeffs.zipIdx.reverse.map fun (c, n) => (n, c))) p.coeff := by
  have hmem : ∀ n c, (n, c) ∈ p.coeffs.zipIdx.reverse.map (fun (c, n) => (n, c)) ↔
      p.coeffs[n]? = some c := by
    intro n c
    simp [List.mem_zipIdx_iff_getElem?]
  refine Text.shows_shown ?_ ?_ ?_
  · have hplaces : (p.coeffs.zipIdx.map Prod.snd).Pairwise (· < ·) := by
      rw [List.zipIdx_map_snd]
      exact List.pairwise_lt_range'
    rw [List.pairwise_map, List.pairwise_reverse]
    exact List.pairwise_map.mp hplaces
  · rintro ⟨n, c⟩ ht -
    rw [coeff, List.getD_eq_getElem?_getD, (hmem n c).mp ht]
    rfl
  · intro n hn
    rw [hmem]
    rw [coeff, List.getD_eq_getElem?_getD] at hn ⊢
    cases hget : p.coeffs[n]? with
    | none => simp [hget] at hn
    | some c => rfl

theorem Sparse.shows (p : Sparse R) :
    Text.Shows (Text.shown (p.terms.reverse.map fun (e, c) => (e.toNat, c))) p.coeff := by
  refine Text.shows_shown ?_ ?_ ?_
  · rw [List.pairwise_map, List.pairwise_reverse]
    exact p.ascending.imp fun h => UInt64.lt_iff_toNat_lt.mp h
  · rintro t ht -
    obtain ⟨u, hu, rfl⟩ := List.mem_map.mp ht
    exact coeff_of_mem (List.mem_reverse.mp hu)
  · intro n hn
    obtain ⟨u, hu, rfl, hcoeff⟩ := exists_mem_of_coeff_ne hn
    exact List.mem_map.mpr ⟨u, List.mem_reverse.mpr hu, by rw [← hcoeff]⟩

end Univariate
