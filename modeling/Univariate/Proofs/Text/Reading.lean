import Univariate.Proofs.Slotwise
import Univariate.Proofs.Store
import Univariate.Proofs.Text.Shown

/-! A polynomial is read from its text by adding up its terms. No two have one exponent, so no sum
of two coefficients that are not zero is ever formed, and none can overflow. -/
namespace Univariate

variable {R : Type} [Coeff R] {P : Type}

namespace Text

section Loop

variable {S : Store R P} {step : P → ℕ × R → Option P} {bound : ℕ} {l : List (ℕ × R)} {p : P}
  (hstep : ∀ p t, S.Canonical p → t.1 < bound → S.coeff p t.1 = Coeff.zero →
    ∃ q, step p t = some q ∧ S.Canonical q ∧
      ∀ n, S.coeff q n = if t.1 = n then t.2 else S.coeff p n)
include hstep

/-- A loop that adds terms at lower and lower exponents leaves in place what it has added. -/
theorem foldlM_of_descending (hl : l.Pairwise fun s t => t.1 < s.1) (hbound : ∀ t ∈ l, t.1 < bound)
    (hp : S.Canonical p) (hzero : ∀ t ∈ l, S.coeff p t.1 = Coeff.zero) :
    ∃ q, l.foldlM step p = some q ∧ S.Canonical q ∧ (∀ t ∈ l, S.coeff q t.1 = t.2) ∧
      ∀ n, (∀ t ∈ l, t.1 ≠ n) → S.coeff q n = S.coeff p n := by
  induction l generalizing p with
  | nil => exact ⟨p, rfl, hp, by simp, fun _ _ => rfl⟩
  | cons t l ih =>
    obtain ⟨ht, hl⟩ := List.pairwise_cons.mp hl
    obtain ⟨hlt, hbound⟩ := List.forall_mem_cons.mp hbound
    obtain ⟨hfree, hzero⟩ := List.forall_mem_cons.mp hzero
    obtain ⟨q, hq, hcanonical, hcoeff⟩ := hstep p t hp hlt hfree
    have hbelow : ∀ s ∈ l, S.coeff q s.1 = Coeff.zero := by
      intro s hs
      rw [hcoeff, if_neg (ht s hs).ne', hzero s hs]
    obtain ⟨r, hr, hcanonical, hmem, hrest⟩ := ih hl hbound hcanonical hbelow
    refine ⟨r, ?_, hcanonical, List.forall_mem_cons.mpr ⟨?_, hmem⟩, fun n hn => ?_⟩
    · rw [List.foldlM_cons, hq]
      exact hr
    · rw [hrest t.1 fun s hs => (ht s hs).ne, hcoeff, if_pos rfl]
    · obtain ⟨htn, hn⟩ := List.forall_mem_cons.mp hn
      rw [hrest n hn, hcoeff, if_neg htn]

theorem Shows.foldlM {f : ℕ → R} (h : Shows l f) (hbound : ∀ t ∈ l, t.1 < bound)
    (hp : S.Canonical p) (hzero : ∀ n, S.coeff p n = Coeff.zero) :
    ∃ q, l.foldlM step p = some q ∧ S.Canonical q ∧ ∀ n, S.coeff q n = f n := by
  obtain ⟨q, hq, hcanonical, hmem, hrest⟩ :=
    foldlM_of_descending hstep h.descending hbound hp fun t _ => hzero t.1
  refine ⟨q, hq, hcanonical, fun n => ?_⟩
  by_cases hn : ∃ t ∈ l, t.1 = n
  · obtain ⟨t, ht, rfl⟩ := hn
    rw [hmem t ht, h.eq_of_mem ht]
  · have hn : ∀ t ∈ l, t.1 ≠ n := fun t ht htn => hn ⟨t, ht, htn⟩
    rw [hrest n hn, hzero]
    by_contra hf
    exact hn _ (h.mem_of_ne (Ne.symm hf)) rfl

end Loop

end Text

variable [DecidableEq R]

namespace Dense

/-- What reading a text does with each term. -/
def addTerm? (p : Dense R) (t : ℕ × R) : Option (Dense R) :=
  (Word.ofNat? t.1).bind fun e => (monomial t.2 e).toOption.bind fun m => (p.add m).toOption

variable [ZeroLaws R]

theorem combine_of_disjoint {l l' : List R}
    (h : ∀ n, l.getD n Coeff.zero = Coeff.zero ∨ l'.getD n Coeff.zero = Coeff.zero) :
    Returns (combine Coeff.add l l') fun r => ∀ n, r.getD n Coeff.zero =
      if l'.getD n Coeff.zero = Coeff.zero then l.getD n Coeff.zero else l'.getD n Coeff.zero := by
  have hsum (n : ℕ) : Coeff.add (l.getD n Coeff.zero) (l'.getD n Coeff.zero) =
      .ok (if l'.getD n Coeff.zero = Coeff.zero then l.getD n Coeff.zero
        else l'.getD n Coeff.zero) := by
    split
    · rename_i hn
      rw [hn, ZeroLaws.add_zero]
    · rename_i hn
      rw [(h n).resolve_right hn, ZeroLaws.zero_add]
  refine ((combine_slotwise ZeroLaws.add_zero l l').imp fun r hr n => ?_).returns ?_
  · exact (Except.ok.inj ((hsum n).symm.trans (hr n))).symm
  · rintro e ⟨n, hn⟩
    rw [hsum n] at hn
    cases hn

theorem addTerm?_of_free {p : Dense R} {t : ℕ × R} (ht : t.1 < UInt64.size - 1)
    (hfree : p.coeff t.1 = Coeff.zero) : ∃ q, p.addTerm? t = some q ∧ q.Canonical ∧
      ∀ n, q.coeff n = if t.1 = n then t.2 else p.coeff n := by
  have hword : (UInt64.ofNat t.1).toNat = t.1 := UInt64.toNat_ofNat_of_lt' (by omega)
  have hfit : (UInt64.ofNat t.1).toNat + 1 < UInt64.size := by omega
  obtain ⟨m, hm⟩ := exists_monomial t.2 hfit
  obtain ⟨-, hcoeff⟩ := (monomial_yields t.2 (.ofNat t.1)).of_eq_ok hm
  rw [hword] at hcoeff
  have hdisjoint : ∀ n, p.coeff n = Coeff.zero ∨ m.coeff n = Coeff.zero := by
    intro n
    by_cases hn : t.1 = n
    · exact .inl (hn ▸ hfree)
    · exact .inr (by rw [hcoeff, if_neg hn])
  obtain ⟨r, hr, hsum⟩ := combine_of_disjoint hdisjoint
  refine ⟨ofList r, ?_, canonical_ofList r, fun n => ?_⟩
  · rw [addTerm?, Word.ofNat?, if_pos (by omega), Option.bind_some, hm]
    change (p.add m).toOption = _
    rw [add, hr]
    rfl
  · have hn : (ofList r).coeff n = if m.coeff n = Coeff.zero then p.coeff n else m.coeff n :=
      (coeff_ofList r n).trans (hsum n)
    rcases eq_or_ne t.1 n with rfl | htn
    · rw [hcoeff, if_pos rfl, hfree] at hn
      rw [hn, if_pos rfl, ite_eq_right_iff]
      exact Eq.symm
    · rw [hcoeff, if_neg htn, if_pos rfl] at hn
      rw [hn, if_neg htn]

end Dense

namespace Sparse

/-- What reading a text does with each term. -/
def addTerm? (p : Sparse R) (t : ℕ × R) : Option (Sparse R) :=
  (Word.ofNat? t.1).bind fun e => (p.addTerm e t.2).toOption

theorem addTerm?_of_free [ZeroLaws R] {p : Sparse R} {t : ℕ × R} (hp : p.Canonical)
    (ht : t.1 < UInt64.size) (hfree : p.coeff t.1 = Coeff.zero) :
    ∃ q, p.addTerm? t = some q ∧ q.Canonical ∧
      ∀ n, q.coeff n = if t.1 = n then t.2 else p.coeff n := by
  have hword : (UInt64.ofNat t.1).toNat = t.1 := UInt64.toNat_ofNat_of_lt' ht
  refine ⟨p.set (.ofNat t.1) t.2, ?_, canonical_set hp _ _, fun n => ?_⟩
  · rw [addTerm?, Word.ofNat?, if_pos ht, Option.bind_some, addTerm_eq hp, hword, hfree,
      ZeroLaws.zero_add]
    rfl
  · rw [coeff_set, hword]

end Sparse

end Univariate
