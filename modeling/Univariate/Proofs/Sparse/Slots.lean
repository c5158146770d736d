import Mathlib.Data.List.GetD
import Univariate.Proofs.Sparse.Canonical

/-! Lists of slots read as terms: the zeros among them are left out. -/
namespace Univariate.Sparse

variable {R : Type} [Coeff R]

/-- A canonical polynomial with the coefficients of a list of slots. -/
structure HasSlots (s : Sparse R) (l : List R) : Prop where
  canonical : s.Canonical
  coeff_eq (n : ℕ) : s.coeff n = l.getD n Coeff.zero

variable [DecidableEq R] {s : Sparse R}

/-- The terms of the slots of a list, whose first slot is that of exponent `k`. -/
def slotTerms (k : ℕ) (l : List R) : List (Exponent × R) :=
  ((l.zipIdx k).filter fun t => t.1 ≠ Coeff.zero).map fun t => (.ofNat t.2, t.1)

theorem ofList_eq_collect (l : List R) : ofList l = collect (slotTerms 0 l) := rfl

theorem slotTerms_nil (k : ℕ) : slotTerms k ([] : List R) = [] := rfl

theorem slotTerms_cons (k : ℕ) (a : R) (l : List R) :
    slotTerms k (a :: l) =
      if a = Coeff.zero then slotTerms (k + 1) l else (.ofNat k, a) :: slotTerms (k + 1) l := by
  rw [slotTerms, List.zipIdx_cons]
  split
  · rename_i ha
    rw [List.filter_cons_of_neg (by simp [ha])]
    rfl
  · rename_i ha
    rw [List.filter_cons_of_pos (by simp [ha])]
    rfl

/-- A last slot that is not zero has a term. -/
theorem slotTerms_ne_nil {k : ℕ} {a : R} {l : List R}
    (hlast : (a :: l).getLast? ≠ some Coeff.zero) : slotTerms k (a :: l) ≠ [] := by
  induction l generalizing k a with
  | nil =>
    have ha : a ≠ Coeff.zero := by simpa using hlast
    rw [slotTerms_cons, if_neg ha]
    exact List.cons_ne_nil _ _
  | cons b l ih =>
    rw [List.getLast?_cons_cons] at hlast
    rw [slotTerms_cons]
    split
    · exact ih hlast
    · exact List.cons_ne_nil _ _

theorem le_of_mem_slotTerms {k : ℕ} {l : List R} (h : k + l.length ≤ UInt64.size)
    {t : Exponent × R} (ht : t ∈ slotTerms k l) : k ≤ t.1.toNat := by
  obtain ⟨u, hu, rfl⟩ := List.mem_map.mp ht
  obtain ⟨hlow, hhigh, -⟩ := List.mem_zipIdx (List.mem_filter.mp hu).1
  rw [UInt64.toNat_ofNat_of_lt' (by omega)]
  exact hlow

theorem ascending_slotTerms {k : ℕ} {l : List R} (h : k + l.length ≤ UInt64.size) :
    (slotTerms k l).Pairwise fun s t => s.1 < t.1 := by
  induction l generalizing k with
  | nil => exact .nil
  | cons a l ih =>
    rw [List.length_cons] at h
    rw [slotTerms_cons]
    split
    · exact ih (by omega)
    · refine List.pairwise_cons.mpr ⟨fun t ht => ?_, ih (by omega)⟩
      rw [UInt64.lt_iff_toNat_lt, UInt64.toNat_ofNat_of_lt' (by omega)]
      exact le_of_mem_slotTerms (by omega) ht

/-- All terms but that of exponent zero. -/
theorem filter_slotTerms {l : List R} (h : l.length ≤ UInt64.size) :
    ((slotTerms 0 l).filter fun t => 0 < t.1) = slotTerms 1 l.tail := by
  cases l with
  | nil => rfl
  | cons a l =>
    rw [List.length_cons] at h
    have hpos : ∀ t ∈ slotTerms 1 l, decide (0 < t.1) = true := by
      intro t ht
      have hlow := le_of_mem_slotTerms (by omega) ht
      rw [decide_eq_true_iff, UInt64.lt_iff_toNat_lt, UInt64.toNat_zero]
      omega
    rw [slotTerms_cons, List.tail_cons]
    split
    · exact List.filter_eq_self.mpr hpos
    · rw [List.filter_cons_of_neg (by simp), List.filter_eq_self.mpr hpos]

theorem getD_find?_slotTerms {k : ℕ} {l : List R} (h : k + l.length ≤ UInt64.size) (n : ℕ) :
    (((slotTerms k l).find? fun t => t.1.toNat = n).map Prod.snd).getD Coeff.zero =
      if k ≤ n then l.getD (n - k) Coeff.zero else Coeff.zero := by
  induction l generalizing k with
  | nil => simp [slotTerms_nil]
  | cons a l ih =>
    rw [List.length_cons] at h
    have hk : (UInt64.ofNat k).toNat = k := UInt64.toNat_ofNat_of_lt' (by omega)
    have hrest := ih (k := k + 1) (by omega)
    rw [slotTerms_cons]
    rcases lt_trichotomy k n with hlt | rfl | hgt
    · have hsub : n - k = n - (k + 1) + 1 := by omega
      rw [if_pos (by omega)] at hrest
      rw [if_pos hlt.le, hsub, List.getD_cons_succ, ← hrest]
      split
      · rfl
      · rw [List.find?_cons_of_neg (by simp [hk, hlt.ne])]
    · rw [if_neg (by omega)] at hrest
      rw [if_pos le_rfl, Nat.sub_self, List.getD_cons_zero]
      split
      · rename_i ha
        rw [hrest, ha]
      · rw [List.find?_cons_of_pos (by simp [hk])]
        rfl
    · rw [if_neg (by omega)] at hrest
      rw [if_neg (not_le.mpr hgt)]
      split
      · exact hrest
      · rw [List.find?_cons_of_neg (by simp [hk, hgt.ne'])]
        exact hrest

theorem hasSlots_ofList {l : List R} (h : l.length ≤ UInt64.size) : (ofList l).HasSlots l where
  canonical := canonical_ofList l
  coeff_eq n := by
    have hcoeff := getD_find?_slotTerms (k := 0) (l := l) (by omega) n
    rw [if_pos n.zero_le, Nat.sub_zero] at hcoeff
    rw [ofList_eq_collect, coeff, get?, terms_collect (ascending_slotTerms (by omega)), hcoeff]

omit [DecidableEq R] in
theorem hasSlots_replicate (n : ℕ) : (zero : Sparse R).HasSlots (List.replicate n Coeff.zero) where
  canonical := canonical_zero
  coeff_eq m := by
    rw [List.getD_eq_getElem?_getD, List.getElem?_replicate]
    split <;> rfl

theorem constant_eq (c : R) : constant c = ofList [c] := by
  rw [constant, monomial, ofList_eq_collect, slotTerms_cons]
  split <;> rfl

namespace HasSlots

/-- What is stored is told by the slots. -/
theorem terms_eq {l : List R} (h : s.HasSlots l) (hl : l.length ≤ UInt64.size) :
    s.terms = slotTerms 0 l := by
  have heq : s = ofList l :=
    h.canonical.ext (canonical_ofList l) fun n => by rw [h.coeff_eq, (hasSlots_ofList hl).coeff_eq]
  rw [heq, ofList_eq_collect, terms_collect (ascending_slotTerms (by omega))]

omit [DecidableEq R] in
/-- A slot of zero after the last one is no other polynomial. -/
theorem pad {l : List R} (h : s.HasSlots l) : s.HasSlots (l ++ [Coeff.zero]) where
  canonical := h.canonical
  coeff_eq n := by
    rw [h.coeff_eq]
    rcases lt_trichotomy n l.length with hlt | rfl | hgt
    · rw [List.getD_append _ _ _ _ hlt]
    · simp
    · have hlen : (l ++ [Coeff.zero]).length ≤ n := by
        rw [List.length_append, List.length_singleton]
        exact hgt
      rw [List.getD_eq_default _ _ hgt.le, List.getD_eq_default _ _ hlen]

omit [DecidableEq R] in
theorem headD {done l : List R} (h : s.HasSlots (done ++ l)) :
    s.HasSlots (done ++ l.headD Coeff.zero :: l.tail) := by
  cases l with
  | nil => simpa using h.pad
  | cons => exact h

theorem set {done rest : List R} {a : R} (h : s.HasSlots (done ++ a :: rest)) {e : Exponent}
    (he : e.toNat = done.length) (c : R) : (s.set e c).HasSlots (done ++ c :: rest) where
  canonical := canonical_set h.canonical e c
  coeff_eq n := by
    rw [coeff_set, h.coeff_eq, he]
    rcases lt_trichotomy n done.length with hlt | rfl | hgt
    · rw [if_neg hlt.ne', List.getD_append _ _ _ _ hlt, List.getD_append _ _ _ _ hlt]
    · simp
    · obtain ⟨m, rfl⟩ := Nat.exists_eq_add_of_lt hgt
      rw [if_neg hgt.ne, List.getD_append_right _ _ _ _ hgt.le,
        List.getD_append_right _ _ _ _ hgt.le]
      have hsub : done.length + m + 1 - done.length = m + 1 := by omega
      rw [hsub, List.getD_cons_succ, List.getD_cons_succ]

omit [DecidableEq R] in
theorem coeff_slot {done rest : List R} {a : R} (h : s.HasSlots (done ++ a :: rest)) :
    s.coeff done.length = a := by
  rw [h.coeff_eq]
  simp

end HasSlots

end Univariate.Sparse
