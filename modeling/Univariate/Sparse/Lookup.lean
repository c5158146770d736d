import Univariate.Sparse.Basic

/-! What is stored at each exponent after a change of one term. -/
namespace Univariate.Sparse

variable {R : Type}

theorem find?_put (e : Exponent) (c : R) (l : List (Exponent × R)) (n : Nat) :
    ((put e c l).find? fun t => t.1.toNat = n) =
      if e.toNat = n then some (e, c) else l.find? fun t => t.1.toNat = n := by
  induction l with
  | nil => by_cases hn : e.toNat = n <;> simp [put, hn]
  | cons t l ih =>
    unfold put
    split
    · by_cases hn : e.toNat = n <;> simp [hn]
    · split
      · rename_i he
        by_cases ht : t.1.toNat = n
        · have : e.toNat ≠ n := by
            have := UInt64.lt_iff_toNat_lt.mp he
            omega
          simp [ht, this]
        · simp [ht, ih]
      · rename_i h₁ h₂
        obtain rfl : e = t.1 := UInt64.le_antisymm (UInt64.not_lt.mp h₂) (UInt64.not_lt.mp h₁)
        by_cases hn : t.1.toNat = n <;> simp [hn]

theorem get?_insert (p : Sparse R) (e : Exponent) (c : R) (n : Nat) :
    (p.insert e c).get? n = if e.toNat = n then some c else p.get? n := by
  unfold get? insert
  rw [find?_put]
  split <;> rfl

theorem find?_filter_ne (e : Exponent) (l : List (Exponent × R)) (n : Nat) :
    ((l.filter fun t => t.1 ≠ e).find? fun t => t.1.toNat = n) =
      if e.toNat = n then none else l.find? fun t => t.1.toNat = n := by
  induction l with
  | nil => simp
  | cons t l ih =>
    by_cases he : t.1 = e
    · rw [List.filter_cons_of_neg (by simp [he]), ih]
      by_cases hn : e.toNat = n <;> simp [he, hn]
    · rw [List.filter_cons_of_pos (by simp [he]), List.find?_cons, List.find?_cons, ih]
      by_cases ht : t.1.toNat = n
      · have : e.toNat ≠ n := fun h => he (UInt64.toNat_inj.mp (ht.trans h.symm))
        simp [ht, this]
      · simp [ht]

theorem get?_erase (p : Sparse R) (e : Exponent) (n : Nat) :
    (p.erase e).get? n = if e.toNat = n then none else p.get? n := by
  unfold get? erase
  rw [find?_filter_ne]
  split <;> rfl

theorem put_eq_append {e : Exponent} {c : R} {l : List (Exponent × R)} (h : ∀ t ∈ l, t.1 < e) :
    put e c l = l ++ [(e, c)] := by
  induction l with
  | nil => rfl
  | cons t l ih =>
    have ht := h t List.mem_cons_self
    rw [put, if_neg (UInt64.lt_asymm ht), if_pos ht, List.cons_append]
    exact congrArg _ (ih fun s hs => h s (List.mem_cons_of_mem _ hs))

theorem terms_foldl_insert {l : List (Exponent × R)} {p : Sparse R}
    (h : (p.terms ++ l).Pairwise fun s t => s.1 < t.1) :
    (l.foldl (fun p t => p.insert t.1 t.2) p).terms = p.terms ++ l := by
  induction l generalizing p with
  | nil => simp
  | cons t l ih =>
    have hp : (p.insert t.1 t.2).terms = p.terms ++ [t] :=
      put_eq_append fun s hs => (List.pairwise_append.mp h).2.2 s hs t List.mem_cons_self
    have happ : p.terms ++ t :: l = (p.insert t.1 t.2).terms ++ l := by simp [hp]
    rw [List.foldl_cons, ih (happ ▸ h), ← happ]

/-- Terms in ascending order are stored as they are. -/
theorem terms_collect {l : List (Exponent × R)} (h : l.Pairwise fun s t => s.1 < t.1) :
    (collect l).terms = l := terms_foldl_insert h

end Univariate.Sparse
