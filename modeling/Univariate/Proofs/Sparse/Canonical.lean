import Mathlib.Data.List.Sort
import Univariate.Proofs.Coeff.Power
import Univariate.Sparse.Calculus
import Univariate.Sparse.Division
import Univariate.Sparse.Lookup

/-! Canonical sparse polynomials: what is read off one, and that every operation makes one. Nothing
is asked of the coefficients but the laws of zero. -/
namespace Univariate.Sparse

section Lookup

variable {R : Type}

theorem find?_of_mem {l : List (Exponent × R)} (h : l.Pairwise fun s t => s.1 < t.1)
    {t : Exponent × R} (ht : t ∈ l) : (l.find? fun s => s.1.toNat = t.1.toNat) = some t := by
  induction l with
  | nil => simp at ht
  | cons s l ih =>
    obtain ⟨hs, hl⟩ := List.pairwise_cons.mp h
    rcases List.mem_cons.mp ht with rfl | ht
    · simp
    · have hne : s.1.toNat ≠ t.1.toNat := (UInt64.lt_iff_toNat_lt.mp (hs t ht)).ne
      rw [List.find?_cons_of_neg (by simpa using hne)]
      exact ih hl ht

theorem get?_eq_some_iff {p : Sparse R} {e : Exponent} {c : R} :
    p.get? e.toNat = some c ↔ (e, c) ∈ p.terms := by
  constructor
  · intro h
    obtain ⟨t, ht, rfl⟩ := Option.map_eq_some_iff.mp h
    have he : t.1 = e := UInt64.toNat_inj.mp (by simpa using List.find?_some ht)
    exact he ▸ List.mem_of_find?_eq_some ht
  · intro h
    rw [get?, find?_of_mem p.ascending h]
    rfl

end Lookup

variable {R : Type} [Coeff R] {p q : Sparse R}

theorem coeff_insert (p : Sparse R) (e : Exponent) (c : R) (n : ℕ) :
    (p.insert e c).coeff n = if e.toNat = n then c else p.coeff n := by
  rw [coeff, get?_insert]
  split <;> rfl

theorem coeff_erase (p : Sparse R) (e : Exponent) (n : ℕ) :
    (p.erase e).coeff n = if e.toNat = n then Coeff.zero else p.coeff n := by
  rw [coeff, get?_erase]
  split <;> rfl

theorem coeff_of_mem {t : Exponent × R} (ht : t ∈ p.terms) : p.coeff t.1.toNat = t.2 := by
  rw [coeff, get?_eq_some_iff.mpr ht]
  rfl

/-- A coefficient that is not zero is stored. -/
theorem exists_mem_of_coeff_ne {n : ℕ} (h : p.coeff n ≠ Coeff.zero) :
    ∃ t ∈ p.terms, t.1.toNat = n ∧ t.2 = p.coeff n := by
  cases hget : p.get? n with
  | none => simp [coeff, hget] at h
  | some c =>
    obtain ⟨t, ht, rfl⟩ := Option.map_eq_some_iff.mp hget
    exact ⟨t, List.mem_of_find?_eq_some ht, by simpa using List.find?_some ht,
      by simp [coeff, hget]⟩

section Reading

namespace Canonical

/-- The stored terms are those of coefficients that are not zero. -/
theorem mem_terms_iff (h : p.Canonical) {t : Exponent × R} :
    t ∈ p.terms ↔ t.2 ≠ Coeff.zero ∧ p.coeff t.1.toNat = t.2 := by
  constructor
  · intro ht
    exact ⟨h t ht, coeff_of_mem ht⟩
  · rintro ⟨hne, ht⟩
    obtain ⟨s, hs, hexp, hcoeff⟩ := exists_mem_of_coeff_ne (ht.symm ▸ hne)
    have hst : s = t := Prod.ext (UInt64.toNat_inj.mp hexp) (hcoeff.trans ht)
    exact hst ▸ hs

/-- A canonical list of terms is told by its coefficients. -/
theorem ext (hp : p.Canonical) (hq : q.Canonical) (h : ∀ n, p.coeff n = q.coeff n) : p = q := by
  have hterms : p.terms = q.terms := by
    have hirrefl : Std.Irrefl fun s t : Exponent × R => s.1 < t.1 :=
      ⟨fun t => UInt64.lt_irrefl t.1⟩
    have hantisymm : Std.Antisymm fun s t : Exponent × R => s.1 < t.1 :=
      ⟨fun s t hst hts => absurd hts (UInt64.lt_asymm hst)⟩
    refine p.ascending.eq_of_mem_iff q.ascending fun t => ?_
    rw [hp.mem_terms_iff, hq.mem_terms_iff, h]
  cases p
  cases q
  simpa using hterms

theorem height_le_iff (h : p.Canonical) {n : ℕ} :
    p.height ≤ n ↔ ∀ m, n ≤ m → p.coeff m = Coeff.zero := by
  rw [Sparse.height_le_iff]
  constructor
  · intro hall m hm
    by_contra hne
    obtain ⟨t, ht, rfl, -⟩ := exists_mem_of_coeff_ne hne
    have := hall t ht
    omega
  · intro hzero t ht
    by_contra hn
    exact h t ht ((coeff_of_mem ht).symm.trans (hzero _ (by omega)))

theorem isZero_iff (h : p.Canonical) : p.isZero = true ↔ ∀ n, p.coeff n = Coeff.zero := by
  have hheight : p.isZero = true ↔ p.height ≤ 0 := by
    rw [isZero, List.isEmpty_iff, Sparse.height_le_iff, List.eq_nil_iff_forall_not_mem]
    simp
  rw [hheight, h.height_le_iff]
  simp

/-- The last term is the top one. -/
theorem isTop (h : p.Canonical) {t : Exponent × R} (ht : p.lead? = some t) :
    IsTop p.coeff t.1.toNat ∧ p.leadingCoeff? = some (p.coeff t.1.toNat) := by
  have hmem : t ∈ p.terms := List.mem_of_getLast? ht
  have hheight : p.height ≤ t.1.toNat + 1 := by simp [height, ht]
  refine ⟨⟨?_, h.height_le_iff.mp hheight⟩, ?_⟩
  · rw [coeff_of_mem hmem]
    exact h t hmem
  · rw [leadingCoeff?, ht, coeff_of_mem hmem]
    rfl

end Canonical

end Reading

theorem canonical_zero : (zero : Sparse R).Canonical := fun t ht => by simp [zero] at ht

theorem canonical_erase (h : p.Canonical) (e : Exponent) : (p.erase e).Canonical :=
  fun t ht => h t (List.mem_filter.mp ht).1

theorem canonical_insert (h : p.Canonical) {e : Exponent} {c : R} (hc : c ≠ Coeff.zero) :
    (p.insert e c).Canonical := by
  intro t ht
  rcases mem_put ht with rfl | ht
  · exact hc
  · exact h t ht

/-- In whatever order terms are collected, one of zero is stored only if one is among them. -/
theorem canonical_collect {l : List (Exponent × R)} (h : ∀ t ∈ l, t.2 ≠ Coeff.zero) :
    (collect l).Canonical := by
  suffices hfold : ∀ p : Sparse R, p.Canonical →
      (l.foldl (fun p t => p.insert t.1 t.2) p).Canonical from hfold zero canonical_zero
  induction l with
  | nil => exact fun p hp => hp
  | cons t l ih =>
    intro p hp
    obtain ⟨ht, hl⟩ := List.forall_mem_cons.mp h
    exact ih hl _ (canonical_insert hp ht)

/-- Terms that are changed one by one, none of them to zero, and then collected. -/
theorem collect_canonical {f : Exponent × R → Except Fault (Exponent × R)}
    (hf : ∀ t ∈ p.terms, Yields (f t) (·.2 ≠ Coeff.zero)) :
    Yields (p.terms.mapM f >>= fun l => pure (collect l)) Canonical :=
  (Ends.forall_mapM hf).bind fun _ hl => .pure (canonical_collect hl)

/-- Nothing is looked at after a negation, and nothing has to be. -/
theorem neg_canonical [ZeroLaws R] (hp : p.Canonical) : Yields p.neg Canonical := by
  refine collect_canonical fun t ht => ?_
  change Yields (Coeff.neg t.2 >>= fun c => pure (t.1, c)) _
  cases hc : Coeff.neg t.2 with
  | error => exact .error trivial
  | ok c =>
    refine .ok fun hzero => hp t ht ?_
    rw [← ZeroLaws.neg_eq_zero_iff, hc]
    exact congrArg Except.ok hzero

theorem shift_canonical (hp : p.Canonical) (n : Exponent) : Yields (p.shift n) Canonical := by
  refine collect_canonical fun t ht => ?_
  change Yields (Word.add t.1 n >>= fun e => pure (e, t.2)) _
  exact .bind_any fun e => .pure (hp t ht)

variable [DecidableEq R]

theorem canonical_ofList (l : List R) : (ofList l).Canonical := by
  refine canonical_collect fun t ht => ?_
  obtain ⟨s, hs, rfl⟩ := List.mem_map.mp ht
  simpa using (List.mem_filter.mp hs).2

theorem canonical_monomial (c : R) (n : Exponent) : (monomial c n).Canonical := by
  rw [monomial]
  split
  · exact canonical_zero
  · exact canonical_insert canonical_zero ‹_›

/-- The polynomial with `c` for its coefficient at `e`. -/
def set (p : Sparse R) (e : Exponent) (c : R) : Sparse R :=
  if c = Coeff.zero then p.erase e else p.insert e c

theorem coeff_set (p : Sparse R) (e : Exponent) (c : R) (n : ℕ) :
    (p.set e c).coeff n = if e.toNat = n then c else p.coeff n := by
  rw [set]
  split
  · rename_i hc
    rw [coeff_erase, hc]
  · rw [coeff_insert]

theorem canonical_set (hp : p.Canonical) (e : Exponent) (c : R) : (p.set e c).Canonical := by
  rw [set]
  split
  · exact canonical_erase hp e
  · exact canonical_insert hp ‹_›

theorem set_coeff (hp : p.Canonical) (e : Exponent) : p.set e (p.coeff e.toNat) = p := by
  refine (canonical_set hp e _).ext hp fun n => ?_
  rw [coeff_set]
  split
  · rename_i hn
    rw [hn]
  · rfl

theorem addTerm_zero (p : Sparse R) (e : Exponent) : p.addTerm e Coeff.zero = .ok p := by
  rw [addTerm, if_pos rfl]

variable [ZeroLaws R]

/-- The one way in which a term enters a polynomial, whether it meets another there or not: the sum
that is left out where either is zero could not fail. -/
theorem addTerm_eq (hp : p.Canonical) (e : Exponent) (c : R) :
    p.addTerm e c = Coeff.add (p.coeff e.toNat) c >>= fun sum => pure (p.set e sum) := by
  rw [addTerm]
  split
  · rename_i hc
    rw [hc, ZeroLaws.add_zero, Fault.ok_bind, set_coeff hp]
    rfl
  · rename_i hc
    split
    · rename_i hget
      have hzero : p.coeff e.toNat = Coeff.zero := by rw [coeff, hget, Option.getD_none]
      rw [hzero, ZeroLaws.zero_add, Fault.ok_bind, set, if_neg hc]
      rfl
    · rename_i b hget
      have hb : p.coeff e.toNat = b := by rw [coeff, hget, Option.getD_some]
      rw [hb]
      rfl

theorem addTerm_canonical (hp : p.Canonical) (e : Exponent) (c : R) :
    Yields (p.addTerm e c) Canonical := by
  rw [addTerm_eq hp]
  exact .bind_any fun sum => .pure (canonical_set hp e sum)

theorem bind_addTerm_canonical (hp : p.Canonical) (e : Exponent) (x : Except Fault R) :
    Yields (x >>= p.addTerm e) Canonical := .bind_any (addTerm_canonical hp e)

omit [DecidableEq R] [ZeroLaws R] in
theorem foldlM_canonical {T : Type} {l : List T} {step : Sparse R → T → Except Fault (Sparse R)}
    (hp : p.Canonical) (hstep : ∀ t s, s.Canonical → Yields (step s t) Canonical) :
    Yields (l.foldlM step p) Canonical :=
  Ends.foldlM (I := fun _ => Canonical) hp fun _ t _ s hs => hstep t s hs

theorem ofTerms_canonical (l : List (Exponent × R)) : Yields (ofTerms l) Canonical :=
  foldlM_canonical canonical_zero fun t _ hs => addTerm_canonical hs t.1 t.2

theorem add_canonical (hp : p.Canonical) (q : Sparse R) : Yields (p.add q) Canonical :=
  foldlM_canonical hp fun t _ hs => addTerm_canonical hs t.1 t.2

theorem sub_canonical (hp : p.Canonical) (q : Sparse R) : Yields (p.sub q) Canonical :=
  foldlM_canonical hp fun t _ hs => bind_addTerm_canonical hs t.1 _

theorem addRow_canonical (q : Sparse R) (hp : p.Canonical) (e : Exponent) (c : R) :
    Yields (addRow q p e c) Canonical := by
  refine foldlM_canonical hp fun t s hs => ?_
  change Yields (Word.add e t.1 >>= fun e => Coeff.mul c t.2 >>= s.addTerm e) _
  exact .bind_any fun e => bind_addTerm_canonical hs e _

theorem mul_canonical (p q : Sparse R) : Yields (p.mul q) Canonical :=
  foldlM_canonical canonical_zero fun t _ hs => addRow_canonical q hs t.1 t.2

theorem scale_canonical (p : Sparse R) (c : R) : Yields (p.scale c) Canonical :=
  foldlM_canonical canonical_zero fun t _ hs => bind_addTerm_canonical hs t.1 _

theorem derivative_canonical (p : Sparse R) : Yields p.derivative Canonical :=
  foldlM_canonical canonical_zero fun t _ hs => bind_addTerm_canonical hs (t.1 - 1) _

theorem pow_canonical (hp : p.Canonical) (n : ℕ) : Yields (p.pow n) Canonical :=
  Ends.repeated (I := fun _ => Canonical) (fun _ _ a b _ _ _ => mul_canonical a b) (i := 0) (j := 1)
    le_rfl (canonical_monomial _ _) hp

theorem compose_canonical (p inner : Sparse R) : Yields (p.compose inner) Canonical := by
  refine foldlM_canonical canonical_zero fun t s hs => ?_
  change Yields (inner.pow t.1.toNat >>= fun power => power.scale t.2 >>= s.add) _
  exact .bind_any fun power => .bind_any fun q => add_canonical hs q

theorem reduce_canonical (hp : p.Canonical) (factor : R) (shift : Exponent)
    (low : List (Exponent × R)) : Yields (reduce factor shift p low) Canonical := by
  induction low generalizing p with
  | nil => exact .ok hp
  | cons t low ih =>
    rw [reduce]
    exact .bind_any fun e => .bind_any fun product => .bind_any fun c =>
      (addTerm_canonical hp e c).bind fun r hr => ih hr

variable [CoeffDiv R]

theorem divStep_canonical {q : Sparse R} {lead top : Exponent × R} {s : LongDivision (Sparse R)}
    (hquotient : s.quotient.Canonical) (hremainder : s.remainder.Canonical) :
    Yields (divStep q lead top s) fun t => t.quotient.Canonical ∧ t.remainder.Canonical := by
  rw [divStep]
  refine .bind_any fun factor => ?_
  refine (reduce_canonical (canonical_erase hremainder top.1) factor _ _).bind fun r hr => ?_
  exact (addTerm_canonical hquotient _ factor).bind fun u hu => .pure ⟨hu, hr⟩

theorem divSteps_canonical {q : Sparse R} {lead : Exponent × R} {s : LongDivision (Sparse R)}
    (hquotient : s.quotient.Canonical) (hremainder : s.remainder.Canonical) :
    Yields (divSteps q lead s) fun t => t.quotient.Canonical ∧ t.remainder.Canonical := by
  fun_induction divSteps q lead s with
  | case1 s => exact .ok ⟨hquotient, hremainder⟩
  | case2 s => exact .ok ⟨hquotient, hremainder⟩
  | case3 => exact .error trivial
  | case4 s top _ _ t ht ih =>
    obtain ⟨hu, hr⟩ := (divStep_canonical hquotient hremainder).of_eq_ok ht
    exact ih hu hr

theorem divRem_canonical (hp : p.Canonical) (q : Sparse R) :
    Yields (p.divRem q) fun t => t.value.1.Canonical ∧ t.value.2.Canonical := by
  rw [divRem]
  split
  · exact .error trivial
  · exact (divSteps_canonical canonical_zero hp).bind fun _ ht => .pure ht

theorem div_canonical (hp : p.Canonical) (q : Sparse R) : Yields (p.div q) (·.value.Canonical) :=
  (divRem_canonical hp q).bind fun _ ht => .pure ht.1

theorem rem_canonical (hp : p.Canonical) (q : Sparse R) : Yields (p.rem q) (·.value.Canonical) :=
  (divRem_canonical hp q).bind fun _ ht => .pure ht.2

theorem monic_canonical (hp : p.Canonical) : Yields p.monic Canonical := by
  rw [monic]
  split
  · exact .error trivial
  · split
    · exact .ok hp
    · exact foldlM_canonical canonical_zero fun t _ hs => bind_addTerm_canonical hs t.1 _

theorem remainders_canonical (hp : p.Canonical) (hq : q.Canonical) :
    Yields (remainders p q) (·.last.Canonical) := by
  fun_induction remainders p q with
  | case1 p q => exact .ok hp
  | case2 => exact .error trivial
  | case3 p q _ r hr ih =>
    exact (ih hq ((rem_canonical hp q).of_eq_ok hr)).bind fun _ hc => .pure hc

theorem gcd_canonical (hp : p.Canonical) (hq : q.Canonical) :
    Yields (p.gcd q) (·.value.Canonical) :=
  (remainders_canonical hp hq).bind fun _ hc => (monic_canonical hc).bind fun _ hg => .pure hg

end Univariate.Sparse
