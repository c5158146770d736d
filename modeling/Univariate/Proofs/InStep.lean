import Univariate.Proofs.Related
import Univariate.Proofs.SameOutcome
import Univariate.Proofs.Sparse.Calculus

/-! How the operations on slots and on terms go in step where arithmetic may fail. Slots of zero,
which have no terms, cannot fail, so the first fault is the same on both sides. -/
namespace Univariate

variable {R : Type} [Coeff R] [DecidableEq R]

open Sparse (slotTerms slotTerms_cons)

section Loops

variable {A : Type} {step : A → Exponent × R → Except Fault A}

theorem foldlM_slotTerms (k : ℕ) (a : R) (l : List R) (s : A) :
    (slotTerms k (a :: l)).foldlM step s =
      (if a = Coeff.zero then .ok s else step s (.ofNat k, a)) >>= fun s =>
        (slotTerms (k + 1) l).foldlM step s := by
  rw [slotTerms_cons]
  split
  · rw [Fault.ok_bind]
  · rw [List.foldlM_cons]

/-- A step that does nothing at a slot of zero may as well be taken there. -/
theorem foldlM_slotTerms_of_skip {k : ℕ} {s : A} (hskip : step s (.ofNat k, Coeff.zero) = .ok s)
    (a : R) (l : List R) :
    (slotTerms k (a :: l)).foldlM step s =
      step s (.ofNat k, a) >>= fun s => (slotTerms (k + 1) l).foldlM step s := by
  rw [foldlM_slotTerms]
  split
  · rename_i ha
    rw [ha, hskip]
  · rfl

omit [Coeff R] [DecidableEq R] in
theorem foldlM_of_skip (hskip : ∀ s t, step s t = .ok s) (l : List (Exponent × R)) (s : A) :
    l.foldlM step s = .ok s := by
  induction l with
  | nil => rfl
  | cons t l ih => rw [List.foldlM_cons, hskip, Fault.ok_bind, ih]

end Loops

theorem related_zero : Related (Dense.zero : Dense R) Sparse.zero :=
  related_of_hasSlots (Sparse.hasSlots_replicate 0)

theorem related_one : Related (Dense.one : Dense R) Sparse.one := by
  rw [Sparse.one, Sparse.constant_eq]
  exact related_ofList (by simp)

variable [ZeroLaws R] {s t : Sparse R} {a b : Dense R}

/-- A term is added to one slot. -/
theorem addTerm_inStep (done : List R) {rest : List R} {a : R}
    (h : s.HasSlots (done ++ a :: rest)) {e : Exponent} (he : e.toNat = done.length) (c : R) :
    SameOutcome (fun sum s' => s'.HasSlots (done ++ sum :: rest)) (Coeff.add a c)
      (s.addTerm e c) := by
  rw [Sparse.addTerm_eq h.canonical, he, h.coeff_slot]
  exact .map_right fun sum => h.set he sum

/-- A term beyond the last slot makes a new one. -/
theorem addTerm_returns (done : List R) (h : s.HasSlots done) {e : Exponent}
    (he : e.toNat = done.length) (c : R) :
    Returns (s.addTerm e c) (·.HasSlots (done ++ [c])) := by
  have hadd := addTerm_inStep done h.pad he c
  rw [ZeroLaws.zero_add] at hadd
  exact hadd.returns_of_ok

/-- The second list is that of the terms, and the slots are those of the first. -/
theorem combine_inStep (done : List R) {l q : List R} {k : ℕ} (h : s.HasSlots (done ++ l))
    (hk : done.length = k) (hle : k + q.length ≤ UInt64.size) :
    SameOutcome (fun r s' => s'.HasSlots (done ++ r)) (Dense.combine Coeff.add l q)
      ((slotTerms k q).foldlM (fun sum t => sum.addTerm t.1 t.2) s) := by
  induction q generalizing done l s k with
  | nil =>
    rw [Dense.combine_nil]
    exact .value h
  | cons b q ih =>
    rw [List.length_cons] at hle
    have hword : (UInt64.ofNat k).toNat = done.length := by
      rw [UInt64.toNat_ofNat_of_lt' (by omega), hk]
    rw [Dense.combine_cons, foldlM_slotTerms_of_skip (Sparse.addTerm_zero s _)]
    refine (addTerm_inStep done h.headD hword b).bind fun c s' hs' => ?_
    have hrest := ih (done ++ [c]) (l := l.tail) (k := k + 1) (by simpa using hs') (by simp [hk])
      (by omega)
    exact hrest.map_left fun r s'' hr => by simpa using hr

theorem add_sameOutcome (has : Related a s) (hbt : Related b t)
    (hb : b.coeffs.length ≤ UInt64.size) : SameOutcome Related (a.add b) (s.add t) := by
  have hlist := combine_inStep (q := b.coeffs) (k := 0) [] has.hasSlots rfl (by omega)
  rw [Dense.add, Sparse.add, hbt.hasSlots.terms_eq hb]
  exact hlist.map_left fun r s' hr => related_of_hasSlots hr

/-- Products with slots of zero, which a row of terms does not form, are zero and add nothing. -/
theorem addMultiples_inStep (done : List R) {c : R} {q l : List R} {e : Exponent} {k : ℕ}
    (h : s.HasSlots (done ++ l)) (hk : done.length = e.toNat + k) (hq : q.length ≤ l.length)
    (hle : done.length + l.length ≤ UInt64.size) :
    SameOutcome (fun r s' => r.length = l.length ∧ s'.HasSlots (done ++ r))
      (Dense.addMultiples c q l)
      ((slotTerms k q).foldlM (fun sum t => Word.add e t.1 >>= fun exponent =>
        Coeff.mul c t.2 >>= fun product => sum.addTerm exponent product) s) := by
  induction q generalizing done l s k with
  | nil => exact .value ⟨rfl, h⟩
  | cons b q ih =>
    cases l with
    | nil => simp at hq
    | cons x l =>
      rw [List.length_cons] at hq hle
      have hk' : (UInt64.ofNat k).toNat = k := UInt64.toNat_ofNat_of_lt' (by omega)
      have hword : Word.add e (.ofNat k) = .ok (e + .ofNat k) := Word.add_eq_ok (by omega)
      have hexp : (e + .ofNat k).toNat = done.length := by rw [Word.toNat_add hword, hk', hk]
      rw [Dense.addMultiples, foldlM_slotTerms_of_skip]
      · rw [hword, Fault.ok_bind, bind_assoc]
        refine .bind_same fun product => ?_
        refine (addTerm_inStep done h hexp product).bind fun sum s' hs' => ?_
        have hrest := ih (done ++ [sum]) (l := l) (k := k + 1) (by simpa using hs')
          (by simp; omega) (by simpa using hq) (by simp; omega)
        exact hrest.map_left fun r s'' hr => ⟨by simp [hr.1], by simpa using hr.2⟩
      · rw [hword, Fault.ok_bind, ZeroLaws.mul_zero, Fault.ok_bind, Sparse.addTerm_zero]

/-- Each row begins at the slot of its own exponent, and neither side forms a row of zero. -/
theorem addRows_inStep (done : List R) {p q l : List R} {k : ℕ} (ht : t.terms = slotTerms 0 q)
    (hq : q ≠ []) (h : s.HasSlots (done ++ l)) (hk : done.length = k)
    (hroom : p.length + q.length ≤ l.length + 1)
    (hle : done.length + l.length ≤ UInt64.size) :
    SameOutcome (fun r s' => r.length = l.length ∧ s'.HasSlots (done ++ r)) (Dense.addRows q p l)
      ((slotTerms k p).foldlM (fun sum u => Sparse.addRow t sum u.1 u.2) s) := by
  have hpos := List.length_pos_iff.mpr hq
  induction p generalizing done l s k with
  | nil => exact .value ⟨rfl, h⟩
  | cons a p ih =>
    rw [List.length_cons] at hroom
    have hword : (UInt64.ofNat k).toNat = k := UInt64.toNat_ofNat_of_lt' (by omega)
    have hrow : SameOutcome (fun r s' => r.length = l.length ∧ s'.HasSlots (done ++ r))
        (Dense.addRow a q l)
        (if a = Coeff.zero then .ok s else Sparse.addRow t s (.ofNat k) a) := by
      rw [Dense.addRow]
      split
      · exact .value ⟨rfl, h⟩
      · rw [Sparse.addRow, ht]
        exact addMultiples_inStep done h (k := 0) (by omega) (by omega) hle
    rw [Dense.addRows, foldlM_slotTerms]
    refine hrow.bind fun r s' hr => ?_
    obtain ⟨hlen, hs'⟩ := hr
    cases r with
    | nil =>
      rw [List.length_nil] at hlen
      omega
    | cons x r =>
      rw [List.length_cons] at hlen
      have hrest := ih (done ++ [x]) (l := r) (k := k + 1) (by simpa using hs') (by simp [hk])
        (by omega) (by simp; omega)
      exact hrest.map_left fun r' s'' hr' => ⟨by simp [hr'.1, hlen], by simpa using hr'.2⟩

/-- Related values, the slots at most `n`. -/
def RelatedWithin (n : ℕ) (p : Dense R) (u : Sparse R) : Prop := Related p u ∧ p.coeffs.length ≤ n

/-- The product's length bounds the exponents of its terms, so none of their sums overflows. -/
theorem mul_sameOutcome (has : Related a s) (hbt : Related b t)
    (hlen : a.coeffs.length + b.coeffs.length ≤ UInt64.size + 1) :
    SameOutcome (RelatedWithin (a.coeffs.length + b.coeffs.length - 1)) (a.mul b) (s.mul t) := by
  have hzero : SameOutcome (RelatedWithin (a.coeffs.length + b.coeffs.length - 1))
      (.ok Dense.zero) (.ok (Sparse.zero : Sparse R)) := .value ⟨related_zero, Nat.zero_le _⟩
  by_cases ha : a.coeffs = []
  · have hs : s.terms = [] := by
      rw [has.hasSlots.terms_eq (by simp [ha]), ha, Sparse.slotTerms_nil]
    rw [Dense.mul, if_pos (by simp [Dense.isZero, ha]), Sparse.mul, hs]
    exact hzero
  by_cases hb : b.coeffs = []
  · have ht : t.terms = [] := by
      rw [hbt.hasSlots.terms_eq (by simp [hb]), hb, Sparse.slotTerms_nil]
    rw [Dense.mul, if_pos (by simp [Dense.isZero, hb]), Sparse.mul, foldlM_of_skip]
    · exact hzero
    · intro s' u
      unfold Sparse.addRow
      rw [ht]
      rfl
  have hapos := List.length_pos_iff.mpr ha
  have hbpos := List.length_pos_iff.mpr hb
  have hrows := addRows_inStep [] (k := 0) (p := a.coeffs)
    (l := List.replicate (a.coeffs.length + b.coeffs.length - 1) Coeff.zero)
    (hbt.hasSlots.terms_eq (by omega)) hb (Sparse.hasSlots_replicate _) rfl (by simp; omega)
    (by simp; omega)
  rw [Dense.mul, if_neg (by simp [Dense.isZero, ha, hb]), Sparse.mul,
    has.hasSlots.terms_eq (by omega)]
  refine hrows.map_left fun r s' hr => ⟨related_of_hasSlots hr.2, ?_⟩
  rw [List.length_replicate] at hr
  exact (Dense.length_trim_le r).trans hr.1.le

/-- The squares formed on the way to a power are no longer than the power. -/
theorem pow_sameOutcome (has : Related a s) {n : ℕ}
    (hn : (a.coeffs.length - 1) * n < UInt64.size) :
    SameOutcome Related (a.pow n) (s.pow n) := by
  have hmul : ∀ i j (p q : Dense R) u v, i + j ≤ n →
      RelatedWithin ((a.coeffs.length - 1) * i + 1) p u →
      RelatedWithin ((a.coeffs.length - 1) * j + 1) q v →
      SameOutcome (RelatedWithin ((a.coeffs.length - 1) * (i + j) + 1)) (p.mul q) (u.mul v) := by
    rintro i j p q u v hij ⟨hpu, hp⟩ ⟨hqv, hq⟩
    have hle : (a.coeffs.length - 1) * (i + j) ≤ (a.coeffs.length - 1) * n :=
      Nat.mul_le_mul_left _ hij
    rw [mul_add] at hle ⊢
    exact (mul_sameOutcome hpu hqv (by omega)).imp fun _ _ h => ⟨h.1, by have := h.2; omega⟩
  have hpow := SameOutcome.repeated (I := fun i => RelatedWithin ((a.coeffs.length - 1) * i + 1))
    hmul (n := n) (i := 0) (j := 1) (by omega) ⟨related_one, Dense.length_trim_le [Coeff.one]⟩
    ⟨has, by omega⟩
  exact hpow.imp fun _ _ h => h.1

/-- Slots that are computed one by one, zero from zero, and terms that are computed so and added `d`
exponents below their own. -/
theorem mapM_inStep {d : Exponent} {f : R × ℕ → Except Fault R}
    {g : Exponent → R → Except Fault R} (hzero : ∀ e, g e Coeff.zero = .ok Coeff.zero)
    (done : List R) {l : List R} {k : ℕ} (hf : ∀ t ∈ l.zipIdx k, f t = g (.ofNat t.2) t.1)
    (h : s.HasSlots done) (hk : k = done.length + d.toNat) (hle : k + l.length ≤ UInt64.size) :
    SameOutcome (fun r s' => s'.HasSlots (done ++ r)) ((l.zipIdx k).mapM f)
      ((slotTerms k l).foldlM (fun q t => g t.1 t.2 >>= q.addTerm (t.1 - d)) s) := by
  induction l generalizing done s k with
  | nil => exact .value (by simpa using h)
  | cons a l ih =>
    rw [List.length_cons] at hle
    rw [List.zipIdx_cons] at hf ⊢
    obtain ⟨ha, hf⟩ := List.forall_mem_cons.mp hf
    have hword : (UInt64.ofNat k).toNat = k := UInt64.toNat_ofNat_of_lt' (by omega)
    have hd : d ≤ UInt64.ofNat k := by
      rw [UInt64.le_iff_toNat_le, hword]
      omega
    have hplace : (UInt64.ofNat k - d).toNat = done.length := by
      rw [UInt64.toNat_sub_of_le _ _ hd, hword]
      omega
    rw [List.mapM_cons, ha, foldlM_slotTerms_of_skip, bind_assoc]
    · refine .bind_same fun c => ?_
      obtain ⟨s', hs', hslots⟩ := addTerm_returns done h hplace c
      rw [hs', Fault.ok_bind]
      have hrest := ih (done ++ [c]) hf hslots (by simp; omega) (by omega)
      exact hrest.map_left fun r s'' hr => by simpa using hr
    · rw [hzero, Fault.ok_bind, Sparse.addTerm_zero]

theorem scale_sameOutcome (has : Related a s) (ha : a.coeffs.length ≤ UInt64.size) (c : R) :
    SameOutcome Related (a.scale c) (s.scale c) := by
  have hscale : s.scale c =
      s.terms.foldlM (fun q t => Coeff.mul t.2 c >>= q.addTerm (t.1 - 0)) Sparse.zero := by
    simp only [UInt64.sub_zero]
    rfl
  rw [Dense.scale, hscale]
  split
  · rename_i hc
    rw [foldlM_of_skip]
    · exact .value related_zero
    · intro q t
      rw [hc, ZeroLaws.mul_zero, Fault.ok_bind, Sparse.addTerm_zero]
  · have hslots := mapM_inStep (d := 0) (f := fun t => Coeff.mul t.1 c)
      (g := fun _ b => Coeff.mul b c) (fun _ => ZeroLaws.zero_mul c) [] (l := a.coeffs) (k := 0)
      (fun _ _ => rfl) (Sparse.hasSlots_replicate 0) rfl (by omega)
    have hmap : (a.coeffs.mapM fun b => Coeff.mul b c) =
        (a.coeffs.zipIdx 0).mapM fun t => Coeff.mul t.1 c := by
      conv_lhs => rw [← List.zipIdx_map_fst 0 a.coeffs, List.mapM_map]
      rfl
    rw [← hmap] at hslots
    rw [has.hasSlots.terms_eq ha]
    exact hslots.map_left fun r s' hr => related_of_hasSlots hr

/-- Up to `2 ^ 63` slots, the signed exponents are the exponents. -/
theorem derivative_sameOutcome (has : Related a s)
    (ha : a.coeffs.length ≤ 9223372036854775808) :
    SameOutcome Related a.derivative s.derivative := by
  have hsize : UInt64.size = 18446744073709551616 := rfl
  have htail : (s.terms.filter fun t => 0 < t.1) = slotTerms 1 a.coeffs.tail := by
    rw [has.hasSlots.terms_eq (by omega), Sparse.filter_slotTerms (by omega)]
  have hslots := mapM_inStep (d := 1) (f := fun t => Coeff.multiple t.1 t.2)
    (g := fun e b => Coeff.multiple b e.toInt64.toInt) (fun _ => Coeff.multiple_zero _) []
    (l := a.coeffs.tail) (k := 1) (fun t ht => ?_) (Sparse.hasSlots_replicate 0) rfl
    (by simp; omega)
  · rw [Dense.derivative, Sparse.derivative, htail]
    exact hslots.map_left fun r s' hr => related_of_hasSlots hr
  · obtain ⟨-, hlt, -⟩ := List.mem_zipIdx ht
    rw [List.length_tail] at hlt
    have hword : (UInt64.ofNat t.2).toNat = t.2 := UInt64.toNat_ofNat_of_lt' (by omega)
    rw [Sparse.toInt_toInt64, hword, Sparse.signedExponent_of_lt (by omega)]

theorem mapM_neg_inStep (l : List R) (k : ℕ) :
    SameOutcome (fun r m => r.length = l.length ∧ m = slotTerms k r) (l.mapM Coeff.neg)
      ((slotTerms k l).mapM fun t => Coeff.neg t.2 >>= fun c => pure (t.1, c)) := by
  induction l generalizing k with
  | nil => exact .value ⟨rfl, rfl⟩
  | cons a l ih =>
    rw [List.mapM_cons, slotTerms_cons]
    split
    · rename_i ha
      rw [ha, (ZeroLaws.neg_eq_zero_iff _).mpr rfl, Fault.ok_bind]
      refine (ih (k + 1)).map_left fun r m hr => ⟨by simp [hr.1], ?_⟩
      rw [slotTerms_cons, if_pos rfl, hr.2]
    · rename_i ha
      rw [List.mapM_cons, bind_assoc]
      cases hb : Coeff.neg a with
      | error e => exact .fault e
      | ok b =>
        -- Only zero has zero for its negation, so the slot still has its term.
        have hne : b ≠ Coeff.zero := by
          rintro rfl
          exact ha ((ZeroLaws.neg_eq_zero_iff a).mp hb)
        refine (ih (k + 1)).bind fun r m hr => .value ⟨by simp [hr.1], ?_⟩
        rw [slotTerms_cons, if_neg hne, hr.2]

theorem neg_sameOutcome (has : Related a s) (ha : a.coeffs.length ≤ UInt64.size) :
    SameOutcome Related a.neg s.neg := by
  have hlist := mapM_neg_inStep a.coeffs 0
  rw [← has.hasSlots.terms_eq ha] at hlist
  have hneg : SameOutcome (fun (p : Dense R) q => p.coeffs.length = a.coeffs.length ∧
      q = Sparse.ofList p.coeffs) a.neg s.neg :=
    hlist.bind fun r m hr => .value ⟨hr.1, by rw [hr.2]; rfl⟩
  refine (hneg.and_left (Dense.neg_canonical has.dense)).imp fun p q h => ?_
  obtain ⟨hp, hlen, rfl⟩ := h
  exact ⟨hp, Sparse.canonical_ofList _, fun n =>
    ((Sparse.hasSlots_ofList (by omega)).coeff_eq n).symm⟩

end Univariate
