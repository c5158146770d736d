import Univariate.Proofs.StoreLaws

/-! Degrees and leading coefficients of sums, products and compositions. Next to divisors of zero
the top coefficient of a result may vanish, and its degree is then lower by any amount. -/
namespace Univariate

open Polynomial

variable {R P : Type} [CommRing R]

/-- No exponent of `p` lies above `d`, where its coefficient is `c`. So `c` leads if it is not zero,
and the degree is smaller if it is. -/
structure Store.Peaks (S : Store R P) (p : P) (d : ℤ) (c : R) : Prop where
  degree_le : S.degree p ≤ d
  degree_eq_iff : S.degree p = d ↔ c ≠ 0
  leadingCoeff : c ≠ 0 → S.leadingCoeff? p = some c

/-- The degrees of what is made of `a` and `b`, with the leading coefficients `u` and `v`, as long
as `Low` holds of the exponents. A composition that is not formed has found no room on the way. -/
structure Store.DegreeLaws (S : Store R P) (Room Low : ℕ → Prop) (a b : P) (u v : R) : Prop where
  mul : Low (S.top a + S.top b) →
    Returns (S.mul a b) fun p => S.Peaks p (S.degree a + S.degree b) (u * v)
  add : Returns (S.add a b) fun p => S.degree p ≤ max (S.degree a) (S.degree b) ∧
    (S.degree a ≠ S.degree b → S.degree p = max (S.degree a) (S.degree b))
  compose : 1 ≤ S.degree b → S.Composed Room a b fun p =>
    Low (S.top p) → S.Peaks p (S.degree a * S.degree b) (u * v ^ S.top a)
  compose_of_room : 1 ≤ S.degree b → Low (S.top a * S.top b) →
    Returns (S.compose a b) fun p => S.Peaks p (S.degree a * S.degree b) (u * v ^ S.top a)

/-- The degree is told where `Low` holds of it, and of such degrees there is room for each. -/
structure Store.LawfulDegree (S : Store R P) (Rep : P → R[X] → Prop) (Room Low : ℕ → Prop) :
    Prop extends Store.Lawful S Rep Room where
  degree_zero : S.degree S.zero = -1
  degree_eq {p : P} {f : R[X]} : Rep p f → f ≠ 0 → Low f.natDegree → S.degree p = f.natDegree
  low_mono {m n : ℕ} : Low n → m ≤ n → Low m
  room_of_low {n : ℕ} : Low n → Room n

namespace Store.LawfulDegree

variable {S : Store R P} {Rep : P → R[X] → Prop} {Room Low : ℕ → Prop} {a b p : P} {f g : R[X]}

/-- A bound of the degree is met exactly where the coefficient at it is not zero. -/
theorem peaks (h : S.LawfulDegree Rep Room Low) (hp : Rep p f) (hlow : Low f.natDegree) {n : ℕ}
    (hn : f.natDegree ≤ n) : S.Peaks p n (f.coeff n) := by
  by_cases hf : f = 0
  · subst f
    have hdegree : S.degree p = -1 := by
      rw [h.unique hp h.zero]
      exact h.degree_zero
    refine ⟨by omega, ?_, ?_⟩
    · rw [coeff_zero, hdegree]
      constructor
      · intro hneg
        omega
      · intro hne
        exact absurd rfl hne
    · intro hne
      exact absurd (coeff_zero n) hne
  · have hdegree := h.degree_eq hp hf hlow
    have hmet : f.coeff n ≠ 0 → f.natDegree = n := by
      intro hne
      exact le_antisymm hn (le_natDegree_of_ne_zero hne)
    refine ⟨by omega, ?_, ?_⟩
    · rw [hdegree, Nat.cast_inj]
      constructor
      · rintro rfl
        exact leadingCoeff_ne_zero.mpr hf
      · exact hmet
    · intro hne
      rw [h.leadingCoeff?_eq hp hf, leadingCoeff, hmet hne]

/-- A sum is lower than both summands only where they are of one degree. -/
theorem degree_add (h : S.LawfulDegree Rep Room Low) (ha : Rep a f) (hb : Rep b g) (hf : f ≠ 0)
    (hg : g ≠ 0) (hfl : Low f.natDegree) (hgl : Low g.natDegree) (hp : Rep p (f + g)) :
    S.degree p ≤ max (S.degree a) (S.degree b) ∧
      (S.degree a ≠ S.degree b → S.degree p = max (S.degree a) (S.degree b)) := by
  have hda := h.degree_eq ha hf hfl
  have hdb := h.degree_eq hb hg hgl
  have hle := natDegree_add_le f g
  have hlow : Low (f + g).natDegree := by
    rcases le_max_iff.mp hle with hle | hle
    · exact h.low_mono hfl hle
    · exact h.low_mono hgl hle
  have hpeak := h.peaks hp hlow hle
  have hmax : ((max f.natDegree g.natDegree : ℕ) : ℤ) = max (S.degree a) (S.degree b) := by
    rw [hda, hdb, Nat.cast_max]
  rw [hmax] at hpeak
  refine ⟨hpeak.degree_le, ?_⟩
  intro hne
  rw [hpeak.degree_eq_iff, coeff_add]
  rcases lt_trichotomy f.natDegree g.natDegree with hlt | heq | hlt
  · rw [max_eq_right hlt.le, coeff_eq_zero_of_natDegree_lt hlt, zero_add]
    exact leadingCoeff_ne_zero.mpr hg
  · omega
  · rw [max_eq_left hlt.le, coeff_eq_zero_of_natDegree_lt hlt, add_zero]
    exact leadingCoeff_ne_zero.mpr hf

/-- The top coefficient of a composition comes of the top power alone. -/
theorem peaks_comp (h : S.LawfulDegree Rep Room Low) (ha : Rep a f) (hb : Rep b g) (hf : f ≠ 0)
    (hg : g ≠ 0) (hfl : Low f.natDegree) (hgl : Low g.natDegree) (hone : 1 ≤ S.degree b)
    (hp : Rep p (f.comp g)) (hlow : Low (f.comp g).natDegree) :
    S.Peaks p (S.degree a * S.degree b) (f.leadingCoeff * g.leadingCoeff ^ S.top a) := by
  have hda := h.degree_eq ha hf hfl
  have hdb := h.degree_eq hb hg hgl
  have hne : g.natDegree ≠ 0 := by omega
  have hpeak := h.peaks hp hlow natDegree_comp_le
  rwa [coeff_comp_degree_mul_degree hne, Nat.cast_mul, ← hda, ← hdb, ← h.top_eq ha] at hpeak

theorem degreeLaws (h : S.LawfulDegree Rep Room Low) (ha : Rep a f) (hb : Rep b g) (hf : f ≠ 0)
    (hg : g ≠ 0) (hfl : Low f.natDegree) (hgl : Low g.natDegree) :
    S.DegreeLaws Room Low a b f.leadingCoeff g.leadingCoeff where
  mul hlow := by
    rw [h.top_eq ha, h.top_eq hb] at hlow
    refine (h.mul ha hb (h.room_of_low hlow)).imp ?_
    intro p hp
    have hpeak := h.peaks hp (h.low_mono hlow natDegree_mul_le) natDegree_mul_le
    rwa [coeff_mul_degree_add_degree, Nat.cast_add, ← h.degree_eq ha hf hfl,
      ← h.degree_eq hb hg hgl] at hpeak
  add := (h.add ha hb).imp fun p hp => h.degree_add ha hb hf hg hfl hgl hp
  compose hone := by
    refine h.composed ha hb ?_
    intro p hp hlow
    rw [h.top_eq hp] at hlow
    exact h.peaks_comp ha hb hf hg hfl hgl hone hp hlow
  compose_of_room hone hlow := by
    rw [h.top_eq ha, h.top_eq hb] at hlow
    refine (h.compose_of_room ha hb le_rfl le_rfl (h.room_of_low hlow)).imp ?_
    intro p hp
    exact h.peaks_comp ha hb hf hg hfl hgl hone hp (h.low_mono hlow natDegree_comp_le)

/-- Polynomials that are not zero have leading coefficients to tell degrees by. -/
theorem exists_degreeLaws (h : S.LawfulDegree Rep Room Low) (ha : Rep a f) (hb : Rep b g)
    (hza : a ≠ S.zero) (hzb : b ≠ S.zero) (hla : Low (S.top a)) (hlb : Low (S.top b)) :
    ∃ u v, S.leadingCoeff? a = some u ∧ S.leadingCoeff? b = some v ∧
      S.DegreeLaws Room Low a b u v := by
  rw [Ne, h.eq_zero_iff ha] at hza
  rw [Ne, h.eq_zero_iff hb] at hzb
  rw [h.top_eq ha] at hla
  rw [h.top_eq hb] at hlb
  exact ⟨_, _, h.leadingCoeff?_eq ha hza, h.leadingCoeff?_eq hb hzb,
    h.degreeLaws ha hb hza hzb hla hlb⟩

end Store.LawfulDegree

variable [Coeff R] [ExactCoeff R] [DecidableEq R]

theorem Dense.store_lawfulDegree :
    (store (R := R)).LawfulDegree Represents (fun _ => True) fun _ => True where
  toLawful := store_lawful
  degree_zero := rfl
  degree_eq hp hf _ := hp.degree_eq hf
  low_mono _ _ := trivial
  room_of_low _ := trivial

/-- Among terms the degrees up to `maxDegree` are told apart. -/
theorem Sparse.store_lawfulDegree :
    (store (R := R)).LawfulDegree Represents (· < UInt64.size) (· ≤ maxDegree) where
  toLawful := store_lawful
  degree_zero := rfl
  degree_eq hp hf hlow := (hp.degree_eq hf).trans (congrArg Nat.cast (Nat.min_eq_left hlow))
  low_mono hn hmn := hmn.trans hn
  room_of_low {n} hn := by
    have hsize : UInt64.size = 18446744073709551616 := rfl
    have hmax : maxDegree = 9223372036854775807 := rfl
    omega

/-- In slots every exponent is told, and among terms those are that a degree tells apart. -/
theorem degrees_of_results :
    (∀ a b : Dense R, a.Canonical → b.Canonical → a ≠ .zero → b ≠ .zero → ∃ u v,
      a.leadingCoeff? = some u ∧ b.leadingCoeff? = some v ∧
        Dense.store.DegreeLaws (fun _ => True) (fun _ => True) a b u v) ∧
    ∀ a b : Sparse R, a.Canonical → b.Canonical → a ≠ .zero → b ≠ .zero →
      Sparse.store.top a ≤ Sparse.maxDegree → Sparse.store.top b ≤ Sparse.maxDegree → ∃ u v,
        a.leadingCoeff? = some u ∧ b.leadingCoeff? = some v ∧
          Sparse.store.DegreeLaws (· < UInt64.size) (· ≤ Sparse.maxDegree) a b u v := by
  constructor
  · intro a b ha hb hza hzb
    exact Dense.store_lawfulDegree.exists_degreeLaws (Dense.represents_toPoly ha)
      (Dense.represents_toPoly hb) hza hzb trivial trivial
  · intro a b ha hb hza hzb hla hlb
    exact Sparse.store_lawfulDegree.exists_degreeLaws (Sparse.represents_toPoly ha)
      (Sparse.represents_toPoly hb) hza hzb hla hlb

/-- Over bytes, where `16 * 16` is zero: a product that is lower than its factors promise, and one
of the largest degree that is told apart. -/
theorem degrees_of_results_bytes :
    let a := Dense.ofList [(1 : Int8), 0, 16]
    let b := Dense.ofList [(2 : Int8), 16]
    let s := Sparse.monomial (16 : Int8) 4611686018427387904
    let t := Sparse.monomial (3 : Int8) 4611686018427387903
    Dense.store.DegreeLaws (fun _ => True) (fun _ => True) a b 16 16 ∧
      Sparse.store.DegreeLaws (· < UInt64.size) (· ≤ Sparse.maxDegree) s t 16 3 ∧
        Returns (a.mul b) (·.degree < 3) ∧
          Returns (s.mul t) fun p => p.degree = Sparse.maxDegree ∧ p.leadingCoeff? = some 48 := by
  intro a b s t
  obtain ⟨u, v, hu, hv, hdense⟩ := degrees_of_results.1 a b (Dense.canonical_ofList _)
    (Dense.canonical_ofList _) (by decide) (by decide)
  obtain ⟨y, z, hy, hz, hsparse⟩ := degrees_of_results.2 s t (Sparse.canonical_monomial _ _)
    (Sparse.canonical_monomial _ _) (by decide) (by decide) (by decide) (by decide)
  obtain rfl : 16 = u := Option.some.inj hu
  obtain rfl : 16 = v := Option.some.inj hv
  obtain rfl : 16 = y := Option.some.inj hy
  obtain rfl : 3 = z := Option.some.inj hz
  refine ⟨hdense, hsparse, ?_, ?_⟩
  · refine (hdense.mul trivial).imp ?_
    intro p hp
    have hne : p.degree ≠ 3 := by
      intro heq
      exact hp.degree_eq_iff.mp heq (by decide)
    exact lt_of_le_of_ne hp.degree_le hne
  · refine (hsparse.mul (by decide)).imp ?_
    intro p hp
    exact ⟨hp.degree_eq_iff.mpr (by decide), hp.leadingCoeff (by decide)⟩

end Univariate
