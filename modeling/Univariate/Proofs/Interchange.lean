import Univariate.Proofs.Followed
import Univariate.Proofs.StoreLaws

/-! Both representations are interchangeable in all that needs no division, operation by operation
and in any sequence of operations. -/
namespace Univariate

open Polynomial

variable {R : Type} [CommRing R] [Coeff R]

/-- Two sessions with related polynomials in the same places, and the same answers. -/
structure Session.Alike (d : Session R (Dense R)) (e : Session R (Sparse R)) : Prop where
  polys : List.Forall₂ Related d.polys e.polys
  answers : d.answers = e.answers

def Session.Fits (d : Session R (Dense R)) : Prop := ∀ p ∈ d.polys, p.Fits

/-- All operations on `a` and `b` return, and the same ones on `s` and `t` return what is related to
their results, except that terms may find no room for the exponent of a shift or of a product of two
powers. All that is asked has the same answer. -/
structure Interchangeable [DecidableEq R] (a b : Dense R) (s t : Sparse R) : Prop where
  add : ReturnRelated (a.add b) (s.add t)
  sub : ReturnRelated (a.sub b) (s.sub t)
  neg : ReturnRelated a.neg s.neg
  mul : ReturnRelated (a.mul b) (s.mul t)
  scale (c : R) : ReturnRelated (a.scale c) (s.scale c)
  shift (n : Exponent) : Sparse.store.Shifted (· < UInt64.size) s n (Related (a.shift n))
  pow (n : ℕ) : Returns (a.pow n) fun p =>
    Sparse.store.Raised (· < UInt64.size) s n (Related p)
  derivative : ReturnRelated a.derivative s.derivative
  compose : Returns (a.compose b) fun p =>
    Sparse.store.Composed (· < UInt64.size) s t (Related p)
  eval (x : R) : Coincide (a.eval x) (s.eval x)
  degree : a.degree = s.degree
  isZero : a.isZero = s.isZero
  leadingCoeff? : a.leadingCoeff? = s.leadingCoeff?
  isMonic : a.isMonic = s.isMonic
  equal : a = b ↔ s = t

variable [ExactCoeff R] {a b p : Dense R} {s t : Sparse R}

namespace RelatedFitting

theorem degree_eq (h : RelatedFitting a s) : a.degree = s.degree := by
  obtain ⟨f, ha, hs, hf⟩ := h
  rcases eq_or_ne f 0 with rfl | hf_ne
  · rw [ha.eq_zero_iff.mpr rfl, hs.eq_zero_iff.mpr rfl]
    rfl
  · have hlt := natDegree_lt_of_fits hf
    have hle : f.natDegree ≤ Sparse.maxDegree := Nat.le_of_lt_succ hlt
    rw [ha.degree_eq hf_ne, hs.degree_eq hf_ne]
    exact congrArg Nat.cast (Nat.min_eq_left hle).symm

theorem isZero_eq (h : RelatedFitting a s) : a.isZero = s.isZero := by
  obtain ⟨f, ha, hs, -⟩ := h
  rw [Bool.eq_iff_iff, ha.isZero_iff, hs.isZero_iff]

theorem leadingCoeff?_eq (h : RelatedFitting a s) : a.leadingCoeff? = s.leadingCoeff? := by
  obtain ⟨f, ha, hs, -⟩ := h
  rcases eq_or_ne f 0 with rfl | hf
  · rw [ha.leadingCoeff?_eq_none, hs.leadingCoeff?_eq_none]
  · rw [ha.leadingCoeff?_eq hf, hs.leadingCoeff?_eq hf]

/-- Canonical values are equal when they say the same polynomial. -/
theorem eq_iff (h : RelatedFitting a s) (k : RelatedFitting b t) : a = b ↔ s = t := by
  obtain ⟨f, ha, hs, -⟩ := h
  obtain ⟨g, hb, ht, -⟩ := k
  have hdense : a = b ↔ f = g := by
    constructor
    · rintro rfl
      exact ha.toPoly_eq.symm.trans hb.toPoly_eq
    · rintro rfl
      exact ha.unique hb
  have hsparse : s = t ↔ f = g := by
    constructor
    · rintro rfl
      exact hs.toPoly_eq.symm.trans ht.toPoly_eq
    · rintro rfl
      exact hs.unique ht
  rw [hdense, hsparse]

variable [DecidableEq R]

theorem isMonic_eq (h : RelatedFitting a s) : a.isMonic = s.isMonic := by
  rw [Dense.isMonic, Sparse.isMonic, h.leadingCoeff?_eq]

theorem eval_coincide (h : RelatedFitting a s) (x : R) : Coincide (a.eval x) (s.eval x) := by
  obtain ⟨f, ha, hs, -⟩ := h
  exact (Dense.eval_returns ha x).coincide (Sparse.eval_returns hs x) rfl

theorem interchangeable (h : RelatedFitting a s) (k : RelatedFitting b t) :
    Interchangeable a b s t := by
  obtain ⟨f, ha, hs, hf⟩ := id h
  obtain ⟨g, hb, ht, hg⟩ := id k
  have hroom := natDegree_add_lt_of_fits hf hg
  have hderivative := Sparse.derivative_represents hs fun _ => BothRepresent.toNat_lt ⟨ha, hs, hf⟩
  exact {
    add := returnRelated_of_represents (Dense.add_represents ha hb) (Sparse.add_represents hs ht)
    sub := returnRelated_of_represents (Dense.sub_represents ha hb) (Sparse.sub_represents hs ht)
    neg := returnRelated_of_represents (Dense.neg_represents ha) (Sparse.neg_represents hs)
    mul := returnRelated_of_represents (Dense.mul_represents ha hb)
      (Sparse.mul_represents hs ht hroom)
    scale := fun c =>
      returnRelated_of_represents (Dense.scale_represents ha c) (Sparse.scale_represents hs c)
    shift := fun n => Sparse.store_lawful.shifted hs fun _ =>
      related_of_represents (Dense.shift_represents ha n)
    pow := fun n => (Dense.pow_represents ha n).imp fun _ hp =>
      Sparse.store_lawful.raised hs fun _ => related_of_represents hp
    derivative := returnRelated_of_represents (Dense.derivative_represents ha) hderivative
    compose := (Dense.compose_represents ha hb).imp fun _ hp =>
      Sparse.store_lawful.composed hs ht fun _ => related_of_represents hp
    eval := h.eval_coincide
    degree := h.degree_eq
    isZero := h.isZero_eq
    leadingCoeff? := h.leadingCoeff?_eq
    isMonic := h.isMonic_eq
    equal := h.eq_iff k }

end RelatedFitting

variable [DecidableEq R] {l : List (Dense R)} {m : List (Sparse R)}

omit [ExactCoeff R] in
/-- A place that is not taken reads as zero on either side. -/
theorem relatedFitting_read (h : List.Forall₂ RelatedFitting l m) (i : ℕ) :
    RelatedFitting (Dense.store.read l i) (Sparse.store.read m i) := by
  induction h generalizing i with
  | nil => exact relatedFitting_zero
  | cons hps _ ih =>
    cases i with
    | zero => exact hps
    | succ i => exact ih i

theorem ask_alike (h : List.Forall₂ RelatedFitting l m) (q : Query R) :
    Coincide (Dense.store.ask l q) (Sparse.store.ask m q) := by
  cases q with
  | eval i x =>
    obtain ⟨y, hy, hz⟩ := (relatedFitting_read h i).eval_coincide x
    refine ⟨.value y, ?_, ?_⟩
    · exact Fault.bind_eq_ok.mpr ⟨y, hy, rfl⟩
    · exact Fault.bind_eq_ok.mpr ⟨y, hz, rfl⟩
  | degree i =>
    have heq : Dense.store.degree _ = Sparse.store.degree _ := (relatedFitting_read h i).degree_eq
    exact ⟨_, rfl, by rw [Store.ask, heq]⟩
  | isZero i =>
    have heq : Dense.store.isZero _ = Sparse.store.isZero _ := (relatedFitting_read h i).isZero_eq
    exact ⟨_, rfl, by rw [Store.ask, heq]⟩
  | leadingCoeff i =>
    have heq : Dense.store.leadingCoeff? _ = Sparse.store.leadingCoeff? _ :=
      (relatedFitting_read h i).leadingCoeff?_eq
    exact ⟨_, rfl, by rw [Store.ask, heq]⟩
  | isMonic i =>
    have heq : Dense.store.isMonic _ = Sparse.store.isMonic _ :=
      (relatedFitting_read h i).isMonic_eq
    exact ⟨_, rfl, by rw [Store.ask, heq]⟩
  | equal i j =>
    have heq : Dense.store.equal _ _ = Sparse.store.equal _ _ :=
      decide_eq_decide.mpr ((relatedFitting_read h i).eq_iff (relatedFitting_read h j))
    exact ⟨_, rfl, by rw [Store.ask, heq]⟩

/-- A list is read alike unless it has a place from `2 ^ 63` on. -/
theorem ofList_followed (l : List R) : Followed (fun _ => 9223372036854775808 < l.length)
    (Dense.fittingStore.ofList l) (Dense.store.ofList l) (Sparse.store.ofList l) := by
  change Followed _ (if l.length ≤ 9223372036854775808 then _ else _) _ _
  split
  · rename_i hl
    have hwords : l.length ≤ UInt64.size := hl.trans (by decide)
    refine .ok ⟨rfl, .ok (relatedFitting_iff.mpr ⟨related_ofList hwords, ?_⟩)⟩
    exact (Dense.length_trim_le l).trans hl
  · rename_i hl
    exact .error (not_le.mp hl)

/-- One formation. What ends it is a polynomial that does not fit, or a power on the way to it. -/
theorem form_followed (h : List.Forall₂ RelatedFitting l m) (f : Formation R) :
    Followed (fun _ => Dense.Outgrows l f) (Dense.fittingStore.form l f) (Dense.store.form l f)
      (Sparse.store.form m f) := by
  cases f with
  | new cs => exact ofList_followed cs
  | add i j =>
    obtain ⟨f, hf⟩ := relatedFitting_read h i
    obtain ⟨g, hg⟩ := relatedFitting_read h j
    exact (add_formTogether hf hg).followed (Dense.add_represents hf.dense hg.dense) fun _ => id
  | sub i j =>
    obtain ⟨f, hf⟩ := relatedFitting_read h i
    obtain ⟨g, hg⟩ := relatedFitting_read h j
    exact (sub_formTogether hf hg).followed (Dense.sub_represents hf.dense hg.dense) fun _ => id
  | neg i =>
    obtain ⟨f, hf⟩ := relatedFitting_read h i
    exact (neg_formTogether hf).followed (Dense.neg_represents hf.dense) fun _ => id
  | mul i j =>
    obtain ⟨f, hf⟩ := relatedFitting_read h i
    obtain ⟨g, hg⟩ := relatedFitting_read h j
    have hmul := Dense.mul_represents hf.dense hg.dense
    exact (mul_formTogether hf hg).followed hmul fun _ => (oversized_iff hmul).mpr
  | scale i c =>
    obtain ⟨f, hf⟩ := relatedFitting_read h i
    exact (scale_formTogether hf c).followed (Dense.scale_represents hf.dense c) fun _ => id
  | shift i n =>
    obtain ⟨f, hf⟩ := relatedFitting_read h i
    have hshift : Returns (Dense.store.shift (Dense.store.read l i) n)
        (·.Represents (X ^ n.toNat * f)) := .ok (Dense.shift_represents hf.dense n)
    exact (shift_formTogether hf n).followed hshift fun _ => (oversized_iff hshift).mpr
  | pow i n =>
    obtain ⟨f, hf⟩ := relatedFitting_read h i
    refine (pow_formTogether hf n).followed (Dense.pow_represents hf.dense n) ?_
    rintro _ ⟨k, hk, hno⟩
    exact ⟨k, hk, (oversized_iff (Dense.pow_represents hf.dense k)).mpr hno⟩
  | derivative i =>
    obtain ⟨f, hf⟩ := relatedFitting_read h i
    exact (derivative_formTogether hf).followed (Dense.derivative_represents hf.dense) fun _ => id
  | compose i j =>
    obtain ⟨f, hf⟩ := relatedFitting_read h i
    obtain ⟨g, hg⟩ := relatedFitting_read h j
    refine (compose_formTogether hf hg).followed (Dense.compose_represents hf.dense hg.dense) ?_
    rintro _ ⟨k, hk, hno⟩
    exact ⟨k, hk, (oversized_iff (Dense.pow_represents hg.dense k)).mpr hno⟩

section Sessions

variable {d : Session R (Dense R)} {e : Session R (Sparse R)}

omit [DecidableEq R] in
theorem forall₂_relatedFitting_iff {l : List (Dense R)} {m : List (Sparse R)} :
    List.Forall₂ RelatedFitting l m ↔ List.Forall₂ Related l m ∧ ∀ p ∈ l, p.Fits := by
  induction l generalizing m with
  | nil => cases m <;> simp
  | cons p l ih =>
    cases m with
    | nil => simp
    | cons s m =>
      rw [List.forall₂_cons, List.forall₂_cons, ih, relatedFitting_iff, List.forall_mem_cons]
      tauto

/-- Alike sessions whose polynomials fit. -/
def Session.Matched (d : Session R (Dense R)) (e : Session R (Sparse R)) : Prop :=
  List.Forall₂ RelatedFitting d.polys e.polys ∧ d.answers = e.answers

omit [DecidableEq R] in
theorem Session.matched_iff : d.Matched e ↔ d.Alike e ∧ d.Fits := by
  rw [Matched, forall₂_relatedFitting_iff]
  constructor
  · rintro ⟨⟨hpolys, hfits⟩, hanswers⟩
    exact ⟨⟨hpolys, hanswers⟩, hfits⟩
  · rintro ⟨⟨hpolys, hanswers⟩, hfits⟩
    exact ⟨⟨hpolys, hfits⟩, hanswers⟩

/-- One command. An answer is the same in all stores, and adds nothing to what is read. -/
theorem perform_followed (h : d.Matched e) (c : Command R) :
    Ends (fun _ => ∃ f, c = .form f ∧ Dense.Outgrows d.polys f) (Dense.fittingStore.perform d c)
      fun d' => Dense.store.perform d c = .ok d' ∧
        Returns (Sparse.store.perform e c) d'.Matched := by
  obtain ⟨hpolys, hanswers⟩ := h
  cases c with
  | form f =>
    refine Ends.bind ((form_followed hpolys f).weaken fun _ hf => ⟨f, rfl, hf⟩) fun p hp => ?_
    obtain ⟨hdense, hsparse⟩ := hp
    refine .pure ⟨Fault.bind_eq_ok.mpr ⟨p, hdense, rfl⟩, hsparse.bind fun s hps => .pure ⟨?_, ?_⟩⟩
    · exact List.rel_append hpolys (.cons hps .nil)
    · exact hanswers
  | ask q =>
    obtain ⟨answer, hdense, hsparse⟩ := ask_alike hpolys q
    have hfitting : Dense.fittingStore.ask d.polys q = .ok answer := by
      cases q <;> exact hdense
    have hperform : Dense.fittingStore.perform d (.ask q) =
        .ok { d with answers := d.answers ++ [answer] } :=
      Fault.bind_eq_ok.mpr ⟨answer, hfitting, rfl⟩
    rw [hperform]
    refine .ok ⟨Fault.bind_eq_ok.mpr ⟨answer, hdense, rfl⟩, ?_⟩
    refine ⟨_, Fault.bind_eq_ok.mpr ⟨answer, hsparse, rfl⟩, hpolys, ?_⟩
    rw [hanswers]

/-- All commands, by induction on their list. -/
theorem run_followed (h : d.Matched e) (cs : List (Command R)) :
    Ends (fun _ => Dense.Outgrown d cs) (Dense.fittingStore.run d cs) fun d' =>
      Dense.store.run d cs = .ok d' ∧ Returns (Sparse.store.run e cs) d'.Matched := by
  induction cs generalizing d e with
  | nil => exact .ok ⟨rfl, .ok h⟩
  | cons c cs ih =>
    rw [Store.run, List.foldlM_cons]
    refine ((perform_followed h c).weaken ?_).bind fun next hnext => ?_
    · rintro _ ⟨f, rfl, hf⟩
      exact ⟨[], f, cs, d, rfl, rfl, hf⟩
    · obtain ⟨hplain, next', hnext', hmatched⟩ := hnext
      refine ((ih hmatched).weaken fun _ hno => hno.cons hplain).imp fun d' hd' => ?_
      rw [Store.run, List.foldlM_cons, hplain, Store.run, List.foldlM_cons, hnext']
      exact hd'

end Sessions

/-- One list of coefficients is read alike, and every operation on related operands goes alike. So
does every sequence of them between alike sessions, unless an exponent from `2 ^ 63` on arises,
which alone makes the store give up that is told to. -/
theorem stores_interchangeable :
    (∀ l : List R, l.length ≤ UInt64.size → Related (Dense.ofList l) (Sparse.ofList l)) ∧
    (∀ (a b : Dense R) (s t : Sparse R), Related a s → Related b t → a.Fits → b.Fits →
      Interchangeable a b s t) ∧
    ∀ (d : Session R (Dense R)) (e : Session R (Sparse R)), d.Alike e → d.Fits → ∀ cs,
      Ends (fun _ => Dense.Outgrown d cs) (Dense.fittingStore.run d cs) fun d' =>
        Dense.store.run d cs = .ok d' ∧ Returns (Sparse.store.run e cs) d'.Alike := by
  refine ⟨fun l hl => related_ofList hl, ?_, ?_⟩
  · intro a b s t has hbt ha hb
    exact (relatedFitting_iff.mpr ⟨has, ha⟩).interchangeable (relatedFitting_iff.mpr ⟨hbt, hb⟩)
  · intro d e halike hfits cs
    refine (run_followed (Session.matched_iff.mpr ⟨halike, hfits⟩) cs).imp fun d' hd' => ?_
    exact ⟨hd'.1, hd'.2.imp fun e' he' => (Session.matched_iff.mp he').1⟩

/-- Over bytes, every operation once, where products, multiples and powers lose their upper terms to
divisors of zero. -/
def byteCommands : List (Command Int8) :=
  [.form (.new [1, 3]), .form (.add 0 1), .form (.sub 1 0), .form (.neg 4), .form (.mul 0 1),
    .form (.scale 1 4), .form (.shift 7 3), .form (.pow 1 3), .form (.derivative 0),
    .form (.compose 0 1), .ask (.eval 6 3), .ask (.degree 8), .ask (.isZero 10),
    .ask (.leadingCoeff 11), .ask (.isMonic 2), .ask (.equal 3 5)]

/-- From `64 * x ^ 2 + 2` and `64 * x + 4`. -/
theorem stores_interchangeable_bytes :
    let a : Dense Int8 := .ofList [2, 0, 64]
    let b : Dense Int8 := .ofList [4, 64]
    let s : Sparse Int8 := .ofList [2, 0, 64]
    let t : Sparse Int8 := .ofList [4, 64]
    Interchangeable a b s t ∧ ∃ d e, Dense.store.run ⟨[a, b], []⟩ byteCommands = .ok d ∧
      Sparse.store.run ⟨[s, t], []⟩ byteCommands = .ok e ∧ d.Alike e := by
  intro a b s t
  have has : Related a s := stores_interchangeable.1 [2, 0, 64] (by decide)
  have hbt : Related b t := stores_interchangeable.1 [4, 64] (by decide)
  have ha : a.Fits := by decide
  have hb : b.Fits := by decide
  refine ⟨stores_interchangeable.2.1 a b s t has hbt ha hb, ?_⟩
  have hfits : ∀ p ∈ [a, b], p.Fits :=
    List.forall_mem_cons.mpr ⟨ha, List.forall_mem_singleton.mpr hb⟩
  have hrun := stores_interchangeable.2.2 ⟨[a, b], []⟩ ⟨[s, t], []⟩
    ⟨.cons has (.cons hbt .nil), rfl⟩ hfits byteCommands
  have hok : (Dense.fittingStore.run ⟨[a, b], []⟩ byteCommands).isOk = true := by decide +kernel
  cases hd : Dense.fittingStore.run ⟨[a, b], []⟩ byteCommands with
  | error e =>
    rw [hd] at hok
    cases hok
  | ok d =>
    obtain ⟨hdense, e, hsparse, halike⟩ := hrun.of_eq_ok hd
    exact ⟨d, e, hdense, hsparse, halike⟩

end Univariate
