import Univariate.Proofs.Carries
import Univariate.Sparse.Calculus

/-! Sparse polynomials and their images under an embedding of coefficients. A term is stored or
removed exactly when its image is. -/
namespace Univariate.Sparse

variable {R R' : Type} {φ : R → R'}

def mapTerm (φ : R → R') (t : Exponent × R) : Exponent × R' := (t.1, φ t.2)

/-- The same exponents, with the images of their coefficients. -/
def map (φ : R → R') (p : Sparse R) : Sparse R' :=
  ⟨p.terms.map (mapTerm φ), List.pairwise_map.mpr p.ascending⟩

theorem ext {p q : Sparse R} (h : p.terms = q.terms) : p = q := by
  cases p
  cases q
  cases h
  rfl

theorem map_injective (h : Function.Injective φ) : Function.Injective (map φ) := by
  intro p q hpq
  have hterm : Function.Injective (mapTerm φ) := by
    intro s t hst
    rw [mapTerm, mapTerm, Prod.mk.injEq] at hst
    exact Prod.ext hst.1 (h hst.2)
  exact ext (hterm.list_map (congrArg terms hpq))

theorem isZero_map (φ : R → R') (p : Sparse R) : (p.map φ).isZero = p.isZero :=
  List.isEmpty_map

theorem lead?_map (φ : R → R') (p : Sparse R) : (p.map φ).lead? = p.lead?.map (mapTerm φ) :=
  List.getLast?_map

theorem degree_map (φ : R → R') (p : Sparse R) : (p.map φ).degree = p.degree := by
  rw [degree, degree, lead?_map]
  cases p.lead? <;> rfl

theorem leadingCoeff?_map (φ : R → R') (p : Sparse R) :
    (p.map φ).leadingCoeff? = p.leadingCoeff?.map φ := by
  rw [leadingCoeff?, leadingCoeff?, lead?_map]
  cases p.lead? <;> rfl

theorem put_map (φ : R → R') (e : Exponent) (c : R) (l : List (Exponent × R)) :
    put e (φ c) (l.map (mapTerm φ)) = (put e c l).map (mapTerm φ) := by
  induction l with
  | nil => rfl
  | cons t l ih =>
    rw [List.map_cons, put, put]
    change (if e < t.1 then _ else if t.1 < e then _ else _) = _
    split
    · rfl
    · split
      · rw [ih, List.map_cons]
      · rfl

theorem insert_map (φ : R → R') (p : Sparse R) (e : Exponent) (c : R) :
    (p.map φ).insert e (φ c) = (p.insert e c).map φ := ext (put_map φ e c p.terms)

theorem erase_map (φ : R → R') (p : Sparse R) (e : Exponent) :
    (p.map φ).erase e = (p.erase e).map φ := by
  apply ext
  change (p.terms.map (mapTerm φ)).filter _ = (p.terms.filter _).map (mapTerm φ)
  rw [List.filter_map]
  rfl

theorem get?_map (φ : R → R') (p : Sparse R) (n : ℕ) : (p.map φ).get? n = (p.get? n).map φ := by
  rw [get?, get?, map, List.find?_map]
  change Option.map Prod.snd (Option.map (mapTerm φ) (p.terms.find? fun t => t.1.toNat = n)) = _
  cases p.terms.find? fun t => t.1.toNat = n <;> rfl

theorem collect_map (φ : R → R') (l : List (Exponent × R)) :
    collect (l.map (mapTerm φ)) = (collect l).map φ := by
  suffices hfold : ∀ p : Sparse R, (l.map (mapTerm φ)).foldl (fun p t => p.insert t.1 t.2) (p.map φ)
      = (l.foldl (fun p t => p.insert t.1 t.2) p).map φ from hfold zero
  induction l with
  | nil => exact fun p => rfl
  | cons t l ih =>
    intro p
    rw [List.map_cons, List.foldl_cons, List.foldl_cons, ← ih, ← insert_map]
    rfl

variable {E : Fault → Prop}

/-- Terms that are changed one by one and then collected. -/
theorem bind_collect_carries {step : Exponent × R → Except Fault (Exponent × R)}
    {step' : Exponent × R' → Except Fault (Exponent × R')}
    (hstep : ∀ t, Carries E (mapTerm φ) (step t) (step' (mapTerm φ t))) (p : Sparse R) :
    Carries E (map φ) (p.terms.mapM step >>= fun l => pure (collect l))
      ((p.map φ).terms.mapM step' >>= fun l => pure (collect l)) :=
  (Carries.mapM hstep p.terms).bind fun l => .pure (collect_map φ l)

theorem shift_carries (hroom : E (.overflow .add)) (φ : R → R') (p : Sparse R) (n : Exponent) :
    Carries E (map φ) (p.shift n) ((p.map φ).shift n) := by
  refine bind_collect_carries (fun t => ?_) p
  exact .bind_wordAdd hroom fun e => .pure rfl

variable [Coeff R] [Coeff R']

theorem neg_carries (h : CoeffHom E φ) (p : Sparse R) :
    Carries E (map φ) p.neg (p.map φ).neg := by
  refine bind_collect_carries (fun t => ?_) p
  exact (h.neg t.2).bind fun c => .pure rfl

theorem eval_carries (h : CoeffHom E φ) (p : Sparse R) (x : R) :
    Carries E φ (p.eval x) ((p.map φ).eval (φ x)) := by
  rw [eval, eval, ← h.zero]
  refine Carries.foldlM (fun sum t => ?_) p.terms Coeff.zero
  exact (h.pow x t.1.toNat).bind fun power => (h.mul t.2 power).bind fun product =>
    h.add sum product

variable [DecidableEq R] [DecidableEq R']

theorem isMonic_map (h : CoeffEmbedding E φ) (p : Sparse R) : (p.map φ).isMonic = p.isMonic := by
  rw [isMonic, isMonic, leadingCoeff?_map]
  cases p.leadingCoeff? with
  | none => rfl
  | some c => simp [h.eq_one_iff]

theorem monomial_map (h : CoeffEmbedding E φ) (c : R) (n : Exponent) :
    monomial (φ c) n = (monomial c n).map φ := by
  by_cases hc : c = Coeff.zero
  · rw [monomial, monomial, if_pos hc, if_pos (h.eq_zero_iff.mpr hc)]
    rfl
  · rw [monomial, monomial, if_neg hc, if_neg (mt h.eq_zero_iff.mp hc)]
    exact insert_map φ zero n c

theorem one_map (h : CoeffEmbedding E φ) : (one : Sparse R') = (one : Sparse R).map φ := by
  rw [one, constant, ← h.one, monomial_map h]
  rfl

theorem ofList_map (h : CoeffEmbedding E φ) (l : List R) :
    ofList (l.map φ) = (ofList l).map φ := by
  have hterms : ((l.map φ).zipIdx.filter fun t => t.1 ≠ Coeff.zero) =
      (l.zipIdx.filter fun t => t.1 ≠ Coeff.zero).map (Prod.map φ id) := by
    rw [List.zipIdx_map, List.filter_map]
    refine congrArg _ (List.filter_congr fun t _ => ?_)
    exact decide_eq_decide.mpr (not_congr h.eq_zero_iff)
  rw [ofList, ofList, hterms, ← collect_map, List.map_map, List.map_map]
  rfl

/-- A sum of zero is removed on either side. -/
theorem addTerm_carries (h : CoeffEmbedding E φ) (p : Sparse R) (e : Exponent) (c : R) :
    Carries E (map φ) (p.addTerm e c) ((p.map φ).addTerm e (φ c)) := by
  rw [addTerm, addTerm, get?_map]
  refine h.carries_ite c (.ok rfl) ?_
  cases p.get? e.toNat with
  | none => exact .ok (insert_map φ p e c)
  | some b =>
    refine (h.add b c).bind fun sum => .pure ?_
    by_cases hsum : sum = Coeff.zero
    · rw [if_pos hsum, if_pos (h.eq_zero_iff.mpr hsum), erase_map]
    · rw [if_neg hsum, if_neg (mt h.eq_zero_iff.mp hsum), insert_map]

theorem ofTerms_carries (h : CoeffEmbedding E φ) (l : List (Exponent × R)) :
    Carries E (map φ) (ofTerms l) (ofTerms (l.map (mapTerm φ))) :=
  Carries.foldlM (fun s t => addTerm_carries h s t.1 t.2) l zero

theorem add_carries (h : CoeffEmbedding E φ) (p q : Sparse R) :
    Carries E (map φ) (p.add q) ((p.map φ).add (q.map φ)) :=
  Carries.foldlM (fun s t => addTerm_carries h s t.1 t.2) q.terms p

theorem sub_carries (h : CoeffEmbedding E φ) (p q : Sparse R) :
    Carries E (map φ) (p.sub q) ((p.map φ).sub (q.map φ)) := by
  refine Carries.foldlM (fun s t => ?_) q.terms p
  exact (h.neg t.2).bind fun c => addTerm_carries h s t.1 c

theorem addRow_carries (h : CoeffEmbedding E φ) (hroom : E (.overflow .add)) (q sum : Sparse R)
    (e : Exponent) (c : R) :
    Carries E (map φ) (addRow q sum e c) (addRow (q.map φ) (sum.map φ) e (φ c)) := by
  refine Carries.foldlM (fun s t => ?_) q.terms sum
  exact .bind_wordAdd hroom fun exponent => (h.mul c t.2).bind fun product =>
    addTerm_carries h s exponent product

theorem mul_carries (h : CoeffEmbedding E φ) (hroom : E (.overflow .add)) (p q : Sparse R) :
    Carries E (map φ) (p.mul q) ((p.map φ).mul (q.map φ)) :=
  Carries.foldlM (fun s t => addRow_carries h hroom q s t.1 t.2) p.terms zero

theorem scale_carries (h : CoeffEmbedding E φ) (p : Sparse R) (c : R) :
    Carries E (map φ) (p.scale c) ((p.map φ).scale (φ c)) := by
  refine Carries.foldlM (fun s t => ?_) p.terms zero
  exact (h.mul t.2 c).bind fun product => addTerm_carries h s t.1 product

theorem pow_carries (h : CoeffEmbedding E φ) (hroom : E (.overflow .add)) (p : Sparse R) (n : ℕ) :
    Carries E (map φ) (p.pow n) ((p.map φ).pow n) := by
  have hpow := Carries.repeated (mul_carries h hroom) one p n
  rwa [← one_map h] at hpow

theorem compose_carries (h : CoeffEmbedding E φ) (hroom : E (.overflow .add)) (p q : Sparse R) :
    Carries E (map φ) (p.compose q) ((p.map φ).compose (q.map φ)) := by
  refine Carries.foldlM (fun s t => ?_) p.terms zero
  exact (pow_carries h hroom q t.1.toNat).bind fun power =>
    (scale_carries h power t.2).bind fun product => add_carries h s product

theorem derivative_carries (h : CoeffEmbedding E φ) (p : Sparse R) :
    Carries E (map φ) p.derivative (p.map φ).derivative := by
  have hterms : ((p.map φ).terms.filter fun t => 0 < t.1) =
      (p.terms.filter fun t => 0 < t.1).map (mapTerm φ) := List.filter_map
  rw [derivative, derivative, hterms]
  refine Carries.foldlM (fun s t => ?_) _ zero
  exact (h.multiple t.2 t.1.toInt64.toInt).bind fun product =>
    addTerm_carries h s (t.1 - 1) product

end Univariate.Sparse
