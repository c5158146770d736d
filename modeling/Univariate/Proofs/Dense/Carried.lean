import Univariate.Dense.Calculus
import Univariate.Proofs.Carries

/-! Dense polynomials and their images under an embedding of coefficients. The loops run alike on
both, because a slot is zero exactly when its image is. -/
namespace Univariate.Dense

variable {R R' : Type} {φ : R → R'}

/-- The same slots, with the images of their coefficients. -/
def map (φ : R → R') (p : Dense R) : Dense R' := ⟨p.coeffs.map φ⟩

theorem map_injective (h : Function.Injective φ) : Function.Injective (map φ) := by
  intro p q hpq
  cases p
  cases q
  exact congrArg Dense.mk (h.list_map (congrArg coeffs hpq))

theorem isZero_map (φ : R → R') (p : Dense R) : (p.map φ).isZero = p.isZero :=
  List.isEmpty_map

theorem degree_map (φ : R → R') (p : Dense R) : (p.map φ).degree = p.degree := by
  rw [degree, degree, map, List.length_map]

theorem leadingCoeff?_map (φ : R → R') (p : Dense R) :
    (p.map φ).leadingCoeff? = p.leadingCoeff?.map φ := List.getLast?_map

variable [Coeff R] [Coeff R'] {E : Fault → Prop}

section Loops

variable {op : R → R → Except Fault R} {op' : R' → R' → Except Fault R'}

theorem combine_carries (hzero : φ Coeff.zero = Coeff.zero)
    (hop : ∀ a b, Carries E φ (op a b) (op' (φ a) (φ b))) (l l' : List R) :
    Carries E (List.map φ) (combine op l l') (combine op' (l.map φ) (l'.map φ)) := by
  induction l' generalizing l with
  | nil => cases l <;> exact .ok rfl
  | cons b l' ih =>
    cases l with
    | nil =>
      have hb := hop Coeff.zero b
      rw [hzero] at hb
      exact hb.bind fun c => (ih []).bind fun r => .pure rfl
    | cons a l => exact (hop a b).bind fun c => (ih l).bind fun r => .pure rfl

theorem addMultiples_carries (h : CoeffHom E φ) (a : R) (l acc : List R) :
    Carries E (List.map φ) (addMultiples a l acc)
      (addMultiples (φ a) (l.map φ) (acc.map φ)) := by
  induction l generalizing acc with
  | nil => cases acc <;> exact .ok rfl
  | cons b l ih =>
    cases acc with
    | nil => exact .ok rfl
    | cons s acc =>
      exact (h.mul a b).bind fun product => (h.add s product).bind fun sum =>
        (ih acc).bind fun rest => .pure rfl

end Loops

theorem neg_carries (h : CoeffHom E φ) (p : Dense R) :
    Carries E (map φ) p.neg (p.map φ).neg := by
  have hneg := Carries.mapM h.neg p.coeffs
  exact hneg.bind fun l => .pure rfl

theorem shift_map (h : CoeffHom E φ) (p : Dense R) (n : Exponent) :
    (p.map φ).shift n = (p.shift n).map φ := by
  rw [shift, shift, isZero_map]
  split
  · rfl
  · rw [map, map, List.map_append, List.map_replicate, h.zero]

variable [DecidableEq R] [DecidableEq R']

theorem settle_map (h : CoeffEmbedding E φ) (a : R) (l : List R) :
    settle (φ a) (l.map φ) = (settle a l).map φ := by
  cases l with
  | nil =>
    rw [settle, List.map_nil, settle]
    by_cases ha : a = Coeff.zero
    · rw [if_pos ha, if_pos (h.eq_zero_iff.mpr ha), List.map_nil]
    · rw [if_neg ha, if_neg (mt h.eq_zero_iff.mp ha), List.map_singleton]
  | cons b l => rfl

theorem ofList_map (h : CoeffEmbedding E φ) (l : List R) :
    ofList (l.map φ) = (ofList l).map φ := by
  have htrim : trim (l.map φ) = (trim l).map φ := by
    induction l with
    | nil => rfl
    | cons a l ih => rw [List.map_cons, trim_cons, ih, settle_map h, trim_cons]
  rw [ofList, htrim]
  rfl

theorem one_map (h : CoeffEmbedding E φ) : (one : Dense R') = (one : Dense R).map φ := by
  rw [one, constant, ← h.one]
  exact ofList_map h [Coeff.one]

theorem isMonic_map (h : CoeffEmbedding E φ) (p : Dense R) : (p.map φ).isMonic = p.isMonic := by
  rw [isMonic, isMonic, leadingCoeff?_map]
  cases p.leadingCoeff? with
  | none => rfl
  | some c => simp [h.eq_one_iff]

/-- What is trimmed in the end is trimmed alike. -/
theorem bind_ofList_carries (h : CoeffEmbedding E φ) {x : Except Fault (List R)}
    {y : Except Fault (List R')} (hxy : Carries E (List.map φ) x y) :
    Carries E (map φ) (x >>= fun l => pure (ofList l)) (y >>= fun l => pure (ofList l)) :=
  hxy.bind fun l => .pure (ofList_map h l)

theorem add_carries (h : CoeffEmbedding E φ) (p q : Dense R) :
    Carries E (map φ) (p.add q) ((p.map φ).add (q.map φ)) :=
  bind_ofList_carries h (combine_carries h.zero h.add p.coeffs q.coeffs)

theorem sub_carries (h : CoeffEmbedding E φ) (p q : Dense R) :
    Carries E (map φ) (p.sub q) ((p.map φ).sub (q.map φ)) :=
  bind_ofList_carries h (combine_carries h.zero h.sub p.coeffs q.coeffs)

/-- A row is left out for a coefficient exactly when it is for its image. -/
theorem addRow_carries (h : CoeffEmbedding E φ) (a : R) (l acc : List R) :
    Carries E (List.map φ) (addRow a l acc) (addRow (φ a) (l.map φ) (acc.map φ)) := by
  rw [addRow, addRow]
  exact h.carries_ite a (.ok rfl) (addMultiples_carries h.toCoeffHom a l acc)

theorem addRows_carries (h : CoeffEmbedding E φ) (q l acc : List R) :
    Carries E (List.map φ) (addRows q l acc) (addRows (q.map φ) (l.map φ) (acc.map φ)) := by
  induction l generalizing acc with
  | nil => exact .ok rfl
  | cons a l ih =>
    refine (addRow_carries h a q acc).bind fun row => ?_
    cases row with
    | nil => exact .pure rfl
    | cons s row => exact (ih row).bind fun rest => .pure rfl

theorem mul_carries (h : CoeffEmbedding E φ) (p q : Dense R) :
    Carries E (map φ) (p.mul q) ((p.map φ).mul (q.map φ)) := by
  rw [mul, mul, isZero_map, isZero_map]
  split
  · exact .ok rfl
  · have hrows := addRows_carries h q.coeffs p.coeffs
      (List.replicate (p.coeffs.length + q.coeffs.length - 1) Coeff.zero)
    rw [List.map_replicate, h.zero] at hrows
    simp only [map, List.length_map]
    exact bind_ofList_carries h hrows

theorem scale_carries (h : CoeffEmbedding E φ) (p : Dense R) (c : R) :
    Carries E (map φ) (p.scale c) ((p.map φ).scale (φ c)) := by
  rw [scale, scale]
  refine h.carries_ite c (.ok rfl) ?_
  exact bind_ofList_carries h (Carries.mapM (fun a => h.mul a c) p.coeffs)

theorem pow_carries (h : CoeffEmbedding E φ) (p : Dense R) (n : ℕ) :
    Carries E (map φ) (p.pow n) ((p.map φ).pow n) := by
  have hpow := Carries.repeated (mul_carries h) one p n
  rwa [← one_map h] at hpow

theorem derivative_carries (h : CoeffEmbedding E φ) (p : Dense R) :
    Carries E (map φ) p.derivative (p.map φ).derivative := by
  have hslots : (p.map φ).coeffs.tail.zipIdx 1 =
      (p.coeffs.tail.zipIdx 1).map (Prod.map φ id) := by
    rw [map, ← List.map_tail, List.zipIdx_map]
  have hterms := Carries.mapM (θ := Prod.map φ id) (f := fun t : R × ℕ => Coeff.multiple t.1 t.2)
    (g := fun t => Coeff.multiple t.1 t.2) (fun t => h.multiple t.1 t.2) (p.coeffs.tail.zipIdx 1)
  rw [← hslots] at hterms
  exact bind_ofList_carries h hterms

section Substitution

variable {A A' : Type} {ψ : A → A'} {term : R → A → Except Fault A}
  {term' : R' → A' → Except Fault A'} {add mul : A → A → Except Fault A}
  {add' mul' : A' → A' → Except Fault A'}

theorem addTermOf_carries (h : CoeffEmbedding E φ)
    (hterm : ∀ c a, Carries E ψ (term c a) (term' (φ c) (ψ a)))
    (hadd : ∀ a b, Carries E ψ (add a b) (add' (ψ a) (ψ b))) (c : R) (sum power : A) :
    Carries E ψ (addTermOf term add c sum power)
      (addTermOf term' add' (φ c) (ψ sum) (ψ power)) := by
  rw [addTermOf, addTermOf]
  refine h.carries_ite c (.ok rfl) ?_
  exact (hterm c power).bind fun t => hadd sum t

theorem substitute_carries (h : CoeffEmbedding E φ)
    (hterm : ∀ c a, Carries E ψ (term c a) (term' (φ c) (ψ a)))
    (hadd : ∀ a b, Carries E ψ (add a b) (add' (ψ a) (ψ b)))
    (hmul : ∀ a b, Carries E ψ (mul a b) (mul' (ψ a) (ψ b))) (arg sum power : A) (l : List R) :
    Carries E ψ (substitute term add mul arg sum power l)
      (substitute term' add' mul' (ψ arg) (ψ sum) (ψ power) (l.map φ)) := by
  induction l generalizing sum power with
  | nil => exact .ok rfl
  | cons c l ih =>
    cases l with
    | nil => exact addTermOf_carries h hterm hadd c sum power
    | cons b l =>
      exact (addTermOf_carries h hterm hadd c sum power).bind fun sum =>
        (hmul power arg).bind fun power => ih sum power

end Substitution

theorem eval_carries (h : CoeffEmbedding E φ) (p : Dense R) (x : R) :
    Carries E φ (p.eval x) ((p.map φ).eval (φ x)) := by
  have heval := substitute_carries h h.mul h.add h.mul x Coeff.zero Coeff.one p.coeffs
  rwa [h.zero, h.one] at heval

theorem compose_carries (h : CoeffEmbedding E φ) (p q : Dense R) :
    Carries E (map φ) (p.compose q) ((p.map φ).compose (q.map φ)) := by
  rw [compose, compose, one_map h]
  exact substitute_carries h (fun c power => scale_carries h power c) (add_carries h)
    (mul_carries h) q zero one p.coeffs

theorem monomial_carries (h : CoeffEmbedding E φ) (hroom : E (.overflow .add)) (c : R)
    (n : Exponent) : Carries E (map φ) (monomial c n) (monomial (φ c) n) := by
  rw [monomial, monomial]
  refine h.carries_ite c (.ok rfl) (.bind_wordAdd hroom fun _ => .pure ?_)
  rw [map, List.map_append, List.map_replicate, h.zero, List.map_singleton]

end Univariate.Dense
