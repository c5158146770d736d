import Univariate.Sparse.Basic
import Univariate.Trace

/-! Long division, monic form and greatest common divisor of sparse polynomials. -/
namespace Univariate.Sparse

variable {R : Type}

/-- One more than the largest exponent, and zero for the zero polynomial. -/
def height (p : Sparse R) : Nat :=
  match p.lead? with
  | none => 0
  | some t => t.1.toNat + 1

theorem height_le_iff {p : Sparse R} {n : Nat} :
    p.height ≤ n ↔ ∀ t ∈ p.terms, t.1.toNat < n := by
  unfold height lead?
  cases hl : p.terms.getLast? with
  | none =>
    rw [List.getLast?_eq_none_iff.mp hl]
    simp
  | some s =>
    obtain ⟨l, hp⟩ := List.getLast?_eq_some_iff.mp hl
    have hlt : ∀ t ∈ l, t.1.toNat < s.1.toNat := by
      have h := p.ascending
      rw [hp] at h
      intro t ht
      exact UInt64.lt_iff_toNat_lt.mp ((List.pairwise_append.mp h).2.2 t ht s (by simp))
    rw [hp]
    change s.1.toNat + 1 ≤ n ↔ _
    constructor
    · intro h t ht
      rcases List.mem_append.mp ht with ht | ht
      · exact Nat.lt_of_lt_of_le (hlt t ht) (by omega)
      · obtain rfl := List.mem_singleton.mp ht
        omega
    · intro h
      exact h s (by simp)

theorem height_insert_le {p : Sparse R} {e : Exponent} {c : R} {n : Nat} (h : p.height ≤ n)
    (he : e.toNat < n) : (p.insert e c).height ≤ n := by
  rw [height_le_iff] at h ⊢
  intro t ht
  rcases mem_put ht with rfl | ht
  · exact he
  · exact h t ht

theorem height_erase_le {p : Sparse R} {e : Exponent} {n : Nat} (h : p.height ≤ n) :
    (p.erase e).height ≤ n := by
  rw [height_le_iff] at h ⊢
  exact fun t ht => h t (List.mem_filter.mp ht).1

/-- Without its leading term, a polynomial stays below that term's exponent. -/
theorem height_erase_lead_le {p : Sparse R} {t : Exponent × R} (h : p.lead? = some t) :
    (p.erase t.1).height ≤ t.1.toNat := by
  rw [height_le_iff]
  intro s hs
  obtain ⟨hp, hne⟩ := List.mem_filter.mp hs
  have hlt : s.1.toNat < t.1.toNat + 1 := by
    refine height_le_iff.mp ?_ s hp
    simp [height, h]
  have hne : s.1.toNat ≠ t.1.toNat := fun he => by
    simp [UInt64.toNat_inj.mp he] at hne
  omega

variable [Coeff R] [DecidableEq R]

theorem height_addTerm_le {p q : Sparse R} {e : Exponent} {c : R} {n : Nat} (h : p.height ≤ n)
    (he : e.toNat < n) (hq : p.addTerm e c = .ok q) : q.height ≤ n := by
  unfold addTerm at hq
  split at hq
  · obtain rfl := Except.ok.inj hq
    exact h
  · split at hq
    · obtain rfl := Except.ok.inj hq
      exact height_insert_le h he
    · obtain ⟨sum, -, hq⟩ := Fault.bind_eq_ok.mp hq
      obtain rfl := Fault.pure_eq_ok.mp hq
      split
      · exact height_erase_le h
      · exact height_insert_le h he

/-- Subtracts `factor * x ^ shift` times each of the terms. -/
def reduce (factor : R) (shift : Exponent) (r : Sparse R) :
    List (Exponent × R) → Except Fault (Sparse R)
  | [] => .ok r
  | (e, c) :: low => do
    let e ← Word.add e shift
    let product ← Coeff.mul factor c
    let c ← Coeff.neg product
    let r ← r.addTerm e c
    reduce factor shift r low

theorem height_reduce_le {factor : R} {shift : Exponent} {r s : Sparse R}
    {low : List (Exponent × R)} {n : Nat} (hr : r.height ≤ n)
    (hlow : ∀ t ∈ low, t.1.toNat + shift.toNat < n) (h : reduce factor shift r low = .ok s) :
    s.height ≤ n := by
  induction low generalizing r with
  | nil =>
    obtain rfl := Except.ok.inj h
    exact hr
  | cons t low ih =>
    obtain ⟨e, c⟩ := t
    simp only [reduce, Fault.bind_eq_ok] at h
    obtain ⟨exponent, he, product, -, b, -, q, hq, h⟩ := h
    refine ih (height_addTerm_le hr ?_ hq) (fun t ht => hlow t (List.mem_cons_of_mem _ ht)) h
    rw [Word.toNat_add he]
    exact hlow _ List.mem_cons_self

variable [CoeffDiv R]

/-- The terms of exponents below `d`. -/
def termsBelow (p : Sparse R) (d : Exponent) : List (Exponent × R) :=
  p.terms.filter fun t => t.1 < d

/-- One round: the top term of the remainder over the divisor's leading term `lead` goes to the
quotient; it is dropped from the remainder, whatever the product of the two would be, and the
divisor's lower terms are subtracted. -/
def divStep (q : Sparse R) (lead top : Exponent × R) (s : LongDivision (Sparse R)) :
    Except Fault (LongDivision (Sparse R)) := do
  let shift := top.1 - lead.1
  let factor ← CoeffDiv.div top.2 lead.2
  let r ← reduce factor shift (s.remainder.erase top.1) (q.termsBelow lead.1)
  let quotient ← s.quotient.addTerm shift factor
  return ⟨quotient, r, s.steps + 1⟩

theorem height_divStep_lt {q : Sparse R} {lead top : Exponent × R} {s t : LongDivision (Sparse R)}
    (htop : s.remainder.lead? = some top) (hle : ¬ top.1 < lead.1)
    (h : divStep q lead top s = .ok t) : t.remainder.height < s.remainder.height := by
  have hs : s.remainder.height = top.1.toNat + 1 := by simp [height, htop]
  simp only [divStep, Fault.bind_eq_ok, Fault.pure_eq_ok] at h
  obtain ⟨factor, -, r, hr, quotient, -, rfl⟩ := h
  have hle : lead.1 ≤ top.1 := UInt64.not_lt.mp hle
  have hsub := UInt64.toNat_sub_of_le _ _ hle
  have hn := UInt64.le_iff_toNat_le.mp hle
  have := height_reduce_le (height_erase_lead_le htop) (fun t ht => by
    have ht : t.1 < lead.1 := by simpa using (List.mem_filter.mp ht).2
    have := UInt64.lt_iff_toNat_lt.mp ht
    omega) hr
  dsimp only
  omega

/-- Rounds until the remainder is below the divisor's leading term. -/
def divSteps (q : Sparse R) (lead : Exponent × R) (s : LongDivision (Sparse R)) :
    Except Fault (LongDivision (Sparse R)) :=
  match _htop : s.remainder.lead? with
  | none => .ok s
  | some top =>
    if _hle : top.1 < lead.1 then .ok s else
      match _h : divStep q lead top s with
      | .error f => .error f
      | .ok t => divSteps q lead t
termination_by s.remainder.height
decreasing_by exact height_divStep_lt _htop _hle _h

/-- Quotient and remainder. Every division is recorded. -/
def divRem (p q : Sparse R) : Except Fault (Traced (Sparse R × Sparse R)) :=
  match q.lead? with
  | none => .error .zeroPolynomial
  | some lead => do
    let s ← divSteps q lead ⟨zero, p, 0⟩
    return ⟨(s.quotient, s.remainder), [.sparseDivision s.steps q.terms.length]⟩

def div (p q : Sparse R) : Except Fault (Traced (Sparse R)) := do
  let t ← divRem p q
  return t.map Prod.fst

def rem (p q : Sparse R) : Except Fault (Traced (Sparse R)) := do
  let t ← divRem p q
  return t.map Prod.snd

/-- Every coefficient over the leading one; a copy when that is one already. -/
def monic (p : Sparse R) : Except Fault (Sparse R) :=
  match p.leadingCoeff? with
  | none => .error .zeroPolynomial
  | some lead =>
    if lead = Coeff.one then .ok p else
      p.terms.foldlM (fun q (e, c) => do
        let c ← CoeffDiv.div c lead
        q.addTerm e c) zero

theorem height_divSteps_le {q : Sparse R} {lead : Exponent × R} {s t : LongDivision (Sparse R)}
    (h : divSteps q lead s = .ok t) : t.remainder.height ≤ lead.1.toNat := by
  fun_induction divSteps q lead s with
  | case1 s htop =>
    obtain rfl := Except.ok.inj h
    simp [height, htop]
  | case2 s top htop hlt =>
    obtain rfl := Except.ok.inj h
    have := UInt64.lt_iff_toNat_lt.mp hlt
    simp only [height, htop]
    omega
  | case3 => cases h
  | case4 _ _ _ _ _ _ ih => exact ih h

/-- The remainder is below the divisor. -/
theorem height_rem_lt {p q : Sparse R} {t : Traced (Sparse R)} (h : rem p q = .ok t) :
    t.value.height < q.height := by
  unfold rem divRem at h
  cases hq : q.lead? with
  | none => simp [hq, bind, Except.bind] at h
  | some lead =>
    simp only [hq, Fault.bind_eq_ok, Fault.pure_eq_ok] at h
    obtain ⟨_, ⟨s, hs, rfl⟩, rfl⟩ := h
    have := height_divSteps_le hs
    have : q.height = lead.1.toNat + 1 := by simp [height, hq]
    simp only [Traced.map]
    omega

/-- The chain of remainders that starts with `p` and `q`. Its members get lower in every round. -/
def remainders (p q : Sparse R) : Except Fault (RemainderChain (Sparse R)) :=
  if q.isZero then .ok ⟨p, 0, []⟩ else
    match _h : rem p q with
    | .error f => .error f
    | .ok r => do
      let chain ← remainders q r.value
      return ⟨chain.last, chain.rounds + 1, r.log ++ chain.log⟩
termination_by q.height
decreasing_by exact height_rem_lt _h

/-- The monic form of the last member of the chain of remainders. -/
def gcd (p q : Sparse R) : Except Fault (Traced (Sparse R)) := do
  let chain ← remainders p q
  let g ← chain.last.monic
  return ⟨g, chain.log ++ [.sparseGcd chain.rounds g.degree g.terms.length]⟩

end Univariate.Sparse
