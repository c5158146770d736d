import Univariate.Dense.Basic
import Univariate.Trace

/-! Long division, monic form and greatest common divisor of dense polynomials. -/
namespace Univariate.Dense

variable {R : Type} [Coeff R] [DecidableEq R] [CoeffDiv R]

/-- Subtracts `factor` times each coefficient of a list from the slots of another, and keeps no
slot beyond that list. -/
def reduce (factor : R) : List R → List R → Except Fault (List R)
  | a :: window, c :: low => do
    let product ← Coeff.mul factor c
    let b ← Coeff.sub a product
    let rest ← reduce factor window low
    return b :: rest
  | _, _ => .ok []

/-- Brings the next lower coefficient of the dividend down under the remainder. When the remainder
then reaches the divisor's degree, its top coefficient over the divisor's gives a coefficient of
the quotient; the top slot is dropped, whatever the product of the two would be. -/
def bringDown (lead : R) (low : List R) (a : R) (s : LongDivision (List R)) :
    Except Fault (LongDivision (List R)) :=
  let window := settle a s.remainder
  match window.drop low.length with
  | [] => .ok { s with quotient := Coeff.zero :: s.quotient, remainder := window }
  | top :: _ => do
    let factor ← CoeffDiv.div top lead
    let l ← reduce factor window low
    return ⟨factor :: s.quotient, trim l, s.steps + 1⟩

/-- Quotient and remainder. The division is recorded when the dividend reaches the divisor's
degree. -/
def divRem (p q : Dense R) : Except Fault (Traced (Dense R × Dense R)) :=
  match q.leadingCoeff? with
  | none => .error .zeroPolynomial
  | some lead =>
    let low := q.coeffs.dropLast
    if p.coeffs.length ≤ low.length then .ok ⟨(zero, p), []⟩ else do
      let s ← p.coeffs.foldrM (bringDown lead low) ⟨[], [], 0⟩
      return ⟨(ofList s.quotient, ofList s.remainder), [.denseDivision s.steps low.length]⟩

def div (p q : Dense R) : Except Fault (Traced (Dense R)) := do
  let t ← divRem p q
  return t.map Prod.fst

def rem (p q : Dense R) : Except Fault (Traced (Dense R)) := do
  let t ← divRem p q
  return t.map Prod.snd

/-- Every coefficient over the leading one; a copy when that is one already. -/
def monic (p : Dense R) : Except Fault (Dense R) :=
  match p.leadingCoeff? with
  | none => .error .zeroPolynomial
  | some lead =>
    if lead = Coeff.one then .ok p else do
      let l ← p.coeffs.mapM fun c => CoeffDiv.div c lead
      return ofList l

omit [DecidableEq R] [CoeffDiv R] in
theorem length_reduce_le {factor : R} {window low l : List R}
    (h : reduce factor window low = .ok l) : l.length ≤ low.length := by
  induction window generalizing low l with
  | nil => simp_all [reduce]
  | cons a window ih =>
    cases low with
    | nil => simp_all [reduce]
    | cons c low =>
      simp only [reduce, Fault.bind_eq_ok, Fault.pure_eq_ok] at h
      obtain ⟨product, -, b, -, rest, hrest, rfl⟩ := h
      simpa using ih hrest

theorem length_bringDown_le {lead a : R} {low : List R} {s t : LongDivision (List R)}
    (h : bringDown lead low a s = .ok t) : t.remainder.length ≤ low.length := by
  unfold bringDown at h
  dsimp only at h
  split at h
  · rename_i hw
    obtain rfl := Except.ok.inj h
    simpa using hw
  · simp only [Fault.bind_eq_ok, Fault.pure_eq_ok] at h
    obtain ⟨factor, -, l, hl, rfl⟩ := h
    exact Nat.le_trans (length_trim_le _) (length_reduce_le hl)

theorem length_foldrM_bringDown_le {lead : R} {low l : List R} {s : LongDivision (List R)}
    (h : l.foldrM (bringDown lead low) ⟨[], [], 0⟩ = .ok s) :
    s.remainder.length ≤ low.length := by
  cases l with
  | nil =>
    obtain rfl := Except.ok.inj h
    simp
  | cons a l =>
    rw [List.foldrM_cons, Fault.bind_eq_ok] at h
    obtain ⟨t, -, h⟩ := h
    exact length_bringDown_le h

theorem length_snd_divRem_lt {p q : Dense R} {t : Traced (Dense R × Dense R)}
    (h : divRem p q = .ok t) : t.value.2.coeffs.length < q.coeffs.length := by
  unfold divRem at h
  split at h
  · cases h
  · rename_i lead hlead
    have hq : q.coeffs ≠ [] := by
      intro hq
      simp [leadingCoeff?, hq] at hlead
    have hpos := List.length_pos_iff.mpr hq
    have hlow : q.coeffs.dropLast.length = q.coeffs.length - 1 := List.length_dropLast
    dsimp only at h
    split at h
    · obtain rfl := Except.ok.inj h
      dsimp only
      omega
    · simp only [Fault.bind_eq_ok, Fault.pure_eq_ok] at h
      obtain ⟨s, hs, rfl⟩ := h
      have h₁ := length_trim_le s.remainder
      have h₂ := length_foldrM_bringDown_le hs
      simp only [ofList]
      omega

/-- The remainder has fewer slots than the divisor. -/
theorem length_rem_lt {p q : Dense R} {t : Traced (Dense R)} (h : rem p q = .ok t) :
    t.value.coeffs.length < q.coeffs.length := by
  simp only [rem, Fault.bind_eq_ok, Fault.pure_eq_ok] at h
  obtain ⟨s, hs, rfl⟩ := h
  exact length_snd_divRem_lt hs

/-- The chain of remainders that starts with `p` and `q`. It gets shorter in every round. -/
def remainders (p q : Dense R) : Except Fault (RemainderChain (Dense R)) :=
  if q.isZero then .ok ⟨p, 0, []⟩ else
    match _h : rem p q with
    | .error f => .error f
    | .ok r => do
      let chain ← remainders q r.value
      return ⟨chain.last, chain.rounds + 1, r.log ++ chain.log⟩
termination_by q.coeffs.length
decreasing_by exact length_rem_lt _h

/-- The monic form of the last member of the chain of remainders. -/
def gcd (p q : Dense R) : Except Fault (Traced (Dense R)) := do
  let chain ← remainders p q
  let g ← chain.last.monic
  return ⟨g, chain.log ++ [.denseGcd chain.rounds g.degree]⟩

end Univariate.Dense
