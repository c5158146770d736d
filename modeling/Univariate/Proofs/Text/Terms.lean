import Univariate.Proofs.Text.Numeral
import Univariate.Text.Reader

/-! The text of a polynomial falls into its terms again, and each term is read as it was. -/
namespace Univariate.Text

def IsSign (c : Char) : Prop := c = '+' ∨ c = '-'

/-- Text with a sign at its start or nowhere. -/
def IsSummand (cs : List Char) : Prop := cs ≠ [] ∧ ∀ c ∈ cs.tail, ¬ IsSign c

/-- Text that opens with a sign, if it is not empty. -/
def OpensWithSign (cs : List Char) : Prop := ∀ c, cs.head? = some c → IsSign c

theorem mapM_map_of_inverse {A B : Type} {f : A → B} {g : B → Option A} (h : ∀ a, g (f a) = some a)
    (l : List A) : (l.map f).mapM g = some l := by
  induction l with
  | nil => rfl
  | cons a l ih =>
    rw [List.map_cons, List.mapM_cons, h, ih]
    rfl

section Summands

variable {u v : List Char}

/-- The first summand begins where the text does. -/
theorem summands_cons (c : Char) (cs : List Char) : ∃ s l, summands (c :: cs) = (c :: s) :: l := by
  rw [summands]
  cases summands cs with
  | nil => exact ⟨[], [], rfl⟩
  | cons s l =>
    change ∃ s' l', (if s.head? = some '+' ∨ s.head? = some '-' then _ else _) = _
    split
    · exact ⟨[], s :: l, rfl⟩
    · exact ⟨s, l, rfl⟩

/-- A summand is cut off at the sign behind it. -/
theorem summands_append (hu : IsSummand u) (hv : OpensWithSign v) :
    summands (u ++ v) = u :: summands v := by
  obtain ⟨hne, htail⟩ := hu
  induction u with
  | nil => exact absurd rfl hne
  | cons c u ih =>
    rw [List.cons_append, summands]
    cases u with
    | nil =>
      -- The last character stands right before the sign, and goes into a summand of its own.
      rw [List.nil_append]
      cases v with
      | nil => rfl
      | cons d v =>
        obtain ⟨s, l, hsum⟩ := summands_cons d v
        have hd : IsSign d := hv d rfl
        rw [hsum]
        exact if_pos (hd.imp (congrArg some) (congrArg some))
    | cons d u =>
      -- No sign comes next, so the first character joins what follows it.
      obtain ⟨hd, hrest⟩ := List.forall_mem_cons.mp htail
      rw [ih (List.cons_ne_nil d u) hrest]
      exact if_neg fun h => hd (h.imp Option.some.inj Option.some.inj)

theorem summands_flatten {l : List (List Char)} (hu : IsSummand u)
    (hl : ∀ v ∈ l, IsSummand v ∧ OpensWithSign v) : summands (u ++ l.flatten) = u :: l := by
  induction l generalizing u with
  | nil =>
    rw [List.flatten_nil, summands_append hu (by simp [OpensWithSign]), summands]
  | cons v l ih =>
    obtain ⟨⟨hv, hsign⟩, hl⟩ := List.forall_mem_cons.mp hl
    have hopens : OpensWithSign (v ++ l.flatten) := by
      intro c hc
      rw [List.head?_append_of_ne_nil _ hv.1] at hc
      exact hsign c hc
    rw [List.flatten_cons, summands_append hu hopens, ih hv hl]

end Summands

/-- What stands in a term behind its sign. -/
def Signless (cs : List Char) : Prop := cs ≠ [] ∧ ∀ c ∈ cs, ¬ IsSign c

theorem not_isSign_of_isDigit {c : Char} (h : c.isDigit) : ¬ IsSign c := by
  rintro (rfl | rfl) <;> exact absurd h (by decide)

theorem Signless.append {u v : List Char} (hu : Signless u) (hv : ∀ c ∈ v, ¬ IsSign c) :
    Signless (u ++ v) :=
  ⟨by simp [hu.1], List.forall_mem_append.mpr ⟨hu.2, hv⟩⟩

theorem signless_of_unsigned {cs : List Char} (h : Unsigned cs) : Signless cs := by
  refine ⟨h.1, fun c hc => ?_⟩
  rcases h.2 c hc with hdigit | rfl
  · exact not_isSign_of_isDigit hdigit
  · rintro (h | h) <;> exact absurd h (by decide)

theorem signless_power (n : ℕ) : Signless (power n) := by
  have hx : ¬ IsSign 'x' := by rintro (h | h) <;> exact absurd h (by decide)
  have hcaret : ¬ IsSign '^' := by rintro (h | h) <;> exact absurd h (by decide)
  rw [power]
  split
  · exact ⟨by simp, by simpa using hx⟩
  · refine ⟨by simp, List.forall_mem_cons.mpr ⟨hx, List.forall_mem_cons.mpr ⟨hcaret, ?_⟩⟩⟩
    exact fun c hc => not_isSign_of_isDigit (Decimal.isDigit_of_mem_ofNat hc)

theorem power_cases (n : ℕ) : ∃ cs, power n = 'x' :: cs ∧ exponent? cs = some n := by
  rw [power]
  split
  · rename_i hn
    exact ⟨[], rfl, congrArg some hn.symm⟩
  · exact ⟨_, rfl, Decimal.toNat?_ofNat n⟩

theorem ne_x_of_unsigned {cs : List Char} (h : Unsigned cs) : ∀ c ∈ cs, decide (c ≠ 'x') := by
  intro c hc
  rw [decide_eq_true_iff]
  rintro rfl
  rcases h.2 _ hc with h | h <;> exact absurd h (by decide)

section Reading

variable {R : Type} [Numeral R] [Coeff R]

theorem factor?_of_star {cs : List Char} (h : cs.getLast? = some '*') :
    factor? cs = (numeral? cs.dropLast : Option R) := by
  unfold factor?
  split
  · simp at h
  · simp at h
  · rw [if_pos h]

theorem term?_of_not_plus {cs : List Char} (h : cs.head? ≠ some '+') :
    term? cs = (unsigned? cs : Option (ℕ × R)) := by
  unfold term?
  split
  · simp at h
  · rfl

variable [LT R] [LawfulNumeral R]

theorem numeral?_write (c : R) : numeral? (Numeral.write c) = some c := by
  rw [numeral?, LawfulNumeral.read?_write]
  rfl

theorem write_ne_x (c : R) : ∀ d ∈ Numeral.write c, decide (d ≠ 'x') := by
  obtain ⟨cs, hcs, h | h⟩ := LawfulNumeral.writtenAs c
  · rw [h.1]
    exact List.forall_mem_cons.mpr ⟨by decide, ne_x_of_unsigned hcs⟩
  · rw [h.1]
    exact ne_x_of_unsigned hcs

theorem unsigned?_write (c : R) : unsigned? (Numeral.write c) = some (0, c) := by
  rw [unsigned?, List.dropWhile_eq_nil_iff.mpr (write_ne_x c)]
  change (numeral? (Numeral.write c)).bind _ = _
  rw [numeral?_write]
  rfl

end Reading

variable {R : Type} [Coeff R] [DecidableEq R] [LT R] [Numeral R] [LawfulNumeral R]

theorem minusOne_of_isMinusOne {c : R} (h : isMinusOne c = true) :
    Coeff.neg Coeff.one = .ok c ∧ ¬ Coeff.zero < c := by
  obtain ⟨m, hm, hneg⟩ := LawfulNumeral.neg_one (R := R)
  rw [isMinusOne, hm] at h
  rw [of_decide_eq_true h]
  exact ⟨hm, hneg⟩

/-- What is omitted for one, and cut short for minus one, is known without it. -/
theorem factor?_factor (c : R) : factor? (factor c) = some c := by
  rw [factor]
  split
  · rename_i hminus
    rw [factor?, (minusOne_of_isMinusOne hminus).1]
    rfl
  · split
    · rename_i hone
      rw [factor?, hone]
    · rw [factor?_of_star (by simp), List.dropLast_concat, numeral?_write]

theorem factor_ne_x (c : R) : ∀ d ∈ factor c, decide (d ≠ 'x') := by
  rw [factor]
  split
  · simp
  · split
    · simp
    · exact List.forall_mem_append.mpr ⟨write_ne_x c, by simp⟩

/-- The indeterminate parts the coefficient from the exponent. -/
theorem unsigned?_term (t : ℕ × R) : unsigned? (term t) = some t := by
  obtain ⟨n, c⟩ := t
  by_cases hn : n = 0
  · rw [term, if_pos hn, unsigned?_write, hn]
  · obtain ⟨cs, hpower, hexponent⟩ := power_cases n
    rw [term, if_neg hn, hpower, unsigned?, List.dropWhile_append_of_pos (factor_ne_x c),
      List.takeWhile_append_of_pos (factor_ne_x c), List.dropWhile_cons_of_neg (by decide),
      List.takeWhile_cons_of_neg (by decide), List.append_nil]
    change (factor? (factor c)).bind (fun c => (exponent? cs).bind fun n => some (n, c)) = _
    rw [factor?_factor, hexponent]
    rfl

/-- A minus sign opens the terms of coefficients below zero, and those alone. -/
theorem term_cases (t : ℕ × R) : ∃ cs, Signless cs ∧
    (term t = '-' :: cs ∧ ¬ Coeff.zero < t.2 ∨
      term t = cs ∧ (Coeff.zero < t.2 ∨ t.2 = Coeff.zero)) := by
  obtain ⟨cs, hcs, hwrite⟩ := LawfulNumeral.writtenAs t.2
  have hsigned : ¬ (Coeff.zero < t.2 ∨ t.2 = Coeff.zero) → ¬ Coeff.zero < t.2 := mt .inl
  rw [term]
  split
  · exact ⟨cs, signless_of_unsigned hcs, hwrite.imp_left (.imp_right hsigned)⟩
  · rw [factor]
    split
    · rename_i hminus
      exact ⟨_, signless_power t.1, .inl ⟨rfl, (minusOne_of_isMinusOne hminus).2⟩⟩
    · split
      · rename_i hone
        exact ⟨_, signless_power t.1, .inr ⟨rfl, .inl (hone ▸ LawfulNumeral.one_pos)⟩⟩
      · have hstar : ∀ c ∈ '*' :: power t.1, ¬ IsSign c := by
          refine List.forall_mem_cons.mpr ⟨?_, (signless_power t.1).2⟩
          rintro (h | h) <;> exact absurd h (by decide)
        refine ⟨_, (signless_of_unsigned hcs).append hstar, ?_⟩
        rcases hwrite with ⟨hwrite, ht⟩ | ⟨hwrite, ht⟩
        · exact .inl ⟨by simp [hwrite], hsigned ht⟩
        · exact .inr ⟨by simp [hwrite], ht⟩

theorem isSummand_term (t : ℕ × R) : IsSummand (term t) := by
  obtain ⟨cs, hcs, h | h⟩ := term_cases t
  · rw [h.1]
    exact ⟨List.cons_ne_nil _ _, hcs.2⟩
  · rw [h.1]
    exact ⟨hcs.1, fun c hc => hcs.2 c (List.mem_of_mem_tail hc)⟩

theorem term?_term (t : ℕ × R) : term? (term t) = some t := by
  rw [term?_of_not_plus, unsigned?_term]
  obtain ⟨cs, hcs, h | h⟩ := term_cases t
  · rw [h.1]
    simp
  · rw [h.1]
    exact fun hplus => hcs.2 '+' (List.mem_of_head? hplus) (.inl rfl)

variable [DecidableLT R]

theorem laterTerm_cases {t : ℕ × R} (ht : t.2 ≠ Coeff.zero) : ∃ s cs, IsSign s ∧ Signless cs ∧
    laterTerm t = s :: cs := by
  obtain ⟨cs, hcs, h⟩ := term_cases t
  rw [laterTerm, Coeff.isPositive]
  by_cases hpos : Coeff.zero < t.2
  · rw [if_pos (decide_eq_true hpos)]
    rcases h with h | h
    · exact absurd hpos h.2
    · exact ⟨'+', cs, .inl rfl, hcs, by rw [h.1]⟩
  · rw [if_neg (by simpa using hpos)]
    rcases h with h | h
    · exact ⟨'-', cs, .inr rfl, hcs, h.1⟩
    · exact absurd h.2 (not_or.mpr ⟨hpos, ht⟩)

theorem isSummand_laterTerm {t : ℕ × R} (ht : t.2 ≠ Coeff.zero) :
    IsSummand (laterTerm t) ∧ OpensWithSign (laterTerm t) := by
  obtain ⟨s, cs, hs, hcs, h⟩ := laterTerm_cases ht
  rw [h]
  exact ⟨⟨List.cons_ne_nil _ _, hcs.2⟩, fun c hc => Option.some.inj hc ▸ hs⟩

theorem term?_laterTerm (t : ℕ × R) : term? (laterTerm t) = some t := by
  rw [laterTerm]
  split
  · exact unsigned?_term t
  · exact term?_term t

/-- The terms that a text shows: those of coefficients that are not zero, or the one of zero. -/
def shown (l : List (ℕ × R)) : List (ℕ × R) :=
  match l.filter fun t => t.2 ≠ Coeff.zero with
  | [] => [(0, Coeff.zero)]
  | t :: l => t :: l

omit [LawfulNumeral R] in
theorem ofTerms_shown (l : List (ℕ × R)) : ofTerms (shown l) = ofTerms l := by
  have hfilter : ((shown l).filter fun t => t.2 ≠ Coeff.zero) =
      l.filter fun t => t.2 ≠ Coeff.zero := by
    rw [shown]
    split
    · rename_i hnil
      rw [hnil]
      simp
    · rename_i hcons
      rw [← hcons, List.filter_filter]
      simp
  rw [ofTerms, hfilter, ofTerms]

theorem terms?_ofTerms (l : List (ℕ × R)) : terms? (.ofList (ofTerms l)) = some (shown l) := by
  have hne : ∀ t ∈ l.filter fun t => t.2 ≠ Coeff.zero, t.2 ≠ Coeff.zero :=
    fun t ht => of_decide_eq_true (List.mem_filter.mp ht).2
  rw [terms?, String.toList_ofList, ofTerms, shown]
  generalize (l.filter fun t => t.2 ≠ Coeff.zero) = l at hne
  cases l with
  | nil =>
    have hzero : Numeral.write (Coeff.zero : R) = term (0, (Coeff.zero : R)) ++ [].flatten :=
      (List.append_nil _).symm
    change (summands (Numeral.write (Coeff.zero : R))).mapM term? = _
    rw [hzero, summands_flatten (isSummand_term _) (by simp)]
    exact mapM_map_of_inverse term?_term [(0, Coeff.zero)]
  | cons t l =>
    have hlater : ∀ v ∈ l.map laterTerm, IsSummand v ∧ OpensWithSign v := by
      intro v hv
      obtain ⟨u, hu, rfl⟩ := List.mem_map.mp hv
      exact isSummand_laterTerm (hne u (List.mem_cons_of_mem t hu))
    change (summands (term t ++ l.flatMap laterTerm)).mapM term? = some (t :: l)
    rw [List.flatMap_def, summands_flatten (isSummand_term t) hlater, List.mapM_cons, term?_term,
      mapM_map_of_inverse term?_laterTerm]
    rfl

end Univariate.Text
