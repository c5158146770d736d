import Univariate.Proofs.Coeff.Signed
import Univariate.Proofs.Workshop

/-! Machine integers as coefficients against integers of any size. Both do the same, as long as no
operation overflows. -/
namespace Univariate

namespace Text

variable {R R' : Type} [Coeff R] [DecidableEq R] [Numeral R] [LT R] [DecidableLT R]
  [Coeff R'] [DecidableEq R'] [Numeral R'] [LT R'] [DecidableLT R'] {φ : R → R'}

/-- Terms that are left out alike and written alike have the same text. -/
theorem ofTerms_map (hzero : ∀ c, φ c = Coeff.zero ↔ c = Coeff.zero)
    (hwrite : Numeral.write (Coeff.zero : R') = Numeral.write (Coeff.zero : R))
    (hterm : ∀ t : ℕ × R, term (Prod.map id φ t) = term t)
    (hlater : ∀ t : ℕ × R, laterTerm (Prod.map id φ t) = laterTerm t) (l : List (ℕ × R)) :
    ofTerms (l.map (Prod.map id φ)) = ofTerms l := by
  have hfilter : ((l.map (Prod.map id φ)).filter fun t => t.2 ≠ Coeff.zero) =
      (l.filter fun t => t.2 ≠ Coeff.zero).map (Prod.map id φ) := by
    rw [List.filter_map]
    refine congrArg _ (List.filter_congr fun t _ => ?_)
    exact decide_eq_decide.mpr (not_congr (hzero t.2))
  rw [ofTerms, ofTerms, hfilter]
  cases l.filter fun t => t.2 ≠ Coeff.zero with
  | nil => exact hwrite
  | cons t l =>
    have hrest : (l.map (Prod.map id φ)).flatMap laterTerm = l.flatMap laterTerm := by
      rw [List.flatMap_map]
      exact congrArg (l.flatMap ·) (funext hlater)
    exact congrArg₂ _ (hterm t) hrest

end Text

/-- The fault is that of a result outside its type. -/
def Fault.IsOverflow (e : Fault) : Prop := ∃ operation, e = .overflow operation

namespace Signed

variable {w : Width}

theorem checked_carries (operation : Operation) (n : ℤ) :
    Carries Fault.IsOverflow val (checked operation n : Except Fault (Signed w)) (.ok n) := by
  refine (checked_ends.weaken fun e he => ⟨operation, he.1⟩).imp fun a ha => ?_
  rw [ha]

theorem val_embedding : CoeffEmbedding Fault.IsOverflow (val : Signed w → ℤ) where
  zero := rfl
  one := rfl
  add a b := checked_carries .add (a.val + b.val)
  sub a b := checked_carries .subtract (a.val - b.val)
  mul a b := checked_carries .multiply (a.val * b.val)
  neg a := checked_carries .negate (-a.val)
  injective _ _ := ext

/-- Minus one is in every range. -/
theorem isMinusOne_val (c : Signed w) : Text.isMinusOne c.val = Text.isMinusOne c := by
  have hbound := w.one_lt_bound
  have hneg : (Coeff.neg Coeff.one : Except Fault (Signed w)) =
      .ok ⟨-1, by omega, by omega⟩ := checked_eq_ok_iff.mpr rfl
  rw [Text.isMinusOne, Text.isMinusOne, hneg]
  exact decide_eq_decide.mpr ⟨fun h => ext h, congrArg val⟩

theorem term_val (t : ℕ × Signed w) : Text.term (Prod.map id val t) = Text.term t := by
  have hfactor : Text.factor t.2.val = Text.factor t.2 := by
    rw [Text.factor, Text.factor, isMinusOne_val]
    simp only [val_embedding.eq_one_iff]
    rfl
  rw [Text.term, Text.term, Prod.map_snd, hfactor]
  rfl

theorem laterTerm_val (t : ℕ × Signed w) :
    Text.laterTerm (Prod.map id val t) = Text.laterTerm t := by
  rw [Text.laterTerm, Text.laterTerm, term_val]
  rfl

theorem ofTerms_val (l : List (ℕ × Signed w)) :
    Text.ofTerms (l.map (Prod.map id val)) = Text.ofTerms l :=
  Text.ofTerms_map (fun _ => val_embedding.eq_zero_iff) rfl term_val laterTerm_val l

end Signed

variable {w : Width}

theorem Dense.text_map_val (p : Dense (Signed w)) : (p.map Signed.val).text = p.text := by
  have hterms : ((p.map Signed.val).coeffs.zipIdx.reverse.map fun (c, n) => (n, c)) =
      (p.coeffs.zipIdx.reverse.map fun (c, n) => (n, c)).map (Prod.map id Signed.val) := by
    rw [map, List.zipIdx_map, ← List.map_reverse, List.map_map, List.map_map]
    rfl
  rw [text, text, hterms, Signed.ofTerms_val]

theorem Sparse.text_map_val (p : Sparse (Signed w)) : (p.map Signed.val).text = p.text := by
  have hterms : ((p.map Signed.val).terms.reverse.map fun (e, c) => (e.toNat, c)) =
      (p.terms.reverse.map fun (e, c) => (e.toNat, c)).map (Prod.map id Signed.val) := by
    rw [map, ← List.map_reverse, List.map_map, List.map_map]
    rfl
  rw [text, text, hterms, Signed.ofTerms_val]

/-- Whatever is done in one workshop, with operands from anywhere, is done in the other, unless an
overflow ends it. -/
structure Workshop.Refines {R R' P P' O O' : Type} (W : Workshop R P O) (W' : Workshop R' P' O')
    (φ : R → R') (ψ : P → P') (ω : O → O') : Prop where
  embeds : W.Embeds W' Fault.IsOverflow φ ψ ω
  record (s : Ledger R P) (l : List (Entry R O)) :
    Carries Fault.IsOverflow (Ledger.map φ ψ) (W.record s l)
      (W'.record (s.map φ ψ) (l.map (Entry.map φ ω)))

/-- No overflow is silent. In both stores, and for every width, a result over machine integers is
the result over all integers, and so is all that is asked and printed in a run that does not
fail. -/
theorem machine_integers_refine_integers (w : Width) :
    Dense.workshop.Refines Dense.workshop (Signed.val : Signed w → ℤ) (Dense.map Signed.val)
        (Dense.Origin.map Signed.val) ∧
      Sparse.workshop.Refines Sparse.workshop (Signed.val : Signed w → ℤ) (Sparse.map Signed.val)
        (Sparse.Origin.map Signed.val) := by
  have hroom : Fault.IsOverflow (.overflow .add) := ⟨.add, rfl⟩
  have hdense : Dense.workshop.Embeds Dense.workshop Fault.IsOverflow (Signed.val : Signed w → ℤ)
      (Dense.map Signed.val) (Dense.Origin.map Signed.val) :=
    { Dense.store_embeds Signed.val_embedding with
      start := Dense.start_carries Signed.val_embedding hroom
      text := Dense.text_map_val }
  have hsparse : Sparse.workshop.Embeds Sparse.workshop Fault.IsOverflow
      (Signed.val : Signed w → ℤ) (Sparse.map Signed.val) (Sparse.Origin.map Signed.val) :=
    { Sparse.store_embeds Signed.val_embedding hroom with
      start := Sparse.start_carries Signed.val_embedding
      text := Sparse.text_map_val }
  exact ⟨⟨hdense, hdense.record⟩, ⟨hsparse, hsparse.record⟩⟩

/-- The square of `46340 * x` is in range, and that of `46341 * x` is an overflow. -/
example :
    ((Sparse.workshop (R := Signed .w32)).record ⟨⟨[], []⟩, []⟩
        [.start (.monomial ⟨46340, by decide, by decide⟩ 1), .command (.form (.pow 0 2)), .print 1]
        |>.map Ledger.texts) = .ok ["2147395600*x^2"] ∧
      ((Sparse.workshop (R := Signed .w32)).record ⟨⟨[], []⟩, []⟩
        [.start (.monomial ⟨46341, by decide, by decide⟩ 1), .command (.form (.pow 0 2)), .print 1]
        |>.map Ledger.texts) = .error (.overflow .multiply) := by
  decide +kernel

end Univariate
