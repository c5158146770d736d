import Univariate.Proofs.Coeff.Signed
import Univariate.Proofs.Related
import Univariate.Proofs.Slotwise

/-! Differences of polynomials over machine integers. Slots are subtracted at once; terms are
negated and then added, and the least integer has no negation. -/
namespace Univariate

namespace Signed

variable {w : Width} {P : Type} {E : Fault → Prop}

theorem sub_zero (a : Signed w) : Coeff.sub a Coeff.zero = .ok a :=
  checked_eq_ok_iff.mpr (Int.sub_zero a.val).symm

theorem sub_returnsIff (a b : Signed w) : ReturnsIff (w.Holds (a.val - b.val))
    (·.val = a.val - b.val) (· = .overflow .subtract) (Coeff.sub a b) :=
  checked_returnsIff

/-- The difference as it is formed among terms. -/
def addNeg (a b : Signed w) : Except Fault (Signed w) := Coeff.neg b >>= Coeff.add a

theorem addNeg_zero (a : Signed w) : addNeg a Coeff.zero = .ok a := by
  rw [addNeg, (ZeroLaws.neg_eq_zero_iff _).mpr rfl, Fault.ok_bind, ZeroLaws.add_zero]

theorem addNeg_returnsIff (a b : Signed w) :
    ReturnsIff (b.val ≠ -w.bound ∧ w.Holds (a.val - b.val)) (·.val = a.val - b.val)
      (fun e => e = .overflow .negate ∨ e = .overflow .add) (addNeg a b) := by
  apply ReturnsIff.of_ends
  rw [addNeg]
  cases hneg : (Coeff.neg b : Except Fault (Signed w)) with
  | error e =>
    obtain ⟨rfl, hout⟩ := checked_ends.of_eq_error hneg
    refine ⟨?_, .inl rfl⟩
    rintro ⟨hne, -⟩
    obtain ⟨hlow, hhigh⟩ := b.holds_val
    exact hout ⟨by omega, by omega⟩
  | ok c =>
    have hc : c.val = -b.val := checked_eq_ok_iff.mp hneg
    have hne : b.val ≠ -w.bound := by
      have hlt := c.lt_bound
      omega
    have hsub : a.val + c.val = a.val - b.val := by rw [hc, ← sub_eq_add_neg]
    have hadd : Ends _ (Coeff.add a c) _ := checked_returnsIff.ends
    rw [hsub] at hadd
    refine (hadd.weaken ?_).imp ?_
    · rintro e ⟨hout, he⟩
      exact ⟨fun h => hout h.2, .inr he⟩
    · rintro r ⟨hholds, hr⟩
      exact ⟨⟨hne, hholds⟩, hr⟩

end Signed

variable {w : Width} {P : Type}

/-- `x` is the polynomial of the differences of two families of coefficients, if `Allowed` holds at
every exponent. If not, it fails with a fault of `E`. -/
def SubtractsIff (Allowed : ℤ → ℤ → Prop) (E : Fault → Prop) (f g : ℕ → Signed w)
    (coeff : P → ℕ → Signed w) (x : Except Fault P) : Prop :=
  ReturnsIff (∀ n, Allowed (f n).val (g n).val)
    (fun r => ∀ n, (coeff r n).val = (f n).val - (g n).val) E x

theorem Slotwise.subtractsIff {Allowed : ℤ → ℤ → Prop} {E : Fault → Prop}
    {op : Signed w → Signed w → Except Fault (Signed w)}
    (hop : ∀ a b, ReturnsIff (Allowed a.val b.val) (·.val = a.val - b.val) E (op a b))
    {f g : ℕ → Signed w} {coeff : P → ℕ → Signed w} {x : Except Fault P}
    (h : Slotwise op f g coeff x) : SubtractsIff Allowed E f g coeff x := by
  refine .of_ends ((h.weaken ?_).imp ?_)
  · rintro e ⟨n, hn⟩
    obtain ⟨hout, he⟩ := (hop (f n) (g n)).ends.of_eq_error hn
    exact ⟨fun hall => hout (hall n), he⟩
  · intro r hr
    have hslot n := (hop (f n) (g n)).ends.of_eq_ok (hr n)
    exact ⟨fun n => (hslot n).1, fun n => (hslot n).2⟩

theorem Dense.sub_subtractsIff (a b : Dense (Signed w)) :
    SubtractsIff (fun m n => w.Holds (m - n)) (· = .overflow .subtract) a.coeff b.coeff coeff
      (a.sub b) := by
  apply Slotwise.subtractsIff Signed.sub_returnsIff
  refine (combine_slotwise Signed.sub_zero a.coeffs b.coeffs).bind fun r hr => .pure fun n => ?_
  rw [coeff_ofList]
  exact hr n

theorem Sparse.sub_subtractsIff {a : Sparse (Signed w)} (ha : a.Canonical) (b : Sparse (Signed w)) :
    SubtractsIff (fun m n => n ≠ -w.bound ∧ w.Holds (m - n))
      (fun e => e = .overflow .negate ∨ e = .overflow .add) a.coeff b.coeff coeff (a.sub b) := by
  apply Slotwise.subtractsIff Signed.addNeg_returnsIff
  refine foldlM_set_slotwise Signed.addNeg_zero (fun s t hs => ?_) ha b
  change (Coeff.neg t.2 >>= fun c => s.addTerm t.1 c) = _
  simp only [addTerm_eq hs, Signed.addNeg, bind_assoc]

/-- A difference of slots is returned if all of its coefficients are in range. One of terms fails in
one case more: no coefficient that is taken away may be the least integer, which has no negation. -/
theorem subtraction_exact_but_for_least (w : Width) :
    (∀ a b : Dense (Signed w), SubtractsIff (fun m n => w.Holds (m - n))
      (· = .overflow .subtract) a.coeff b.coeff Dense.coeff (a.sub b)) ∧
    (∀ a b : Sparse (Signed w), a.Canonical →
      SubtractsIff (fun m n => n ≠ -w.bound ∧ w.Holds (m - n))
        (fun e => e = .overflow .negate ∨ e = .overflow .add) a.coeff b.coeff Sparse.coeff
        (a.sub b)) ∧
    ∀ (a b : Dense (Signed w)) (s t : Sparse (Signed w)), Related a s → Related b t →
      ((∃ r, s.sub t = .ok r) ↔ (∃ r, a.sub b = .ok r) ∧ ∀ n, (b.coeff n).val ≠ -w.bound) := by
  refine ⟨Dense.sub_subtractsIff, fun a b ha => Sparse.sub_subtractsIff ha b, ?_⟩
  intro a b s t has hbt
  rw [(Sparse.sub_subtractsIff has.sparse t).exists_ok_iff,
    (Dense.sub_subtractsIff a b).exists_ok_iff]
  simp only [has.coeff_eq, hbt.coeff_eq, forall_and, and_comm]

/-- The greatest integer of 32 bits is minus one less the least one. Slots come to it, and terms do
not. -/
theorem difference_of_terms_misses_greatest :
    let minusOne : Signed .w32 := ⟨-1, by decide, by decide⟩
    let least : Signed .w32 := ⟨-2147483648, by decide, by decide⟩
    let greatest : Signed .w32 := ⟨2147483647, by decide, by decide⟩
    (∀ n, Width.w32.Holds
        (((Sparse.ofList [minusOne]).coeff n).val - ((Sparse.ofList [least]).coeff n).val)) ∧
      (Dense.ofList [minusOne]).sub (.ofList [least]) = .ok (.ofList [greatest]) ∧
      (Sparse.ofList [minusOne]).sub (.ofList [least]) = .error (.overflow .negate) := by
  intro minusOne least greatest
  refine ⟨fun n => ?_, by decide, by decide⟩
  rw [(Sparse.hasSlots_ofList (by decide)).coeff_eq, (Sparse.hasSlots_ofList (by decide)).coeff_eq]
  cases n with
  | zero => exact ⟨by decide, by decide⟩
  | succ n =>
    change Width.w32.Holds (0 - 0)
    exact ⟨by decide, by decide⟩

/-- One above the least integer is taken from zero and from itself, next to a slot that cancels. -/
theorem subtraction_exact_but_for_least_w32 :
    let low : Signed .w32 := ⟨-2147483647, by decide, by decide⟩
    let high : Signed .w32 := ⟨2147483647, by decide, by decide⟩
    (Sparse.ofList [Coeff.zero, high]).Canonical ∧
      ∃ r, (Sparse.ofList [Coeff.zero, high]).sub (.ofList [low, high]) = .ok r ∧
        (r.coeff 0).val = 2147483647 ∧ (r.coeff 1).val = 0 := by
  intro low high
  have hcanonical := Sparse.canonical_ofList [Coeff.zero, high]
  have hsub := (subtraction_exact_but_for_least .w32).2.1 (.ofList [Coeff.zero, high])
    (.ofList [low, high]) hcanonical
  obtain ⟨r, hr, hcoeff⟩ := hsub.result fun n => by
    rw [(Sparse.hasSlots_ofList (by decide)).coeff_eq,
      (Sparse.hasSlots_ofList (by decide)).coeff_eq]
    rcases n with _ | _ | n
    · exact ⟨by decide, by decide, by decide⟩
    · exact ⟨by decide, by decide, by decide⟩
    · change (0 : ℤ) ≠ -Width.w32.bound ∧ Width.w32.Holds (0 - 0)
      exact ⟨by decide, by decide, by decide⟩
  exact ⟨hcanonical, r, hr, hcoeff 0, hcoeff 1⟩

end Univariate
