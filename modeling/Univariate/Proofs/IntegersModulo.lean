import Univariate.Proofs.Coeff.Bare

/-! Residues are exactly the integers modulo their modulus, whatever 64-bit modulus that is. -/
namespace Univariate

/-- Ways to a residue. Literals and multipliers are words and signed words, exponents are words, and
`zero` is also what a residue is by default. -/
inductive Expression where
  | word (n : UInt64)
  | signed (n : Int64)
  | zero
  | one
  | add (a b : Expression)
  | sub (a b : Expression)
  | mul (a b : Expression)
  | neg (a : Expression)
  | multiple (a : Expression) (n : Int64)
  | pow (a : Expression) (n : UInt64)

namespace Expression

/-- The integer that the same expression comes to. -/
def value : Expression → ℤ
  | word n => n.toNat
  | signed n => n.toInt
  | zero => 0
  | one => 1
  | add a b => a.value + b.value
  | sub a b => a.value - b.value
  | mul a b => a.value * b.value
  | neg a => -a.value
  | multiple a n => n.toInt * a.value
  | pow a n => a.value ^ n.toNat

section Eval

variable {R R' : Type} [Coeff R] [Coeff R']

/-- Computes over `R`, with the given readings of literals. -/
def eval (readWord : UInt64 → Except Fault R) (readSigned : Int64 → Except Fault R) :
    Expression → Except Fault R
  | word n => readWord n
  | signed n => readSigned n
  | zero => .ok Coeff.zero
  | one => .ok Coeff.one
  | add a b => do
    let x ← a.eval readWord readSigned
    let y ← b.eval readWord readSigned
    Coeff.add x y
  | sub a b => do
    let x ← a.eval readWord readSigned
    let y ← b.eval readWord readSigned
    Coeff.sub x y
  | mul a b => do
    let x ← a.eval readWord readSigned
    let y ← b.eval readWord readSigned
    Coeff.mul x y
  | neg a => do
    let x ← a.eval readWord readSigned
    Coeff.neg x
  | multiple a n => do
    let x ← a.eval readWord readSigned
    Coeff.multiple x n.toInt
  | pow a n => do
    let x ← a.eval readWord readSigned
    Coeff.pow x n.toNat

variable {E : Fault → Prop} {φ : R → R'} {readWord : UInt64 → Except Fault R}
  {readSigned : Int64 → Except Fault R} {readWord' : UInt64 → Except Fault R'}
  {readSigned' : Int64 → Except Fault R'}

/-- Computations over two types stay together, operation by operation. -/
theorem eval_carries (h : CoeffHom E φ) (hword : ∀ n, Carries E φ (readWord n) (readWord' n))
    (hsigned : ∀ n, Carries E φ (readSigned n) (readSigned' n)) (e : Expression) :
    Carries E φ (e.eval readWord readSigned) (e.eval readWord' readSigned') := by
  induction e with
  | word n => exact hword n
  | signed n => exact hsigned n
  | zero => exact .ok h.zero.symm
  | one => exact .ok h.one.symm
  | add a b iha ihb => exact iha.bind fun x => ihb.bind fun y => h.add x y
  | sub a b iha ihb => exact iha.bind fun x => ihb.bind fun y => h.sub x y
  | mul a b iha ihb => exact iha.bind fun x => ihb.bind fun y => h.mul x y
  | neg a ih => exact ih.bind fun x => h.neg x
  | multiple a n ih => exact ih.bind fun x => h.multiple x n.toInt
  | pow a n ih => exact ih.bind fun x => h.pow x n.toNat

end Eval

def residue (m : Modulus) : Expression → Except Fault (Residue m) :=
  eval (fun n => .ok (.ofNat m n.toNat)) fun n => .ok (.ofInt m n.toInt)

/-- Computes on words alone, step by step. -/
def bare (p : UInt64) : Expression → Except Fault (Bare p) :=
  eval (fun n => .ok (.ofWord p n)) (Bare.ofSigned p)

variable {m : Modulus}

/-- Every operation on residues goes the way of the integers. -/
theorem residue_eq_cast (e : Expression) : e.residue m = .ok (e.value : Residue m) := by
  unfold residue
  induction e with
  | word n =>
    have hread : Residue.ofNat m n.toNat = (n.toNat : Residue m) := by
      apply Residue.toZMod_injective
      rw [Residue.toZMod_ofNat]
      exact (map_natCast (Residue.toZModHom m) _).symm
    rw [eval, value, Int.cast_natCast, hread]
  | signed n => rw [eval, value, Residue.ofInt_eq_cast]
  | zero => rw [eval, value, Int.cast_zero, ExactCoeff.zero_eq]
  | one => rw [eval, value, Int.cast_one, ExactCoeff.one_eq]
  | add a b iha ihb =>
    rw [eval, iha, Fault.ok_bind, ihb, Fault.ok_bind, ExactCoeff.add_eq, value, Int.cast_add]
  | sub a b iha ihb =>
    rw [eval, iha, Fault.ok_bind, ihb, Fault.ok_bind, ExactCoeff.sub_eq, value, Int.cast_sub]
  | mul a b iha ihb =>
    rw [eval, iha, Fault.ok_bind, ihb, Fault.ok_bind, ExactCoeff.mul_eq, value, Int.cast_mul]
  | neg a ih => rw [eval, ih, Fault.ok_bind, ExactCoeff.neg_eq, value, Int.cast_neg]
  | multiple a n ih =>
    rw [eval, ih, Fault.ok_bind, Coeff.multiple_eq, value, Int.cast_mul, zsmul_eq_mul]
  | pow a n ih => rw [eval, ih, Fault.ok_bind, Coeff.pow_eq, value, Int.cast_pow]

theorem residue_eq (e : Expression) : e.residue m = .ok (.ofInt m e.value) := by
  rw [residue_eq_cast, Residue.ofInt_eq_cast]

/-- On words no step fails, and what comes out is the word of the residue. -/
theorem bare_eq (e : Expression) : e.bare m.word = .ok (Residue.ofInt m e.value).bare := by
  have h : Carries (fun _ => False) Residue.bare (e.residue m) (e.bare m.word) := by
    apply eval_carries Residue.bare_hom
    · intro n
      exact .ok (Residue.bare_ofNat n).symm
    · intro n
      exact Residue.bare_ofInt n
  exact h.eq_ok e.residue_eq

theorem residue_eq_residue_iff (e e' : Expression) :
    e.residue m = e'.residue m ↔ e.value ≡ e'.value [ZMOD m.word.toNat] := by
  rw [residue_eq, residue_eq, Except.ok.injEq, Residue.ofInt_eq_ofInt_iff]

end Expression

/-- The integers modulo `m` themselves, whose zero alone stands for the multiples of `m`. -/
noncomputable def Residue.equivZMod (m : Modulus) : Residue m ≃+* ZMod m.word.toNat :=
  .ofBijective (toZModHom m) ⟨toZMod_injective, toZMod_surjective⟩

/-- A multiple is a product, also for the least signed word, whose negation is none. -/
theorem Residue.multiple_eq_mul {m : Modulus} (a : Residue m) (n : ℤ) :
    Coeff.multiple a n = Coeff.mul a (ofInt m n) := by
  rw [Coeff.multiple_eq, ExactCoeff.mul_eq, ofInt_eq_cast, zsmul_eq_mul, mul_comm]

/-- Every step on the way to a residue fits its type, and keeps to the residues: the word that comes
out is below the modulus, and congruent to the integer of the same expression. -/
theorem residues_are_integers_modulo (m : Modulus) :
    (∀ e : Expression, ∃ r : Residue m, e.residue m = .ok r ∧ e.bare m.word = .ok r.bare ∧
      r.value.toNat < m.word.toNat ∧ r.value.toNat ≡ e.value [ZMOD m.word.toNat]) ∧
    (∀ e e' : Expression,
      e.residue m = e'.residue m ↔ e.value ≡ e'.value [ZMOD m.word.toNat]) ∧
    (∃ _ : CommRing (Residue m), ExactCoeff (Residue m) ∧
      Nonempty (Residue m ≃+* ZMod m.word.toNat)) ∧
    ∀ (a : Residue m) (n : Int64), Coeff.multiple a n.toInt = Coeff.mul a (.ofInt m n.toInt) := by
  refine ⟨fun e => ⟨_, e.residue_eq, e.bare_eq, Residue.isLt _, ?_⟩,
    Expression.residue_eq_residue_iff, ⟨inferInstance, inferInstance, ⟨Residue.equivZMod m⟩⟩,
    fun a n => a.multiple_eq_mul n.toInt⟩
  rw [Residue.toNat_value_ofInt]
  exact Int.mod_modEq _ _

/-- The least signed word times the largest word, at the largest modulus but one. -/
example : (Expression.mul (.signed Int64.minValue) (.word 18446744073709551615)).bare
    18446744073709551614 = .ok ⟨9223372036854775806⟩ := by
  decide +kernel

end Univariate
