import Mathlib.Algebra.Order.Ring.Rat
import Mathlib.Data.List.TakeWhile
import Univariate.Numeral
import Univariate.Proofs.Coeff.Signed

/-! Written forms of ordered coefficients, which are read back as they were. -/
namespace Univariate

/-- A written number without its sign: digits, with a slash where it is a fraction. -/
def Unsigned (cs : List Char) : Prop := cs ≠ [] ∧ ∀ c ∈ cs, c.isDigit ∨ c = '/'

/-- A written number, with a minus sign unless `nonneg` holds. -/
def WrittenAs (text : List Char) (nonneg : Prop) : Prop :=
  ∃ cs, Unsigned cs ∧ (text = '-' :: cs ∧ ¬ nonneg ∨ text = cs ∧ nonneg)

theorem WrittenAs.of_iff {text : List Char} {p q : Prop} (h : WrittenAs text p) (hpq : p ↔ q) :
    WrittenAs text q := by rwa [← propext hpq]

/-- What the text of a polynomial relies on in that of its coefficients. -/
class LawfulNumeral (R : Type) [Coeff R] [LT R] [Numeral R] : Prop where
  read?_write (c : R) : Numeral.read? (Numeral.write c) = some (.ok c)
  writtenAs (c : R) : WrittenAs (Numeral.write c) (Coeff.zero < c ∨ c = Coeff.zero)
  one_pos : (Coeff.zero : R) < Coeff.one
  neg_one : ∃ c : R, Coeff.neg Coeff.one = .ok c ∧ ¬ Coeff.zero < c

namespace Decimal

theorem ofInt_cases (n : ℤ) : ∃ cs, cs ≠ [] ∧ (∀ c ∈ cs, c.isDigit) ∧
    (ofInt n = '-' :: cs ∧ ¬ 0 ≤ n ∨ ofInt n = cs ∧ 0 ≤ n) := by
  refine ⟨ofNat n.natAbs, ofNat_ne_nil _, fun c hc => isDigit_of_mem_ofNat hc, ?_⟩
  rw [ofInt]
  split
  · exact .inl ⟨rfl, by omega⟩
  · exact .inr ⟨rfl, by omega⟩

theorem writtenAs_ofInt (n : ℤ) : WrittenAs (ofInt n) (0 ≤ n) := by
  obtain ⟨cs, hne, hdigit, h⟩ := ofInt_cases n
  exact ⟨cs, ⟨hne, fun c hc => .inl (hdigit c hc)⟩, h⟩

/-- No slash is written in an integer. -/
theorem ofInt_ne_slash (n : ℤ) : ∀ c ∈ ofInt n, decide (c ≠ '/') := by
  obtain ⟨cs, -, hdigit, h⟩ := ofInt_cases n
  have hcs : ∀ c ∈ cs, decide (c ≠ '/') := by
    intro c hc
    rw [decide_eq_true_iff]
    rintro rfl
    exact absurd (hdigit _ hc) (by decide)
  rcases h with ⟨h, -⟩ | ⟨h, -⟩
  · rw [h]
    exact List.forall_mem_cons.mpr ⟨by decide, hcs⟩
  · rwa [h]

end Decimal

namespace Numeral

theorem readRational?_ofInt (n : ℤ) : readRational? (Decimal.ofInt n) = some (.ok n) := by
  rw [readRational?, List.dropWhile_eq_nil_iff.mpr (Decimal.ofInt_ne_slash n),
    Decimal.toInt?_ofInt]
  rfl

theorem readRational?_fraction (a : ℚ) : readRational? (fraction a) = some (.ok a) := by
  have hratio : ratio a.num a.den = .ok a := by
    rw [ratio, if_neg (by exact_mod_cast a.den_ne_zero), Rat.num_divInt_den]
  have hslash := Decimal.ofInt_ne_slash a.num
  rw [readRational?, fraction, List.dropWhile_append_of_pos hslash,
    List.takeWhile_append_of_pos hslash, List.dropWhile_cons_of_neg (by decide),
    List.takeWhile_cons_of_neg (by decide), List.append_nil]
  change ((Decimal.toInt? (Decimal.ofInt a.num)).bind fun num =>
    (Decimal.toInt? (Decimal.ofNat a.den)).bind fun den => some (ratio num den)) = _
  rw [Decimal.toInt?_ofInt, Decimal.toInt?_of_toNat? (Decimal.toNat?_ofNat a.den)]
  exact congrArg some hratio

/-- The sign of a fraction is that of its numerator. -/
theorem writtenAs_fraction (a : ℚ) : WrittenAs (fraction a) (0 ≤ a.num) := by
  obtain ⟨cs, hcs, h⟩ := Decimal.writtenAs_ofInt a.num
  refine ⟨cs ++ '/' :: Decimal.ofNat a.den, ⟨by simp, fun c hc => ?_⟩, ?_⟩
  · rcases List.mem_append.mp hc with hc | hc
    · exact hcs.2 c hc
    · rcases List.mem_cons.mp hc with rfl | hc
      · exact .inr rfl
      · exact .inl (Decimal.isDigit_of_mem_ofNat hc)
  · rw [fraction]
    rcases h with ⟨h, hn⟩ | ⟨h, hn⟩
    · exact .inl ⟨by rw [h, List.cons_append], hn⟩
    · exact .inr ⟨by rw [h], hn⟩

instance : LawfulNumeral Int where
  read?_write n := congrArg (Option.map Except.ok) (Decimal.toInt?_ofInt n)
  writtenAs n := (Decimal.writtenAs_ofInt n).of_iff (by
    change 0 ≤ n ↔ 0 < n ∨ n = 0
    omega)
  one_pos := (by decide : (0 : ℤ) < 1)
  neg_one := ⟨-1, rfl, (by decide : ¬ (0 : ℤ) < -1)⟩

instance : LawfulNumeral Rat where
  read?_write a := by
    change readRational? (if a.den = 1 then Decimal.ofInt a.num else fraction a) = _
    split
    · rename_i hden
      rw [readRational?_ofInt, (Rat.den_eq_one_iff a).mp hden]
    · exact readRational?_fraction a
  writtenAs a := by
    have hsign : 0 ≤ a.num ↔ 0 < a ∨ a = 0 := by
      rw [Rat.num_nonneg, le_iff_lt_or_eq, eq_comm]
    change WrittenAs (if a.den = 1 then Decimal.ofInt a.num else fraction a) (0 < a ∨ a = 0)
    split
    · exact (Decimal.writtenAs_ofInt a.num).of_iff hsign
    · exact (writtenAs_fraction a).of_iff hsign
  one_pos := (by decide : (0 : ℚ) < 1)
  neg_one := ⟨-1, rfl, (by decide : ¬ (0 : ℚ) < -1)⟩

instance {w : Width} : LawfulNumeral (Signed w) where
  read?_write a := by
    have hread : Signed.ofInt? w a.val = some a := Signed.ofInt?_eq_some_iff.mpr rfl
    change ((Decimal.toInt? (Decimal.ofInt a.val)).bind fun n =>
      (Signed.ofInt? w n).bind fun a => some (Except.ok a)) = some (Except.ok a)
    rw [Decimal.toInt?_ofInt, Option.bind_some, hread, Option.bind_some]
  writtenAs a := by
    have hzero : a = Coeff.zero ↔ a.val = 0 :=
      ⟨fun h => congrArg Signed.val h, fun h => Signed.ext h⟩
    refine (Decimal.writtenAs_ofInt a.val).of_iff ?_
    rw [hzero]
    change 0 ≤ a.val ↔ 0 < a.val ∨ a.val = 0
    omega
  one_pos := (by decide : (0 : ℤ) < 1)
  neg_one := by
    have hbound := w.one_lt_bound
    exact ⟨⟨-1, by omega, by omega⟩, Signed.checked_eq_ok_iff.mpr rfl,
      (by decide : ¬ (0 : ℤ) < -1)⟩

end Numeral

end Univariate
