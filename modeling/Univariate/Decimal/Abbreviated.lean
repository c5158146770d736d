import Univariate.Decimal

/-! Decimal notation that shows a large number by its first and its last digits. -/
namespace Univariate.Decimal

/-- Two dots stand for what is between the first `k` and the last `k` characters. -/
def ends (k : Nat) (cs : List Char) : List Char :=
  cs.take k ++ '.' :: '.' :: cs.drop (cs.length - k)

theorem length_ends {k : Nat} {cs : List Char} (h : k ≤ cs.length) :
    (ends k cs).length = 2 * k + 2 := by
  simp only [ends, List.length_append, List.length_take, List.length_cons, List.length_drop]
  omega

/-- A number of at most 128 bits shows all its digits, a larger one the nineteen at either end. -/
def abbreviateNat (n : Nat) : List Char :=
  if n < 340282366920938463463374607431768211456 then ofNat n else ends 19 (ofNat n)

/-- The sign is no digit: it stands in front of those that are shown. -/
def abbreviateInt (n : Int) : List Char :=
  if n < 0 then '-' :: abbreviateNat n.natAbs else abbreviateNat n.natAbs

theorem abbreviateNat_eq_ofNat {n : Nat} (h : n < 340282366920938463463374607431768211456) :
    abbreviateNat n = ofNat n := if_pos h

theorem abbreviateInt_eq_ofInt {n : Int}
    (h : n.natAbs < 340282366920938463463374607431768211456) : abbreviateInt n = ofInt n := by
  rw [abbreviateInt, ofInt, abbreviateNat_eq_ofNat h]

end Univariate.Decimal
