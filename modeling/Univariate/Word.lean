import Univariate.Fault

/-! Unsigned 64-bit words with checked sums and differences. -/
namespace Univariate

/-- A power of the indeterminate: any 64-bit word. -/
abbrev Exponent := UInt64

namespace Word

/-- The word equal to `n`, when there is one. -/
def ofNat? (n : Nat) : Option UInt64 := if n < UInt64.size then some (.ofNat n) else none

/-- The sum, when it is again a word. -/
def add (a b : UInt64) : Except Fault UInt64 :=
  if a.toNat + b.toNat < UInt64.size then .ok (a + b) else .error (.overflow .add)

/-- The difference, when it is again a word. -/
def sub (a b : UInt64) : Except Fault UInt64 :=
  if b ≤ a then .ok (a - b) else .error (.overflow .subtract)

theorem ofNat?_toNat (a : UInt64) : ofNat? a.toNat = some a := by
  rw [ofNat?, if_pos a.toNat_lt, UInt64.ofNat_toNat]

theorem add_eq_ok {a b : UInt64} (h : a.toNat + b.toNat < UInt64.size) : add a b = .ok (a + b) :=
  if_pos h

theorem toNat_add {a b c : UInt64} (h : add a b = .ok c) : c.toNat = a.toNat + b.toNat := by
  unfold add at h
  split at h
  · obtain rfl := Except.ok.inj h
    rw [UInt64.toNat_add]
    exact Nat.mod_eq_of_lt ‹_›
  · cases h

theorem toNat_sub {a b c : UInt64} (h : sub a b = .ok c) : c.toNat = a.toNat - b.toNat := by
  unfold sub at h
  split at h
  · obtain rfl := Except.ok.inj h
    rw [UInt64.toNat_sub_of_le _ _ ‹_›]
  · cases h

end Word

end Univariate
