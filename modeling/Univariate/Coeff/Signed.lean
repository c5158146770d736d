import Univariate.Coeff.Basic

/-! Signed machine integers as coefficients. A result outside the range is a fault. -/
namespace Univariate

/-- Widths of machine integers. -/
inductive Width where
  | w32
  | w64
  | w128
deriving DecidableEq

namespace Width

/-- The first integer above the range, a power of two. Its negation is the least in range. -/
def bound : Width → Int
  | w32 => 2147483648
  | w64 => 9223372036854775808
  | w128 => 170141183460469231731687303715884105728

theorem one_lt_bound (w : Width) : 1 < w.bound := by cases w <;> decide

end Width

/-- An integer of the given width. -/
structure Signed (w : Width) where
  val : Int
  neg_bound_le : -w.bound ≤ val
  lt_bound : val < w.bound
deriving DecidableEq

namespace Signed

variable {w : Width}

/-- The integer `n`, when it is in range. -/
def ofInt? (w : Width) (n : Int) : Option (Signed w) :=
  if h : -w.bound ≤ n ∧ n < w.bound then some ⟨n, h.1, h.2⟩ else none

/-- The exact result of an operation, or its overflow. -/
def checked (operation : Operation) (n : Int) : Except Fault (Signed w) :=
  match ofInt? w n with
  | some a => .ok a
  | none => .error (.overflow operation)

instance : Coeff (Signed w) where
  zero := ⟨0, by have := w.one_lt_bound; omega, by have := w.one_lt_bound; omega⟩
  one := ⟨1, by have := w.one_lt_bound; omega, w.one_lt_bound⟩
  add a b := checked .add (a.val + b.val)
  sub a b := checked .subtract (a.val - b.val)
  mul a b := checked .multiply (a.val * b.val)
  neg a := checked .negate (-a.val)

instance : LT (Signed w) := ⟨fun a b => a.val < b.val⟩

instance : DecidableLT (Signed w) := fun a b => inferInstanceAs (Decidable (a.val < b.val))

theorem ofInt?_eq_some_iff {n : Int} {a : Signed w} : ofInt? w n = some a ↔ a.val = n := by
  unfold ofInt?
  split
  · rw [Option.some.injEq]
    constructor
    · rintro rfl
      rfl
    · rintro rfl
      rfl
  · rename_i h
    refine ⟨nofun, ?_⟩
    rintro rfl
    exact absurd ⟨a.neg_bound_le, a.lt_bound⟩ h

/-- A checked result is the exact one. -/
theorem checked_eq_ok_iff {operation : Operation} {n : Int} {a : Signed w} :
    checked operation n = .ok a ↔ a.val = n := by
  rw [← ofInt?_eq_some_iff]
  unfold checked
  split <;> simp_all

end Signed

end Univariate
