/-! Taking the items of a list one by one from either end. -/
namespace Univariate

/-- An end of a list. -/
inductive Side where
  | front
  | back
deriving DecidableEq

/-- What each move takes, and how many items it leaves. A move on the empty list takes nothing. -/
def walk {A : Type} : List Side → List A → List (Option A × Nat)
  | [], _ => []
  | .front :: moves, l => (l.head?, l.tail.length) :: walk moves l.tail
  | .back :: moves, l => (l.getLast?, l.dropLast.length) :: walk moves l.dropLast

/-- Moves from the front alone take the items in order, and nothing when there are no more. -/
theorem walk_front {A : Type} (n : Nat) (l : List A) :
    (walk (List.replicate n .front) l).map Prod.fst = (List.range n).map fun i => l[i]? := by
  induction n generalizing l with
  | zero => rfl
  | succ n ih =>
    have htail := ih l.tail
    rw [List.replicate_succ, walk, List.map_cons, htail, List.range_succ_eq_map, List.map_cons,
      List.map_map]
    simp [List.head?_eq_getElem?, List.getElem?_tail]

end Univariate
