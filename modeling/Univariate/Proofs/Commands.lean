import Univariate.Proofs.Store

/-! Sequences of operations, run in any store. -/
namespace Univariate

variable {R P : Type}

/-- Ways to form a polynomial. Operands are named by their places among those formed before. -/
inductive Formation (R : Type) where
  | new (l : List R)
  | add (i j : ℕ)
  | sub (i j : ℕ)
  | neg (i : ℕ)
  | mul (i j : ℕ)
  | scale (i : ℕ) (c : R)
  | shift (i : ℕ) (n : Exponent)
  | pow (i n : ℕ)
  | derivative (i : ℕ)
  | compose (i j : ℕ)

/-- Questions about polynomials. -/
inductive Query (R : Type) where
  | eval (i : ℕ) (x : R)
  | degree (i : ℕ)
  | isZero (i : ℕ)
  | leadingCoeff (i : ℕ)
  | isMonic (i : ℕ)
  | equal (i j : ℕ)

inductive Answer (R : Type) where
  | value (x : R)
  | degree (n : Int)
  | truth (b : Bool)
  | coeff (c : Option R)

inductive Command (R : Type) where
  | form (f : Formation R)
  | ask (q : Query R)

/-- The polynomials formed so far, and the answers given. -/
structure Session (R P : Type) where
  polys : List P
  answers : List (Answer R)

namespace Store

/-- The polynomial at a place; a place that is not taken yet reads as zero. -/
def read (S : Store R P) (l : List P) (i : ℕ) : P := l.getD i S.zero

def form (S : Store R P) (l : List P) : Formation R → Except Fault P
  | .new cs => S.ofList cs
  | .add i j => S.add (S.read l i) (S.read l j)
  | .sub i j => S.sub (S.read l i) (S.read l j)
  | .neg i => S.neg (S.read l i)
  | .mul i j => S.mul (S.read l i) (S.read l j)
  | .scale i c => S.scale (S.read l i) c
  | .shift i n => S.shift (S.read l i) n
  | .pow i n => S.pow (S.read l i) n
  | .derivative i => S.derivative (S.read l i)
  | .compose i j => S.compose (S.read l i) (S.read l j)

def ask (S : Store R P) (l : List P) : Query R → Except Fault (Answer R)
  | .eval i x => do
    let y ← S.eval (S.read l i) x
    return .value y
  | .degree i => .ok (.degree (S.degree (S.read l i)))
  | .isZero i => .ok (.truth (S.isZero (S.read l i)))
  | .leadingCoeff i => .ok (.coeff (S.leadingCoeff? (S.read l i)))
  | .isMonic i => .ok (.truth (S.isMonic (S.read l i)))
  | .equal i j => .ok (.truth (S.equal (S.read l i) (S.read l j)))

def perform (S : Store R P) (s : Session R P) : Command R → Except Fault (Session R P)
  | .form f => do
    let p ← S.form s.polys f
    return { s with polys := s.polys ++ [p] }
  | .ask q => do
    let a ← S.ask s.polys q
    return { s with answers := s.answers ++ [a] }

def run (S : Store R P) (s : Session R P) (l : List (Command R)) : Except Fault (Session R P) :=
  l.foldlM S.perform s

end Store

namespace Dense

variable [Coeff R] [DecidableEq R]

/-- The largest exponent is below `2 ^ 63`. -/
def Fits (p : Dense R) : Prop := p.coeffs.length ≤ 9223372036854775808

instance (p : Dense R) : Decidable p.Fits := inferInstanceAs (Decidable (_ ≤ _))

/-- Hands a polynomial on that fits. -/
def fitting (p : Dense R) : Except Fault (Dense R) :=
  if p.Fits then .ok p else .error (.overflow .add)

def fittingMul (p q : Dense R) : Except Fault (Dense R) := p.mul q >>= fitting

/-- The same store, which gives up as soon as an exponent from `2 ^ 63` on arises in a polynomial,
be it a result or one of the powers on the way to it. -/
def fittingStore : Store R (Dense R) :=
  { store with
    ofList := fun l =>
      if l.length ≤ 9223372036854775808 then .ok (ofList l) else .error (.overflow .add)
    mul := fittingMul
    shift := fun p n => fitting (p.shift n)
    pow := repeated fittingMul one
    compose := fun p q => substitute (fun c power => power.scale c) add fittingMul q zero one
      p.coeffs }

/-- A polynomial is formed that has an exponent from `2 ^ 63` on. -/
def Oversized (x : Except Fault (Dense R)) : Prop := ∃ p, x = .ok p ∧ ¬ p.Fits

/-- Such an exponent arises in the polynomial that is formed or, where powers are, in one of those
up to the last that is asked for. -/
def Outgrows (l : List (Dense R)) : Formation R → Prop
  | .new cs => 9223372036854775808 < cs.length
  | .mul i j => Oversized (store.mul (store.read l i) (store.read l j))
  | .shift i n => Oversized (store.shift (store.read l i) n)
  | .pow i n => ∃ k ≤ n, Oversized (store.pow (store.read l i) k)
  | .compose i j => ∃ k < store.height (store.read l i), Oversized (store.pow (store.read l j) k)
  | _ => False

/-- Such an exponent arises at some command of a run. -/
def Outgrown (d : Session R (Dense R)) (cs : List (Command R)) : Prop :=
  ∃ before f after mid, cs = before ++ .form f :: after ∧ store.run d before = .ok mid ∧
    Outgrows mid.polys f

/-- What arises after a first command that is performed arises in the whole run. -/
theorem Outgrown.cons {d d' : Session R (Dense R)} {c : Command R} {cs : List (Command R)}
    (hc : store.perform d c = .ok d') (h : Outgrown d' cs) : Outgrown d (c :: cs) := by
  obtain ⟨before, f, after, mid, rfl, hmid, hf⟩ := h
  refine ⟨c :: before, f, after, mid, rfl, ?_, hf⟩
  rwa [Store.run, List.foldlM_cons, hc]

end Dense

end Univariate
