import Univariate.Proofs.Commands
import Univariate.Proofs.Respects
import Univariate.Text

/-! Runs in which polynomials are begun, worked on, examined and printed, carried from one store to
another. -/
namespace Univariate

variable {R R' P P' O O' : Type}

/-- A store with the ways to a polynomial from nothing, which `O` names, and with printing. -/
structure Workshop (R P O : Type) extends Store R P where
  start : O → Except Fault P
  text : P → String

inductive Entry (R O : Type) where
  | start (o : O)
  | command (c : Command R)
  | print (i : ℕ)

/-- A session, and what has been printed in it. -/
structure Ledger (R P : Type) extends Session R P where
  texts : List String

namespace Workshop

def enter (W : Workshop R P O) (s : Ledger R P) : Entry R O → Except Fault (Ledger R P)
  | .start o => do
    let p ← W.start o
    return { s with polys := s.polys ++ [p] }
  | .command c => do
    let t ← W.perform s.toSession c
    return { s with toSession := t }
  | .print i => .ok { s with texts := s.texts ++ [W.text (W.read s.polys i)] }

def record (W : Workshop R P O) (s : Ledger R P) (l : List (Entry R O)) :
    Except Fault (Ledger R P) := l.foldlM W.enter s

end Workshop

section Maps

variable (φ : R → R') (ψ : P → P') (ω : O → O')

def Formation.map : Formation R → Formation R'
  | .new l => .new (l.map φ)
  | .add i j => .add i j
  | .sub i j => .sub i j
  | .neg i => .neg i
  | .mul i j => .mul i j
  | .scale i c => .scale i (φ c)
  | .shift i n => .shift i n
  | .pow i n => .pow i n
  | .derivative i => .derivative i
  | .compose i j => .compose i j

def Query.map : Query R → Query R'
  | .eval i x => .eval i (φ x)
  | .degree i => .degree i
  | .isZero i => .isZero i
  | .leadingCoeff i => .leadingCoeff i
  | .isMonic i => .isMonic i
  | .equal i j => .equal i j

def Answer.map : Answer R → Answer R'
  | .value x => .value (φ x)
  | .degree n => .degree n
  | .truth b => .truth b
  | .coeff c => .coeff (c.map φ)

def Command.map : Command R → Command R'
  | .form f => .form (f.map φ)
  | .ask q => .ask (q.map φ)

def Entry.map : Entry R O → Entry R' O'
  | .start o => .start (ω o)
  | .command c => .command (c.map φ)
  | .print i => .print i

def Session.map (s : Session R P) : Session R' P' :=
  ⟨s.polys.map ψ, s.answers.map (Answer.map φ)⟩

/-- The texts stay as they are. -/
def Ledger.map (s : Ledger R P) : Ledger R' P' := ⟨s.toSession.map φ ψ, s.texts⟩

end Maps

variable {E : Fault → Prop} {φ : R → R'} {ψ : P → P'} {ω : O → O'}

namespace Store.Embeds

variable {S : Store R P} {S' : Store R' P'}

theorem read (h : S.Embeds S' E φ ψ) (l : List P) (i : ℕ) :
    S'.read (l.map ψ) i = ψ (S.read l i) := by
  rw [Store.read, Store.read, h.zero, List.getD_eq_getElem?_getD, List.getElem?_map,
    Option.getD_map, ← List.getD_eq_getElem?_getD]

theorem form (h : S.Embeds S' E φ ψ) (l : List P) (f : Formation R) :
    Carries E ψ (S.form l f) (S'.form (l.map ψ) (f.map φ)) := by
  cases f <;> simp only [Store.form, Formation.map, h.read]
  case new cs => exact h.ofList cs
  case add i j => exact (h.operations _ _).add
  case sub i j => exact (h.operations _ _).sub
  case neg i => exact (h.operations _ S.zero).neg
  case mul i j => exact (h.operations _ _).mul
  case scale i c => exact (h.operations _ S.zero).scale c
  case shift i n => exact (h.operations _ S.zero).shift n
  case pow i n => exact (h.operations _ S.zero).pow n
  case derivative i => exact (h.operations _ S.zero).derivative
  case compose i j => exact (h.operations _ _).compose

theorem ask (h : S.Embeds S' E φ ψ) (l : List P) (q : Query R) :
    Carries E (Answer.map φ) (S.ask l q) (S'.ask (l.map ψ) (q.map φ)) := by
  cases q <;> simp only [Store.ask, Query.map, h.read]
  case eval i x => exact ((h.operations _ S.zero).eval x).bind fun y => .pure rfl
  case degree i => exact .ok (congrArg Answer.degree (h.degree _))
  case isZero i => exact .ok (congrArg Answer.truth (h.isZero _))
  case leadingCoeff i => exact .ok (congrArg Answer.coeff (h.leadingCoeff? _))
  case isMonic i => exact .ok (congrArg Answer.truth (h.isMonic _))
  case equal i j => exact .ok (congrArg Answer.truth (h.equal _ _))

theorem perform (h : S.Embeds S' E φ ψ) (s : Session R P) (c : Command R) :
    Carries E (Session.map φ ψ) (S.perform s c) (S'.perform (s.map φ ψ) (c.map φ)) := by
  cases c with
  | form f => exact (h.form s.polys f).bind fun p => .pure (by simp [Session.map])
  | ask q => exact (h.ask s.polys q).bind fun a => .pure (by simp [Session.map])

end Store.Embeds

/-- One workshop embeds into another: what it begins is begun there, and is printed alike. -/
structure Workshop.Embeds (W : Workshop R P O) (W' : Workshop R' P' O') (E : Fault → Prop)
    (φ : R → R') (ψ : P → P') (ω : O → O') : Prop extends W.toStore.Embeds W'.toStore E φ ψ where
  start (o : O) : Carries E ψ (W.start o) (W'.start (ω o))
  text (p : P) : W'.text (ψ p) = W.text p

namespace Workshop.Embeds

variable {W : Workshop R P O} {W' : Workshop R' P' O'}

theorem enter (h : W.Embeds W' E φ ψ ω) (s : Ledger R P) (e : Entry R O) :
    Carries E (Ledger.map φ ψ) (W.enter s e) (W'.enter (s.map φ ψ) (e.map φ ω)) := by
  cases e with
  | start o => exact (h.start o).bind fun p => .pure (by simp [Ledger.map, Session.map])
  | command c => exact (h.perform s.toSession c).bind fun t => .pure rfl
  | print i =>
    refine .ok ?_
    change Ledger.mk _ (s.texts ++ [W'.text (W'.read (s.polys.map ψ) i)]) = _
    rw [h.read, h.text]
    rfl

theorem record (h : W.Embeds W' E φ ψ ω) (s : Ledger R P) (l : List (Entry R O)) :
    Carries E (Ledger.map φ ψ) (W.record s l) (W'.record (s.map φ ψ) (l.map (Entry.map φ ω))) :=
  Carries.foldlM h.enter l s

end Workshop.Embeds

namespace Dense

/-- The ways to a dense polynomial from nothing, besides a list. -/
inductive Origin (R : Type) where
  | zero
  | one
  | x
  | constant (c : R)
  | monomial (c : R) (n : Exponent)

def Origin.map (φ : R → R') : Origin R → Origin R'
  | .zero => .zero
  | .one => .one
  | .x => .x
  | .constant c => .constant (φ c)
  | .monomial c n => .monomial (φ c) n

variable [Coeff R] [DecidableEq R]

def start : Origin R → Except Fault (Dense R)
  | .zero => .ok zero
  | .one => .ok one
  | .x => .ok x
  | .constant c => .ok (constant c)
  | .monomial c n => monomial c n

def workshop [Numeral R] [LT R] [DecidableLT R] : Workshop R (Dense R) (Origin R) where
  toStore := store
  start := start
  text := text

variable [Coeff R'] [DecidableEq R']

theorem start_carries (h : CoeffEmbedding E φ) (hroom : E (.overflow .add)) (o : Origin R) :
    Carries E (map φ) (start o) (start (o.map φ)) := by
  cases o with
  | zero => exact .ok rfl
  | one => exact .ok (one_map h)
  | x =>
    refine .ok ?_
    rw [x, ← h.zero, ← h.one]
    exact ofList_map h [Coeff.zero, Coeff.one]
  | constant c => exact .ok (ofList_map h [c])
  | monomial c n => exact monomial_carries h hroom c n

end Dense

namespace Sparse

/-- The ways to a sparse polynomial from nothing, besides a list of coefficients. -/
inductive Origin (R : Type) where
  | zero
  | one
  | x
  | constant (c : R)
  | monomial (c : R) (n : Exponent)
  | ofTerms (l : List (Exponent × R))

def Origin.map (φ : R → R') : Origin R → Origin R'
  | .zero => .zero
  | .one => .one
  | .x => .x
  | .constant c => .constant (φ c)
  | .monomial c n => .monomial (φ c) n
  | .ofTerms l => .ofTerms (l.map (mapTerm φ))

variable [Coeff R] [DecidableEq R]

def start : Origin R → Except Fault (Sparse R)
  | .zero => .ok zero
  | .one => .ok one
  | .x => .ok x
  | .constant c => .ok (constant c)
  | .monomial c n => .ok (monomial c n)
  | .ofTerms l => ofTerms l

def workshop [Numeral R] [LT R] [DecidableLT R] : Workshop R (Sparse R) (Origin R) where
  toStore := store
  start := start
  text := text

variable [Coeff R'] [DecidableEq R']

theorem start_carries (h : CoeffEmbedding E φ) (o : Origin R) :
    Carries E (map φ) (start o) (start (o.map φ)) := by
  cases o with
  | zero => exact .ok rfl
  | one => exact .ok (one_map h)
  | x =>
    refine .ok ?_
    rw [x, ← h.one]
    exact monomial_map h Coeff.one 1
  | constant c => exact .ok (monomial_map h c 0)
  | monomial c n => exact .ok (monomial_map h c n)
  | ofTerms l => exact ofTerms_carries h l

end Sparse

end Univariate
