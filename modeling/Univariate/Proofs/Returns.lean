import Mathlib.Algebra.BigOperators.Group.List.Basic
import Univariate.Fault

/-! Computations that end with a result of a given kind, or else with a fault of a given kind. -/
namespace Univariate

variable {A B : Type} {P Q : A → Prop} {S : B → Prop} {E E' : Fault → Prop}

/-- A step that succeeds hands its result on. -/
theorem Fault.ok_bind (a : A) (f : A → Except Fault B) : (Except.ok a >>= f) = f a := rfl

/-- The result, if there is one, satisfies `Q`, and a fault satisfies `E`. -/
def Ends (E : Fault → Prop) (x : Except Fault A) (Q : A → Prop) : Prop :=
  match x with
  | .ok a => Q a
  | .error e => E e

namespace Ends

theorem ok {a : A} (h : Q a) : Ends E (.ok a) Q := h

theorem pure {a : A} (h : Q a) : Ends E (Pure.pure a) Q := h

theorem error {e : Fault} (h : E e) : Ends E (.error e) Q := h

theorem imp {x : Except Fault A} (h : Ends E x P) (hi : ∀ a, P a → Q a) : Ends E x Q := by
  cases x with
  | ok a => exact hi a h
  | error e => exact h

theorem weaken {x : Except Fault A} (h : Ends E x Q) (hE : ∀ e, E e → E' e) : Ends E' x Q := by
  cases x with
  | ok a => exact h
  | error e => exact hE e h

theorem bind {x : Except Fault A} {f : A → Except Fault B} (h : Ends E x Q)
    (hf : ∀ a, Q a → Ends E (f a) S) : Ends E (x >>= f) S := by
  cases x with
  | ok a => exact hf a h
  | error e => exact h

/-- What a result satisfies is told by any one run. -/
theorem of_eq_ok {x : Except Fault A} {a : A} (h : Ends E x Q) (hx : x = .ok a) : Q a := by
  subst hx
  exact h

/-- A fault that is met is one of those that may be. -/
theorem of_eq_error {x : Except Fault A} {e : Fault} (h : Ends E x Q) (hx : x = .error e) :
    E e := by
  subst hx
  exact h

/-- A loop over a list keeps what is known of the members that it has come through. -/
theorem foldlM {I : List B → A → Prop} {step : A → B → Except Fault A} {l : List B} {a : A}
    (h : I [] a) (hstep : ∀ done, ∀ t ∈ l, ∀ a, I done a → Ends E (step a t) (I (done ++ [t]))) :
    Ends E (l.foldlM step a) (I l) := by
  suffices hrest : ∀ rest ⊆ l, ∀ done a, I done a →
      Ends E (rest.foldlM step a) (I (done ++ rest)) from hrest l (List.Subset.refl l) [] a h
  intro rest hrest
  induction rest with
  | nil =>
    intro done a ha
    refine pure ?_
    rwa [List.append_nil]
  | cons t rest ih =>
    intro done a ha
    obtain ⟨ht, hrest⟩ := List.cons_subset.mp hrest
    rw [List.foldlM_cons]
    refine (hstep done t ht a ha).bind fun b hb => ?_
    have hl := ih hrest (done ++ [t]) b hb
    rwa [List.append_assoc] at hl

/-- A loop over a list adds up what its steps add. Only the members of the list are ever
stepped over. -/
theorem foldlM_sum {M : Type} [AddCommMonoid M] (rep : A → M → Prop) {step : A → B → Except Fault A}
    (term : B → M) {l : List B} {a : A} {x : M} (h : rep a x)
    (hstep : ∀ t ∈ l, ∀ a x, rep a x → Ends E (step a t) (rep · (x + term t))) :
    Ends E (l.foldlM step a) (rep · (x + (l.map term).sum)) := by
  refine foldlM (I := fun done a => rep a (x + (done.map term).sum)) (by simpa using h) ?_
  intro done t ht a ha
  rw [List.map_append, List.sum_append, List.map_singleton, List.sum_singleton, ← add_assoc]
  exact hstep t ht a _ ha

/-- A loop that maps a list keeps its members' places. -/
theorem mapM {r : A → B → Prop} {f : A → Except Fault B} {l : List A}
    (h : ∀ a ∈ l, Ends E (f a) (r a)) : Ends E (l.mapM f) (List.Forall₂ r l) := by
  induction l with
  | nil => exact pure .nil
  | cons a l ih =>
    rw [List.mapM_cons]
    refine (h a List.mem_cons_self).bind fun b hb => ?_
    exact (ih fun c hc => h c (List.mem_cons_of_mem a hc)).bind fun r hr => pure (.cons hb hr)

theorem forall_mapM {f : A → Except Fault B} {l : List A} (h : ∀ a ∈ l, Ends E (f a) S) :
    Ends E (l.mapM f) (∀ b ∈ ·, S b) := by
  refine (mapM (r := fun _ => S) h).imp fun r hr => ?_
  induction hr with
  | nil => simp
  | cons hb _ ih =>
    exact List.forall_mem_cons.mpr ⟨hb, ih fun c hc => h c (List.mem_cons_of_mem _ hc)⟩

end Ends

/-- Any result satisfies `Q`; nothing is said of faults. -/
abbrev Yields (x : Except Fault A) (Q : A → Prop) : Prop := Ends (fun _ => True) x Q

/-- What comes first may be left open. -/
theorem Ends.bind_any {x : Except Fault A} {f : A → Except Fault B} (hf : ∀ a, Yields (f a) S) :
    Yields (x >>= f) S := by
  cases x with
  | ok a => exact hf a
  | error => exact trivial

/-- The computation ends without a fault, and its result satisfies `Q`. -/
def Returns (x : Except Fault A) (Q : A → Prop) : Prop := ∃ a, x = .ok a ∧ Q a

theorem Ends.returns {x : Except Fault A} (h : Ends E x Q) (hE : ∀ e, ¬ E e) : Returns x Q := by
  cases x with
  | ok a => exact ⟨a, rfl, h⟩
  | error e => exact absurd h (hE e)

namespace Returns

theorem ok {a : A} (h : Q a) : Returns (.ok a) Q := ⟨a, rfl, h⟩

theorem pure {a : A} (h : Q a) : Returns (Pure.pure a) Q := ok h

theorem imp {x : Except Fault A} (h : Returns x P) (hi : ∀ a, P a → Q a) : Returns x Q := by
  obtain ⟨a, rfl, ha⟩ := h
  exact ok (hi a ha)

theorem bind {x : Except Fault A} {f : A → Except Fault B} (h : Returns x Q)
    (hf : ∀ a, Q a → Returns (f a) S) : Returns (x >>= f) S := by
  obtain ⟨a, rfl, ha⟩ := h
  exact hf a ha

/-- What a result satisfies is told by any one run. -/
theorem of_eq_ok {x : Except Fault A} {a : A} (h : Returns x Q) (hx : x = .ok a) : Q a := by
  obtain ⟨b, hb, hQ⟩ := h
  obtain rfl := Except.ok.inj (hx.symm.trans hb)
  exact hQ

theorem exists_ok {x : Except Fault A} (h : Returns x Q) : ∃ a, x = .ok a := by
  obtain ⟨a, ha, -⟩ := h
  exact ⟨a, ha⟩

theorem ends {x : Except Fault A} (h : Returns x Q) : Ends E x Q := by
  obtain ⟨a, rfl, ha⟩ := h
  exact ha

theorem foldlM {M : Type} [AddCommMonoid M] (rep : A → M → Prop) {step : A → B → Except Fault A}
    (term : B → M) {l : List B} {a : A} {x : M} (h : rep a x)
    (hstep : ∀ t ∈ l, ∀ a x, rep a x → Returns (step a t) (rep · (x + term t))) :
    Returns (l.foldlM step a) (rep · (x + (l.map term).sum)) := by
  refine (Ends.foldlM_sum (E := fun _ => False) rep term h ?_).returns fun _ => id
  exact fun t ht a x ha => (hstep t ht a x ha).ends

/-- A loop that ends has come through every member of its list. -/
theorem exists_step_of_foldlM {step : A → B → Except Fault A} {l : List B} {a b : A} {t : B}
    (h : l.foldlM step a = .ok b) (ht : t ∈ l) : ∃ c d, step c t = .ok d := by
  induction l generalizing a with
  | nil => simp at ht
  | cons s l ih =>
    rw [List.foldlM_cons, Fault.bind_eq_ok] at h
    obtain ⟨c, hc, h⟩ := h
    rcases List.mem_cons.mp ht with rfl | ht
    · exact ⟨a, c, hc⟩
    · exact ih h ht

theorem exists_of_mem_of_mapM {f : A → Except Fault B} {l : List A} {r : List B} {a : A}
    (h : l.mapM f = .ok r) (ha : a ∈ l) : ∃ b, f a = .ok b := by
  induction l generalizing r with
  | nil => simp at ha
  | cons c l ih =>
    rw [List.mapM_cons, Fault.bind_eq_ok] at h
    obtain ⟨b, hb, h⟩ := h
    obtain ⟨s, hs, -⟩ := Fault.bind_eq_ok.mp h
    rcases List.mem_cons.mp ha with rfl | ha
    · exact ⟨b, hb⟩
    · exact ih hs ha

theorem mapM {f : A → Except Fault B} {g : A → B} {l : List A} (h : ∀ a ∈ l, f a = .ok (g a)) :
    l.mapM f = .ok (l.map g) := by
  induction l with
  | nil => rfl
  | cons a l ih =>
    rw [List.mapM_cons, h a List.mem_cons_self, ih fun b hb => h b (List.mem_cons_of_mem a hb)]
    rfl

end Returns

/-- The computation fails with `e` where `c` holds, and has a result everywhere else. -/
structure FailsIff (e : Fault) (c : Prop) (x : Except Fault A) : Prop where
  fails : c → x = .error e
  result : ¬ c → ∃ a, x = .ok a

/-- Where there is one fault to meet, it is enough to know that `c` leaves no result and that there
is one without `c`. -/
theorem FailsIff.of_ends {e : Fault} {c : Prop} {x : Except Fault A} (h : Ends (· = e) x Q)
    (hfails : ∀ a, x = .ok a → ¬ c) (hresult : ¬ c → ∃ a, x = .ok a) : FailsIff e c x := by
  refine ⟨?_, hresult⟩
  intro hc
  cases x with
  | ok a => exact absurd hc (hfails a rfl)
  | error e' => exact congrArg Except.error h

theorem FailsIff.map {e : Fault} {c : Prop} {x : Except Fault A} (h : FailsIff e c x)
    (f : A → B) : FailsIff e c (x >>= fun a => Pure.pure (f a)) := by
  constructor
  · intro hc
    rw [h.fails hc]
    rfl
  · intro hc
    obtain ⟨a, rfl⟩ := h.result hc
    exact ⟨f a, rfl⟩

/-- Where `c` holds, the computation has a result, which satisfies `Q`, and everywhere else it fails
with a fault of `E`. -/
structure ReturnsIff (c : Prop) (Q : A → Prop) (E : Fault → Prop) (x : Except Fault A) : Prop where
  result : c → Returns x Q
  fault : ¬ c → ∃ e, x = .error e ∧ E e

namespace ReturnsIff

variable {c : Prop} {x : Except Fault A}

/-- It is enough to know what either end tells of `c`. -/
theorem of_ends (h : Ends (fun e => ¬ c ∧ E e) x fun a => c ∧ Q a) : ReturnsIff c Q E x := by
  cases x with
  | ok a => exact ⟨fun _ => .ok h.2, fun hc => absurd h.1 hc⟩
  | error e => exact ⟨fun hc => absurd hc h.1, fun _ => ⟨e, rfl, h.2⟩⟩

/-- Where `c` is known, no fault is left. -/
theorem of_returns (h : Returns x Q) (hc : c) : ReturnsIff c Q E x :=
  ⟨fun _ => h, fun hno => absurd hc hno⟩

theorem ends (h : ReturnsIff c Q E x) : Ends (fun e => ¬ c ∧ E e) x fun a => c ∧ Q a := by
  by_cases hc : c
  · obtain ⟨a, rfl, ha⟩ := h.result hc
    exact ⟨hc, ha⟩
  · obtain ⟨e, rfl, he⟩ := h.fault hc
    exact ⟨hc, he⟩

theorem exists_ok_iff (h : ReturnsIff c Q E x) : (∃ a, x = .ok a) ↔ c := by
  constructor
  · rintro ⟨a, hx⟩
    exact (h.ends.of_eq_ok hx).1
  · intro hc
    exact (h.result hc).exists_ok

/-- With one fault to meet, it is met exactly where `c` does not hold. -/
theorem failsIff {e : Fault} (h : ReturnsIff c Q (· = e) x) : FailsIff e (¬ c) x := by
  constructor
  · intro hc
    obtain ⟨_, hx, rfl⟩ := h.fault hc
    exact hx
  · intro hc
    exact (h.result (not_not.mp hc)).exists_ok

end ReturnsIff

/-- Both computations end, with the same result. -/
def Coincide (x y : Except Fault A) : Prop := ∃ a, x = .ok a ∧ y = .ok a

theorem Returns.coincide {x y : Except Fault A} {a b : A} (hx : Returns x (· = a))
    (hy : Returns y (· = b)) (hab : a = b) : Coincide x y := by
  obtain ⟨_, rfl, rfl⟩ := hx
  obtain ⟨_, rfl, rfl⟩ := hy
  exact ⟨_, rfl, hab ▸ rfl⟩

end Univariate
