import Mathlib.Tactic.Common

/-!
# Outcomes of code that may fail or panic

A call has one of three ends: a value, an error handed back to the caller, or
a panic. Keeping the panic apart from the error makes "does not panic" a
statement about the translated code and not about its type. `Sat` is the
postcondition of a call: it allows a value and an error, and excludes a panic.
-/

universe u v w

/-- What a panicking operation was. -/
inductive PanicCause where
  | unreachable
  | slice
  | index
  | unwrap
  | assertion
  deriving DecidableEq, Repr

/-- The three ends of a call. -/
inductive Outcome (ε : Type u) (α : Type v) : Type (max u v) where
  | ok (value : α)
  | err (error : ε)
  | panic (cause : PanicCause)
  deriving DecidableEq, Repr

namespace Outcome

variable {ε : Type u} {ε' : Type w} {α β γ : Type v}

def bind (x : Outcome ε α) (f : α → Outcome ε β) : Outcome ε β :=
  match x with
  | ok a => f a
  | err e => err e
  | panic p => panic p

instance : Monad (Outcome ε) where
  pure := ok
  bind := bind

@[simp] theorem ok_bind (a : α) (f : α → Outcome ε β) : (ok a >>= f) = f a := rfl

@[simp] theorem err_bind (e : ε) (f : α → Outcome ε β) :
    ((err e : Outcome ε α) >>= f) = err e := rfl

@[simp] theorem panic_bind (p : PanicCause) (f : α → Outcome ε β) :
    ((panic p : Outcome ε α) >>= f) = panic p := rfl

instance : LawfulMonad (Outcome ε) :=
  LawfulMonad.mk' (Outcome ε)
    (fun x => by cases x <;> rfl)
    (fun _ _ => rfl)
    (fun x _ _ => by cases x <;> rfl)

/-- Change the error, as a caller that rebases or renames it does. -/
def mapErr (f : ε → ε') : Outcome ε α → Outcome ε' α
  | ok a => ok a
  | err e => err (f e)
  | panic p => panic p

@[simp] theorem mapErr_ok (f : ε → ε') (a : α) : mapErr f (ok a) = ok a := rfl

@[simp] theorem mapErr_err (f : ε → ε') (e : ε) :
    mapErr f (err e : Outcome ε α) = err (f e) := rfl

@[simp] theorem mapErr_id (x : Outcome ε α) : mapErr id x = x := by
  cases x <;> rfl

@[simp] theorem mapErr_eq_ok {f : ε → ε'} {x : Outcome ε α} {a : α} :
    mapErr f x = ok a ↔ x = ok a := by
  cases x <;> simp [mapErr]

theorem mapErr_eq_err {f : ε → ε'} {x : Outcome ε α} {e : ε'} :
    mapErr f x = err e ↔ ∃ e', x = err e' ∧ f e' = e := by
  cases x <;> simp [mapErr]

/-- An absent value is the given error. -/
def okOr (x : Option α) (e : ε) : Outcome ε α :=
  match x with
  | some a => ok a
  | none => err e

@[simp] theorem okOr_some (a : α) (e : ε) : okOr (some a) e = ok a := rfl

@[simp] theorem okOr_none (e : ε) : okOr (none : Option α) e = err e := rfl

@[simp] theorem okOr_eq_ok {x : Option α} {e : ε} {a : α} : okOr x e = ok a ↔ x = some a := by
  cases x <;> simp [okOr]

theorem okOr_eq_err {x : Option α} {e e' : ε} : okOr x e = err e' ↔ x = none ∧ e = e' := by
  cases x <;> simp [okOr]

/-- A failing assertion panics. -/
def assert (p : Prop) [Decidable p] : Outcome ε PUnit.{v + 1} :=
  if p then ok ⟨⟩ else panic .assertion

@[simp] theorem assert_true {p : Prop} [Decidable p] (h : p) :
    (assert p : Outcome ε PUnit.{v + 1}) = ok ⟨⟩ := if_pos h

@[simp] theorem assert_false {p : Prop} [Decidable p] (h : ¬p) :
    (assert p : Outcome ε PUnit.{v + 1}) = panic .assertion := if_neg h

theorem assert_ne_err {p : Prop} [Decidable p] {e : ε} :
    (assert p : Outcome ε PUnit.{v + 1}) ≠ err e := by
  rw [assert]
  split <;> simp

theorem assert_eq_ok {p : Prop} [Decidable p] {u : PUnit.{v + 1}} :
    (assert p : Outcome ε PUnit.{v + 1}) = ok u ↔ p := by
  by_cases h : p
  · simp [h]
  · simp [h]

theorem bind_eq_ok {x : Outcome ε α} {f : α → Outcome ε β} {b : β} :
    (x >>= f) = ok b ↔ ∃ a, x = ok a ∧ f a = ok b := by
  cases x with
  | ok a => simp
  | err e => simp
  | panic p => simp

theorem bind_eq_err {x : Outcome ε α} {f : α → Outcome ε β} {e : ε} :
    (x >>= f) = err e ↔ x = err e ∨ ∃ a, x = ok a ∧ f a = err e := by
  cases x with
  | ok a => simp
  | err e => simp
  | panic p => simp

@[simp] theorem map_eq_ok {f : α → β} {x : Outcome ε α} {b : β} :
    f <$> x = ok b ↔ ∃ a, x = ok a ∧ f a = b := by
  constructor
  · intro h
    cases x with
    | ok a => exact ⟨a, rfl, ok.inj h⟩
    | err e => cases h
    | panic p => cases h
  · rintro ⟨a, rfl, rfl⟩
    rfl

theorem map_eq_err {f : α → β} {x : Outcome ε α} {e : ε} : f <$> x = err e ↔ x = err e := by
  constructor
  · intro h
    cases x with
    | ok a => cases h
    | err e' => exact congrArg err (err.inj h)
    | panic p => cases h
  · rintro rfl
    rfl

/-- A view of the state that every step respects is respected by a whole run. -/
theorem map_foldlM {σ τ : Type v} {κ : Type w} {view : σ → τ} {step : σ → κ → Outcome ε σ}
    {step' : τ → κ → Outcome ε τ} (h : ∀ s c, view <$> step s c = step' (view s) c) (s : σ)
    (l : List κ) : view <$> l.foldlM step s = l.foldlM step' (view s) := by
  induction l generalizing s with
  | nil => rfl
  | cons c l ih =>
    rw [List.foldlM_cons, List.foldlM_cons, map_bind, ← h s c, bind_map_left]
    exact bind_congr ih

/-- The call ended in a value with `P` or in an error with `Q`. -/
def Sat (P : α → Prop) (Q : ε → Prop) : Outcome ε α → Prop
  | ok a => P a
  | err e => Q e
  | panic _ => False

instance {P : α → Prop} {Q : ε → Prop} [DecidablePred P] [DecidablePred Q]
    (x : Outcome ε α) : Decidable (Sat P Q x) :=
  match x with
  | ok a => inferInstanceAs (Decidable (P a))
  | err e => inferInstanceAs (Decidable (Q e))
  | panic _ => inferInstanceAs (Decidable False)

abbrev NoPanic (x : Outcome ε α) : Prop := Sat (fun _ => True) (fun _ => True) x

/-- The call ended in a value. -/
def Succeeds (x : Outcome ε α) : Prop := ∃ a, x = ok a

theorem not_succeeds_of_err {x : Outcome ε α} {e : ε} (h : x = err e) : ¬x.Succeeds := by
  rintro ⟨a, ha⟩
  cases h.symm.trans ha

instance (x : Outcome ε α) : Decidable x.Succeeds :=
  match x with
  | ok a => isTrue ⟨a, rfl⟩
  | err _ => isFalse nofun
  | panic _ => isFalse nofun

section Rules
variable {P P' : α → Prop} {Q Q' : ε → Prop} {R : β → Prop}

@[simp] theorem sat_ok {a : α} : Sat P Q (ok a) ↔ P a := Iff.rfl

@[simp] theorem sat_err {e : ε} : Sat P Q (err e) ↔ Q e := Iff.rfl

theorem Sat.mono {x : Outcome ε α} (h : Sat P Q x) (hP : ∀ a, P a → P' a)
    (hQ : ∀ e, Q e → Q' e) : Sat P' Q' x := by
  cases x with
  | ok a => exact hP a h
  | err e => exact hQ e h
  | panic p => exact False.elim h

theorem Sat.bind {x : Outcome ε α} {f : α → Outcome ε β} (h : Sat P Q x)
    (hf : ∀ a, P a → Sat R Q (f a)) : Sat R Q (x >>= f) := by
  cases x with
  | ok a => exact hf a h
  | err e => exact h
  | panic p => exact False.elim h

/-- As `Sat.bind`, keeping the equation that says which value was returned. -/
theorem Sat.bind_eq {x : Outcome ε α} {f : α → Outcome ε β} (h : Sat P Q x)
    (hf : ∀ a, x = ok a → P a → Sat R Q (f a)) : Sat R Q (x >>= f) := by
  cases x with
  | ok a => exact hf a rfl h
  | err e => exact h
  | panic p => exact False.elim h

theorem Sat.mapErr {S : ε' → Prop} {f : ε → ε'} {x : Outcome ε α} (h : Sat P Q x)
    (hf : ∀ e, Q e → S (f e)) : Sat P S (x.mapErr f) := by
  cases x with
  | ok a => exact h
  | err e => exact hf e h
  | panic p => exact False.elim h

theorem Sat.of_ok {x : Outcome ε α} {a : α} (h : Sat P Q x) (hx : x = ok a) : P a := by
  subst hx
  exact h

theorem Sat.of_err {x : Outcome ε α} {e : ε} (h : Sat P Q x) (hx : x = err e) : Q e := by
  subst hx
  exact h

/-- Where no error is allowed either, the call returns. -/
theorem Sat.exists_ok {x : Outcome ε α} (h : Sat P (fun _ => False) x) :
    ∃ a, x = ok a ∧ P a := by
  cases x with
  | ok a => exact ⟨a, rfl, h⟩
  | err e => exact False.elim h
  | panic p => exact False.elim h

/-- Where no value is allowed either, the call fails. -/
theorem Sat.exists_err {x : Outcome ε α} (h : Sat (fun _ => False) Q x) :
    ∃ e, x = err e ∧ Q e := by
  cases x with
  | ok a => exact False.elim h
  | err e => exact ⟨e, rfl, h⟩
  | panic p => exact False.elim h

theorem Sat.ne_panic {x : Outcome ε α} (h : Sat P Q x) (p : PanicCause) : x ≠ panic p := by
  rintro rfl
  exact h

theorem noPanic_of_eq {x : Outcome ε α} {a : α} (h : x = ok a) : x.NoPanic := by
  rw [h]
  exact trivial

theorem sat_okOr {x : Option α} {e : ε} (hP : ∀ a, x = some a → P a) (hQ : x = none → Q e) :
    Sat P Q (okOr x e) := by
  cases x with
  | some a => exact hP a rfl
  | none => exact hQ rfl

end Rules

end Outcome
