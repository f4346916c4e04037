import Mathlib

/-!
# Checks that stop at the first error

Lemmas that take a checked computation apart: one that succeeds is its steps,
each of which succeeded.
-/

namespace Library

universe u v

variable {ε : Type u} {α β : Type v}

theorem ok_bind (a : α) (f : α → Except ε β) : (Except.ok a >>= f) = f a := rfl

theorem error_bind (e : ε) (f : α → Except ε β) : (Except.error e >>= f) = .error e := rfl

theorem bind_eq_ok {x : Except ε α} {f : α → Except ε β} {b : β} :
    (x >>= f) = .ok b ↔ ∃ a, x = .ok a ∧ f a = .ok b := by
  cases x with
  | error e => simp [error_bind]
  | ok a => simp [ok_bind]

theorem pure_eq_ok {a b : α} : (pure a : Except ε α) = .ok b ↔ a = b :=
  ⟨fun h => Except.ok.inj h, fun h => congrArg _ h⟩

theorem throw_eq_ok {e : ε} {a : α} : (throw e : Except ε α) = .ok a ↔ False :=
  ⟨fun h => (nomatch h), False.elim⟩

/-- The check that a condition holds. -/
def require (condition : Prop) [Decidable condition] (e : ε) : Except ε Unit :=
  if condition then pure () else throw e

theorem require_eq_ok {condition : Prop} [Decidable condition] {e : ε} :
    require condition e = .ok () ↔ condition := by
  rw [require]
  split
  · exact ⟨fun _ => ‹_›, fun _ => rfl⟩
  · exact ⟨fun h => (throw_eq_ok.mp h).elim, fun h => absurd h ‹_›⟩

theorem require_congr {condition condition' : Prop} [Decidable condition] [Decidable condition']
    (h : condition ↔ condition') (e : ε) : require condition e = require condition' e := by
  rw [require, require]
  simp only [h]

/-- What a check broke, if it broke. -/
def failureOf : Except ε α → Option ε
  | .error e => some e
  | .ok _ => none

@[simp] theorem failureOf_ok (a : α) : failureOf (.ok a : Except ε α) = none := rfl

@[simp] theorem failureOf_error (e : ε) : failureOf (.error e : Except ε α) = some e := rfl

@[simp] theorem failureOf_pure (a : α) : failureOf (pure a : Except ε α) = none := rfl

@[simp] theorem failureOf_throw (e : ε) : failureOf (throw e : Except ε α) = some e := rfl

theorem failureOf_eq_none {x : Except ε α} : failureOf x = none ↔ ∃ a, x = .ok a := by
  cases x with
  | error e => simp
  | ok a => simp

theorem failureOf_bind (x : Except ε α) (y : Except ε β) :
    failureOf (x >>= fun _ => y) = (failureOf x <|> failureOf y) := by
  cases x with
  | error e => rfl
  | ok a => cases y <;> rfl

end Library
