import Mathlib

/-!
# Computations that report what they meet

A computation that makes calls to a listener on the way and then answers or
fails. The calls made before a failure stay made.
-/

namespace Library

universe u v w

/-- Why a run of a program ends early: one of its errors, or a check it must
never fail. -/
inductive Fault (ε : Type u)
  | error (e : ε)
  | panic
  deriving DecidableEq, Repr

/-- The calls made, and the answer. -/
structure Told (κ : Type u) (ε : Type v) (α : Type w) where
  calls : List κ
  result : Except ε α

namespace Told

variable {κ : Type u} {ε : Type v} {α β γ : Type w}

def ok (a : α) : Told κ ε α := ⟨[], .ok a⟩

def fail (e : ε) : Told κ ε α := ⟨[], .error e⟩

/-- Makes calls and goes on. -/
def tell (calls : List κ) (t : Told κ ε α) : Told κ ε α := ⟨calls ++ t.calls, t.result⟩

def andThen (t : Told κ ε α) (f : α → Told κ ε β) : Told κ ε β :=
  match t.result with
  | .ok a => (f a).tell t.calls
  | .error e => ⟨t.calls, .error e⟩

@[simp] theorem tell_tell (calls more : List κ) (t : Told κ ε α) :
    tell calls (tell more t) = tell (calls ++ more) t := by
  simp [tell]

@[simp] theorem ok_andThen (a : α) (f : α → Told κ ε β) : (ok a).andThen f = f a := rfl

@[simp] theorem fail_andThen (e : ε) (f : α → Told κ ε β) :
    (fail e : Told κ ε α).andThen f = fail e := rfl

@[simp] theorem tell_andThen (calls : List κ) (t : Told κ ε α) (f : α → Told κ ε β) :
    (tell calls t).andThen f = tell calls (t.andThen f) := by
  simp only [tell, andThen]
  split <;> simp

@[simp] theorem tell_result (calls : List κ) (t : Told κ ε α) :
    (tell calls t).result = t.result := rfl

@[simp] theorem tell_calls (calls : List κ) (t : Told κ ε α) :
    (tell calls t).calls = calls ++ t.calls := rfl

@[simp] theorem ok_result (a : α) : (ok a : Told κ ε α).result = .ok a := rfl

@[simp] theorem fail_result (e : ε) : (fail e : Told κ ε α).result = .error e := rfl

@[simp] theorem ok_calls (a : α) : (ok a : Told κ ε α).calls = [] := rfl

end Told

end Library
