import Mathlib

/-!
# How a computation ends

What holds of the result of a computation that can fail: its failure is one of some, or its value
has a property. The rules follow the computation.
-/

namespace Library

universe u v w

variable {ε : Type u} {α β : Type v}

/-- A failure is one of `fails`, and a value has `post`. -/
def Ends (fails : ε → Prop) (post : α → Prop) : Except ε α → Prop
  | .error e => fails e
  | .ok a => post a

namespace Ends

variable {fails : ε → Prop} {post : α → Prop} {post' : β → Prop}

theorem ok {a : α} (h : post a) : Ends fails post (.ok a) := h

theorem error {e : ε} (h : fails e) : Ends fails post (.error e) := h

variable {x : Except ε α}

theorem mono {Q : α → Prop} (h : Ends fails post x) (himp : ∀ a, post a → Q a) :
    Ends fails Q x := by
  cases x with
  | error e => exact h
  | ok a => exact himp a h

/-- **The rule of sequence.** -/
theorem bind {f : α → Except ε β} (h : Ends fails post x)
    (hnext : ∀ a, post a → Ends fails post' (f a)) : Ends fails post' (x >>= f) := by
  cases x with
  | error e => exact h
  | ok a => exact hnext a h

/-- **The rule of choice.** -/
theorem ite {p : Prop} [Decidable p] {y : Except ε α} (hpos : p → Ends fails post x)
    (hneg : ¬ p → Ends fails post y) : Ends fails post (if p then x else y) := by
  split_ifs with h
  · exact hpos h
  · exact hneg h

theorem of_ok {a : α} (h : Ends fails post x) (hok : x = .ok a) : post a := by
  rw [hok] at h
  exact h

theorem of_error {e : ε} (h : Ends fails post x) (herror : x = .error e) : fails e := by
  rw [herror] at h
  exact h

end Ends

end Library
