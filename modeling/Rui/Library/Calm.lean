import Rui.Library.Checks
import Rui.Library.Told

/-!
# Computations that fail no check

A computation that may end in an error and may not fail a check, with what
holds of its result: one rule for each way computations are put together.
-/

namespace Library

universe u v

variable {ε : Type u} {α β : Type v}

/-- No check fails, and what is computed has a property. -/
def Calm (P : α → Prop) : Except (Fault ε) α → Prop
  | .ok a => P a
  | .error e => e ≠ .panic

namespace Calm

variable {P : α → Prop} {Q : β → Prop} {x : Except (Fault ε) α}

theorem ok {a : α} (h : P a) : Calm P (.ok a : Except (Fault ε) α) := h

theorem error (e : ε) : Calm P (.error (.error e)) := nofun

theorem bind {f : α → Except (Fault ε) β} (h : Calm P x) (hf : ∀ a, P a → Calm Q (f a)) :
    Calm Q (x >>= f) := by
  cases x with
  | ok a => exact hf a h
  | error e => exact h

theorem ite {c : Prop} [Decidable c] {y : Except (Fault ε) α} (h : c → Calm P x)
    (h' : ¬ c → Calm P y) : Calm P (if c then x else y) := by
  split
  · exact h ‹_›
  · exact h' ‹_›

theorem cases (h : Calm P x) : (∃ a, x = .ok a ∧ P a) ∨ ∃ e, x = .error (.error e) := by
  match x, h with
  | .ok a, h => exact .inl ⟨a, rfl, h⟩
  | .error (.error e), _ => exact .inr ⟨e, rfl⟩
  | .error .panic, h => exact absurd rfl h

end Calm

end Library
