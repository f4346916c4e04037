import Mathlib

/-!
# Runs of a transition system

The histories of a system whose steps are given by a relation: what may happen
next, with a label. The induction over a run, and what every step of it keeps,
are here once.
-/

namespace Library

universe u v

/-- One step of a run: its label, and the states around it. -/
structure Step (σ : Type u) (ε : Type v) where
  before : σ
  label : ε
  after : σ

variable {σ : Type u} {ε : Type v} (Next : σ → ε → σ → Prop)

/-- The runs from a state, with their histories, oldest step first. -/
inductive Run (s : σ) : List (Step σ ε) → σ → Prop
  | start : Run s [] s
  | step {past : List (Step σ ε)} {now next : σ} {label : ε} (h : Run s past now)
    (hnext : Next now label next) : Run s (past ++ [⟨now, label, next⟩]) next

namespace Run

variable {Next} {s now : σ} {past future : List (Step σ ε)}

/-- **The invariant rule.** -/
theorem invariant {P : σ → Prop} (h : Run Next s past now) (start : P s)
    (step : ∀ now label next, P now → Next now label next → P next) : P now := by
  induction h with
  | start => exact start
  | step _ hnext ih => exact step _ _ _ ih hnext

theorem trans {mid : σ} (h : Run Next s past mid) (h' : Run Next mid future now) :
    Run Next s (past ++ future) now := by
  induction h' with
  | start =>
    rw [List.append_nil]
    exact h
  | step _ hnext ih =>
    rw [← List.append_assoc]
    exact .step ih hnext

theorem single {next : σ} {label : ε} (h : Next now label next) :
    Run Next now [⟨now, label, next⟩] next :=
  .step (.start : Run Next now [] now) h

theorem split (h : Run Next s (past ++ future) now) :
    ∃ mid, Run Next s past mid ∧ Run Next mid future now := by
  induction future using List.reverseRecOn generalizing now with
  | nil => exact ⟨now, by simpa using h, .start⟩
  | append_singleton future last ih =>
    rw [← List.append_assoc] at h
    generalize hwhole : past ++ future ++ [last] = whole at h
    cases h with
    | start => simp at hwhole
    | step hrun hnext =>
      obtain ⟨rfl, hlast⟩ := List.append_inj' hwhole rfl
      obtain ⟨mid, hpast, hfuture⟩ := ih hrun
      rw [List.singleton_inj.mp hlast]
      exact ⟨mid, hpast, .step hfuture hnext⟩

theorem split_step {e : Step σ ε} (h : Run Next s (past ++ e :: future) now) :
    Run Next s past e.before ∧ Next e.before e.label e.after ∧ Run Next e.after future now := by
  rw [← List.singleton_append, ← List.append_assoc] at h
  obtain ⟨mid, hpast, hfuture⟩ := h.split
  generalize hwhole : past ++ [e] = whole at hpast
  cases hpast with
  | start => simp at hwhole
  | step hrun hnext =>
    obtain ⟨rfl, hlast⟩ := List.append_inj' hwhole rfl
    rw [List.singleton_inj.mp hlast]
    exact ⟨hrun, hnext, hfuture⟩

end Run

end Library
