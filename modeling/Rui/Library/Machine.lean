import Mathlib

/-!
# Deterministic machines and their histories

A machine answers one call at a time and keeps a state. Everything a claim
about runs needs is here once: the history a run leaves, how it splits at any
step, and the induction that carries a property of history and state together
through every call.
-/

namespace Library

universe u v w

/-- One call answered: the state moves and a reply comes back. -/
structure Machine (σ : Type u) (ο : Type v) (ρ : Type w) where
  call : σ → ο → σ × ρ

namespace Machine

variable {σ : Type u} {ο : Type v} {ρ : Type w}

/-- A step of a run, with the states around it. -/
structure Step (σ : Type u) (ο : Type v) (ρ : Type w) where
  before : σ
  op : ο
  reply : ρ
  after : σ

variable (M : Machine σ ο ρ)

/-- The step that `op` takes from `s`. -/
def stepFrom (s : σ) (op : ο) : Step σ ο ρ := ⟨s, op, (M.call s op).2, (M.call s op).1⟩

variable (s : σ)

@[simp] theorem stepFrom_before (op : ο) : (M.stepFrom s op).before = s := rfl
@[simp] theorem stepFrom_op (op : ο) : (M.stepFrom s op).op = op := rfl
@[simp] theorem stepFrom_reply (op : ο) : (M.stepFrom s op).reply = (M.call s op).2 := rfl
@[simp] theorem stepFrom_after (op : ο) : (M.stepFrom s op).after = (M.call s op).1 := rfl

/-- The state after a run. -/
def last (s : σ) : List ο → σ
  | [] => s
  | op :: ops => last (M.call s op).1 ops

/-- The history of a run, oldest step first. -/
def history (s : σ) : List ο → List (Step σ ο ρ)
  | [] => []
  | op :: ops => M.stepFrom s op :: history (M.call s op).1 ops

@[simp] theorem history_nil : M.history s [] = [] := rfl
@[simp] theorem last_nil : M.last s [] = s := rfl

theorem last_append (ops more : List ο) :
    M.last s (ops ++ more) = M.last (M.last s ops) more := by
  induction ops generalizing s with
  | nil => rfl
  | cons op ops ih => exact ih _

theorem history_append (ops more : List ο) :
    M.history s (ops ++ more) = M.history s ops ++ M.history (M.last s ops) more := by
  induction ops generalizing s with
  | nil => rfl
  | cons op ops ih => simp only [List.cons_append, history, last, ih]

@[simp] theorem history_length (ops : List ο) :
    (M.history s ops).length = ops.length := by
  induction ops generalizing s with
  | nil => rfl
  | cons op ops ih => simp only [history, List.length_cons, ih]

/-- **The history rule.** A property of history and state that holds at the
start and survives every step holds after every run. -/
theorem history_induction {P : List (Step σ ο ρ) → σ → Prop} {s : σ} (start : P [] s)
    (step : ∀ past now op, P past now → P (past ++ [M.stepFrom now op]) (M.call now op).1)
    (ops : List ο) : P (M.history s ops) (M.last s ops) := by
  induction ops using List.reverseRecOn with
  | nil => exact start
  | append_singleton ops op ih =>
    rw [history_append, last_append]
    exact step _ _ op ih

/-- **The invariant rule**, for properties of the state alone. -/
theorem invariant {P : σ → Prop} {s : σ} (start : P s)
    (step : ∀ now op, P now → P (M.call now op).1) (ops : List ο) : P (M.last s ops) :=
  M.history_induction (P := fun _ now => P now) start (fun _ now op h => step now op h) ops

theorem snoc_split {α : Type u} {l past future : List α} {a x : α}
    (h : l ++ [a] = past ++ x :: future) :
    (future = [] ∧ past = l ∧ x = a) ∨ ∃ rest, future = rest ++ [a] ∧ l = past ++ x :: rest := by
  rcases List.eq_nil_or_concat future with rfl | ⟨rest, b, rfl⟩
  · obtain ⟨rfl, hx⟩ := List.append_inj' h rfl
    exact .inl ⟨rfl, rfl, (List.cons.inj hx).1.symm⟩
  · rw [List.concat_eq_append, ← List.cons_append, ← List.append_assoc] at h
    obtain ⟨rfl, hb⟩ := List.append_inj' h rfl
    exact .inr ⟨rest, by rw [(List.cons.inj hb).1, List.concat_eq_append], rfl⟩

/-- Every step of a history is the step some call takes from the state that
the calls before it leave. -/
theorem history_split {s : σ} {ops : List ο} {past future : List (Step σ ο ρ)}
    {e : Step σ ο ρ} (h : M.history s ops = past ++ e :: future) :
    ∃ before op after, ops = before ++ op :: after ∧ past = M.history s before ∧
      e = M.stepFrom (M.last s before) op := by
  induction past generalizing s ops with
  | nil =>
    cases ops with
    | nil => simp at h
    | cons op ops =>
      simp only [history, List.nil_append, List.cons.injEq] at h
      exact ⟨[], op, ops, rfl, rfl, h.1.symm⟩
  | cons p past ih =>
    cases ops with
    | nil => simp at h
    | cons op ops =>
      simp only [history, List.cons_append, List.cons.injEq] at h
      obtain ⟨before, op', after, hops, hpast, he⟩ := ih h.2
      refine ⟨op :: before, op', after, by rw [hops]; rfl, ?_, he⟩
      rw [← h.1, hpast]
      rfl

end Machine

end Library
