import Rui.Batch.StoreLaws
import Rui.Rounds.Calls

/-!
# What a write Access does

Content sinks, COMMIT and rollback, and then any sequence of calls: the statements
stepped are a prefix of those queued, COMMIT is issued on all of them, and an error
leaves the batch what it was.
-/

namespace Rui.Rounds

open Library Rui.Changes Rui.Batch

variable {φ ρ γ : Type} {base : Store (Rows φ)} {loose spec : Db (Rows φ)}

/-! ## Content sinks -/

variable {a : Access φ ρ γ}

theorem Core.stands (h : Core base loose spec a) (hnone : a.failure = none) (hqueue : a.queue = []) :
    ∃ d, a.ledger.stepped = a.ledger.queued ∧
      eagerly a.ledger.stepped spec = some (a.ledger.results, d) ∧
      Stands base loose spec a.body d := by
  have hall := h.ordered hnone
  rw [hqueue, List.map_nil, List.append_nil] at hall
  obtain ⟨d, heager, hwaits⟩ := h.good hnone
  refine ⟨d, hall.symm, heager, ?_⟩
  unfold Waits at hwaits
  split at hwaits
  · exact hwaits.1
  · rcases hwaits with ⟨_, _, _, hstands⟩ | ⟨_, hnot, _⟩
    · exact hstands
    · exact absurd hqueue hnot

/-- A failed transition goes on, and queues and steps nothing. -/
structure Idles (base : Store (Rows φ)) (loose spec : Db (Rows φ)) (a a' : Access φ ρ γ) : Prop
    extends Live base loose spec a' where
  silent : Silent a a'
  queued : a'.ledger.queued = a.ledger.queued

theorem Idles.refl (h : Live base loose spec a) (hf : a.failure ≠ none) :
    Idles base loose spec a a :=
  ⟨h, .refl hf, rfl⟩

theorem Idles.trans {a' a'' : Access φ ρ γ} (h : Idles base loose spec a a')
    (h' : Idles base loose spec a' a'') : Idles base loose spec a a'' :=
  ⟨h'.toLive, h.silent.trans h'.silent, h'.queued.trans h.queued⟩

/-- The entry of a write forgets what earlier ones touched. -/
def untouched (s : Store (Rows φ)) : Store (Rows φ) :=
  { s with touched := ⟨[], Nat.zero_le _, false⟩ }

/-- What a write Access did from the Store `s` on, once the error `raised` of a call, if any, has
stopped it. -/
structure Lawful (s : Store (Rows φ)) (raised : Option (Error γ)) (a : Access φ ρ γ) : Prop where
  checked : a.panicked = false
  seated : a.queue.length ≤ maxQueued
  stepped : a.ledger.stepped <+: a.ledger.queued
  returned : Returned s.engine.view a.ledger
  drained : raised = none → a.failure = none → a.queue = [] →
    ∃ d, a.ledger.stepped = a.ledger.queued ∧
      eagerly a.ledger.queued s.engine.view = some (a.ledger.results, d) ∧
      a.body.store.engine.view = d
  sticky : Sticky a.kind a.failure a.ledger.failed
  silent : raised = none → a.failure ≠ none → ∀ more,
    let a' := (a.calls more).2
    Silent a a' ∧ a'.ledger.queued = a.ledger.queued ∧ a'.ledger.issued = false ∧
      ∃ e, a'.run.1 = .round (some e)
  issued : a.ledger.issued = true → ∃ d, Issued s.engine.view a.ledger d
  apart : Disjoint a.ledger.handed
  committed : a.ended = true → a.ledger.issued = true ∧
    ∃ d, eagerly a.ledger.queued s.engine.view = some (a.ledger.results, d) ∧
      a.body.store.engine.view = d
  unended : raised ≠ none → a.ended = false
  abandoned : a.ended = false →
    a.abandon.2.body.store.engine.committed = s.engine.committed ∧
      (a.abandon.1 = .error .canonicalRollbackFailed ∨
        a.abandon.2.body.store.engine.view = s.engine.view)

end Rui.Rounds
