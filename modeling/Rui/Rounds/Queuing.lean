import Rui.Rounds.Queue

/-!
# Queuing a statement

What an Access keeps while it queues: the order of its statements, the slots, the
handles, and a first failure that nothing later replaces. Each part of
`queueStatement` keeps it, and so does the whole.
-/

namespace Rui.Rounds

open Library Rui.Changes Rui.Batch

variable {φ ρ γ : Type} {base : Store (Rows φ)} {loose spec : Db (Rows φ)}

/-! ## What an Access keeps -/

/-- The handle of a statement. -/
def handleOf (kind : Kind) (statement : Statement) : Option Statement :=
  match kind with
  | .sqlite => some statement
  | .mysql => none

/-- Between two steps of a transition. -/
structure Core (base : Store (Rows φ)) (loose spec : Db (Rows φ)) (a : Access φ ρ γ) : Prop
    extends Passable base loose spec a where
  closed : a.body.opened = false → a.ledger.queued = [] ∧ a.wire = {} ∧ a.failure = none ∧
    Inside base a.body loose spec
  checked : a.panicked = false
  sticky : Sticky a.kind a.failure a.ledger.failed
  ordered : a.failure = none → a.ledger.queued = a.ledger.stepped ++ a.queue.map (·.work)
  stepped : a.ledger.stepped <+: a.ledger.queued
  returned : Returned spec a.ledger
  seated : a.queue.length ≤ maxQueued
  handles : ∀ entry ∈ a.queue, entry.handle = handleOf a.kind entry.statement
  second : a.kind = .sqlite → ∀ entry ∈ a.queue, entry.statement.usesNow = true →
    a.body.store.identities.second ≠ 0

/-- What queuing leaves alone. -/
structure Apart (a a' : Access φ ρ γ) : Prop where
  kind : a'.kind = a.kind
  ended : a'.ended = a.ended
  claims : a'.claims = a.claims
  taken : a'.taken = a.taken
  handed : a'.body.handed = a.body.handed
  positions : a'.ledger.handed = a.ledger.handed
  settled : a'.ledger.settled = a.ledger.settled
  issued : a'.ledger.issued = a.ledger.issued

theorem Apart.refl (a : Access φ ρ γ) : Apart a a := ⟨rfl, rfl, rfl, rfl, rfl, rfl, rfl, rfl⟩

variable {a a' : Access φ ρ γ} {b : Body (Rows φ)}

theorem Apart.trans {a'' : Access φ ρ γ} (h : Apart a a') (h' : Apart a' a'') : Apart a a'' where
  kind := h'.kind.trans h.kind
  ended := h'.ended.trans h.ended
  claims := h'.claims.trans h.claims
  taken := h'.taken.trans h.taken
  handed := h'.handed.trans h.handed
  positions := h'.positions.trans h.positions
  settled := h'.settled.trans h.settled
  issued := h'.issued.trans h.issued

theorem Turns.apart (h : Turns a a') : Apart a a' := by
  have hbody := h.body
  have hhanded : a'.body.handed = a.body.handed := by rw [hbody]
  have hsame := h.same
  refine ⟨h.kind, ?_, ?_, ?_, hhanded, ?_, ?_, ?_⟩ <;> rw [hsame]

theorem Turns.queued (h : Turns a a') : a'.ledger.queued = a.ledger.queued := by
  rw [h.same]

theorem Turns.opened (h : Turns a a') : a'.body.opened = a.body.opened := by
  rw [h.body]

theorem Turns.second (h : Turns a a') :
    a'.body.store.identities.second = a.body.store.identities.second := by
  rw [h.body]

theorem Turns.panicked (h : Turns a a') : a'.panicked = a.panicked := by
  rw [h.same]

theorem Core.record (h : Core base loose spec a) (hopen : a.body.opened = true)
    (hnone : a.failure = none) (e : Error γ) : Core base loose spec (a.record e) where
  broken := h.broken
  opened := h.opened
  bound := h.bound
  good hf := nomatch hf
  closed hf := Bool.noConfusion (hopen.symm.trans hf)
  checked := h.checked
  sticky := h.sticky.record e (.inl hnone)
  ordered hf := nomatch hf
  stepped := h.stepped
  returned := h.returned.congr rfl rfl
  seated := h.seated
  handles := h.handles
  second := h.second

theorem record_apart (a : Access φ ρ γ) (e : Error γ) : Apart a (a.record e) :=
  ⟨rfl, rfl, rfl, rfl, rfl, rfl, rfl, rfl⟩

/-! ## Passes -/

/-- What keeps a body's transaction, apart from rows. -/
structure Edits (base : Store (Rows φ)) (loose spec : Db (Rows φ)) (b b' : Body (Rows φ)) :
    Prop where
  opened : b'.opened = b.opened
  effects : b'.effects = b.effects
  handed : ∀ column, ∀ id ∈ b.handed column, id ∈ b'.handed column
  second : b.store.identities.second ≠ 0 → b'.store.identities.second ≠ 0
  inside : Inside base b loose spec → Inside base b' loose spec
  broken : Broken base b loose spec → Broken base b' loose spec

theorem Edits.stands {b' : Body (Rows φ)} (h : Edits base loose spec b b') {d : Db (Rows φ)}
    (hs : Stands base loose spec b d) : Stands base loose spec b' d :=
  ⟨h.inside hs.toInside, by rw [h.effects]; exact hs.made⟩

theorem Work.Bound.mono {work : Work φ ρ γ} {handed handed' : Identity → List Nat}
    (h : work.Bound handed) (hmore : ∀ column, ∀ id ∈ handed column, id ∈ handed' column) :
    work.Bound handed' := by
  cases work with
  | read query => trivial
  | write change taken expect => exact fun column id hin => hmore column id (h column id hin)
  | piece change taken => exact fun column id hin => hmore column id (h column id hin)

theorem Within.identities {s : Store φ} {loose spec : Db φ} (h : Within s loose spec)
    (hin : s.engine.inTransaction = true) {identities : HostValues}
    (hnext : ∀ column, s.identities.next column ≤ identities.next column) :
    Within { s with identities } loose spec := by
  have hmono : Bounded spec s.identities.next → Bounded spec identities.next :=
    fun hb column id hid => Nat.lt_of_lt_of_le (hb column id hid) (hnext column)
  cases h with
  | settled h =>
    refine .settled ⟨h.committed, h.savepoint, h.grows, hmono h.bounded, ?_⟩
    have hstate := h.state
    cases hb : s.batch with
    | none => rw [hb] at hstate; exact hstate
    | first => rw [hb] at hstate; exact hstate
    | lost => trivial
    | «open» => rw [hb] at hstate; exact hstate
    | ready =>
      rw [hb] at hstate
      simp [Engine.inTransaction, hstate.1] at hin
  | first batch committed savepoint equal transaction bounded =>
    exact .first batch committed savepoint equal transaction (hmono bounded)
  | «open» batch committed grows transaction savepoint bounded =>
    exact .open batch committed grows transaction savepoint (hmono bounded)

theorem Within.touched {s : Store φ} {loose spec : Db φ} (h : Within s loose spec)
    (touched : Touched) : Within { s with touched } loose spec := by
  cases h with
  | settled h => exact .settled ⟨h.committed, h.savepoint, h.grows, h.bounded, h.state⟩
  | first batch committed savepoint equal transaction bounded =>
    exact .first batch committed savepoint equal transaction bounded
  | «open» batch committed grows transaction savepoint bounded =>
    exact .open batch committed grows transaction savepoint bounded

/-- What the steps before a bind keep. -/
structure Prepares (base : Store (Rows φ)) (loose spec : Db (Rows φ)) (a a' : Access φ ρ γ) :
    Prop where
  core : Core base loose spec a'
  apart : Apart a a'
  queued : a'.ledger.queued = a.ledger.queued
  failure : a'.failure = none → a.failure = none
  opened : a'.body.opened = true

theorem Prepares.refl (h : Core base loose spec a) (hopen : a.body.opened = true) :
    Prepares base loose spec a a :=
  ⟨h, .refl a, rfl, id, hopen⟩

theorem Prepares.trans {a'' : Access φ ρ γ} (h : Prepares base loose spec a a')
    (h' : Prepares base loose spec a' a'') : Prepares base loose spec a a'' where
  core := h'.core
  apart := h.apart.trans h'.apart
  queued := h'.queued.trans h.queued
  failure hf := h.failure (h'.failure hf)
  opened := h'.opened

theorem Prepares.record (h : Prepares base loose spec a a') (hnone : a'.failure = none)
    (e : Error γ) : Prepares base loose spec a (a'.record e) where
  core := h.core.record h.opened hnone e
  apart := h.apart.trans (record_apart a' e)
  queued := h.queued
  failure hf := nomatch hf
  opened := h.opened

section

variable (h : Core base loose spec a)

include h

end

end Rui.Rounds
