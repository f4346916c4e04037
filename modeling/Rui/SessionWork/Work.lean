import Rui.Library.Ascii
import Rui.Library.Utf8

/-!
# What a session is doing

`session_work.zig`: the facts that the store reads of one session under one lock, and the one
state that `derive` makes of them. A Zig `u64` is a `Nat`; the one sum that could pass it is
a failure of its own.
-/

namespace Rui.SessionWork

open Library

inductive Failure
  | corruptStore | overflow
  deriving DecidableEq, Repr

/-- Text that fits its capacity. -/
@[ext] structure Bounded (capacity : Nat) where
  bytes : List UInt8
  fits : bytes.length ≤ capacity
  valid : utf8Validate bytes = true
  deriving Repr

instance (capacity : Nat) : DecidableEq (Bounded capacity) :=
  fun _ _ => decidable_of_iff' _ Bounded.ext_iff

def bounded (capacity : Nat) (text : List UInt8) : Except Failure (Bounded capacity) :=
  if h : text.length ≤ capacity ∧ utf8Validate text = true then .ok ⟨text, h.1, h.2⟩
  else .error .corruptStore

def maxCodeBytes : Nat := 96

def maxDescriptionBytes : Nat := 100

/-- The last attempt is never retried. -/
def maxRetriedAttempt : Nat := 3

inductive StopCause
  | stop | interruption
  deriving DecidableEq, Repr

/-- Every state carries the second in which the session entered it. -/
inductive WorkState
  | idle (since : Nat)
  | pending (since : Nat)
  | working (since : Nat)
  | retrying (since dueAtMs : Nat) (cause : Bounded maxCodeBytes) (attempt : Nat)
  | bash (since : Nat) (call : Option Nat) (description : Option (Bounded maxDescriptionBytes))
    (running approvals : Nat)
  | approval (since : Nat)
  | stopping (since : Nat)
  | finished (since : Nat)
  | failed (since : Nat) (code : Bounded maxCodeBytes) (resetsAt : Option Nat)
  | stopped (since : Nat) (cause : StopCause)
  deriving DecidableEq, Repr

/-- The one time rule: a retry falls due without a commit. -/
def WorkState.asOf (self : WorkState) (nowMs : Nat) : WorkState :=
  match self with
  | .retrying since dueAtMs cause attempt =>
    if dueAtMs ≤ nowMs then .pending (max since (dueAtMs / 1000))
    else .retrying since dueAtMs cause attempt
  | state => state

/-! ## The facts -/

structure Pending where
  since : Nat
  position : Nat
  deriving DecidableEq, Repr

/-- The newest admission that a stop excluded, with the earliest stop that did. -/
structure Excluded where
  admission : Nat
  stopPosition : Nat
  stopAt : Nat
  deriving DecidableEq, Repr

inductive Resolution
  | answer | compacted | toolProposals | interrupted | contextOverflow
  deriving DecidableEq, Repr

/-- The current operation. A resolution is missing where it failed. -/
inductive Op
  | inFlight (attemptAt : Nat)
  | waiting (scheduledAt dueAtMs : Nat) (cause : List UInt8) (attempt : Nat)
  | resolved (resolution : Option Resolution) (since : Nat)
  deriving DecidableEq, Repr

structure Running where
  since : Nat
  call : Nat
  description : Option (List UInt8)
  deriving DecidableEq, Repr

/-- The actions that the current operation proposed, counted. -/
structure Actions where
  total : Nat
  unresolved : Nat
  awaiting : Nat
  firstAwaiting : Option Nat
  running : Nat
  oldestRunning : Option Running
  latestResolutionAt : Option Nat
  latestDecisionAt : Option Nat
  deriving DecidableEq, Repr

inductive Outcome
  | completed | cancelled | failed
  deriving DecidableEq, Repr

structure Terminal where
  outcome : Outcome
  code : List UInt8
  since : Nat
  position : Nat
  resetsAt : Option Nat
  deriving DecidableEq, Repr

structure Turn where
  turnId : Nat
  operationId : Nat
  inputCutoff : Nat
  stoppedAt : Option Nat
  terminal : Option Terminal
  op : Op
  actions : Actions
  deriving DecidableEq, Repr

structure Inputs where
  nowMs : Nat
  createdAt : Nat
  latest : Option Turn
  oldestPending : Option Pending
  excluded : Option Excluded
  deriving DecidableEq, Repr

structure Work where
  state : WorkState
  turn : Option Nat
  operation : Option Nat
  firstAction : Option Nat
  deriving DecidableEq, Repr

/-! ## Deriving the state -/

/-- Queued or excluded input decides a session without an active turn before its outcome. -/
def settled (inputs : Inputs) (terminal : Option Terminal) : Option WorkState :=
  match inputs.oldestPending with
  | some pending =>
    -- Input that was queued behind the turn became eligible at its outcome.
    match terminal with
    | some ended =>
      some (.pending (if pending.position < ended.position then ended.since else pending.since))
    | none => some (.pending pending.since)
  | none =>
    match inputs.excluded with
    | none => none
    | some excluded =>
      if inputs.latest.any (fun latest => decide (excluded.admission ≤ latest.inputCutoff)) ||
          inputs.latest.isSome &&
            terminal.any (fun ended => decide (excluded.stopPosition < ended.position)) then none
      else some (.stopped excluded.stopAt .stop)

/-- What is wrong with the counts. -/
def Actions.contradiction (actions : Actions) : Option Failure :=
  if actions.total < actions.unresolved then some .corruptStore
  else if 2 ^ 64 ≤ actions.awaiting + actions.running then some .overflow
  else if actions.unresolved < actions.awaiting + actions.running ∨
      (actions.awaiting = 0 ↔ actions.firstAwaiting ≠ none) ∨
      (actions.running = 0 ↔ actions.oldestRunning ≠ none) ∨
      (actions.unresolved = actions.total ↔ actions.latestResolutionAt ≠ none) then
    some .corruptStore
  else none

def Op.isResolved : Op → Bool
  | .resolved _ _ => true
  | _ => false

def Op.proposed : Op → Bool
  | .resolved (some .toolProposals) _ => true
  | _ => false

/-- What is wrong with a turn's actions. Only the proposals of an active turn own any. -/
def Turn.contradiction (latest : Turn) : Option Failure :=
  latest.actions.contradiction.or
    (if latest.actions.total ≠ 0 ∧ (latest.terminal.isSome ∨ latest.op.proposed = false) then
      some .corruptStore
    else none)

/-- What a turn came to. -/
def Turn.outcome (latest : Turn) (terminal : Terminal) : Except Failure WorkState :=
  match terminal.outcome with
  | .completed => .ok (.finished terminal.since)
  | .cancelled =>
    .ok (.stopped terminal.since (if latest.stoppedAt.isSome then .stop else .interruption))
  | .failed =>
    (bounded maxCodeBytes terminal.code).map fun code =>
      .failed terminal.since code terminal.resetsAt

/-- A group of proposals, by its actions. -/
def Actions.state (actions : Actions) (since : Nat) : Except Failure WorkState :=
  match actions.oldestRunning with
  | some running =>
    match running.description with
    | some text =>
      (bounded maxDescriptionBytes text).map fun description =>
        .bash running.since (some running.call) (some description) actions.running
          actions.awaiting
    | none =>
      .ok (.bash running.since (some running.call) none actions.running actions.awaiting)
  | none =>
    let changed := match actions.latestResolutionAt with
      | some resolvedAt => (actions.latestDecisionAt.elim resolvedAt (max resolvedAt))
      | none => actions.latestDecisionAt.getD since
    if actions.unresolved ≠ 0 ∧ actions.awaiting = actions.unresolved then
      .ok (.approval changed)
    else .ok (.pending changed)

/-- What the current operation of an active turn does. -/
def Turn.operationState (latest : Turn) (nowMs : Nat) : Except Failure WorkState :=
  match latest.op with
  | .inFlight attemptAt => .ok (.working attemptAt)
  | .waiting scheduledAt dueAtMs cause attempt =>
    if attempt = 0 ∨ maxRetriedAttempt < attempt then .error .corruptStore
    else (bounded maxCodeBytes cause).map fun cause =>
      (WorkState.retrying scheduledAt dueAtMs cause attempt).asOf nowMs
  | .resolved none _ => .error .corruptStore
  | .resolved (some .toolProposals) since => latest.actions.state since
  | .resolved (some _) since => .ok (.pending since)

/-- The state of a session with a turn. -/
def Turn.state (inputs : Inputs) (latest : Turn) : Except Failure WorkState :=
  match latest.terminal with
  | some terminal =>
    if latest.op.isResolved = false then .error .corruptStore
    else
      match settled inputs (some terminal) with
      | some state => .ok state
      | none => latest.outcome terminal
  | none =>
    match latest.stoppedAt with
    | some since => .ok (.stopping since)
    | none => latest.operationState inputs.nowMs

def derive (inputs : Inputs) : Except Failure Work :=
  match inputs.latest with
  | none => .ok ⟨(settled inputs none).getD (.idle inputs.createdAt), none, none, none⟩
  | some latest =>
    match latest.contradiction with
    | some failure => .error failure
    | none =>
      (latest.state inputs).map fun state =>
        ⟨state, some latest.turnId, some latest.operationId, latest.actions.firstAwaiting⟩

end Rui.SessionWork
