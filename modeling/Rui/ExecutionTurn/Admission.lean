import Mathlib

/-!
# One turn of the engine

`run` of `execution_turn.zig` over an arbitrary context. Each call of the
context is answered from what holds at that moment, and between two calls
anything may move: commits, slots, the pause, fencing and the clock. The scans
answer from the Store and the slots as they stand when they run.
-/

namespace Rui.ExecutionTurn

def controlReconciliationIntervalMs : Nat := 100

def retryPollIntervalNs : Int := 1000000000

inductive Admission | noWork | retryLater | admitted
  deriving DecidableEq, Repr

inductive Kind | bash | retry | message | toolContinuation
  deriving DecidableEq, Repr

inductive Wait | transport | bash | idle
  deriving DecidableEq, Repr

inductive Outcome
  | continueImmediately
  | wait (on : Wait)
  | terminate
  deriving DecidableEq, Repr

/-- What the Bash, message and tool-continuation scans read: the Store's commit
generation, the slot change count, and whether new Turns are held. -/
structure AdmissionKey where
  generation : Nat
  slotChanges : Nat
  paused : Bool
  deriving DecidableEq, Repr

/-- Timestamps are nanoseconds of the awake clock. -/
structure State where
  preference : List Kind := [.bash, .retry, .message, .toolContinuation]
  retryAdmissionDue : Bool := true
  lastRetryPoll : Option Int := none
  nextControlReconciliation : Option Int := none
  reconciledGeneration : Option Nat := none
  uncertainActionScanExhausted : Bool := false
  idleAdmission : Option AdmissionKey := none
  idleCoreGeneration : Option Nat := none
  retainedCleanupAt : Option Int := none
  capacityWasFull : Bool := false
  deriving DecidableEq, Repr

/-! ## The context -/

/-- What the context would answer at one moment. A recovery without an answer
fenced dispatch. -/
structure Moment where
  now : Int := 0
  controlHint : Bool := false
  generation : Nat := 0
  slotChanges : Nat := 0
  turnsPaused : Bool := false
  dispatchFenced : Bool := false
  freeSlots : Nat := 1
  bashPreparationOpen : Bool := true
  modelPreparationOpen : Bool := true
  recoverUncertainAction : Option Bool := some false
  recoverExhaustedRetry : Option Bool := some false
  admitRetry : Admission := .noWork
  advanceBashPreparation : Bool := false
  advanceLiveBash : Bool := false
  advanceRetainedCleanup : Int → Int → Bool × Int := fun _ cleanupAt => (false, cleanupAt)
  hasTransport : Bool := false
  hasBash : Bool := false
  driveTransport : Option Unit := some ()
  serviceOneCompletion : Bool := false
  modelPreparationAllowance : Nat × Nat := (0, 0)
  advanceModelPreparation : Nat → Nat → Bool := fun _ _ => false

/-- A context: the moments of its calls, in which the commit generation and the
slot change count only grow, and its scans. -/
structure Context where
  providerConfigured : Bool
  moment : Nat → Moment
  generation_mono : ∀ call, (moment call).generation ≤ (moment (call + 1)).generation
  slotChanges_mono : ∀ call, (moment call).slotChanges ≤ (moment (call + 1)).slotChanges
  runCoreAction : Nat → Admission
  admitBash : Nat → Nat → Admission
  admitNewModel : Nat → Nat → Bool → Admission
  admitToolContinuation : Nat → Nat → Admission

/-- What a scan of a kind answers at a moment. The message scan is passed what the
pass read of the pause. -/
def Context.answer (context : Context) (kind : Kind) (call : Nat) (paused : Bool) : Admission :=
  let moment := context.moment call
  match kind with
  | .bash => context.admitBash moment.generation moment.slotChanges
  | .retry => moment.admitRetry
  | .message => context.admitNewModel moment.generation moment.slotChanges paused
  | .toolContinuation => context.admitToolContinuation moment.generation moment.slotChanges

/-- Whether the preparation that a kind needs can take work. -/
def Context.preparationOpen (context : Context) (kind : Kind) (call : Nat) : Bool :=
  if kind = .bash then (context.moment call).bashPreparationOpen
  else (context.moment call).modelPreparationOpen

/-- What is kept of the admission passes. A scan is noted with the Store, the
slots and the pause it read. -/
inductive Event
  | core (generation : Nat) (answer : Admission)
  | coreSkipped (generation : Nat)
  | scanned (kind : Kind) (generation slotChanges : Nat) (paused : Bool) (answer : Admission)
  | skipped (kind : Kind) (key : AdmissionKey)
  | closed (kind : Kind) (slotChanges : Nat)
  | unconfigured (kind : Kind)
  | undue
  | blocked
  | fenced
  deriving DecidableEq, Repr

/-- The engine between two calls of its context. -/
structure Turn where
  state : State := {}
  calls : Nat := 0
  events : List Event := []
  deriving DecidableEq, Repr

namespace Turn

def after (turn : Turn) (calls : Nat) : Turn := { turn with calls := turn.calls + calls }

def note (turn : Turn) (event : Event) : Turn := { turn with events := turn.events ++ [event] }

end Turn

variable (context : Context)

/-! ## Lifecycle -/

def due (deadline : Option Int) (now : Int) : Bool :=
  match deadline with
  | some value => decide (value ≤ now)
  | none => true

def deadlineAfter (now : Int) (milliseconds : Nat) : Int := now + milliseconds * 1000000

/-- A lost hint still follows its control's commit, so the fallback reads controls
only after the generation moved. -/
def reconcile (state : State) (now : Int) (hint : Bool) (generation : Nat) : State :=
  if hint ∨ due state.nextControlReconciliation now then
    { state with
      reconciledGeneration :=
        if hint ∨ state.reconciledGeneration ≠ some generation then some generation
        else state.reconciledGeneration
      nextControlReconciliation := some (deadlineAfter now controlReconciliationIntervalMs) }
  else state

def serviceLifecycle (turn : Turn) : Bool × Turn :=
  let now := (context.moment turn.calls).now
  let hint := (context.moment (turn.calls + 1)).controlHint
  let state := reconcile turn.state now hint (context.moment (turn.calls + 2)).generation
  let prepared := (context.moment (turn.calls + 3)).advanceBashPreparation
  let live := (context.moment (turn.calls + 4)).advanceLiveBash
  let cleanupAt := state.retainedCleanupAt.getD now
  let cleaned := (context.moment (turn.calls + 5)).advanceRetainedCleanup now cleanupAt
  (hint || prepared || live || cleaned.1,
    { turn.after 6 with state := { state with retainedCleanupAt := some cleaned.2 } })

/-! ## Admission -/

def retryPollDue (state : State) (now : Int) : Bool :=
  match state.lastRetryPoll with
  | some last => decide (retryPollIntervalNs ≤ now - last)
  | none => true

/-- Looks for uncertain Actions of an earlier Host until there are none. -/
def recoverUncertain (turn : Turn) : Option Bool × Turn :=
  if turn.state.uncertainActionScanExhausted then (some false, turn)
  else match (context.moment turn.calls).recoverUncertainAction with
    | none => (none, turn.after 1)
    | some true => (some true, turn.after 1)
    | some false => (some false,
      { turn.after 1 with state := { turn.state with uncertainActionScanExhausted := true } })

/-- Ends retries that are exhausted, which makes retry admission due. -/
def recoverRetries (now : Int) (maintain : Bool) (turn : Turn) : Option Bool × Turn :=
  if maintain then
    let state := { turn.state with retryAdmissionDue := true }
    match (context.moment turn.calls).recoverExhaustedRetry with
    | none => (none, { turn.after 1 with state := state })
    | some true => (some true, { turn.after 1 with state := { state with lastRetryPoll := none } })
    | some false =>
      (some false, { turn.after 1 with state := { state with lastRetryPoll := some now } })
  else (some false, turn)

/-- Scans for work of one kind that can be admitted, unless the pass leaves the
kind out. -/
def scan (kind : Kind) (key : AdmissionKey) (turn : Turn) : Option Admission × Turn :=
  let moment := context.moment turn.calls
  let answer := context.answer kind turn.calls key.paused
  (some answer, (turn.after 1).note
    (.scanned kind moment.generation moment.slotChanges key.paused answer))

def leave (event : Event) (turn : Turn) : Option Admission × Turn := (none, turn.note event)

def admission (key : AdmissionKey) (scanned : Bool) (kind : Kind) (turn : Turn) :
    Option Admission × Turn :=
  let closed : Event := .closed kind (context.moment turn.calls).slotChanges
  if scanned ∧ kind ≠ .retry then leave (.skipped kind key) turn
  else if kind = .bash then
    if context.preparationOpen .bash turn.calls then scan context kind key (turn.after 1)
    else leave closed (turn.after 1)
  else if ¬ context.providerConfigured then leave (.unconfigured kind) turn
  else if ¬ context.preparationOpen kind turn.calls then leave closed (turn.after 1)
  else if kind = .retry ∧ ¬ turn.state.retryAdmissionDue then leave .undue (turn.after 1)
  else scan context kind key (turn.after 1)

/-- What a pass over the kinds came to: whether it admitted, or else found
nothing. -/
inductive Passed | admitted | looked (foundNothing : Bool)
  deriving DecidableEq, Repr

/-- The kinds in order of preference, of which `done` are behind. Only a committed
winner moves. -/
def admitKinds (key : AdmissionKey) (scanned : Bool) :
    List Kind → List Kind → Bool → Turn → Passed × Turn
  | _, [], foundNothing, turn => (.looked foundNothing, turn)
  | done, kind :: kinds, foundNothing, turn =>
    if (context.moment turn.calls).dispatchFenced ∨
        (context.moment (turn.calls + 1)).freeSlots = 0 then
      (.looked false, (turn.after 2).note .blocked)
    else
      let result := admission context key scanned kind (turn.after 2)
      match result.1 with
      | none => admitKinds key scanned (done ++ [kind]) kinds foundNothing result.2
      | some answer =>
        let state := if kind = .retry
          then { result.2.state with retryAdmissionDue := decide (answer ≠ .noWork) }
          else result.2.state
        if answer = .admitted then
          (.admitted, { result.2 with state := { state with
            preference := done ++ kinds ++ [kind]
            idleAdmission := none } })
        else admitKinds key scanned (done ++ [kind]) kinds
          (foundNothing && (decide (kind = .retry) || decide (answer = .noWork)))
          { result.2 with state := state }

/-- The slot-free core scan, and whether it admitted. -/
def admitCore (generation : Nat) (turn : Turn) : Bool × Turn :=
  if turn.state.idleCoreGeneration = some generation then
    (false, turn.note (.coreSkipped generation))
  else
    let now := (context.moment turn.calls).generation
    let noted := (turn.after 1).note (.core now (context.runCoreAction now))
    match context.runCoreAction now with
    | .admitted => (true, { noted with state := { turn.state with
        idleCoreGeneration := none
        idleAdmission := none } })
    | .retryLater => (false, { noted with state := { turn.state with idleCoreGeneration := none } })
    | .noWork =>
      (false, { noted with state := { turn.state with idleCoreGeneration := some generation } })

/-- One pass over what can be admitted, from its three admission facts. -/
def admitPass (progress : Bool) (turn : Turn) : Bool × Turn :=
  let key : AdmissionKey := {
    generation := (context.moment turn.calls).generation
    slotChanges := (context.moment (turn.calls + 1)).slotChanges
    paused := (context.moment (turn.calls + 2)).turnsPaused }
  let scanned := decide (turn.state.idleAdmission = some key)
  let core := admitCore context key.generation (turn.after 3)
  if core.1 then (true, core.2)
  else
    let pass := admitKinds context key scanned [] core.2.state.preference true core.2
    match pass.1 with
    | .admitted => (true, pass.2)
    | .looked foundNothing => (progress, { pass.2 with state := { pass.2.state with
        idleAdmission := if foundNothing then some key else none } })

def admitWork (now : Int) (turn : Turn) : Option Bool × Turn :=
  let capacityReleased := turn.state.capacityWasFull &&
    decide ((context.moment turn.calls).freeSlots ≠ 0)
  let maintain := context.providerConfigured && (retryPollDue turn.state now || capacityReleased)
  let uncertain := recoverUncertain context (turn.after 1)
  match uncertain.1 with
  | none => (none, uncertain.2)
  | some recovered =>
    let retries := recoverRetries context now maintain uncertain.2
    match retries.1 with
    | none => (none, retries.2)
    | some ended =>
      let pass := admitPass context (recovered || ended) retries.2
      (some pass.1, pass.2)

/-! ## Turns -/

/-- The rest of a turn once work was admitted. -/
def conclude (progress : Bool) (turn : Turn) : Outcome × Turn :=
  let second := serviceLifecycle context turn
  let full := decide ((context.moment second.2.calls).freeSlots = 0)
  let turn := { second.2.after 1 with state := { second.2.state with capacityWasFull := full } }
  let failed := (context.moment turn.calls).hasTransport &&
    decide ((context.moment (turn.calls + 1)).driveTransport = none)
  if failed then (.terminate, turn.after 2)
  else
    let completed := (context.moment (turn.calls + 2)).serviceOneCompletion
    let third := serviceLifecycle context (turn.after 3)
    let turn := third.2
    let allowance := (context.moment turn.calls).modelPreparationAllowance
    let advanced := (context.moment (turn.calls + 1)).advanceModelPreparation
      allowance.1 allowance.2
    let outcome :=
      if progress || second.1 || completed || third.1 || advanced then .continueImmediately
      else if (context.moment (turn.calls + 2)).hasTransport then .wait .transport
      else if (context.moment (turn.calls + 3)).hasBash then .wait .bash
      else .wait .idle
    (outcome, turn.after 4)

def run (turn : Turn) : Outcome × Turn :=
  let first := serviceLifecycle context turn
  let now := (context.moment first.2.calls).now
  if (context.moment (first.2.calls + 1)).dispatchFenced then
    conclude context first.1 ((first.2.after 2).note .fenced)
  else
    let admitted := admitWork context now (first.2.after 2)
    match admitted.1 with
    | none => (.terminate, admitted.2.note .fenced)
    | some progress => conclude context (first.1 || progress) admitted.2

/-- The engine after some turns. -/
def turns : Nat → Turn
  | 0 => {}
  | count + 1 => (run context (turns count)).2

end Rui.ExecutionTurn
