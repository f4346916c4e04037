import Rui.Library.Rows
import Rui.Library.SortedBy
import Rui.Library.Decimal
import Rui.SessionEnvironments.Table

/-!
# Session stops

`stopRounds` of `command.zig`: a stop of a Session, on its own, because a parent's stop is owed,
or because an archive asks for it. The Actions that were never attempted are cancelled in pages,
each read in the round that runs the write of the page before it.
-/

namespace Rui.SessionStops

open Library

/-! ## Rows -/

structure Session where
  ref : List UInt8
  nextPosition : Nat
  parent : Option (List UInt8) := none
  deriving DecidableEq, Repr

inductive CommandKind
  | sessionStop
  | sessionArchive
  | other (code : Nat)
  deriving DecidableEq, Repr

/-- `protocol.SessionStopRejection`. -/
inductive Rejection
  | invalidSessionReference
  | unknownSession
  deriving DecidableEq, Repr

/-- A row of `core_command`, whose rejected answer has a code. -/
structure Command where
  key : List UInt8
  kind : CommandKind
  target : List UInt8
  digest : List UInt8
  accepted : Bool
  code : Option Rejection := none
  commandSeq : Nat
  deriving DecidableEq, Repr

structure Stop where
  key : List UInt8
  session : List UInt8
  selectedTurnId : Option Nat
  admissionCutoff : Nat
  position : Nat
  parentCaused : Bool
  deriving DecidableEq, Repr

structure StopOwed where
  child : List UInt8
  cause : List UInt8
  causePosition : Nat
  settled : Bool := false
  deriving DecidableEq, Repr

structure Admission where
  admissionId : Nat
  session : List UInt8
  deriving DecidableEq, Repr

structure Turn where
  turnId : Nat
  session : List UInt8
  operationId : Nat
  outcomeCode : Option (List UInt8) := none
  outcomePosition : Option Nat := none
  deriving DecidableEq, Repr

/-- A Turn that was cancelled at this position. -/
def Turn.cancelled (position : Nat) (turn : Turn) : Turn :=
  { turn with
    outcomeCode := some (text "cancelled")
    outcomePosition := some position }

structure Operation where
  operationId : Nat
  session : List UInt8
  resolutionCode : Option (List UInt8) := none
  retryDueAtMs : Option Nat
  interruptedBy : Option (List UInt8) := none
  deriving DecidableEq, Repr

/-- An Operation that the command with this key interrupted. -/
def Operation.interrupted (key : List UInt8) (operation : Operation) : Operation :=
  { operation with
    retryDueAtMs := none
    resolutionCode := some (text "interrupted")
    interruptedBy := some key }

inductive Resolution
  | denied | cancelled | succeeded | failed | timedOut | indeterminate | storageFailed
  | spawnFailed | infrastructureShutdown
  deriving DecidableEq, Repr

structure Action where
  actionId : Nat
  parentOperationId : Nat
  callOrdinal : Nat
  session : List UInt8
  attemptOrdinal : Nat := 0
  resolutionCode : Option Resolution := none
  resolutionContentId : Option Nat := none
  acceptancePosition : Option Nat := none
  deriving DecidableEq, Repr

structure Ending where
  turnId : Nat
  delivered : Bool := false
  suppressMessage : Bool
  deriving DecidableEq, Repr

/-- A row of `session_archive`, which names a command while the Session is archived. -/
structure Archive where
  session : List UInt8
  commandKey : Option (List UInt8)
  deriving DecidableEq, Repr

structure Content where
  contentId : Nat
  bytes : List UInt8
  isPrivate : Bool
  deriving DecidableEq, Repr

structure Store where
  sessions : List Session := []
  commands : List Command := []
  stops : List Stop := []
  stopsOwed : List StopOwed := []
  admissions : List Admission := []
  turns : List Turn := []
  operations : List Operation := []
  actions : List Action := []
  endings : List Ending := []
  archives : List Archive := []
  /-- `session_archive_command`: the commands that archived, and whether each did. -/
  archiveCommands : List (List UInt8 × Bool) := []
  contents : List Content := []
  nextCommandSeq : Nat := 1
  nextContentId : Nat := 1
  deriving DecidableEq, Repr

inductive Failure
  | stopSelectionChanged
  | corruptStore
  | sessionPositionExhausted
  | identityExhausted
  | injectedContentImportFailure
  | injectedCommitFailure
  deriving DecidableEq, Repr

/-- The most a stored integer holds. -/
def maxStored : Nat := 2 ^ 63 - 1

structure Faults where
  contentImport : Bool := false
  beforeCommit : Bool := false

/-! ## What a stop reads first -/

/-- Unresolved and never attempted. -/
def Action.cancellable (operationId : Nat) (action : Action) : Bool :=
  action.parentOperationId = operationId && action.resolutionCode.isNone &&
    action.attemptOrdinal = 0

/-- Unresolved and attempted. -/
def Action.inFlight (operationId : Nat) (action : Action) : Bool :=
  action.parentOperationId = operationId && action.resolutionCode.isNone &&
    action.attemptOrdinal ≠ 0

/-- The stop a Session owes. -/
def StopOwed.owedBy (session : List UInt8) (owed : StopOwed) : Bool :=
  owed.child = session && !owed.settled

/-- `owedStopKey`: a newer obligation of the same child has another key. -/
def owedStopKey (child cause : List UInt8) (position : Nat) : List UInt8 :=
  text "rui.core/stop/" ++ child ++ text "/" ++ cause ++ text "/" ++ decimal position

/-- `stop_target`. -/
structure Target where
  session : Session
  admissionCutoff : Nat
  unowedChildren : Nat
  owed : Option StopOwed

/-- Whether `key` is the key of the stop this Session owes now. -/
def Target.owedUnder (self : Target) (key : List UInt8) : Bool :=
  match self.owed with
  | none => false
  | some owed => owedStopKey self.session.ref owed.cause owed.causePosition == key

/-- `stop_turn`: the Session's open Turn, its Operation, and its Actions' counts. -/
structure OpenTurn where
  turnId : Nat
  operationId : Nat
  running : Bool
  cancellable : Nat
  inFlight : Bool
  deriving DecidableEq, Repr

/-- What round 1 reads. -/
structure Facts where
  saved : Option Command
  target : Option Target
  turn : Option OpenTurn
  archiveExisting : Bool
  archiveEndings : Nat

namespace Store

/-- The attached children of a Session that owe no stop. -/
def unowedChildren (s : Store) (session : List UInt8) : List Session :=
  s.sessions.filter fun child =>
    child.parent = some session && !s.stopsOwed.any (StopOwed.owedBy child.ref)

def readTarget (s : Store) (session : List UInt8) : Option Target :=
  (s.sessions.find? fun row => row.ref = session).map fun row =>
    { session := row
      admissionCutoff :=
        ((s.admissions.filter fun each => each.session = session).map Admission.admissionId).foldr
          max 0
      unowedChildren := (s.unowedChildren session).length
      owed := s.stopsOwed.find? (StopOwed.owedBy session) }

def readTurn (s : Store) (session : List UInt8) : Option OpenTurn :=
  match s.turns.find? fun turn => turn.session = session && turn.outcomeCode.isNone with
  | none => none
  | some turn =>
    (s.operations.find? fun operation => operation.operationId = turn.operationId).map
      fun operation =>
        { turnId := turn.turnId
          operationId := turn.operationId
          running := operation.resolutionCode.isNone
          cancellable := s.actions.countP (Action.cancellable turn.operationId)
          inFlight := s.actions.any (Action.inFlight turn.operationId) }

/-- Whether an ending is one that `parent`'s archive suppresses. -/
def suppresses (s : Store) (parent : List UInt8) (ending : Ending) : Bool :=
  !ending.delivered && !ending.suppressMessage && s.turns.any fun turn =>
    turn.turnId = ending.turnId &&
      s.sessions.any fun child => child.ref = turn.session && child.parent = some parent

def readFacts (s : Store) (key session : List UInt8) : Facts :=
  let saved := s.commands.find? fun command => command.key = key
  if SessionEnvironments.validSessionId session then
    { saved
      target := s.readTarget session
      turn := s.readTurn session
      archiveExisting := s.archives.any fun archive => archive.session = session
      archiveEndings := s.endings.countP (s.suppresses session) }
  else { saved, target := none, turn := none, archiveExisting := false, archiveEndings := 0 }

/-! ## Writes -/

/-- Claims `count` consecutive positions of a Session and returns the first. -/
def take (s : Store) (session : List UInt8) (count : Nat) : Except Failure (Nat × Store) :=
  match s.sessions.find? fun row => row.ref = session with
  | none => .error .corruptStore
  | some found =>
    if count > maxStored - found.nextPosition then .error .sessionPositionExhausted
    else .ok (found.nextPosition, { s with
      sessions := s.sessions.map fun row =>
        if row.ref = session then { row with nextPosition := row.nextPosition + count } else row })

/-- A write that is queued only when `c` holds. -/
def queueIf (s : Store) (c : Bool) (write : Store → Except Failure Store) : Except Failure Store :=
  if c then write s else .ok s

def identity (value : Nat) : Except Failure Nat :=
  if value > maxStored then .error .identityExhausted else .ok value

def queueCommand (s : Store) (key : List UInt8) (kind : CommandKind) (target digest : List UInt8)
    (code : Option Rejection) : Except Failure Store := do
  let commandSeq ← identity s.nextCommandSeq
  .ok { s with
    nextCommandSeq := commandSeq + 1
    commands := s.commands ++ [⟨key, kind, target, digest, code.isNone, code, commandSeq⟩] }

/-- The Session's archive row names the command. -/
def saveArchive (s : Store) (key session : List UInt8) (existing : Bool) : Except Failure Store :=
  if existing then
    match updateOne (fun archive : Archive => archive.session = session)
        (fun archive => { archive with commandKey := some key }) s.archives with
    | none => .error .corruptStore
    | some archives => .ok { s with archives }
  else .ok { s with archives := s.archives ++ [⟨session, some key⟩] }

/-- The rows an archive adds to its stop. -/
def queueArchive (s : Store) (key session : List UInt8) (facts : Facts) : Except Failure Store := do
  let s := { s with archiveCommands := s.archiveCommands ++ [(key, true)] }
  let s ← s.saveArchive key session facts.archiveExisting
  if s.endings.countP (s.suppresses session) ≠ facts.archiveEndings then
    .error .stopSelectionChanged
  else
    let suppress (ending : Ending) : Ending :=
      if s.suppresses session ending then { ending with suppressMessage := true } else ending
    .ok { s with endings := s.endings.map suppress }

/-- A stop settles any stop this Session owed. -/
def settleOwedStop (s : Store) (session : List UInt8) : Except Failure Store :=
  match updateOne (StopOwed.owedBy session) (fun owed => { owed with settled := true })
      s.stopsOwed with
  | none => .error .corruptStore
  | some stopsOwed => .ok { s with stopsOwed }

/-- Its attached children now owe theirs. -/
def queueOwedStops (s : Store) (session : List UInt8) (position unowed : Nat) :
    Except Failure Store :=
  if unowed = 0 then .ok s
  else if (s.unowedChildren session).length ≠ unowed then .error .corruptStore
  else .ok { s with stopsOwed := s.stopsOwed ++
    (s.unowedChildren session).map fun child => ⟨child.ref, session, position, false⟩ }

def interruptOperation (s : Store) (operationId : Nat) (key session : List UInt8) :
    Except Failure Store :=
  match updateOne (fun operation : Operation => operation.operationId = operationId &&
      operation.session = session && operation.resolutionCode.isNone)
      (Operation.interrupted key) s.operations with
  | none => .error .stopSelectionChanged
  | some operations => .ok { s with operations }

/-- `queueClose`: the Turn ends at the Session's next position, and an attached child's ending is
owed, unless the child owes a stop. -/
def queueClose (s : Store) (session : List UInt8) (turnId : Nat) : Except Failure Store := do
  let (position, s) ← s.take session 1
  match updateOne (fun turn : Turn => turn.turnId = turnId && turn.session = session &&
      turn.outcomeCode.isNone) (Turn.cancelled position) s.turns with
  | none => .error .corruptStore
  | some turns =>
    let s := { s with turns }
    match (s.sessions.find? fun row => row.ref = session).bind Session.parent with
    | none => .ok s
    | some parent =>
      let archived := s.archives.any fun archive =>
        archive.session = parent && archive.commandKey.isSome
      if s.stopsOwed.any (StopOwed.owedBy session) then .ok s
      else .ok { s with endings := s.endings ++ [{ turnId, suppressMessage := archived }] }

/-! ## Cancelling -/

/-- The most Actions one cancelling write names. -/
def cancelChunk : Nat := 13

/-- `cancellable_actions`: one page, in call order, from the call `after` on. -/
def page (s : Store) (operationId after : Nat) : List Action :=
  ((s.actions.filter fun action => action.cancellable operationId && after ≤ action.callOrdinal)
    |>.insertionSort fun a b => a.callOrdinal ≤ b.callOrdinal).take cancelChunk

/-- What `cancelSql` selects. -/
def cancels (session : List UInt8) (ids : List Nat) (action : Action) : Bool :=
  ids.contains action.actionId && action.session = session && action.resolutionCode.isNone &&
    action.attemptOrdinal = 0

/-- The `k`-th id named takes position `first + k - 1`. -/
def cancelled (contentId first : Nat) (ids : List Nat) (action : Action) : Action :=
  { action with
    resolutionCode := some .cancelled
    resolutionContentId := some contentId
    acceptancePosition := some (first + ids.idxOf action.actionId) }

/-- `cancel_actions`, which must change every row it names. -/
def cancel (s : Store) (contentId first : Nat) (session : List UInt8) (ids : List Nat) :
    Except Failure Store :=
  if s.actions.countP (cancels session ids) ≠ ids.length then .error .stopSelectionChanged
  else
    let change (action : Action) : Action :=
      if cancels session ids action then cancelled contentId first ids action else action
    .ok { s with actions := s.actions.map change }

/-- The loop of `cancelActions`: this page's write, and the next page after it. The count says
when the last page was read. -/
def cancelPages (s : Store) (session : List UInt8) (operationId contentId count : Nat)
    (chunk : List Action) (cancelled : Nat) : Except Failure (Nat × Store) :=
  if chunk = [] then .ok (cancelled, s)
  else match s.take session chunk.length with
    | .error failure => .error failure
    | .ok (first, s) =>
      match s.cancel contentId first session (chunk.map Action.actionId) with
      | .error failure => .error failure
      | .ok s =>
        if _h : cancelled + chunk.length ≥ count ∨ chunk.length < cancelChunk then
          .ok (cancelled + chunk.length, s)
        else
          let after := ((chunk.getLast?.map Action.callOrdinal).getD 0) + 1
          cancelPages s session operationId contentId count (s.page operationId after)
            (cancelled + chunk.length)
termination_by count - cancelled
decreasing_by
  rw [cancelChunk] at _h
  omega

/-- `stop_cancellation_text`. -/
def stopCancellationText : List UInt8 := text "Cancelled by Session stop."

/-- `importBytes`: the row of these bytes, added when there is none. -/
def importBytes (s : Store) (bytes : List UInt8) : Except Failure (Nat × Store) :=
  match s.contents.find? fun content => content.bytes = bytes && !content.isPrivate with
  | some content => .ok (content.contentId, s)
  | none => do
    let contentId ← identity s.nextContentId
    .ok (contentId, { s with
      nextContentId := contentId + 1
      contents := s.contents ++ [⟨contentId, bytes, false⟩] })

/-- Cancels the open Turn's Actions in call order, each at the Session's next position. -/
def cancelActions (s : Store) (session : List UInt8) (turn : OpenTurn) (faults : Faults) :
    Except Failure Store := do
  let chunk := s.page turn.operationId 0
  if faults.contentImport then .error .injectedContentImportFailure
  else do
    let (contentId, s) ← s.importBytes stopCancellationText
    let (cancelled, s) ←
      s.cancelPages session turn.operationId contentId turn.cancellable chunk 0
    if cancelled ≠ turn.cancellable then .error .stopSelectionChanged else .ok s

/-! ## The stop -/

inductive Completion
  | pending
  | completed
  deriving DecidableEq, Repr

structure Accepted where
  replayed : Bool
  selectedTurnId : Option Nat
  admissionCutoff : Nat
  completion : Completion
  interruptedOperationId : Option Nat
  deriving DecidableEq, Repr

inductive Reply
  | accepted (answer : Accepted)
  | rejected (replayed : Bool) (code : Rejection)
  | conflict
  deriving DecidableEq, Repr

structure StopCommand where
  key : List UInt8
  session : List UInt8
  digest : List UInt8

/-- The open Turn's part of a stop. -/
def stopTurn (s : Store) (key session : List UInt8) (turn : OpenTurn) (faults : Faults) :
    Except Failure (Completion × Store) := do
  let s ← s.queueIf turn.running fun s => s.interruptOperation turn.operationId key session
  let s ← s.queueIf (turn.cancellable ≠ 0) fun s => s.cancelActions session turn faults
  if turn.inFlight then .ok (.pending, s)
  else do
    let s ← s.queueClose session turn.turnId
    .ok (.completed, s)

def stopOpenTurn (s : Store) (key session : List UInt8) (turn : Option OpenTurn)
    (faults : Faults) : Except Failure (Completion × Store) :=
  match turn with
  | none => .ok (.completed, s)
  | some turn => s.stopTurn key session turn faults

/-- What an accepted stop writes, from what round 1 read. -/
def stopFresh (s : Store) (command : StopCommand) (facts : Facts) (target : Target)
    (archive : Bool) (faults : Faults) : Except Failure (Reply × Store) := do
  let kind : CommandKind := if archive then .sessionArchive else .sessionStop
  let s ← s.queueCommand command.key kind command.session command.digest none
  let selectedTurnId := facts.turn.map OpenTurn.turnId
  let (position, s) ← s.take command.session 1
  let stop : Stop := ⟨command.key, command.session, selectedTurnId, target.admissionCutoff,
    position, target.owed.isSome⟩
  let s := { s with stops := s.stops ++ [stop] }
  let s ← s.queueIf archive fun s => s.queueArchive command.key command.session facts
  let s ← s.queueIf target.owed.isSome fun s => s.settleOwedStop command.session
  let s ← s.queueOwedStops command.session position target.unowedChildren
  let (completion, s) ← s.stopOpenTurn command.key command.session facts.turn faults
  let interrupted := facts.turn.bind fun turn =>
    if turn.running then some turn.operationId else none
  if faults.beforeCommit then .error .injectedCommitFailure
  else .ok (.accepted ⟨false, selectedTurnId, target.admissionCutoff, completion, interrupted⟩, s)

/-- The answer of a stop that was saved. -/
def replay (s : Store) (key : List UInt8) : Except Failure Reply :=
  match s.stops.find? fun stop => stop.key = key with
  | none => .error .corruptStore
  | some stop =>
    let closed := stop.selectedTurnId.all fun turnId =>
      s.turns.any fun turn => turn.turnId = turnId && turn.outcomeCode.isSome
    .ok (.accepted ⟨true, stop.selectedTurnId, stop.admissionCutoff,
      if closed then .completed else .pending,
      (s.operations.find? fun operation => operation.interruptedBy = some key).map
        Operation.operationId⟩)

/-- `stopRounds`, without its transaction: an owed stop runs only while its obligation stands, and
a saved command is answered as it was. -/
def stopRounds (s : Store) (command : StopCommand) (owed archive : Bool) (faults : Faults) :
    Except Failure (Reply × Store) :=
  let kind : CommandKind := if archive then .sessionArchive else .sessionStop
  let facts := s.readFacts command.key command.session
  if owed && !(facts.saved.isNone && facts.target.any fun target => target.owedUnder command.key)
  then .ok (.conflict, s)
  else match facts.saved with
    | some saved =>
      if saved.kind ≠ kind ∨ saved.target ≠ command.session ∨ saved.digest ≠ command.digest then
        .ok (.conflict, s)
      else if saved.accepted then (s.replay command.key).map fun reply => (reply, s)
      else match saved.code with
        | none => .error .corruptStore
        | some code => .ok (.rejected true code, s)
    | none =>
      match facts.target with
      | some target => s.stopFresh command facts target archive faults
      | none => do
        let code : Rejection := if SessionEnvironments.validSessionId command.session
          then .unknownSession else .invalidSessionReference
        let s ← s.queueCommand command.key kind command.session command.digest (some code)
        if faults.beforeCommit then .error .injectedCommitFailure
        else .ok (.rejected false code, s)

/-- A transaction that fails changes nothing. -/
def transaction (s : Store) (rounds : Except Failure (Reply × Store)) :
    Except Failure Reply × Store :=
  match rounds with
  | .error failure => (.error failure, s)
  | .ok (reply, s') => (.ok reply, s')

def stop (s : Store) (command : StopCommand) (owed archive : Bool) (faults : Faults) :
    Except Failure Reply × Store :=
  s.transaction (s.stopRounds command owed archive faults)

end Store

end Rui.SessionStops
