import Rui.Library.Forest
import Rui.Library.Rows
import Rui.Library.Machine
import Rui.Library.Tally

/-!
# Ancestor feeds

Durable, one-hop delivery of child facts to ancestor Activity feeds. Queuing claims no position;
each delivery positions one row and queues the next hop in the same transaction, so the depth of
the tree never grows a transaction.
-/

namespace Rui.Forwards

open Library

inductive Kind
  | approval
  | ending
  deriving DecidableEq, Repr

/-- The Store saves numeric kinds. -/
def Kind.code : Kind → Nat
  | approval => 1
  | ending => 2

def Kind.decode : Nat → Option Kind
  | 1 => some approval
  | 2 => some ending
  | _ => none

/-- A row of `session_forward`. -/
structure Forward (ρ : Type) where
  forwardId : Nat
  target : ρ
  child : ρ
  kind : Nat
  sourceId : Nat
  position : Option Nat := none
  deliveredAt : Option Nat := none
  deriving DecidableEq, Repr

/-- What `UNIQUE(target_ref,kind,source_id)` names. -/
def Forward.key {ρ : Type} (row : Forward ρ) : ρ × Nat × Nat := (row.target, row.kind, row.sourceId)

/-- `forward_id=?1 AND position IS NULL`. -/
def Forward.pendingAs {ρ : Type} (forwardId : Nat) (row : Forward ρ) : Bool :=
  row.forwardId = forwardId && row.position.isNone

/-- A row of `action_operation`: an Action that needs approval has a position of its request. -/
structure Action (ρ : Type) where
  actionId : Nat
  session : ρ
  approvalPosition : Option Nat
  deriving DecidableEq, Repr

structure Turn (ρ : Type) where
  turnId : Nat
  session : ρ
  /-- The position of its outcome, once it ended. -/
  outcomePosition : Option Nat := none
  deriving DecidableEq, Repr

/-- `turn_id=?1 AND session_ref=?2 AND outcome_code IS NULL`. -/
def Turn.openAs {ρ : Type} [DecidableEq ρ] (turnId : Nat) (session : ρ) (turn : Turn ρ) : Bool :=
  turn.turnId = turnId && turn.session = session && turn.outcomePosition.isNone

/-- A row of `session_ending_owed`. -/
structure Ending where
  turnId : Nat
  delivered : Bool := false
  suppressMessage : Bool
  deriving DecidableEq, Repr

/-- `turn_id=?1 AND delivered=0`. -/
def Ending.owedAs (turnId : Nat) (ending : Ending) : Bool :=
  ending.turnId = turnId && !ending.delivered

structure Stop (ρ : Type) where
  session : ρ
  selectedTurnId : Option Nat
  position : Nat
  parentCaused : Bool
  deriving DecidableEq, Repr

/-- A row of `session_stop_owed`. -/
structure StopOwed (ρ : Type) where
  child : ρ
  cause : ρ
  causePosition : Nat
  settled : Bool := false
  deriving DecidableEq, Repr

/-- A Message a child's ending sent to its parent. -/
structure Message (ρ : Type) where
  session : ρ
  position : Nat
  sender : ρ
  senderPosition : Nat
  deriving DecidableEq, Repr

structure Store (ρ : Type) where
  sessions : List ρ
  nextPosition : ρ → Nat
  /-- Whether its `session_archive` row names a command. -/
  archived : ρ → Bool
  forwards : List (Forward ρ) := []
  actions : List (Action ρ) := []
  turns : List (Turn ρ) := []
  endings : List Ending := []
  stops : List (Stop ρ) := []
  stopsOwed : List (StopOwed ρ) := []
  messages : List (Message ρ) := []
  nextForward : Nat := 1
  nextAction : Nat := 1
  nextTurn : Nat := 1

inductive Failure
  | sessionPositionExhausted
  | identityExhausted
  | corruptStore
  | constraint
  | injectedCommitFailure
  deriving DecidableEq, Repr

/-- The most a stored integer holds. -/
def maxStored : Nat := 2 ^ 63 - 1

variable {ρ : Type} [DecidableEq ρ]

namespace Store

/-- Claims `count` consecutive positions of a Session and returns the first. -/
def take (s : Store ρ) (session : ρ) (count : Nat) : Except Failure (Nat × Store ρ) :=
  let first := s.nextPosition session
  if count > maxStored - first then .error .sessionPositionExhausted
  else .ok (first, { s with nextPosition := Function.update s.nextPosition session (first + count) })

/-- An identity, which is the column's next value. -/
def identity (value : Nat) : Except Failure Nat :=
  if value > maxStored then .error .identityExhausted else .ok value

/-- Whether a Session owes a stop its parent caused. -/
def owesStop (s : Store ρ) (session : ρ) : Bool :=
  s.stopsOwed.any fun owed => owed.child = session && !owed.settled

/-- A Session's open Turn. -/
def openTurn (s : Store ρ) (session : ρ) : Option (Turn ρ) :=
  s.turns.find? fun turn => turn.session = session && turn.outcomePosition.isNone

variable (tree : Forest ρ)

/-- Queues `child`'s fact for `source`'s parent, if attached. -/
def queue (s : Store ρ) (source child : ρ) (kind : Kind) (sourceId : Nat) :
    Except Failure (Store ρ) := do
  let forwardId ← identity s.nextForward
  let s := { s with nextForward := forwardId + 1 }
  match tree.parent source with
  | none => .ok s
  | some parent =>
    if s.forwards.any fun row => row.key = (parent, kind.code, sourceId) then .ok s
    else if parent = child then .error .constraint
    else .ok { s with forwards := s.forwards ++
      [{ forwardId, target := parent, child, kind := kind.code, sourceId }] }

/-- The oldest hop that is pending. -/
def next (s : Store ρ) : Option Nat :=
  ((s.forwards.filter fun row => row.position.isNone).map Forward.forwardId).min?

/-- Delivers once, keeping both the delivered row and the next obligation. Repeating an id that
is delivered already does nothing. -/
def deliver (s : Store ρ) (forwardId now : Nat) (beforeCommit : Bool) :
    Except Failure (Bool × Store ρ) :=
  match s.forwards.find? (Forward.pendingAs forwardId) with
  | none => .ok (false, s)
  | some found => do
    let (position, s) ← s.take found.target 1
    match updateOne (Forward.pendingAs forwardId)
        (fun row => { row with position := some position, deliveredAt := some now }) s.forwards with
    | none => .error .corruptStore
    | some forwards =>
      match Kind.decode found.kind with
      | none => .error .corruptStore
      | some kind => do
        let s ← { s with forwards }.queue tree found.target found.child kind found.sourceId
        if beforeCommit then .error .injectedCommitFailure else .ok (true, s)

/-! ## What queues facts -/

/-- An item of a model's output: a call is authorized or needs approval, or was rejected. -/
inductive Item
  | other
  | rejected
  | call (authorized : Bool)
  deriving DecidableEq, Repr

/-- Imports the calls of an output whose items stand from `position` on. -/
def importItems (session : ρ) : List Item → Nat → Store ρ → Except Failure (Store ρ)
  | [], _, s => .ok s
  | .other :: rest, position, s => importItems session rest (position + 1) s
  | .rejected :: rest, position, s => do
    let (_, s) ← s.take session 1
    importItems session rest (position + 1) s
  | .call authorized :: rest, position, s => do
    let actionId ← identity s.nextAction
    let s := { s with
      nextAction := actionId + 1
      actions := s.actions ++ [⟨actionId, session, if authorized then none else some position⟩] }
    let s ← if authorized then .ok s else s.queue tree session session .approval actionId
    importItems session rest (position + 1) s

/-- Ends an open Turn at the Session's next position. An attached child's ending is owed to its
parent, unless the child owes a stop. -/
def queueClose (s : Store ρ) (session : ρ) (turnId : Nat) : Except Failure (Store ρ) := do
  let (position, s) ← s.take session 1
  match updateOne (Turn.openAs turnId session)
      (fun turn => { turn with outcomePosition := some position }) s.turns with
  | none => .error .corruptStore
  | some turns =>
    let s := { s with turns }
    match tree.parent session with
    | none => .ok s
    | some parent =>
      if s.owesStop session then .ok s
      else if s.endings.any fun ending => ending.turnId = turnId then .error .constraint
      else .ok { s with endings := s.endings ++
        [{ turnId, suppressMessage := s.archived parent }] }

/-- Settles a model's output, which may end the Session's Turn. -/
def settle (s : Store ρ) (session : ρ) (items : List Item) (ends : Bool) :
    Except Failure (Store ρ) := do
  let (first, s) ← s.take session items.length
  let s ← importItems tree session items first s
  match ends, s.openTurn session with
  | true, some turn => s.queueClose tree session turn.turnId
  | _, _ => .ok s

/-- An ending that its parent's own stop or archive caused sends no Message. -/
def quiet (s : Store ρ) (ending : Ending) : Bool :=
  ending.suppressMessage ||
    s.stops.any fun stop => stop.selectedTurnId = some ending.turnId && stop.parentCaused

/-- The Message of a child's ending to its parent. An archived parent is sent none. -/
def sendEnding (s : Store ρ) (ending : Ending) (child parent : ρ) : Except Failure (Store ρ) :=
  if s.quiet ending || s.archived parent then .ok s
  else do
    let (position, s) ← s.take parent 1
    let (senderPosition, s) ← s.take child 1
    .ok { s with messages := s.messages ++ [⟨parent, position, child, senderPosition⟩] }

/-- Delivers the ending of an attached child's Turn to its parent as a Message, and settles what
was owed. -/
def deliverChildEnding (s : Store ρ) (turnId : Nat) (beforeCommit : Bool) :
    Except Failure (Bool × Store ρ) :=
  match s.endings.find? (Ending.owedAs turnId),
      s.turns.find? fun turn => turn.turnId = turnId with
  | some ending, some turn =>
    match tree.parent turn.session,
        updateOne (Ending.owedAs turnId) (fun each => { each with delivered := true }) s.endings with
    | some parent, some endings => do
      let s ← { s with endings }.queue tree turn.session turn.session .ending turnId
      let s ← s.sendEnding ending turn.session parent
      if beforeCommit then .error .injectedCommitFailure else .ok (true, s)
    | _, _ => .error .corruptStore
  | _, _ => .ok (false, s)

/-! ## What happens meanwhile -/

/-- A Turn of a Session opens. -/
def admitTurn (s : Store ρ) (session : ρ) : Except Failure (Store ρ) := do
  let turnId ← identity s.nextTurn
  .ok { s with nextTurn := turnId + 1, turns := s.turns ++ [{ turnId, session }] }

/-- What a stop of a Session does to the stops that are owed: it settles its own, and its
attached children owe theirs now. -/
def oweStops (s : Store ρ) (session : ρ) (position : Nat) : Store ρ :=
  let settled := s.stopsOwed.map fun owed =>
    if owed.child = session then { owed with settled := true } else owed
  let unowed := s.sessions.filter fun child =>
    decide (tree.parent child = some session) && !s.owesStop child
  { s with stopsOwed := settled ++ unowed.map fun child => ⟨child, session, position, false⟩ }

/-- The endings that the children of an archived Session still owe send no Message. -/
def suppressEndings (s : Store ρ) (session : ρ) : Store ρ :=
  { s with
    archived := Function.update s.archived session true
    endings := s.endings.map fun ending =>
      if !ending.delivered && s.turns.any (fun turn => turn.turnId = ending.turnId &&
          decide (tree.parent turn.session = some session))
      then { ending with suppressMessage := true } else ending }

/-- The rows of a stop, and of the archive that asks for it. -/
def recordStop (s : Store ρ) (session : ρ) (turn : Option (Turn ρ)) (position : Nat)
    (archive : Bool) : Store ρ :=
  let stop : Stop ρ := ⟨session, turn.map Turn.turnId, position, s.owesStop session⟩
  let s := { s with stops := s.stops ++ [stop] }
  let s := if archive then s.suppressEndings tree session else s
  s.oweStops tree session position

/-- A Session stops, and is archived when an archive asks for the stop. The Actions it cancels
take positions, and its Turn ends unless an attempted Action is in flight. -/
def stop (s : Store ρ) (session : ρ) (cancelled : Nat) (inFlight archive : Bool) :
    Except Failure (Store ρ) := do
  let turn := s.openTurn session
  let (position, s) ← s.take session 1
  let s := s.recordStop tree session turn position archive
  match turn with
  | none => .ok s
  | some turn => do
    let (_, s) ← s.take session cancelled
    if inFlight then .ok s else s.queueClose tree session turn.turnId

/-- An archived Session is active again. -/
def restore (s : Store ρ) (session : ρ) : Except Failure (Store ρ) := do
  let (_, s) ← s.take session 1
  .ok { s with archived := Function.update s.archived session false }

/-- Every id is read again from the rows that were committed. -/
def reopen (s : Store ρ) : Store ρ :=
  { s with
    nextForward := (s.forwards.map Forward.forwardId).foldr max 0 + 1
    nextAction := (s.actions.map Action.actionId).foldr max 0 + 1
    nextTurn := (s.turns.map Turn.turnId).foldr max 0 + 1 }

end Store

/-! ## Runs -/

inductive Event (ρ : Type)
  | settle (session : ρ) (items : List Store.Item) (ends : Bool)
  | admitTurn (session : ρ)
  | endTurn (session : ρ) (turnId : Nat)
  | deliverEnding (turnId : Nat) (beforeCommit : Bool)
  | deliver (forwardId now : Nat) (beforeCommit : Bool)
  | stop (session : ρ) (cancelled : Nat) (inFlight archive : Bool)
  | restore (session : ρ)
  /-- Facts of other kinds take positions. -/
  | other (session : ρ) (count : Nat)
  | reopen
  deriving Repr

variable (tree : Forest ρ)

/-- The transaction of an event. -/
def Store.perform (s : Store ρ) : Event ρ → Except Failure (Store ρ)
  | .settle session items ends => s.settle tree session items ends
  | .admitTurn session => s.admitTurn session
  | .endTurn session turnId => s.queueClose tree session turnId
  | .deliverEnding turnId beforeCommit => (s.deliverChildEnding tree turnId beforeCommit).map (·.2)
  | .deliver forwardId now beforeCommit => (s.deliver tree forwardId now beforeCommit).map (·.2)
  | .stop session cancelled inFlight archive => s.stop tree session cancelled inFlight archive
  | .restore session => s.restore session
  | .other session count => (s.take session count).map (·.2)
  | .reopen => .ok s.reopen

/-- The hops that are pending run, oldest first, until none is left or one fails. -/
def Store.drain (now : Nat) : Nat → Store ρ → Option Failure × Store ρ
  | 0, s => (none, s)
  | fuel + 1, s =>
    match s.next with
    | none => (none, s)
    | some forwardId =>
      match s.deliver tree forwardId now false with
      | .error failure => (some failure, s)
      | .ok (_, s') => drain now fuel s'

/-! ## The core's next work -/

end Rui.Forwards
