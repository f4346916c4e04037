import Rui.Library.Ascii
import Rui.Library.Runs

/-!
# One intent at a time

`SessionSubmission.zig`: an owner that keeps one intent, reserves a key for it,
saves it as a record under that key and sends the record until the Host answers.
The owner's calls and the steps of its worker take turns in any order. What the
system answers to a step is its luck: randomness, the start of a thread, file and
socket operations, and the Host's reply.
-/

namespace Rui.SessionSubmission

open Library

abbrev Key := List UInt8

/-! ## Input -/

/-- The terminal's input as far as a submission borrows it: the serial of the last
text sealed, and that text until it is released. -/
structure Input where
  serial : Nat := 0
  submitted : Option (List UInt8) := none
  deriving DecidableEq, Repr

abbrev Ticket := Nat

namespace Input

def sealText (input : Input) (text : List UInt8) : Option Input :=
  if input.submitted = none then some ⟨input.serial + 1, some text⟩ else none

def message (input : Input) (ticket : Ticket) : Option (List UInt8) :=
  if ticket = input.serial then input.submitted else none

def release (input : Input) (ticket : Ticket) : Option Input :=
  if ticket = input.serial ∧ input.submitted.isSome then some { input with submitted := none }
  else none

end Input

/-! ## Intents -/

inductive PermissionDecision | allowOnce | deny
  deriving DecidableEq, Repr

inductive Kind | message | decision
  deriving DecidableEq, Repr

inductive Intent
  | message (ticket : Ticket)
  | messageThenDeny (ticket : Ticket) (action : Nat)
  | decision (action : Nat) (decision : PermissionDecision)
  deriving DecidableEq, Repr

namespace Intent

def kind : Intent → Kind
  | message _ | messageThenDeny _ _ => .message
  | decision _ _ => .decision

def ticket : Intent → Option Ticket
  | message ticket | messageThenDeny ticket _ => some ticket
  | decision _ _ => none

def denies : Intent → Option Nat
  | messageThenDeny _ action => some action
  | _ => none

end Intent

inductive State | notStarted | submitting | unconfirmed | rejected
  deriving DecidableEq, Repr

inductive Publication | notSent | unknown | published
  deriving DecidableEq, Repr

inductive Error
  | cancelled
  | entropyUnavailable
  | noSpaceLeft
  | invalidRequestHandle
  | invalidRequestRecord
  | recordAlreadyExists
  | originalBindingMismatch
  | submissionChanged
  | submissionUnresolved
  | launchFailed
  | other (code : Nat)
  deriving DecidableEq, Repr

/-! ## Records -/

/-- What a record asks of the Host. -/
inductive Payload
  | message (text : List UInt8)
  | decision (action : Nat) (decision : PermissionDecision)
  deriving DecidableEq, Repr

/-- A saved request. Its bytes are written from these fields alone. -/
structure Record where
  store : List UInt8
  session : List UInt8
  key : Key
  payload : Payload
  deriving DecidableEq, Repr

/-- What a saved request is known by: a Message by its length and digest. -/
inductive MutationTarget
  | message (bytes : Nat) (digest : List UInt8)
  | permissionDecision (action : Nat) (decision : PermissionDecision)
  deriving DecidableEq, Repr

/-- What stays the same while the owner lives. `canonical` is the Store's path as
it resolves, and `pathFits` says whether a record's path fits its buffer. -/
structure Context where
  store : List UInt8
  canonical : List UInt8
  session : List UInt8
  pathFits : Bool
  contentDigest : List UInt8 → List UInt8

def Payload.target (context : Context) : Payload → MutationTarget
  | message text => .message text.length (context.contentDigest text)
  | decision action choice => .permissionDecision action choice

structure Binding where
  store : List UInt8
  session : List UInt8
  key : Key
  target : MutationTarget

def Binding.agrees (context : Context) (binding : Binding) (record : Record) : Bool :=
  decide (record.store = binding.store ∧ record.session = binding.session ∧
    record.key = binding.key ∧ binding.target = record.payload.target context)

/-- A lowercase hexadecimal digit. -/
def isHandleDigit (byte : UInt8) : Bool :=
  (decide (ascii '0' ≤ byte) && decide (byte ≤ ascii '9')) ||
    (decide (ascii 'a' ≤ byte) && decide (byte ≤ ascii 'f'))

def validRequestHandle (handle : Key) : Bool :=
  decide (handle.length = 36) && handle.zipIdx.all fun (byte, index) =>
    if index = 8 ∨ index = 13 ∨ index = 18 ∨ index = 23 then decide (byte = ascii '-')
    else isHandleDigit byte

/-! ## Replies and ends -/

/-- The Host's answer to a mutation, or that it does not decode. -/
inductive Answer
  | accepted (admission : Option Nat)
  | rejected (code : List UInt8)
  | conflict
  | undecodable (error : Error)
  deriving DecidableEq, Repr

inductive End
  | absent
  | accepted (kind : Kind) (confirmed : Bool) (admission : Option Nat) (denies : Option Nat)
  | rejected (kind : Kind) (code : List UInt8)
  | failed (error : Error)
  deriving DecidableEq, Repr

/-! ## The owner and its worker -/

/-- Where the worker is: before `submit` or `resend`, before it sends what was
captured, or ended. -/
inductive Worker
  | submit
  | resend
  | send
  | done (result : Except Error Unit)

/-- The owner's fields. `target` is the name its reserved path gives the record,
and `cancelled` its task's cancellation. -/
structure Submission where
  input : Input := {}
  intent : Option Intent := none
  state : State := .notStarted
  worker : Option Worker := none
  cancelled : Bool := false
  key : Key := List.replicate 36 0
  target : Option Key := none
  captured : Option Record := none
  reply : Option Answer := none
  publication : Publication := .notSent
  lastError : Option Error := none
  accepted : Option (Kind × Key) := none
  retry : Option Key := none

/-- An intent that was begun: its ticket, what it asks, and the key its own begin
reserved. -/
structure Original where
  ticket : Option Ticket
  payload : Payload
  key : Option Key
  deriving DecidableEq, Repr

/-- A request that was written, with the place of the intent held then. -/
structure Sent where
  intent : Nat
  record : Record
  deriving DecidableEq, Repr

/-- The owner, the records saved in its directory, and what has happened. -/
structure World where
  self : Submission := {}
  directory : List (Key × Record) := []
  originals : List Original := []
  sent : List Sent := []
  released : List Ticket := []

/-! ## The worker -/

inductive Luck
  | works
  | fails (error : Error)
  | failsPublished (error : Error)
  | lost (error : Error)
  | replies (answer : Answer)
  deriving DecidableEq, Repr

/-- What an intent asks, as the input still holds it. -/
def Submission.payload (submission : Submission) : Intent → Option Payload
  | .message ticket | .messageThenDeny ticket _ =>
    (submission.input.message ticket).map .message
  | .decision action decision => some (.decision action decision)

namespace World

variable (context : Context)

def holding (world : World) (self : Submission) : World := { world with self }

/-- The worker ends. -/
def ends (world : World) (result : Except Error Unit) : World :=
  world.holding { world.self with worker := some (.done result) }

def saved (world : World) (name : Key) : Option Record :=
  (world.directory.find? fun entry => decide (entry.1 = name)).map Prod.snd

/-- Captures the intent under its reserved name, which must be free. -/
def capture (world : World) (luck : Luck) (name : Key) (payload : Payload) : Option World :=
  let record : Record := ⟨context.canonical, context.session, world.self.key, payload⟩
  match luck with
  | .fails error => some (world.ends (.error error))
  | .failsPublished error =>
    if (world.saved name).isSome then some (world.ends (.error .recordAlreadyExists))
    else some { world.ends (.error error) with directory := (name, record) :: world.directory }
  | .works =>
    if (world.saved name).isSome then some (world.ends (.error .recordAlreadyExists))
    else some {
      world with
      directory := (name, record) :: world.directory
      self := { world.self with
        captured := some record
        publication := .published
        worker := some .send } }
  | _ => none

/-- From here on a record may have been published. -/
def publishing (world : World) : World :=
  world.holding { world.self with
    publication := if world.self.publication = .notSent then .unknown
      else world.self.publication }

def submit (world : World) (luck : Luck) : Option World :=
  if world.self.cancelled then some (world.ends (.error .cancelled))
  else match world.self.intent, world.self.target with
    | some intent, some name =>
      match world.self.payload intent with
      | some payload => world.publishing.capture context luck name payload
      | none => some (world.publishing.ends (.error .submissionChanged))
    | _, _ => none

/-- Checks a record saved under the key against the intent. -/
def reopen (world : World) (record : Record) (payload : Option Payload) : World :=
  if record.key ≠ world.self.key then world.ends (.error .invalidRequestRecord)
  else match payload with
    | none => world.ends (.error .submissionChanged)
    | some payload =>
      let expected : Binding :=
        ⟨context.store, context.session, world.self.key, payload.target context⟩
      if expected.agrees context record then
        world.holding { world.self with
          captured := some record
          publication := .published
          worker := some .send }
      else world.ends (.error .originalBindingMismatch)

def resend (world : World) (luck : Luck) : Option World :=
  if world.self.cancelled then some (world.ends (.error .cancelled))
  else if world.self.captured.isSome then
    some (world.holding { world.self with worker := some .send })
  else if ¬ validRequestHandle world.self.key then
    some (world.ends (.error .invalidRequestHandle))
  else if ¬ context.pathFits then some (world.ends (.error .noSpaceLeft))
  else match luck with
    | .fails error => some (world.ends (.error error))
    | .works => match world.saved world.self.key with
      | none => some (world.holding { world.self with worker := some .submit })
      | some record => world.self.intent.map fun intent =>
        world.reopen context record (world.self.payload intent)
    | _ => none

def write (world : World) (record : Record) : World :=
  { world with sent := world.sent ++ [⟨world.originals.length - 1, record⟩] }

/-- Sends the captured bytes. -/
def send (world : World) (luck : Luck) : Option World :=
  match world.self.captured with
  | none => none
  | some record =>
    match luck with
    | .fails error => some (world.ends (.error error))
    | .lost error => some ((world.write record).ends (.error error))
    | .replies answer =>
      some (((world.write record).holding { world.self with reply := some answer }).ends (.ok ()))
    | _ => none

def work (world : World) (luck : Luck) : Option World :=
  match world.self.worker with
  | some .submit => world.submit context luck
  | some .resend => world.resend context luck
  | some .send => world.send luck
  | _ => none

/-! ## The owner -/

/-- What a call of the owner answers. -/
inductive Outcome
  | none
  | error (error : Error)
  | ended (result : End)
  deriving DecidableEq, Repr

/-- `begin`: `reserved` is the key that randomness gives, and `starts` whether the
worker's thread does. -/
def start (world : World) (intent : Intent) (reserved : Option Key) (starts : Bool) :
    Option (World × Outcome) :=
  match world.self.intent, world.self.worker, world.self.payload intent with
  | none, none, some payload =>
    let kept := { world.self with
      intent := some intent
      state := .notStarted
      reply := none
      publication := .notSent }
    let begun (self : Submission) : World := { world with
      self
      originals := world.originals ++ [⟨intent.ticket, payload, reserved⟩] }
    match reserved with
    | none => some (begun kept, .error .entropyUnavailable)
    | some key =>
      let keyed := { kept with key := key }
      if ¬ context.pathFits then some (begun keyed, .error .noSpaceLeft)
      else
        let named := { keyed with target := some key }
        if starts then
          some (begun { named with
            worker := some .submit
            cancelled := false
            state := .submitting }, .none)
        else some (begun named, .error .launchFailed)
  | _, _, _ => none

/-- Whether a retry of the original with this key may go. -/
def canRetry (world : World) (requested : Key) : Bool :=
  world.self.intent.isSome && decide (world.self.state ≠ .rejected) &&
    decide (requested = world.self.key)

def requestRecovery (world : World) (key : Option Key) : World × Outcome :=
  if world.self.intent = none then (world, .none)
  else if key.isSome ∧ key ≠ some world.self.key then (world, .error .originalBindingMismatch)
  else (world.holding { world.self with
    retry := if world.canRetry world.self.key then some world.self.key else none }, .none)

/-- Gives the ticket back and forgets the intent. -/
def release (world : World) : Option World :=
  match world.self.intent with
  | none => none
  | some intent =>
    let forgotten := { world.self with
      captured := none
      intent := none
      publication := .notSent
      lastError := none
      retry := none }
    match intent.ticket with
    | none => some (world.holding forgotten)
    | some ticket =>
      (world.self.input.release ticket).map fun input =>
        { world with self := { forgotten with input }, released := world.released ++ [ticket] }

def fail (world : World) (error : Error) : World × Outcome :=
  (world.holding { world.self with
    lastError := some error
    state := if world.self.publication = .notSent then .notStarted else .unconfirmed },
    .ended (.failed error))

/-- What the joined worker's result does. -/
def apply (world : World) (result : Except Error Unit) : Option (World × Outcome) :=
  match result, world.self.reply, world.self.intent with
  | .error error, _, _ => some (world.fail error)
  | .ok _, some (.undecodable error), _ => some (world.fail error)
  | .ok _, some (.accepted admission), some intent =>
    let confirmed := decide (world.self.state = .unconfirmed)
    let accepted := world.holding { world.self with
      lastError := none
      accepted := some (intent.kind, world.self.key) }
    accepted.release.map fun next =>
      (next, .ended (.accepted intent.kind confirmed admission intent.denies))
  | .ok _, some (.rejected code), some intent =>
    some (world.holding { world.self with lastError := none, state := .rejected },
      .ended (.rejected intent.kind code))
  | .ok _, some .conflict, some intent =>
    some (world.holding { world.self with lastError := none, state := .rejected },
      .ended (.rejected intent.kind (text "request conflict")))
  | .ok _, _, _ => none

/-- A join waits for the worker's end. -/
def join (world : World) : Option (World × Outcome) :=
  match world.self.worker with
  | none => some (world, .ended .absent)
  | some (.done result) => (world.holding { world.self with worker := none }).apply result
  | some _ => none

def advance (world : World) (starts : Bool) : Option (World × Outcome) :=
  match world.self.worker, world.self.retry with
  | some (.done _), _ => world.join
  | none, some requested =>
    let consumed := world.holding { world.self with retry := none }
    if consumed.canRetry requested then
      if starts then
        some (consumed.holding { consumed.self with
          worker := some .resend
          cancelled := false }, .ended .absent)
      else some (consumed, .error .launchFailed)
    else some (consumed, .ended .absent)
  | _, _ => some (world, .ended .absent)

def discardRejected (world : World) : Option (World × Outcome) :=
  if world.self.intent = none then some (world, .none)
  else if world.self.worker.isSome ∨ world.self.state ≠ .rejected then
    some (world, .error .submissionUnresolved)
  else world.release.map fun next => (next, .none)

/-! ## Steps -/

inductive Action
  | sealText (text : List UInt8)
  | start (intent : Intent) (reserved : Option Key) (starts : Bool)
  | requestRecovery (key : Option Key)
  | advance (starts : Bool)
  | cancel
  | join
  | discardRejected
  | close
  | work (luck : Luck)
  deriving DecidableEq, Repr

/-- One step, where the source allows it: an assertion that fails has none. -/
def take (world : World) : Action → Option (World × Outcome)
  | .sealText text => (world.self.input.sealText text).map fun input =>
    (world.holding { world.self with input }, .none)
  | .start intent reserved starts => world.start context intent reserved starts
  | .requestRecovery key => some (world.requestRecovery key)
  | .advance starts => world.advance starts
  | .cancel => some (world.holding { world.self with
    cancelled := world.self.cancelled || world.self.worker.isSome }, .none)
  | .join => world.join
  | .discardRejected => world.discardRejected
  | .close => if world.self.worker.isSome then none
    else some (world.holding { world.self with captured := none }, .none)
  | .work luck => (world.work context luck).map fun next => (next, .none)

/-- What a step is labelled with: what was done, and what it answered. -/
abbrev Label := Action × Outcome

def Next (now : World) (label : Label) (next : World) : Prop :=
  now.take context label.1 = some (next, label.2)

end World

end Rui.SessionSubmission
