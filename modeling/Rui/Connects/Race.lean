import Rui.Library.Chronicle

/-!
# Racing a connection's addresses

The connecting phase of `h2/Connection.zig`, from `open` to `close`: the attempts, the two sockets
they hold and when the next one is due, as `nextAttempt` of `h2/policy.zig` decides.
-/

namespace Rui.Connects

open Library

/-- The causes of a failed setup; those only the phases after connecting report are `later`. -/
inductive Cause
  | resolveFailed
  | connectFailed
  | connectTimeout
  | localFailure
  | later
  deriving DecidableEq, Repr

inductive State
  | free
  | resolving
  | connecting
  | tunneling
  | handshaking
  | verifying
  | awaitingSettings
  | ready
  | draining
  deriving DecidableEq, Repr

/-- What became of the addresses and the sockets; a socket goes by how many came before it, as the
kernel gives no descriptor twice while it is open. -/
inductive Event (α : Type)
  /-- `attempt` took the next address. -/
  | started (address : α) (time : Nat)
  | opened (socket : Nat)
  /-- The kernel answered an attempt with a failure. -/
  | refused (socket : Nat)
  /-- The kernel answered an attempt with its connection. -/
  | connected (socket : Nat)
  | closed (socket : Nat)
  /-- `setupFailed` was called. -/
  | failed (cause : Cause)
  /-- `close` was called of an entry in use. -/
  | ended
  deriving DecidableEq, Repr

variable {α : Type}

def Event.gives : Event α → Option Nat
  | .opened socket => some socket
  | _ => none

def Event.takes : Event α → Option Nat
  | .closed socket => some socket
  | _ => none

/-- The origin a connection is for. -/
structure Origin where
  http : Bool
  tunneled : Bool

/-- One connection's setup, with what it did so far, newest first. -/
structure Connection (α : Type) where
  origin : Origin
  state : State := .free
  /-- While connecting, the newest attempt. -/
  socket : Option Nat := none
  /-- While connecting, the attempt before it, still in flight. -/
  earlier : Option Nat := none
  /-- When the next address's attempt is due; 0 when no address is left. -/
  nextAttemptNs : Nat := 0
  setupDeadlineNs : Nat := 0
  /-- The addresses from `address_index` on. -/
  untried : List α := []
  usesLookup : Bool := false
  /-- Sockets the kernel gave it. -/
  sockets : Nat := 0
  log : List (Event α) := []

/-- The clock is 64 bits wide. -/
def maxTime : Nat := 2 ^ 64 - 1

/-- `+|`. -/
def saturating (time delay : Nat) : Nat := min (time + delay) maxTime

/-- `max_attempts`. -/
def maxAttempts : Nat := 2

/-- `attempt_delay_ns`. -/
def attemptDelayNs : Nat := 250000000

structure AttemptFacts where
  inFlight : Nat
  moreAddresses : Bool
  failed : Bool
  delayPassed : Bool

inductive NextAttempt
  | wait
  | start
  | replaceOldest
  | fail
  deriving DecidableEq, Repr

/-- `nextAttempt`; `none` where its assertion fails. -/
def nextAttempt (facts : AttemptFacts) : Option NextAttempt :=
  if facts.inFlight > maxAttempts then none
  else if facts.moreAddresses = false then
    some (if facts.inFlight = 0 then .fail else .wait)
  else if facts.inFlight = 0 ∨ facts.failed = true then some .start
  else if facts.delayPassed = false then some .wait
  else some (if facts.inFlight < maxAttempts then .start else .replaceOldest)

/-- What the kernel answers to `socket`, then to `configureSocket`, then to `connect`, once that is
not interrupted. -/
inductive Kernel
  | noSocket
  | unconfigured
  | connected
  | inProgress
  | refused
  deriving DecidableEq, Repr

inductive Attempted
  | connected
  | inFlight
  | refused
  | localFailure
  deriving DecidableEq, Repr

namespace Connection

variable (self : Connection α)

def settingUp : Bool :=
  match self.state with
  | .resolving | .connecting | .tunneling | .handshaking | .verifying | .awaitingSettings => true
  | .free | .ready | .draining => false

def note (event : Event α) : Connection α := { self with log := event :: self.log }

def closeSocket (socket : Nat) : Connection α := self.note (.closed socket)

def dropEarlier : Connection α :=
  match self.earlier with
  | some socket => { self.closeSocket socket with earlier := none }
  | none => self

def dropNewest : Connection α :=
  match self.socket with
  | some socket => { self.closeSocket socket with socket := self.earlier, earlier := none }
  | none => { self with socket := self.earlier, earlier := none }

/-- What `close` does to the sockets and the addresses: the entry is free again. -/
def close : Connection α :=
  let closed := match self.socket with
    | some socket => self.closeSocket socket
    | none => self
  let dropped := closed.dropEarlier
  { origin := self.origin, sockets := dropped.sockets, log := dropped.log }

/-- What `setupFailed` does to the connection itself. -/
def setupFailed (cause : Cause) : Connection α := (self.note (.failed cause)).close

/-- `connected`, with the state that `startSession`, `startTunnel` or `startTls` goes on in. -/
def connected : Connection α :=
  { self.dropEarlier with
    nextAttemptNs := 0
    usesLookup := false
    state := if self.origin.http then .awaitingSettings
      else if self.origin.tunneled then .tunneling
      else .handshaking }

/-- `attempt` takes the next address, and says when the one after it is due. -/
def take (address : α) (rest : List α) (time : Nat) : Connection α :=
  { self.note (.started address time) with
    untried := rest
    nextAttemptNs := if rest.isEmpty then 0 else saturating time attemptDelayNs }

/-- Its socket becomes the newest, the one before it the earlier one. -/
def hold : Connection α :=
  { self.note (.opened self.sockets) with
    earlier := self.socket
    socket := some self.sockets
    sockets := self.sockets + 1 }

/-- `attempt`, with the next address and those after it. `none` where its assertion fails. -/
def attempt (address : α) (rest : List α) (time : Nat) (kernel : Kernel) :
    Option (Attempted × Connection α) :=
  if self.earlier.isSome then none
  else
    let taken := self.take address rest time
    match kernel with
    | .noSocket => some (.localFailure, taken)
    | .unconfigured => some (.localFailure, taken.hold)
    | .connected => some (.connected, taken.hold.note (.connected taken.sockets))
    | .inProgress => some (.inFlight, taken.hold)
    | .refused => some (.refused, (taken.hold.note (.refused taken.sockets)).dropNewest)

/-- What `advanceAttempts` does next. -/
def decided (untried : List α) (failed : Bool) (time : Nat) : Option NextAttempt :=
  nextAttempt {
    inFlight := self.socket.toList.length + self.earlier.toList.length
    moreAddresses := !untried.isEmpty
    failed
    delayPassed := decide (self.nextAttemptNs ≠ 0 ∧ self.nextAttemptNs ≤ time) }

/-- With two attempts in flight the oldest gives way. -/
def withRoom (step : NextAttempt) : Connection α :=
  if step = .replaceOldest then self.dropEarlier else self

/-- What follows an attempt; after a refusal the loop goes on. -/
def settle (again : Connection α → Option (Connection α)) (result : Attempted) :
    Option (Connection α) :=
  match result with
  | .connected => some self.connected
  | .inFlight => some self
  | .refused => again self
  | .localFailure => some (self.setupFailed .localFailure)

/-- The loop of `advanceAttempts`, over the addresses left. What the kernel answers to an attempt
goes by how many addresses come after its own. -/
def attempts (kernel : Nat → Kernel) (time : Nat) :
    List α → Bool → Connection α → Option (Connection α)
  | untried, failed, self =>
    match self.decided untried failed time, untried with
    | none, _ => none
    | some .wait, _ => some self
    | some .fail, _ => some (self.setupFailed .connectFailed)
    | some _, [] => none
    | some step, address :: rest =>
      ((self.withRoom step).attempt address rest time (kernel rest.length)).bind fun outcome =>
        outcome.2.settle (attempts kernel time rest true) outcome.1

def advanceAttempts (kernel : Nat → Kernel) (failed : Bool) (time : Nat) :
    Option (Connection α) :=
  attempts kernel time self.untried failed { self with state := .connecting }

/-- What `poll` and `getsockopt` say of a socket while connecting: nothing yet, or its answer. -/
inductive Polled
  | pending
  | succeeded
  | failed
  deriving DecidableEq, Repr

/-- `advanceConnect`'s look at the earlier attempt, which takes the newest's place if it won. -/
def answerEarlier (polled : Polled) : Polled × Connection α :=
  match self.earlier, polled with
  | some socket, .succeeded => (.succeeded,
      { self.note (.connected socket) with socket := some socket, earlier := self.socket })
  | some socket, .failed => (.failed, (self.note (.refused socket)).dropEarlier)
  | _, _ => (.pending, self)

/-- Its look at the newest attempt. -/
def answerNewest (polled : Polled) : Polled × Connection α :=
  match self.socket, polled with
  | some socket, .succeeded => (.succeeded, self.note (.connected socket))
  | some socket, .failed => (.failed, (self.note (.refused socket)).dropNewest)
  | _, _ => (.pending, self)

def advanceConnect (time : Nat) (earlier newest : Polled) (kernel : Nat → Kernel) :
    Option (Connection α) :=
  let (first, next) := self.answerEarlier earlier
  if first = .succeeded then some next.connected
  else
    let (second, last) := next.answerNewest newest
    if second = .succeeded then some last.connected
    else last.advanceAttempts kernel (decide (first = .failed ∨ second = .failed)) time

/-- `setupDeadline`: the setup deadline, or the next attempt's if that comes first. -/
def setupDeadline : Nat :=
  if self.nextAttemptNs = 0 then self.setupDeadlineNs
  else min self.nextAttemptNs self.setupDeadlineNs

end Connection

/-- What happens to a connection between two looks at it. -/
inductive Happening
  /-- `open` of a free entry, for an address literal or else a name, whose lookup may not start.
  The clock is read for the setup's deadline and again for the first attempt. -/
  | opens (literal started : Bool) (now : Nat) (connectTimeout : Nat) (later : Nat)
    (kernel : Nat → Kernel)
  /-- Its turn in `advanceSetups`, which read the clock as `time`; `finishLookup` reads it again. -/
  | turn (time : Nat) (resolved : Bool) (now : Nat) (earlier newest : Connection.Polled)
    (kernel : Nat → Kernel)
  /-- A phase after connecting goes on in another one. -/
  | proceeds (state : State)
  /-- A phase after connecting fails the setup. -/
  | fails (cause : Cause)
  /-- `close`: the connection is lost or idle, or the client ends. -/
  | closes

namespace Connection

/-- Whether the connecting phase is over, the connection not yet closed. -/
def past (state : State) : Bool :=
  match state with
  | .free | .resolving | .connecting => false
  | _ => true

variable (addresses : List α) (self : Connection α)

/-- `open`; `addresses` are the literal, or what the lookup will find. -/
def opens (literal started : Bool) (now connectTimeout later : Nat) (kernel : Nat → Kernel) :
    Option (Connection α) :=
  let setup := { self with setupDeadlineNs := saturating now connectTimeout }
  if literal then { setup with untried := addresses }.advanceAttempts kernel false later
  else if started then some { setup with state := .resolving, usesLookup := true }
  else some ({ setup with state := .resolving }.setupFailed .localFailure)

def finishLookup (resolved : Bool) (now : Nat) (kernel : Nat → Kernel) : Option (Connection α) :=
  if resolved = false then some self
  else if addresses.isEmpty then some (self.setupFailed .resolveFailed)
  else { self with untried := addresses }.advanceAttempts kernel false now

/-- What `advanceSetups` calls for a connection's state, as far as its sockets and addresses go. -/
def advance (time : Nat) (resolved : Bool) (now : Nat) (earlier newest : Polled)
    (kernel : Nat → Kernel) : Option (Connection α) :=
  match self.state with
  | .resolving => self.finishLookup addresses resolved now kernel
  | .connecting => self.advanceConnect time earlier newest kernel
  | _ => some self

/-- A setup past its deadline fails. -/
def timedOut (time : Nat) : Connection α :=
  if self.settingUp && decide (self.setupDeadlineNs ≤ time) then self.setupFailed .connectTimeout
  else self

/-- A connection's turn in `advanceSetups`. -/
def advanceSetup (time : Nat) (resolved : Bool) (now : Nat) (earlier newest : Polled)
    (kernel : Nat → Kernel) : Option (Connection α) :=
  (self.advance addresses time resolved now earlier newest kernel).map fun next =>
    next.timedOut time

def happens : Happening → Option (Connection α)
  | .opens literal started now connectTimeout later kernel =>
    if self.state = .free ∧ self.log = [] then
      self.opens addresses literal started now connectTimeout later kernel
    else some self
  | .turn time resolved now earlier newest kernel =>
    self.advanceSetup addresses time resolved now earlier newest kernel
  | .proceeds state =>
    some (if past self.state && past state then { self with state } else self)
  | .fails cause => some (if past self.state then self.setupFailed cause else self)
  | .closes => some (if self.state = .free then self else (self.note .ended).close)

end Connection

/-- A connection after everything that happened to it, newest first; `none` where an assertion
failed or a missing address was used. -/
def lived (addresses : List α) (origin : Origin) : List Happening → Option (Connection α)
  | [] => some { origin }
  | happening :: before =>
    (lived addresses origin before).bind fun self => self.happens addresses happening

end Rui.Connects
