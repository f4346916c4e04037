import Rui.Library.Runs

/-!
# The lifecycle of a Bash Attempt

The value transitions of one launched command (`BashLifecycle.zig`): process
phases, pipe ends, the stop reason and the signals that the owner then sends.
An operation whose assertion does not hold has no result.
-/

namespace Rui.Bash

/-- Nanoseconds of the awake clock. -/
abbrev Timestamp := Int

/-- `deadline.after`. -/
def after (now : Timestamp) (milliseconds : Nat) : Timestamp := now + milliseconds * 1000000

/-- `deadline.reached`. -/
def reached (now deadline : Timestamp) : Bool := deadline ≤ now

def terminationGraceMs : Nat := 100

def cleanupObservationMs : Nat := 5000

inductive Term
  | exited (code : UInt8)
  | signal (number : UInt8)
  | unknown (status : UInt32)
  deriving DecidableEq, Repr

inductive StopReason | none | stopped | timedOut | infrastructureShutdown | captureFailed
  deriving DecidableEq, Repr

inductive CaptureFailure | none | read | write | exhausted | seal
  deriving DecidableEq, Repr

inductive PipeClose | eof | incomplete | failed
  deriving DecidableEq, Repr

/-- Saved meaning of a retired execution. -/
inductive Resolution
  | succeeded | failed | cancelled | timedOut | infrastructureShutdown | storageFailed
  deriving DecidableEq, Repr

/-- Signals the owner sends after a transition. -/
inductive Signal | terminateGroup | killGroup | killGroupAndLeader
  deriving DecidableEq, Repr

inductive SignalResult | delivered | failed | groupPermissionDenied
  deriving DecidableEq, Repr

inductive Process
  | running (deadline : Timestamp) (observed : Option Term)
  | grace (killAt cleanupDeadline : Timestamp) (observed : Option Term)
  | reaping (cleanupDeadline : Timestamp) (observed : Option Term)
  | checkingGroup (term : Term) (cleanupDeadline : Timestamp)
  | gone (term : Term)
  deriving DecidableEq, Repr

/-- A tail is finite, snapshotted at capture cutoff: the bytes still owed. -/
inductive Pipe
  | reading
  | tail (owed : Nat)
  | closed (reason : PipeClose)
  deriving DecidableEq, Repr

inductive Stream | stdout | stderr
  deriving DecidableEq, Repr

/-- One bounded read that the owner reports. -/
inductive PipeRead
  | empty
  | bytes (count : Nat)
  | eof
  | failed (failure : CaptureFailure)
  deriving DecidableEq, Repr

structure Expiry where
  deadline : Timestamp
  signal : Signal
  deriving DecidableEq, Repr

/-- Which pipes need a snapshot of their queued bytes, and whether the cleanup
watchdog expired before the group was absent. -/
structure Cutoff where
  snapshot : List Stream
  unconfirmed : Bool
  deriving DecidableEq, Repr

structure Lifecycle where
  process : Process
  pipes : Stream → Pipe := fun _ => .reading
  stopReason : StopReason := .none
  captureFailure : CaptureFailure := .none
  signalFailure : Bool := false
  groupPermissionDenied : Bool := false

namespace Lifecycle

def start (started : Timestamp) (timeoutMs : Nat) : Lifecycle where
  process := .running (after started timeoutMs) none

/-- Enters grace from running, and says what to signal then. -/
def beginGrace (self : Lifecycle) (now : Timestamp) : Lifecycle × Option Signal :=
  match self.process with
  | .running _ observed =>
    ({ self with
      process := .grace (after now terminationGraceMs) (after now cleanupObservationMs) observed },
      some .terminateGroup)
  | _ => (self, none)

/-- The first reason stands. -/
def stopFor (self : Lifecycle) (reason : StopReason) : Lifecycle :=
  { self with stopReason := if self.stopReason = .none then reason else self.stopReason }

def requestTermination (self : Lifecycle) (reason : StopReason) (now : Timestamp) :
    Option (Lifecycle × Option Signal) :=
  if reason = .none then none else some ((self.stopFor reason).beginGrace now)

/-- Starts termination when the total budget elapsed by `now`. -/
def expireDeadline (self : Lifecycle) (now : Timestamp) : Option (Lifecycle × Option Expiry) :=
  match self.process with
  | .running deadline _ =>
    if !reached now deadline then some (self, none)
    else
      match (self.stopFor .timedOut).beginGrace now with
      | (next, some signal) => some (next, some ⟨deadline, signal⟩)
      | (_, none) => none
  | _ => some (self, none)

/-- The direct child's terminal status is still unobserved. -/
def awaitsLeader (self : Lifecycle) : Bool :=
  match self.process with
  | .running _ observed => observed.isNone
  | .grace _ _ observed => observed.isNone
  | _ => false

/-- Records a child observation. Natural exit still retires the group. -/
def observeLeader (self : Lifecycle) (term : Term) (now : Timestamp) :
    Option (Lifecycle × Option Signal) :=
  if !self.awaitsLeader then none
  else
    match self.process with
    | .running deadline _ =>
      some ({ self with process := .running deadline (some term) }.beginGrace now)
    | .grace killAt cleanupDeadline _ =>
      some ({ self with process := .grace killAt cleanupDeadline (some term) }.beginGrace now)
    | _ => none

def expireGrace (self : Lifecycle) (now : Timestamp) : Lifecycle × Option Signal :=
  match self.process with
  | .grace killAt cleanupDeadline observed =>
    if !reached now killAt then (self, none)
    else
      ({ self with process := .reaping cleanupDeadline observed },
        some (if observed.isNone then .killGroupAndLeader else .killGroup))
  | _ => (self, none)

def signalFailed (self : Lifecycle) : Bool := self.signalFailure || self.groupPermissionDenied

def recordSignal (self : Lifecycle) : SignalResult → Lifecycle
  | .delivered => self
  | .failed => { self with signalFailure := true }
  | .groupPermissionDenied => { self with groupPermissionDenied := true }

inductive ReapError | bashCleanupUnconfirmed | bashStatusChanged
  deriving DecidableEq, Repr

/-- The reap found no exited child. -/
def reapPending (self : Lifecycle) (now : Timestamp) : Option (Except ReapError Unit) :=
  match self.process with
  | .reaping cleanupDeadline _ =>
    some (if reached now cleanupDeadline then .error .bashCleanupUnconfirmed else .ok ())
  | _ => none

/-- Consumes the direct child's status. An earlier observation stays the
recorded one; a disagreement is reported. -/
def reaped (self : Lifecycle) (term : Term) : Option (Lifecycle × Except ReapError Unit) :=
  match self.process with
  | .reaping cleanupDeadline observed =>
    some ({ self with process := .checkingGroup (observed.getD term) cleanupDeadline },
      if observed.any (· ≠ term) then .error .bashStatusChanged else .ok ())
  | _ => none

def groupAbsent (self : Lifecycle) : Option Lifecycle :=
  match self.process with
  | .checkingGroup term _ => some { self with process := .gone term }
  | _ => none

/-- Whether the cleanup watchdog expired, in a phase that it watches. -/
def watchdogExpired (self : Lifecycle) (now : Timestamp) : Bool :=
  match self.process with
  | .grace _ cleanupDeadline _ => reached now cleanupDeadline
  | .reaping cleanupDeadline _ => reached now cleanupDeadline
  | .checkingGroup _ cleanupDeadline => reached now cleanupDeadline
  | .running _ _ | .gone _ => false

/-- Capture cutoff: every pipe still reading then drains one finite tail. -/
def cutoff (self : Lifecycle) (now : Timestamp) : Option Cutoff :=
  let expired := self.watchdogExpired now
  let isGone := match self.process with
    | .gone _ => true
    | _ => false
  if !isGone && !expired then none
  else some ⟨[Stream.stdout, .stderr].filter fun stream => self.pipes stream = .reading, expired⟩

def setPipe (self : Lifecycle) (stream : Stream) (pipe : Pipe) : Lifecycle :=
  { self with pipes := fun other => if other = stream then pipe else self.pipes other }

/-- Starts a finite tail of `queued` bytes, or ends capture when the queued
size cannot be observed. -/
def beginTail (self : Lifecycle) (stream : Stream) (queued : Option Nat) : Option Lifecycle :=
  if self.pipes stream ≠ .reading then none
  else
    match queued with
    | some bytes => some (self.setPipe stream (.tail bytes))
    | none => some { self.setPipe stream (.closed .failed) with captureFailure := .read }

def failPipe (self : Lifecycle) (stream : Stream) (failure : CaptureFailure) : Option Lifecycle :=
  if failure = .none then none
  else some { self.setPipe stream (.closed .failed) with captureFailure := failure }

/-- Applies one read. -/
def observePipe (self : Lifecycle) (stream : Stream) (read : PipeRead) (now : Timestamp) :
    Option (Lifecycle × Option Signal) :=
  match self.pipes stream, read with
  | .closed _, _ => none
  | .reading, .empty => some (self, none)
  | .reading, .bytes _ => some (self, none)
  | .reading, .eof => some (self.setPipe stream (.closed .eof), none)
  | .reading, .failed failure =>
    (self.failPipe stream failure).bind fun next => next.requestTermination .captureFailed now
  | .tail owed, .empty =>
    some (if owed = 0 then self.setPipe stream (.closed .incomplete) else self, none)
  | .tail owed, .bytes count =>
    if owed = 0 then some (self.setPipe stream (.closed .incomplete), none)
    else if count ≠ 0 ∧ count ≤ owed then some (self.setPipe stream (.tail (owed - count)), none)
    else none
  | .tail owed, .eof =>
    if owed = 0 then some (self.setPipe stream (.closed .eof), none)
    -- Writers cannot close before delivering bytes already queued.
    else (self.failPipe stream .read).map fun next => (next, none)
  | .tail _, .failed failure => (self.failPipe stream failure).map fun next => (next, none)

/-- Sealing failure is discovered after retirement. -/
def recordSealFailure (self : Lifecycle) : Lifecycle := { self with captureFailure := .seal }

def isClosed : Pipe → Bool
  | .closed _ => true
  | _ => false

def pipesClosed (self : Lifecycle) : Bool :=
  isClosed (self.pipes .stdout) && isClosed (self.pipes .stderr)

def retired (self : Lifecycle) : Bool :=
  match self.process with
  | .gone _ => self.pipesClosed
  | _ => false

/-- What a retired command came to. -/
def resolution (self : Lifecycle) : Option Resolution :=
  if !self.retired then none
  else
    match self.stopReason with
    | .stopped => some .cancelled
    | .timedOut => some .timedOut
    | .infrastructureShutdown => some .infrastructureShutdown
    | .captureFailed => some .storageFailed
    | .none =>
      if self.captureFailure ≠ .none then some .storageFailed
      else
        match self.process with
        | .gone (.exited code) => some (if code = 0 then .succeeded else .failed)
        | .gone _ => some .failed
        | _ => none

end Lifecycle

/-! ## Operations -/

inductive Op
  | requestTermination (reason : StopReason) (now : Timestamp)
  | expireDeadline (now : Timestamp)
  | observeLeader (term : Term) (now : Timestamp)
  | expireGrace (now : Timestamp)
  | recordSignal (result : SignalResult)
  | reapPending (now : Timestamp)
  | reaped (term : Term)
  | groupAbsent
  | cutoff (now : Timestamp)
  | beginTail (stream : Stream) (queued : Option Nat)
  | observePipe (stream : Stream) (read : PipeRead) (now : Timestamp)
  | recordSealFailure
  deriving DecidableEq

/-- What an operation answers. -/
inductive Reply
  | nothing
  | signal (signal : Option Signal)
  | expiry (expiry : Option Expiry)
  | reap (result : Except Lifecycle.ReapError Unit)
  | cutoff (cutoff : Option Cutoff)

namespace Lifecycle

/-- One operation, where its assertions allow it. -/
def apply (self : Lifecycle) : Op → Option (Lifecycle × Reply)
  | .requestTermination reason now =>
    (self.requestTermination reason now).map fun (next, signal) => (next, .signal signal)
  | .expireDeadline now =>
    (self.expireDeadline now).map fun (next, expiry) => (next, .expiry expiry)
  | .observeLeader term now =>
    (self.observeLeader term now).map fun (next, signal) => (next, .signal signal)
  | .expireGrace now => some ((self.expireGrace now).1, .signal (self.expireGrace now).2)
  | .recordSignal result => some (self.recordSignal result, .nothing)
  | .reapPending now => (self.reapPending now).map fun result => (self, .reap result)
  | .reaped term => (self.reaped term).map fun (next, result) => (next, .reap result)
  | .groupAbsent => self.groupAbsent.map fun next => (next, .nothing)
  | .cutoff now => some (self, .cutoff (self.cutoff now))
  | .beginTail stream queued => (self.beginTail stream queued).map fun next => (next, .nothing)
  | .observePipe stream read now =>
    (self.observePipe stream read now).map fun (next, signal) => (next, .signal signal)
  | .recordSealFailure => some (self.recordSealFailure, .nothing)

end Lifecycle

end Rui.Bash
