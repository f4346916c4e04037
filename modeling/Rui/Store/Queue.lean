import Mathlib

/-!
# Who holds the Store

Threads call `run`, `write` and `callHeld`. One holds the Store and runs its
body on its own thread; the others queue and sleep. The holder runs queued
writes itself, in batches, and hands the Store to the first request that is
not a write. `Next` is one step of one thread: a section under the queue's
mutex, a body, the start or finish of a batch, or the setting of one event.
-/

namespace Rui.Store

/-! ## Answers -/

inductive Failure (ε : Type)
  | storeFenced
  | other (failure : ε)
  deriving DecidableEq, Repr

inductive Reply (ρ : Type)
  | infrastructureFailure
  | other (reply : ρ)
  deriving DecidableEq, Repr

/-- What a body answers: an error union, or a reply with its own failure. -/
inductive Answer (α ε ρ : Type)
  | value (value : α)
  | error (failure : Failure ε)
  | reply (reply : Reply ρ)
  deriving DecidableEq, Repr

/-- What a write whose batch failed to commit answers. A write that already failed keeps its own
error, which says more. -/
def lostAnswer {α ε ρ : Type} : Answer α ε ρ → Answer α ε ρ
  | .value _ => .error .storeFenced
  | .error failure => .error failure
  | .reply _ => .reply .infrastructureFailure

/-- How a caller asks for the Store. -/
inductive Entry
  | run
  | write
  | callHeld
  deriving DecidableEq, Repr

/-! ## The queue and its threads -/

/-- One waiting caller's request, on its stack until `done`. A thread has one at a time, so the
thread names it. -/
structure Job (T α ε ρ : Type) where
  next : Option T := none
  done : Bool := false
  /-- Runs on its own caller's thread: only a write lets the holder run it. -/
  own : Bool
  /-- Set by a holder that handed over the Store instead of running the body. -/
  handed : Bool := false
  /-- Set by a holder whose batch failed to commit. -/
  lost : Bool := false
  answer : Option (Answer α ε ρ) := none

/-- The request of an entry point. -/
def Job.init {T α ε ρ : Type} (entry : Entry) : Job T α ε ρ := { own := entry != .write }

/-- What `drain` keeps: its argument, its variables, and what its caller answers afterwards, unless
it answered before (`release`). -/
structure Drain (T α ε ρ : Type) where
  isOpen : Bool
  batching : Bool
  first : Bool := true
  committed : Bool := true
  ran : Nat := 0
  /-- The batch's writers, answered once it commits. -/
  batched : Option T := none
  answer : Option (Answer α ε ρ)

/-- `drain(open)`, before an answer. -/
def Drain.init {T α ε ρ : Type} (isOpen : Bool) (answer : Option (Answer α ε ρ)) :
    Drain T α ε ρ :=
  { isOpen, batching := isOpen, answer }

/-- What the caller of `drain` answers: `release` tells nothing of the batch. -/
def Drain.answered {T α ε ρ : Type} (d : Drain T α ε ρ) : Option (Answer α ε ρ) :=
  if d.isOpen && !d.committed then d.answer.map lostAnswer else d.answer

/-- Where a thread is. -/
inductive Pc (T α ε ρ : Type)
  /-- Outside the queue, without the Store. -/
  | idle
  /-- Asleep until its request is done. -/
  | waiting (entry : Entry)
  /-- The Store is its own; its id is not stored yet. -/
  | taken (entry : Entry)
  /-- `take` returned. -/
  | holding (entry : Entry)
  /-- A write that started its batch. -/
  | started
  /-- In `drain`, before it locks. -/
  | drain (d : Drain T α ε ρ)
  /-- In `drain`, with a queued write off the queue. -/
  | popped (job : T) (d : Drain T α ε ρ)
  /-- In `drain`, with a batch to finish. -/
  | finishing (d : Drain T α ε ρ)
  /-- In `answerBatch`, from this job on. -/
  | answering (at_ : Option T) (committed : Bool) (d : Drain T α ε ρ)
  /-- In `drain`, with the next holder off the queue. -/
  | handing (job : T) (d : Drain T α ε ρ)
  /-- Returns to its caller, who keeps the Store or does not. -/
  | returning (answer : Answer α ε ρ) (keeps : Bool)
  /-- Outside the queue, with the Store, until `release`. -/
  | held

/-- The queue, what its threads have on their stacks, and what the Store sees of it: whether a
batch is open, how many requests arrived and how many bodies ran. -/
structure Queue (T α ε ρ : Type) where
  held : Bool
  head : Option T := none
  tail : Option T := none
  owner : Option T := none
  jobs : T → Job T α ε ρ
  pc : T → Pc T α ε ρ
  batchOpen : Bool := false
  arrivals : Nat := 0
  bodies : Nat := 0
  ticket : T → Nat

/-- Bodies one holder runs for others before it hands the Store to the next waiter. -/
def drainLimit : Nat := 64

namespace Queue

variable {T α ε ρ : Type} [DecidableEq T]

/-- The opening thread holds the Store until `opened`, which is its `release`. -/
def init (opener : T) : Queue T α ε ρ where
  held := true
  owner := some opener
  jobs _ := Job.init .run
  pc := Function.update (fun _ => .idle) opener .held
  ticket _ := 0

def setPc (self : Queue T α ε ρ) (thread : T) (pc : Pc T α ε ρ) : Queue T α ε ρ :=
  { self with pc := Function.update self.pc thread pc }

def setJob (self : Queue T α ε ρ) (thread : T) (job : Job T α ε ρ) : Queue T α ε ρ :=
  { self with jobs := Function.update self.jobs thread job }

/-- The request goes behind the last one. -/
def push (self : Queue T α ε ρ) (job : T) : Queue T α ε ρ :=
  match self.tail with
  | some last =>
    { self.setJob last { self.jobs last with next := some job } with tail := some job }
  | none => { self with head := some job, tail := some job }

def pop (self : Queue T α ε ρ) (job : T) : Queue T α ε ρ :=
  { self with
    head := (self.jobs job).next
    tail := if (self.jobs job).next = none then none else self.tail }

/-- A caller makes its request and takes its place among those that arrived. -/
def arrive (self : Queue T α ε ρ) (thread : T) (entry : Entry) : Queue T α ε ρ :=
  { self.setJob thread (.init entry) with
    arrivals := self.arrivals + 1
    ticket := Function.update self.ticket thread self.arrivals }

/-- The section of `take`: the Store is free, or the request is queued. -/
def take (self : Queue T α ε ρ) (thread : T) (entry : Entry) : Queue T α ε ρ :=
  if self.held then (self.push thread).setPc thread (.waiting entry)
  else { self with held := true }.setPc thread (.taken entry)

/-- What the section of `drain` decides. -/
inductive Turn (T : Type)
  | pop (job : T)
  | finish
  | letGo
  | handOver (job : T)
  deriving DecidableEq, Repr

def turn (self : Queue T α ε ρ) (d : Drain T α ε ρ) : Turn T :=
  match self.head with
  | some job =>
    if !(self.jobs job).own && d.ran < drainLimit then .pop job
    else if d.batching then .finish
    else .handOver job
  | none => if d.batching then .finish else .letGo

/-- Where a thread is when its `drain` returns. -/
def leave (d : Drain T α ε ρ) : Pc T α ε ρ :=
  match d.answered with
  | some answer => .returning answer false
  | none => .idle

/-- A body was run, and its answer kept with its request. -/
def answerJob (self : Queue T α ε ρ) (job : T) (answer : Answer α ε ρ) (batched : Option T) :
    Queue T α ε ρ :=
  { self.setJob job { self.jobs job with answer := some answer, next := batched } with
    bodies := self.bodies + 1 }

end Queue

/-- What one step does that a thread, a caller or the Store can see. -/
inductive Label (T α ε ρ : Type)
  | arrive (thread : T) (ticket : Nat)
  | start (thread : T)
  /-- A thread runs the body of a request. -/
  | body (thread job : T) (ticket : Nat) (answer : Answer α ε ρ)
  | finish (thread : T) (committed : Bool)
  /-- A batched write's event is set. -/
  | answer (thread job : T) (ticket : Nat)
  | handOver (thread job : T)
  | letGo (thread : T)
  /-- A request is answered to its caller. -/
  | returns (thread : T) (ticket : Nat) (own : Bool) (answer : Answer α ε ρ)
  | internal (thread : T)

open Queue

variable {T α ε ρ : Type} [DecidableEq T]

/-- A body that lets `callHeld` keep the Store. -/
def Answer.succeeded : Answer α ε ρ → Bool
  | .error _ => false
  | _ => true

/-- One step of one thread. The conditions on `owner` are the source's assertions. -/
inductive Next (self : Queue T α ε ρ) : Label T α ε ρ → Queue T α ε ρ → Prop
  /-- A caller arrives at `take`. A body that called an entry point would wait on itself. -/
  | arrive {thread : T} (entry : Entry) (pc : self.pc thread = .idle)
    (notOwned : self.owner ≠ some thread) :
    Next self (.arrive thread self.arrivals) ((self.arrive thread entry).take thread entry)
  /-- The event of a write is set, and a holder ran its body. -/
  | wake {thread : T} {answer : Answer α ε ρ}
    (pc : self.pc thread = .waiting .write) (done : (self.jobs thread).done = true)
    (handed : (self.jobs thread).handed = false)
    (answered : (self.jobs thread).answer = some answer) :
    Next self (.internal thread) (self.setPc thread
      (.returning (if (self.jobs thread).lost then lostAnswer answer else answer) false))
  /-- The event of a request is set, and the Store was handed over. -/
  | wakeHanded {thread : T} {entry : Entry} (pc : self.pc thread = .waiting entry)
    (done : (self.jobs thread).done = true) (handed : (self.jobs thread).handed = true) :
    Next self (.internal thread) (self.setPc thread (.taken entry))
  | own {thread : T} {entry : Entry} (pc : self.pc thread = .taken entry) :
    Next self (.internal thread)
      ({ self with owner := some thread }.setPc thread (.holding entry))
  | run {thread : T} (answer : Answer α ε ρ) (pc : self.pc thread = .holding .run)
    (owned : self.owner = some thread) :
    Next self (.body thread thread (self.ticket thread) answer)
      ({ self with bodies := self.bodies + 1 }.setPc thread (.drain (.init false (some answer))))
  /-- The body of `callHeld` succeeded: its caller keeps the Store. -/
  | callHeld {thread : T} {answer : Answer α ε ρ} (pc : self.pc thread = .holding .callHeld)
    (succeeded : answer.succeeded = true) :
    Next self (.body thread thread (self.ticket thread) answer)
      ({ self with bodies := self.bodies + 1 }.setPc thread (.returning answer true))
  | callHeldFailed {thread : T} {answer : Answer α ε ρ}
    (pc : self.pc thread = .holding .callHeld) (failed : answer.succeeded = false)
    (owned : self.owner = some thread) :
    Next self (.body thread thread (self.ticket thread) answer)
      ({ self with bodies := self.bodies + 1 }.setPc thread (.drain (.init false (some answer))))
  | startOwn {thread : T} (pc : self.pc thread = .holding .write) :
    Next self (.start thread) ({ self with batchOpen := true }.setPc thread .started)
  | write {thread : T} (answer : Answer α ε ρ) (pc : self.pc thread = .started)
    (owned : self.owner = some thread) :
    Next self (.body thread thread (self.ticket thread) answer)
      ({ self with bodies := self.bodies + 1 }.setPc thread (.drain (.init true (some answer))))
  | release {thread : T} (pc : self.pc thread = .held) (owned : self.owner = some thread) :
    Next self (.internal thread) (self.setPc thread (.drain (.init false none)))
  | pop {thread job : T} {d : Drain T α ε ρ} (pc : self.pc thread = .drain d)
    (turn : self.turn d = .pop job) :
    Next self (.internal thread) ((self.pop job).setPc thread (.popped job d))
  | start {thread job : T} {d : Drain T α ε ρ} (pc : self.pc thread = .popped job d)
    (batching : d.batching = false) :
    Next self (.start thread)
      ({ self with batchOpen := true }.setPc thread (.popped job { d with batching := true }))
  | batch {thread job : T} {d : Drain T α ε ρ} (answer : Answer α ε ρ)
    (pc : self.pc thread = .popped job d) (batching : d.batching = true) :
    Next self (.body thread job (self.ticket job) answer)
      ((self.answerJob job answer d.batched).setPc thread
        (.drain { d with ran := d.ran + 1, batched := some job }))
  | close {thread : T} {d : Drain T α ε ρ} (pc : self.pc thread = .drain d)
    (turn : self.turn d = .finish) :
    Next self (.internal thread) (self.setPc thread (.finishing d))
  | finish {thread : T} {d : Drain T α ε ρ} (committed : Bool)
    (pc : self.pc thread = .finishing d) :
    Next self (.finish thread committed)
      ({ self with batchOpen := false }.setPc thread (.answering d.batched committed
        { d with
          committed := if d.first && d.isOpen then committed else d.committed
          first := false
          batching := false
          batched := none }))
  /-- The next job of `answerBatch`: its pointer is read before its event is set. -/
  | answer {thread job : T} {committed : Bool} {d : Drain T α ε ρ}
    (pc : self.pc thread = .answering (some job) committed d) :
    Next self (.answer thread job (self.ticket job))
      ((self.setJob job { self.jobs job with lost := !committed, done := true }).setPc thread
        (.answering (self.jobs job).next committed d))
  | answered {thread : T} {committed : Bool} {d : Drain T α ε ρ}
    (pc : self.pc thread = .answering none committed d) :
    Next self (.internal thread) (self.setPc thread (.drain d))
  | letGo {thread : T} {d : Drain T α ε ρ} (pc : self.pc thread = .drain d)
    (turn : self.turn d = .letGo) :
    Next self (.letGo thread) ({ self with held := false, owner := none }.setPc thread (leave d))
  | popHolder {thread job : T} {d : Drain T α ε ρ} (pc : self.pc thread = .drain d)
    (turn : self.turn d = .handOver job) :
    Next self (.internal thread) ((self.pop job).setPc thread (.handing job d))
  | handOver {thread job : T} {d : Drain T α ε ρ} (pc : self.pc thread = .handing job d) :
    Next self (.handOver thread job)
      (({ self with owner := none }.setJob job
        { self.jobs job with handed := true, done := true }).setPc thread (leave d))
  | returns {thread : T} {answer : Answer α ε ρ} {keeps : Bool}
    (pc : self.pc thread = .returning answer keeps) :
    Next self (.returns thread (self.ticket thread) (self.jobs thread).own answer)
      (self.setPc thread (if keeps then .held else .idle))

end Rui.Store
