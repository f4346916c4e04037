import Rui.Library.Tally
import Rui.Library.Runs

/-!
# Scratch charges and retained output

`ScratchBudget.zig` and `output_retention.zig`: threads that charge one shared
counter by compare and swap, and a queue of retained files that gives charges
back when a file is removed. Each locked section, each atomic update and each
file removal is one step of one thread. A step has no outcome where the source
would not take it, and crashes where an assertion would fail.
-/

namespace Rui.Retention
open Library

/-- Past the largest `u64`. -/
def word : Nat := 2 ^ 64

/-! ## The queue's entries -/

inductive State
  | free
  | reserved
  | retained
  | evicting
  | failed
  deriving DecidableEq

structure Entry where
  state : State := .free
  generation : Nat := 0
  sequence : Nat := 0
  name : List UInt8 := []
  charged : Nat := 0

/-- `generation +%= 1`, never zero. -/
def nextGeneration (generation : Nat) : Nat :=
  if (generation + 1) % word = 0 then 1 else (generation + 1) % word

/-- `.{ .generation = generation }`. -/
def Entry.emptied (generation : Nat) : Entry := { generation }

structure Token where
  index : Nat
  generation : Nat

/-- What `reservePair` is asked to keep. -/
structure Request where
  stdoutName : List UInt8
  stdoutCharged : Nat
  stderrName : List UInt8
  stderrCharged : Nat

inductive RetentionError
  | foreignRetentionToken
  | staleRetentionToken
  | invalidRetentionTransition

/-! ## What a thread is doing -/

/-- Who charges, and so what follows a refusal. -/
inductive Charging
  | plain
  | allocating (reclaims : Bool)
  | reclaiming
  deriving DecidableEq

/-- Who evicts the oldest entry. -/
inductive Evicting
  | reserving (request : Request)
  | reclaiming (amount limit : Nat)

/-- Who removes a file. -/
inductive Removing
  | evicting (evicting : Evicting)
  | cleaning (index : Nat)

inductive Phase
  | removing
  | removed
  | unremoved

inductive Task
  | idle
  | loading (amount limit : Nat) (charging : Charging)
  | charging (amount limit seen : Nat) (charging : Charging)
  | loadingUpTo (maximum limit : Nat) (reclaims : Bool)
  | chargingUpTo (maximum limit seen : Nat) (reclaims : Bool)
  | reserving (request : Request)
  | evicting (evicting : Evicting)
  | removal (phase : Phase) (index generation charged : Nat) (name : List UInt8) (on : Removing)
  | cleaning (index : Nat)

def Task.isIdle : Task → Bool
  | .idle => true
  | _ => false

/-- A thread, and the charges it owns. -/
structure Thread where
  held : Nat := 0
  task : Task := .idle

structure World where
  limit : Nat
  used : Nat
  entries : List Entry
  nextSequence : Nat
  threads : List Thread

/-! ## Charges -/

/-- `charge` until it loads the counter; a refusal goes on as its caller does. -/
def beginCharge (total amount limit : Nat) (charging : Charging) : Task :=
  if amount ≤ limit then .loading amount limit charging
  else
    match charging with
    | .plain => .idle
    | .allocating reclaims =>
      -- `reclaimForReservation` begins with a charge of its own.
      if !reclaims then .idle
      else if amount ≤ min total limit then .loading amount (min total limit) .reclaiming
      else .evicting (.reclaiming amount (min total limit))
    | .reclaiming => .evicting (.reclaiming amount limit)

/-- After a charge is refused. -/
def refused (total amount limit : Nat) : Charging → Task
  | .plain => .idle
  | .allocating reclaims =>
    if reclaims then beginCharge total amount (min total limit) .reclaiming else .idle
  | .reclaiming => .evicting (.reclaiming amount limit)

/-- One turn of `charge`'s loop, with what was last read of the counter. -/
def tryCharge (total amount limit seen : Nat) (charging : Charging) : Task :=
  if seen + amount < word ∧ seen + amount ≤ limit then .charging amount limit seen charging
  else refused total amount limit charging

/-- One turn of `chargeUpTo`'s loop, and `allocateUpTo` after it. -/
def tryChargeUpTo (total maximum limit seen : Nat) (reclaims : Bool) : Task :=
  if seen < limit ∧ maximum ≠ 0 then .chargingUpTo maximum limit seen reclaims
  else if maximum ≠ 0 ∧ reclaims then beginCharge total 1 (min total limit) .reclaiming
  else .idle

/-! ## The queue's locked sections -/

/-- The first two free entries. -/
def freePair (entries : List Entry) : Option (Nat × Nat) :=
  match (List.range entries.length).filter fun index =>
      (entries[index]?).any fun entry => entry.state == .free with
  | first :: second :: _ => some (first, second)
  | _ => none

/-- `reservePair`'s section over one of the two entries. -/
def reserve (entry : Entry) (sequence charged : Nat) (name : List UInt8) : Entry :=
  { state := .reserved, generation := nextGeneration entry.generation, sequence, name, charged }

/-- One turn of the search for the retained entry with the least sequence. -/
def older (entries : List Entry) (oldest : Option (Nat × Entry)) (index : Nat) :
    Option (Nat × Entry) :=
  match entries[index]? with
  | none => oldest
  | some entry =>
    if entry.state ≠ .retained then oldest
    else
      match oldest with
      | none => some (index, entry)
      | some best => if entry.sequence < best.2.sequence then some (index, entry) else oldest

def oldestRetained (entries : List Entry) : Option (Nat × Entry) :=
  (List.range entries.length).foldl (older entries) none

/-- `current`. -/
def current (entries : List Entry) (token : Token) : Except RetentionError Entry :=
  match entries[token.index]? with
  | none => .error .foreignRetentionToken
  | some entry =>
    if entry.generation ≠ token.generation then .error .staleRetentionToken else .ok entry

/-- `publishPair`'s checks: the two entries it would publish. -/
def publishable (entries : List Entry) (stdout stderr : Token) :
    Except RetentionError (Entry × Entry) :=
  (current entries stdout).bind fun out => (current entries stderr).bind fun err =>
    if stdout.index = stderr.index ∨ out.state ≠ .reserved ∨ err.state ≠ .reserved then
      .error .invalidRetentionTransition
    else .ok (out, err)

/-! ## Steps -/

inductive Act
  | spawn
  | charge (amount limit : Nat) (charging : Charging)
  | chargeUpTo (maximum limit : Nat) (reclaims : Bool)
  | load
  | exchange (stored : Bool)
  | release (amount : Nat)
  | reservePair (request : Request)
  | publishPair (stdout stderr : Token)
  | releaseReservation (token : Token)
  | cleanupAll
  | lock
  | remove (confirmed : Bool)

inductive Outcome
  | refused
  | crashed
  | next (world : World)

namespace World

def setThread (self : World) (i : Nat) (thread : Thread) : World :=
  { self with threads := self.threads.set i thread }

def setEntry (self : World) (index : Nat) (entry : Entry) : World :=
  { self with entries := self.entries.set index entry }

/-- Nothing shared changes: the thread goes on. -/
def goOn (self : World) (i : Nat) (thread : Thread) (task : Task) : Outcome :=
  .next (self.setThread i { thread with task })

/-- A removal's file is gone: the entry is freed and its charge released. -/
def finish (self : World) (i : Nat) (thread : Thread) (index generation charged : Nat)
    (task : Task) : Outcome :=
  if self.used < charged then .crashed
  else
    .next (({ self with used := self.used - charged }.setEntry index
      (.emptied generation)).setThread i { thread with task })

/-- `markEvictionFailed`. -/
def markEvictionFailed (self : World) (index generation : Nat) : World :=
  match self.entries[index]? with
  | none => self
  | some entry =>
    if entry.generation = generation ∧ entry.state = .evicting then
      self.setEntry index { entry with state := .failed }
    else self

/-- A locked section that selects an entry to remove. -/
def select (self : World) (i : Nat) (thread : Thread) (index : Nat) (entry : Entry)
    (on : Removing) : Outcome :=
  .next ((self.setEntry index { entry with state := .evicting }).setThread i
    { thread with task := .removal .removing index entry.generation entry.charged entry.name on })

/-- What an evictor does with the room it made. -/
def evicted (total : Nat) : Evicting → Task
  | .reserving request => .reserving request
  | .reclaiming amount limit => beginCharge total amount limit .reclaiming

/-- The next locked section of a thread inside an operation. -/
def lock (self : World) (i : Nat) (thread : Thread) : Outcome :=
  match thread.task with
  | .reserving request =>
    if word ≤ self.nextSequence + 2 then self.goOn i thread .idle
    else
      match freePair self.entries with
      | none => self.goOn i thread (.evicting (.reserving request))
      | some pair =>
        match self.entries[pair.1]?, self.entries[pair.2]? with
        | some stdout, some stderr =>
          ({ self with nextSequence := self.nextSequence + 2 }.setEntry pair.1
            (reserve stdout self.nextSequence request.stdoutCharged request.stdoutName)).setEntry
            pair.2 (reserve stderr (self.nextSequence + 1) request.stderrCharged
              request.stderrName) |>.goOn i thread .idle
        | _, _ => .crashed
  | .evicting evicting =>
    match oldestRetained self.entries with
    | none => self.goOn i thread .idle
    | some oldest => self.select i thread oldest.1 oldest.2 (.evicting evicting)
  | .removal .removed index generation charged _ (.evicting evicting) =>
    match self.entries[index]? with
    | none => .crashed
    | some entry =>
      -- `assert(selected.generation == generation and selected.state == .evicting)`.
      if entry.generation ≠ generation ∨ entry.state ≠ .evicting then .crashed
      else self.finish i thread index generation charged (evicted self.limit evicting)
  | .removal .removed index generation charged _ (.cleaning cleaning) =>
    self.finish i thread index generation charged (.cleaning (cleaning + 1))
  | .removal .unremoved index generation _ _ (.evicting _) =>
    (self.markEvictionFailed index generation).goOn i thread .idle
  | .removal .unremoved index generation _ _ (.cleaning cleaning) =>
    (self.markEvictionFailed index generation).goOn i thread (.cleaning (cleaning + 1))
  | .cleaning index =>
    match self.entries[index]? with
    | none => self.goOn i thread .idle
    | some entry =>
      if entry.state ≠ .retained ∧ entry.state ≠ .failed then
        self.goOn i thread (.cleaning (index + 1))
      else self.select i thread index entry (.cleaning index)
  | _ => .refused

/-- `publishPair`, which hands the producer's charges to the entries. -/
def publishPair (self : World) (i : Nat) (thread : Thread) (stdout stderr : Token) : Outcome :=
  match publishable self.entries stdout stderr with
  | .error _ => self.goOn i thread .idle
  | .ok (out, err) =>
    -- Who publishes owns what the entries were reserved with.
    if thread.held < out.charged + err.charged then .refused
    else
      ((self.setEntry stdout.index { out with state := .retained }).setEntry stderr.index
        { err with state := .retained }).goOn i
        { thread with held := thread.held - (out.charged + err.charged) } .idle

def releaseReservation (self : World) (token : Token) : World :=
  match current self.entries token with
  | .error _ => self
  | .ok entry =>
    if entry.state = .reserved then self.setEntry token.index (.emptied entry.generation) else self

/-- One step of a thread. -/
def act (self : World) (i : Nat) (thread : Thread) : Act → Outcome
  | .spawn =>
    if thread.task.isIdle then .next { self with threads := self.threads ++ [{}] } else .refused
  | .charge amount limit charging =>
    if thread.task.isIdle ∧ limit ≤ self.limit ∧ charging ≠ .reclaiming then
      self.goOn i thread (beginCharge self.limit amount limit charging)
    else .refused
  | .chargeUpTo maximum limit reclaims =>
    if thread.task.isIdle ∧ limit ≤ self.limit then
      self.goOn i thread (.loadingUpTo maximum limit reclaims)
    else .refused
  | .load =>
    match thread.task with
    | .loading amount limit charging =>
      self.goOn i thread (tryCharge self.limit amount limit self.used charging)
    | .loadingUpTo maximum limit reclaims =>
      self.goOn i thread (tryChargeUpTo self.limit maximum limit self.used reclaims)
    | _ => .refused
  | .exchange stored =>
    match thread.task with
    | .charging amount limit seen charging =>
      if self.used = seen ∧ stored then
        { self with used := seen + amount }.goOn i
          { thread with held := thread.held + amount } .idle
      else self.goOn i thread (tryCharge self.limit amount limit self.used charging)
    | .chargingUpTo maximum limit seen reclaims =>
      if self.used = seen ∧ stored then
        { self with used := seen + min maximum (limit - seen) }.goOn i
          { thread with held := thread.held + min maximum (limit - seen) } .idle
      else self.goOn i thread (tryChargeUpTo self.limit maximum limit self.used reclaims)
    | _ => .refused
  | .release amount =>
    -- An owner releases what it holds.
    if thread.task.isIdle ∧ amount ≤ thread.held then
      if self.used < amount then .crashed
      else
        { self with used := self.used - amount }.goOn i
          { thread with held := thread.held - amount } .idle
    else .refused
  | .reservePair request =>
    if thread.task.isIdle then self.goOn i thread (.reserving request) else .refused
  | .publishPair stdout stderr =>
    if thread.task.isIdle then self.publishPair i thread stdout stderr else .refused
  | .releaseReservation token =>
    if thread.task.isIdle then (self.releaseReservation token).goOn i thread .idle else .refused
  | .cleanupAll => if thread.task.isIdle then self.goOn i thread (.cleaning 0) else .refused
  | .lock => self.lock i thread
  | .remove confirmed =>
    match thread.task with
    | .removal .removing index generation charged name on =>
      self.goOn i thread (.removal (if confirmed then .removed else .unremoved) index generation
        charged name on)
    | _ => .refused

def step (self : World) (i : Nat) (act : Act) : Outcome :=
  match self.threads[i]? with
  | none => .refused
  | some thread => self.act i thread act

/-- A budget no one uses, a queue of free entries and one thread. -/
def initial (limit entries : Nat) : World :=
  { limit, used := 0, entries := List.replicate entries {}, nextSequence := 1, threads := [{}] }

/-- A step of a run: which thread, and what it does. -/
def Next (self : World) (label : Nat × Act) (next : World) : Prop :=
  self.step label.1 label.2 = .next next

end World

end Rui.Retention
