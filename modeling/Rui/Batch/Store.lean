import Rui.Changes.RingLaws
import Rui.Library.Machine
import Rui.Library.Transactions

/-!
# Writes that share a transaction

The Store under its holder (`Store.zig`): how a write begins, commits and rolls
back, alone or in a batch; how identities are handed out and given back; and how
an entry point ends. A batch is `startBatch`, its writes, and `finishBatch`.
-/

namespace Rui.Batch

open Library Rui.Changes

/-! ## The database -/

/-- A column whose values the Host hands out. -/
inductive Identity
  | turnId
  | operationId
  | actionId
  | contentId
  | createdSeq
  | commandSeq
  | admissionId
  | toolRecordId
  | toolSetId
  | forwardId
  deriving DecidableEq, Repr

def Identity.values : List Identity :=
  [.turnId, .operationId, .actionId, .contentId, .createdSeq, .commandSeq, .admissionId,
    .toolRecordId, .toolSetId, .forwardId]

theorem Identity.mem_values (column : Identity) : column ∈ Identity.values := by
  cases column <;> decide

/-- A database: the values its rows have in each identity column, and everything else. -/
structure Db (φ : Type) where
  ids : Identity → List Nat
  facts : φ

variable {φ : Type}

/-- `SELECT coalesce(max(column),0)`. -/
def Db.ceiling (d : Db φ) (column : Identity) : Nat := (d.ids column).foldr max 0

/-- What a write statement does, given the identities its write was handed: its rows have only
those, no row with an identity is deleted, and no changed row is no change. -/
structure Change (φ : Type) where
  run : (Identity → List Nat) → Db φ → Db φ × Nat
  keeps : ∀ handed d column id, id ∈ d.ids column → id ∈ (run handed d).1.ids column
  takes : ∀ handed d column id, id ∈ (run handed d).1.ids column →
    id ∈ d.ids column ∨ id ∈ handed column
  still : ∀ handed d, (run handed d).2 = 0 → (run handed d).1 = d

/-! ## The Store -/

/-- The batch of writes the holder is running. -/
inductive State
  | none
  | ready
  | first
  | open
  | lost
  deriving DecidableEq, Repr

/-- What the Host hands to transactions. -/
structure HostValues where
  next : Identity → Nat
  /-- The columns that handed out a value since `begin`. -/
  taken : Identity → Bool := fun _ => false
  /-- The open transaction's second, or 0 before its first use. -/
  second : Nat := 0

def HostValues.count (ids : HostValues) : Nat := (Identity.values.filter ids.taken).length

structure Store (φ : Type) where
  engine : Engine (Db φ)
  fenced : Bool := false
  commitGeneration : Nat := 0
  touched : Touched := {}
  changes : Ring
  identities : HostValues
  batch : State := .none
  savepoint : Bool := false

/-- How a call ends: it may meet an assertion or an `unreachable`. -/
inductive Outcome
  | ok
  | failed
  | panic
  deriving DecidableEq, Repr

namespace Store

/-- Runs a transaction control on the engine. -/
def control (self : Store φ) (which : Control) : Outcome × Store φ :=
  let (ok, engine) := self.engine.control which
  (if ok then .ok else .failed, { self with engine })

/-- Opens an entry point's write transaction. -/
def begin (self : Store φ) : Outcome × Store φ :=
  match self.batch with
  | .none =>
    if self.identities.count = 0 ∧ self.identities.second = 0 then self.control .begin
    else (.panic, self)
  | .ready =>
    if self.identities.count = 0 ∧ self.identities.second = 0 then
      match self.control .begin with
      | (.ok, self) => (.ok, { self with batch := .first })
      | other => other
    else (.panic, self)
  | .open =>
    if self.savepoint then (.panic, self)
    else
      match self.control .savepoint with
      | (.ok, self) => (.ok, { self with savepoint := true })
      | other => other
  | .first | .lost => (.panic, self)

/-- Forgets what the ended transaction took. -/
def settleIdentities (self : Store φ) : Store φ :=
  { self with identities := { self.identities with taken := fun _ => false, second := 0 } }

/-- Commits the open transaction; in a batch, releases the write's savepoint. -/
def commit (self : Store φ) : Outcome × Store φ :=
  match self.batch with
  | .first => (.ok, { self with batch := .open })
  | .open =>
    match self.control .release with
    | (.ok, self) => (.ok, { self with savepoint := false })
    | other => other
  | .none =>
    match self.control .commit with
    | (.ok, self) => (.ok, self.settleIdentities)
    | other => other
  | .ready | .lost => (.panic, self)

/-- The next value of `column`, inside the open transaction. -/
def takeIdentity (self : Store φ) (column : Identity) : Option Nat × Store φ :=
  if self.engine.inTransaction then
    let value := self.identities.next column
    if value ≤ 2 ^ 63 - 1 then
      (some value, { self with identities := { self.identities with
        next := fun c => if c = column then value + 1 else self.identities.next c
        taken := fun c => c == column || self.identities.taken c } })
    else (none, self)
  else (none, self)

/-- The open transaction's second. `clock` is what the clock would say, if it can be read. -/
def transactionSecond (self : Store φ) (clock : Option Nat) : Outcome × Store φ :=
  if self.identities.second ≠ 0 then (.ok, self)
  else
    match clock with
    | none | some 0 => (.failed, self)
    | some second =>
      if self.engine.inTransaction then
        (.ok, { self with identities := { self.identities with second } })
      else (.ok, self)

/-- The loop of `loadIdentities`: each column's next value, from the rows the engine sees. -/
def reload (self : Store φ) : List Identity → Bool × Store φ
  | [] => (true, self)
  | column :: columns =>
    match self.engine.read with
    | (false, engine) => (false, { self with engine })
    | (true, engine) =>
      reload { self with
        engine
        identities := { self.identities with
          next := fun c =>
            if c = column then engine.view.ceiling column + 1 else self.identities.next c } }
        columns

/-- Reads `columns`' next values, and then finishes the pass that read them. -/
def loadIdentities (self : Store φ) (columns : Identity → Bool) : Bool × Store φ :=
  match self.reload (Identity.values.filter columns) with
  | (false, self) => (false, self)
  | (true, self) =>
    match self.engine.read with
    | (false, engine) => (false, { self with engine })
    | (true, engine) =>
      (true, { self with engine, identities := { self.identities with taken := fun _ => false } })

def rollbackTransaction (self : Store φ) : Bool × Store φ :=
  let (ok, self) :=
    if self.engine.inTransaction then
      let (ok, engine) := self.engine.control .rollback
      (ok && !engine.inTransaction, { self with engine })
    else (true, self)
  if ok then
    let self := { self with identities := { self.identities with second := 0 } }
    self.loadIdentities self.identities.taken
  else (false, self)

/-- Back to the write's savepoint, if it opened one. -/
def rollbackToSavepoint (self : Store φ) (savepoint : Bool) : Bool × Store φ :=
  if savepoint then
    match self.engine.control .rollbackTo with
    | (false, engine) => (false, { self with engine })
    | (true, engine) =>
      let (ok, engine) := engine.control .release
      (ok, { self with engine })
  else (true, self)

/-- SQLite may already have rolled back what the entry point touched. -/
def touchEverything (self : Store φ) : Store φ :=
  { self with touched := { self.touched with everything := true } }

/-- `errdefer self.batch = .lost`. -/
def lostUnless : Bool × Store φ → Bool × Store φ
  | (true, self) => (true, self)
  | (false, self) => (false, { self with batch := .lost })

/-- Back to the write's savepoint; the batch's earlier writes stay. -/
def rollbackOpen (self : Store φ) : Bool × Store φ :=
  let savepoint := self.savepoint
  let self := { self with savepoint := false }
  lostUnless <|
    if self.engine.inTransaction then
      match self.rollbackToSavepoint savepoint with
      | (true, self) => self.loadIdentities self.identities.taken
      | other => other
    else (false, self)

/-- The batch's first write rolls back as a lone write does, and the batch is ready again. -/
def rollbackFirst (self : Store φ) : Bool × Store φ :=
  match lostUnless self.rollbackTransaction with
  | (true, self) => (true, { self with batch := .ready })
  | other => other

/-- Rolls back what the entry point did, and answers whether it could. -/
def rollbackAfterError (self : Store φ) : Bool × Store φ :=
  let self := self.touchEverything
  match self.batch with
  | .open => self.rollbackOpen
  | .first => self.rollbackFirst
  | .none | .ready => self.rollbackTransaction
  | .lost => (false, self)

/-- The only fence setter. -/
def fence (self : Store φ) : Store φ := { self with fenced := true }

/-! ## Batches -/

def startBatch (self : Store φ) : Outcome × Store φ :=
  if self.batch = .none ∧ self.savepoint = false then (.ok, { self with batch := .ready })
  else (.panic, self)

def commitBatch (self : Store φ) : Outcome × Store φ :=
  match self.batch with
  | .ready => (.ok, self)
  | .open =>
    match self.control .commit with
    | (.ok, self) => (.ok, self)
    | (_, self) => (.failed, self.fence)
  | .lost => (.failed, self.fence)
  | .none | .first => (.panic, self)

/-- Commits the batch's transaction, if a write opened one. -/
def finishBatch (self : Store φ) : Outcome × Store φ :=
  if self.savepoint then (.panic, self)
  else
    let (outcome, self) := self.commitBatch
    (outcome, { self.settleIdentities with batch := .none })

end Store

/-! ## Writes -/

/-- One thing the body of a write does. -/
inductive Step (φ : Type)
  /-- A statement of a read Access beside the write's own. -/
  | peek
  /-- A read of the write's Access. -/
  | read
  | change (change : Change φ)
  | identity (column : Identity)
  /-- The second bound to `@now`, and what the clock says. -/
  | now (clock : Option Nat)
  /-- A Session whose rows change. -/
  | touch (entry : Entry)

/-- How a body ends, once all its steps are done. -/
inductive Ending
  | commit
  | abandon
  /-- With an error, which its entry point may return or must fence on. -/
  | error (ordinary : Bool)
  deriving DecidableEq, Repr

/-- One Store write. -/
inductive Write (φ : Type)
  | access (steps : List (Step φ)) (ending : Ending)
  /-- A `.single` Access: a read, and one statement that must change one row when the read finds
  it (`revokeActionSender`). The statement names its row by its key. -/
  | single (found : Bool) (change : Change φ) (one : ∀ d, (change.run (fun _ => []) d).2 ≤ 1)

inductive Answer
  | committed
  | abandoned
  | failed
  | panicked
  deriving DecidableEq, Repr

/-- What a write did: its answer, the changes it made in order, the identities it was handed, and
what it recorded when it ended. -/
structure Ran (φ : Type) where
  answer : Answer
  effects : List (Db φ → Db φ) := []
  handed : Identity → List Nat := fun _ => []
  /-- The state it found, unless it was refused. -/
  saw : Option (Db φ) := none
  /-- Whether its one statement committed itself. -/
  alone : Bool := false
  /-- What the ring heard, if it changed rows, rolled back or not. -/
  recorded : Option Commit := none

/-- A write under way: the Store, and what its body did so far. -/
structure Body (φ : Type) where
  store : Store φ
  opened : Bool := false
  effects : List (Db φ → Db φ) := []
  handed : Identity → List Nat := fun _ => []

namespace Body

/-- Opens the transaction before the first statement. -/
def ensureOpen (b : Body φ) : Outcome × Body φ :=
  if b.opened then (.ok, b)
  else
    let (outcome, store) := b.store.begin
    (outcome, { b with store, opened := true })

/-- A read, which fails or changes nothing. -/
def read (b : Body φ) : Outcome × Body φ :=
  let (ok, engine) := b.store.engine.read
  (if ok then .ok else .failed, { b with store := { b.store with engine } })

def write (change : Change φ) (b : Body φ) : Outcome × Body φ :=
  match b.store.engine.write (change.run b.handed) with
  | (true, engine) =>
    (.ok, { b with
      store := { b.store with engine }
      effects := b.effects ++ [fun d => (change.run b.handed d).1] })
  | (false, engine) => (.failed, { b with store := { b.store with engine } })

def identity (column : Identity) (b : Body φ) : Outcome × Body φ :=
  match b.store.takeIdentity column with
  | (some id, store) =>
    (.ok, { b with
      store
      handed := fun c => if c = column then id :: b.handed c else b.handed c })
  | (none, store) => (.failed, { b with store })

def touch (entry : Entry) (b : Body φ) : Body φ :=
  let touched := b.store.touched
  match h : (touched.needsEntry entry.session.toList).1 with
  | true =>
    { b with store := { b.store with touched := touched.add entry (Touched.room_of_needsEntry h) } }
  | false =>
    { b with store := { b.store with touched := (touched.needsEntry entry.session.toList).2 } }

/-- What a step needs of the Access. -/
def after (b : Body φ) (act : Body φ → Outcome × Body φ) : Outcome × Body φ :=
  match b.ensureOpen with
  | (.ok, b) => act b
  | other => other

def step (b : Body φ) : Step φ → Outcome × Body φ
  | .peek => b.read
  | .read => b.after read
  | .change change => b.after (write change)
  | .identity column => b.after (identity column)
  | .now clock => b.after fun b =>
    let (outcome, store) := b.store.transactionSecond clock
    (outcome, { b with store })
  | .touch entry => (.ok, b.touch entry)

/-- The steps up to the first that fails. -/
def run (b : Body φ) : List (Step φ) → Outcome × Body φ
  | [] => (.ok, b)
  | step :: steps =>
    match b.step step with
    | (.ok, b) => b.run steps
    | other => other

/-- The transaction ends without a commit, if the Access opened one. -/
def abandon (b : Body φ) : Bool × Body φ :=
  if b.opened then
    let (ok, store) := b.store.rollbackAfterError
    (ok, { b with store })
  else (true, b)

/-- `finishTransaction` on an error. -/
def refuse (b : Body φ) (ordinary : Bool) : Answer × Body φ :=
  let (ok, store) := b.store.rollbackAfterError
  (.failed, { b with store := if ok && ordinary then store else store.fence })

/-- `end` on an error: the Access is abandoned, and a rollback that failed takes the error's
place. -/
def fail (b : Body φ) (ordinary : Bool) : Answer × Body φ :=
  let (ok, b) := b.abandon
  b.refuse (ok && ordinary)

/-- How a body whose steps are done ends. -/
def finish (b : Body φ) : Ending → Answer × Body φ
  | .commit =>
    match b.after fun b => let (outcome, store) := b.store.commit; (outcome, { b with store }) with
    | (.ok, b) => (.committed, b)
    | (.failed, b) => b.fail false
    | (.panic, b) => (.panicked, b)
  | .abandon =>
    match b.abandon with
    | (true, b) => (.abandoned, b)
    | (false, b) => b.refuse false
  | .error ordinary => b.fail ordinary

/-- A whole write Access. -/
def access (b : Body φ) (steps : List (Step φ)) (ending : Ending) : Answer × Body φ :=
  match b.run steps with
  | (.ok, b) => b.finish ending
  | (.failed, b) => b.fail false
  | (.panic, b) => (.panicked, b)

/-- A whole `.single` Access; its errors all fence. -/
def single (b : Body φ) (found : Bool) (change : Change φ) : Answer × Body φ :=
  match b.read with
  | (.ok, b) =>
    if found then
      let before := b.store.engine.totalChanges
      match b.write change with
      | (.ok, b) =>
        if b.store.engine.totalChanges = before + 1 then (.committed, b)
        else (.failed, { b with store := b.store.fence })
      | (_, b) => (.failed, { b with store := b.store.fence })
    else (.abandoned, b)
  | (_, b) => (.failed, { b with store := b.store.fence })

end Body

namespace Store

/-- Ends an entry point: rows it changed advance the generation, and the ring records what it
touched. -/
def release (self : Store φ) (changes : Nat) : Option Commit × Store φ :=
  if self.engine.totalChanges ≠ changes then
    let generation := self.commitGeneration + 1
    (some ⟨generation, self.touched⟩,
      { self with commitGeneration := generation
                  changes := self.changes.record generation self.touched })
  else (none, self)

/-- The body of a write. -/
def body (self : Store φ) : Write φ → Answer × Body φ
  | .access steps ending => Body.access { store := self } steps ending
  | .single found change _ => Body.single { store := self } found change

/-- Whether a write's statement commits itself: one of a `.single` Access with no transaction
open. -/
def alone (self : Store φ) : Write φ → Bool
  | .access _ _ => false
  | .single _ _ _ => !self.engine.inTransaction

/-- One write, from `enter` to `release`. -/
def write (self : Store φ) (w : Write φ) : Ran φ × Store φ :=
  if self.fenced then ({ answer := .failed }, self)
  else
    let self := { self with touched := {} }
    let (answer, b) := self.body w
    let (recorded, store) := b.store.release self.engine.totalChanges
    ({ answer, effects := b.effects, handed := b.handed, saw := some self.engine.view
       alone := self.alone w, recorded }, store)

/-- The writes of a batch, in order. -/
def writes (self : Store φ) : List (Write φ) → List (Ran φ) × Store φ
  | [] => ([], self)
  | w :: rest =>
    let (ran, self) := self.write w
    let (rans, self) := self.writes rest
    (ran :: rans, self)

/-- What the holder runs: reads, and batches of writes. -/
inductive Request (φ : Type)
  | read
  | batch (writes : List (Write φ))

/-- What a request answers. -/
inductive Reply (φ : Type)
  /-- The generation, captured before the rows are read, and the rows. -/
  | snapshot (generation : Nat) (rows : Db φ)
  | fenced
  /-- What its writes did, and whether `finishBatch` answered that they are durable. -/
  | batch (rans : List (Ran φ)) (finished : Outcome)

def request (self : Store φ) : Request φ → Store φ × Reply φ
  | .read =>
    if self.fenced then (self, .fenced)
    else (self, .snapshot self.commitGeneration self.engine.view)
  | .batch writes =>
    match self.startBatch with
    | (.ok, self) =>
      let (rans, self) := self.writes writes
      let (finished, self) := self.finishBatch
      (self, .batch rans finished)
    | (_, self) => (self, .batch [] .panic)

/-- The Store as a machine that serves one request at a time. -/
def machine (φ : Type) : Machine (Store φ) (Request φ) (Reply φ) := ⟨request⟩

/-- A Store just opened on a database: its identities are loaded, and its ring is new. -/
def opened (d : Db φ) (luck : List Luck) (sessions : Vector Id capacity)
    (workspaces : Vector UInt64 capacity) : Store φ where
  engine := { committed := d, luck }
  changes := Ring.init sessions workspaces
  identities := { next := fun column => d.ceiling column + 1 }

end Store

end Rui.Batch
