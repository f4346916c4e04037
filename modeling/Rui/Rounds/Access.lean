import Rui.Batch.WriteRuns

/-!
# The rounds of a write

A write Access (`access.zig`): the statements of one transition, queued with
their arguments and stepped by passes. The Store below it is the batch's; the
engine is SQLite's, which runs a statement when it is stepped, or MySQL's, which
runs a whole pass on its server and answers statement by statement.
-/

namespace Rui.Rounds

open Library Rui.Changes Rui.Batch

/-! ## Errors -/

inductive Kind
  | sqlite
  | mysql
  deriving DecidableEq, Repr

/-- What a round reports besides its guards' errors. -/
inductive Failure
  | storeConnectionLost
  | commitOutcomeUnknown
  | ownershipLost
  | bindFailed
  | integerOutOfRange
  | statementPrepareFailed
  | outOfMemory
  | statementFailed
  | canonicalStorageFull
  | canonicalRollbackFailed
  | corruptStore
  | contentWriteFailed
  | contentReadFailed
  | rangeOutOfBounds
  | sqliteExecFailed
  | clockReadFailed
  | sessionPositionExhausted
  | identityExhausted
  | identityOutsideTransaction
  | identityReadFailed
  | tooManyPositionClaims
  | contentNotInserted
  deriving DecidableEq, Repr

/-- The failures that always fence: a connection or an ownership is gone. -/
def Failure.fences : Failure → Bool
  | .storeConnectionLost | .commitOutcomeUnknown | .ownershipLost => true
  | _ => false

/-- `Guards || Failure`. -/
inductive Error (γ : Type)
  | failure (name : Failure)
  | guard (otherwise : γ)
  deriving DecidableEq, Repr

def Error.fences {γ : Type} : Error γ → Bool
  | .failure name => name.fences
  | .guard _ => false

/-! ## Positions -/

/-- The most a stored integer holds. -/
def maxPosition : Nat := 2 ^ 63 - 1

/-- A Session as a round loaded it. -/
structure Head where
  ref : Id
  workspaceKey : UInt64
  nextPosition : Nat
  bounded : nextPosition ≤ maxPosition

/-- A Session's positions claimed by one Access, from its head as a round read it. -/
structure Positions where
  head : Head
  taken : Nat := 0
  /-- Why `take` never wraps. -/
  bounded : head.nextPosition + taken ≤ maxPosition

/-- Claims `count` consecutive positions and returns the first. -/
def Positions.take (self : Positions) (count : Nat) : Option (Nat × Positions) :=
  let first := self.head.nextPosition + self.taken
  if h : count > maxPosition - first then none
  else some (first, { self with
    taken := self.taken + count
    bounded := by have := self.bounded; omega })

/-- The rows of a database, with the Sessions' `next_position` among them. -/
structure Rows (φ : Type) where
  next : Id → Option Nat
  rest : φ

variable {φ ρ γ : Type}

/-! ## Statements -/

/-- How many rows a read returns. Of an `.each` read: how many rows it may step, and whether its
visitor, having seen these rows, asks for more. -/
inductive Cardinality (ρ : Type)
  | one
  | optional
  | atMost (max : Nat)
  | each (limit : Nat) (visit : List ρ → Bool)

/-- A read: the rows it finds, `none` for one that does not decode. -/
structure Read (φ ρ : Type) where
  rows : Db (Rows φ) → List (Option ρ)
  cardinality : Cardinality ρ
  /-- Whether its text allows one row. -/
  singleRow : Bool

/-- The rows a write must change. -/
inductive Expect (γ : Type)
  | exact (rows : Nat) (otherwise : Error γ)
  | atMost (rows : Nat)
  | counted (rows : Nat) (otherwise : Error γ)
  deriving Repr

def Expect.check (expect : Expect γ) (changed : Nat) : Except (Error γ) Unit :=
  match expect with
  | .exact rows otherwise => if changed ≠ rows then .error otherwise else .ok ()
  | .atMost rows => if changed > rows then .error (.failure .corruptStore) else .ok ()
  | .counted rows otherwise => if changed ≠ rows then .error otherwise else .ok ()

/-- A statement's text. -/
structure Statement where
  sql : String
  usesNow : Bool
  deriving DecidableEq, Repr

/-- What a queued statement does. A write is bound to the identities its Access had taken. -/
inductive Work (φ ρ γ : Type)
  | read (read : Read φ ρ)
  | write (change : Change (Rows φ)) (handed : Identity → List Nat) (expect : Expect γ)
  /-- Bytes of a content payload. -/
  | piece (change : Change (Rows φ)) (handed : Identity → List Nat)

structure Queued (φ ρ γ : Type) where
  statement : Statement
  /-- The engine's handle, which MySQL has none of. -/
  handle : Option Statement
  work : Work φ ρ γ

/-- `change` with the identities it was bound from: taking more makes no difference to it. -/
def bound (change : Change (Rows φ)) (handed : Identity → List Nat) : Change (Rows φ) where
  run given d :=
    if ∀ column ∈ Identity.values, ∀ id ∈ handed column, id ∈ given column then
      change.run handed d
    else (d, 0)
  keeps given d column id hid := by
    split
    · exact change.keeps handed d column id hid
    · exact hid
  takes given d column id hid := by
    split at hid
    · rename_i hgiven
      exact (change.takes handed d column id hid).imp_right
        (hgiven column column.mem_values id)
    · exact .inl hid
  still given d hnone := by
    split
    · rename_i hgiven
      rw [if_pos hgiven] at hnone
      exact change.still handed d hnone
    · rfl

/-- The compare-and-set on `next_position`. -/
def advance (session : Head) (expected next : Nat) : Change (Rows φ) where
  run _ d :=
    if d.facts.next session.ref = some expected then
      ({ d with facts := { d.facts with
        next := fun ref => if ref = session.ref then some next else d.facts.next ref } }, 1)
    else (d, 0)
  keeps _ d column id hid := by
    split <;> exact hid
  takes _ d column id hid := by
    split at hid <;> exact .inl hid
  still _ d hnone := by
    split
    · rename_i hfound
      simp [hfound] at hnone
    · rfl

def advanceStatement : Statement where
  sql := "UPDATE session SET next_position=?3 WHERE session_ref=@session(?1) AND next_position=?2"
  usesNow := false

/-- The compare-and-set of one claim. -/
def Positions.advance (claim : Positions) (handed : Identity → List Nat) : Work φ ρ γ :=
  let expected := claim.head.nextPosition
  .write (Rounds.advance claim.head expected (expected + claim.taken)) handed
    (.exact 1 (.failure .corruptStore))

/-! ## The Access -/

/-- What MySQL's server answered a statement. -/
inductive Answer (ρ : Type)
  | rows (rows : List (Option ρ))
  | changed (rows : Nat)
  | error (name : Failure)

def Answer.isError : Answer ρ → Bool
  | .error _ => true
  | _ => false

/-- MySQL's connection: the statements bound and not sent, the answers not read, and whether the
pass is one statement too long for a batch. -/
structure Wire (φ ρ γ : Type) where
  batch : List (Work φ ρ γ) := []
  answers : List (Answer ρ) := []
  longQuery : Bool := false

/-- What an Access did so far. -/
structure Ledger (φ ρ γ : Type) where
  /-- The statements it queued, and what its sinks wrote. -/
  queued : List (Work φ ρ γ) := []
  /-- Those its passes stepped. -/
  stepped : List (Work φ ρ γ) := []
  /-- What each that did not fail returned. -/
  results : List (List ρ) := []
  /-- The failures it recorded. -/
  failed : List (Error γ) := []
  /-- The positions it handed out: their Session, the first, and how many. -/
  handed : List (Id × Nat × Nat) := []
  /-- Its claims when `commit` queued their compare-and-sets. -/
  settled : List Positions := []
  /-- Whether COMMIT was issued. -/
  issued : Bool := false

/-- The statements one engine pass steps at most. -/
def maxQueued : Nat := 8

def maxClaims : Nat := Touched.max

/-- How many of its latest content ids an Access can open a sink on. -/
def maxTaken : Nat := 6

structure Access (φ ρ γ : Type) where
  kind : Kind
  /-- The Store, whether the Access opened its transaction, and the identities it took. -/
  body : Body (Rows φ)
  /-- Under which names the engine's next failures come. -/
  names : List Failure := []
  ended : Bool := false
  /-- The first failure. -/
  failure : Option (Error γ) := none
  /-- The text of the statement whose step recorded `failure`. -/
  failedSql : Option String := none
  queue : List (Queued φ ρ γ) := []
  claims : List Positions := []
  taken : Vector Nat maxTaken := Vector.replicate maxTaken 0
  takenCount : Nat := 0
  wire : Wire φ ρ γ := {}
  ledger : Ledger φ ρ γ := {}
  /-- Whether an assertion or an `unreachable` of the Store was met. -/
  panicked : Bool := false

namespace Access

/-- `a.failure = err`. -/
def record (a : Access φ ρ γ) (e : Error γ) : Access φ ρ γ :=
  { a with failure := some e, ledger := { a.ledger with failed := a.ledger.failed ++ [e] } }

/-- A failure of the engine: its name is the engine's. -/
def fail (a : Access φ ρ γ) : Failure × Access φ ρ γ :=
  match a.names with
  | [] => (.statementFailed, a)
  | name :: names => (name, { a with names })

/-- A call to the engine that changes no row: it may fail, or roll the transaction back and
fail. -/
def engine (a : Access φ ρ γ) : Except Failure Unit × Access φ ρ γ :=
  match a.body.read with
  | (.ok, body) => (.ok (), { a with body })
  | (_, body) =>
    let (name, a) := { a with body }.fail
    (.error name, a)

/-- The same, on MySQL alone: SQLite has nothing to do there. -/
def network (a : Access φ ρ γ) : Except Failure Unit × Access φ ρ γ :=
  match a.kind with
  | .sqlite => (.ok (), a)
  | .mysql => a.engine

/-! ## Running a statement -/

/-- Runs a statement on the database, and answers what it found or changed. -/
def execute (a : Access φ ρ γ) : Work φ ρ γ → Answer ρ × Access φ ρ γ
  | .read read => (.rows (read.rows a.body.store.engine.view), a)
  | .write change handed _ | .piece change handed =>
    let changed := ((bound change handed).run a.body.handed a.body.store.engine.view).2
    match a.body.write (bound change handed) with
    | (.ok, body) => (.changed changed, { a with body })
    | (_, body) =>
      let (name, a) := { a with body }.fail
      (.error name, a)

/-- The server's next answer arrives. -/
def hear (a : Access φ ρ γ) (answer : Answer ρ) : Access φ ρ γ :=
  { a with wire := { a.wire with answers := a.wire.answers ++ [answer] } }

/-- MySQL's server runs the statements of a batch up to the first that fails. -/
def serve (a : Access φ ρ γ) : List (Work φ ρ γ) → Access φ ρ γ
  | [] => a
  | work :: rest =>
    match a.engine with
    | (.error name, a) => a.hear (.error name)
    | (.ok (), a) =>
      let (answer, a) := a.execute work
      if answer.isError then a.hear answer else (a.hear answer).serve rest

/-- The answers still to be read. -/
def unread (a : Access φ ρ γ) (answers : List (Answer ρ)) : Access φ ρ γ :=
  { a with wire := { a.wire with answers } }

/-- What the statement being stepped answers: SQLite runs it now, MySQL did. -/
def answer (a : Access φ ρ γ) (work : Work φ ρ γ) : Answer ρ × Access φ ρ γ :=
  match a.kind with
  | .sqlite => a.execute work
  | .mysql =>
    match a.wire.answers with
    | [] => (.error .storeConnectionLost, a)
    | answer :: answers => (answer, a.unread answers)

/-- What comes back from a step: rows for the caller, or an error. -/
abbrev Stepped (φ ρ γ : Type) := Except (Error γ) (List ρ) × Access φ ρ γ

/-- Steps a read to its next row, or its end. -/
def nextRow (a : Access φ ρ γ) (row : Access φ ρ γ → Stepped φ ρ γ) : Stepped φ ρ γ :=
  match a.engine with
  | (.ok (), a) => row a
  | (.error name, a) => (.error (.failure name), a)

/-- Looks for a second row, which a read of one must not have. -/
def lastRow (a : Access φ ρ γ) (singleRow : Bool) (row : ρ) (rest : List (Option ρ)) :
    Stepped φ ρ γ :=
  if singleRow then (.ok [row], a)
  else a.nextRow fun a =>
    match rest with
    | [] => (.ok [row], a)
    | _ :: _ => (.error (.failure .corruptStore), a)

/-- The loop of an `.at_most` read, with `items` decoded. -/
def atMostRows (max : Nat) (singleRow : Bool) (items : List ρ) :
    List (Option ρ) → Access φ ρ γ → Stepped φ ρ γ
  | [], a => a.nextRow fun a => (.ok items, a)
  | row :: rest, a => a.nextRow fun a =>
    if items.length = max then (.error (.failure .corruptStore), a)
    else
      match row with
      | none => (.error (.failure .corruptStore), a)
      | some row =>
        if singleRow then (.ok (items ++ [row]), a)
        else atMostRows max singleRow (items ++ [row]) rest a

/-- The loop of an `.each` read, whose visitor saw `seen`. -/
def eachRows (visit : List ρ → Bool) (seen : List ρ) :
    Nat → List (Option ρ) → Access φ ρ γ → Stepped φ ρ γ
  | 0, _, a => (.ok seen, a)
  | _ + 1, [], a => a.nextRow fun a => (.ok seen, a)
  | limit + 1, row :: rest, a => a.nextRow fun a =>
    match row with
    | none => (.error (.failure .corruptStore), a)
    | some row =>
      if visit (seen ++ [row]) then eachRows visit (seen ++ [row]) limit rest a
      else (.ok (seen ++ [row]), a)

/-- `runRead`, `runInto` and `runEach`. -/
def runRead (a : Access φ ρ γ) (read : Read φ ρ) (rows : List (Option ρ)) : Stepped φ ρ γ :=
  match read.cardinality with
  | .one => a.nextRow fun a =>
    match rows with
    | [] | none :: _ => (.error (.failure .corruptStore), a)
    | some row :: rest => a.lastRow read.singleRow row rest
  | .optional => a.nextRow fun a =>
    match rows with
    | [] => (.ok [], a)
    | none :: _ => (.error (.failure .corruptStore), a)
    | some row :: rest => a.lastRow read.singleRow row rest
  | .atMost max => atMostRows max read.singleRow [] rows a
  | .each limit visit => eachRows visit [] limit rows a

/-- `stepWrite` and the guard: MySQL's answer comes from its connection. -/
def runWrite (a : Access φ ρ γ) (expect : Expect γ) (changed : Nat) : Stepped φ ρ γ :=
  match a.network with
  | (.ok (), a) => ((expect.check changed).map fun _ => [], a)
  | (.error name, a) => (.error (.failure name), a)

/-- What a statement's runner makes of its answer. -/
def respond (a : Access φ ρ γ) (work : Work φ ρ γ) (answer : Answer ρ) : Stepped φ ρ γ :=
  match answer, work with
  | .error name, _ => (.error (.failure name), a)
  | .rows rows, .read read => a.runRead read rows
  | .changed changed, .write _ _ expect => a.runWrite expect changed
  | .changed _, .piece _ _ => (.ok [], a)
  | _, _ => (.error (.failure .corruptStore), a)

/-- Steps one queued statement. -/
def runEntry (a : Access φ ρ γ) (work : Work φ ρ γ) : Stepped φ ρ γ :=
  let (answer, a) := a.answer work
  a.respond work answer

/-! ## Passes -/

/-- Records a failure of a pass's end: an ordinary one cannot replace the first, a lost connection
or ownership does. -/
def latch (a : Access φ ρ γ) : Except Failure Unit → Access φ ρ γ
  | .ok () => a
  | .error name =>
    if a.failure.isNone || name.fences then a.record (.failure name) else a

/-- Nothing bound is left to send. -/
def sent (a : Access φ ρ γ) : Access φ ρ γ := { a with wire := { a.wire with batch := [] } }

/-- MySQL's server runs the batch; its controls may fail. -/
def startPass (a : Access φ ρ γ) : Except Failure Unit × Access φ ρ γ :=
  match a.kind with
  | .sqlite => (.ok (), a)
  | .mysql => (a.serve a.wire.batch).sent.engine

/-- Reads what is left of the answers. -/
def finishPass (a : Access φ ρ γ) : Except Failure Unit × Access φ ρ γ :=
  let (ended, a) := a.network
  (ended, { a with wire := { a.wire with answers := [], longQuery := false } })

/-- Drops what was bound and not sent. -/
def discardBatch (a : Access φ ρ γ) : Except Failure Unit × Access φ ρ γ :=
  let (ended, a) := if a.wire.longQuery then a.finishPass else (.ok (), a)
  let dropped := match ended with
    | .ok () => .ok ()
    | .error name => if name.fences then .error name else .ok ()
  (dropped, { a with wire := {} })

/-- Empties the queue. -/
def resetQueued (a : Access φ ρ γ) : Except Failure Unit × Access φ ρ γ :=
  { a with queue := [] }.discardBatch

/-- `work` is stepped. -/
def enter (a : Access φ ρ γ) (work : Work φ ρ γ) : Access φ ρ γ :=
  { a with ledger := { a.ledger with stepped := a.ledger.stepped ++ [work] } }

/-- What it returned. -/
def receive (a : Access φ ρ γ) (rows : List ρ) : Access φ ρ γ :=
  { a with ledger := { a.ledger with results := a.ledger.results ++ [rows] } }

/-- The queued statements in order, up to the first that fails. -/
def stepAll (a : Access φ ρ γ) : List (Queued φ ρ γ) → Access φ ρ γ
  | [] => a
  | entry :: rest =>
    if a.failure.isSome then a
    else
      match (a.enter entry.work).runEntry entry.work with
      | (.ok rows, a) => (a.receive rows).stepAll rest
      | (.error e, a) =>
        stepAll { a.record e with failedSql := some entry.statement.sql } rest

/-- A pass that has something to step starts it. -/
def start (a : Access φ ρ γ) : Access φ ρ γ :=
  if !a.queue.isEmpty && a.failure.isNone then
    match a.startPass with
    | (.ok (), a) => a
    | (.error name, a) => a.record (.failure name)
  else a

/-- An engine pass: steps every queued statement in order, then empties the queue. -/
def pass (a : Access φ ρ γ) : Access φ ρ γ :=
  let queue := a.queue
  let a := a.start.stepAll queue
  let a := if queue.isEmpty then a else a.finishPass.2.latch a.finishPass.1
  a.resetQueued.2.latch a.resetQueued.1

/-! ## Queuing -/

/-- Opens the transaction of a write Access before its first statement. -/
def ensureOpen (a : Access φ ρ γ) : Access φ ρ γ :=
  if a.body.opened || a.failure.isSome then a
  else
    match a.body.ensureOpen with
    | (.ok, body) => { a with body }
    | (.failed, body) =>
      let (name, a) := { a with body }.fail
      a.record (.failure name)
    | (.panic, body) => { a with body, panicked := true }

def failWith (a : Access φ ρ γ) (name : Failure) : Bool × Access φ ρ γ :=
  (false, a.record (.failure name))

/-- What is not the Access's to decide when it queues a statement. -/
structure Circumstance where
  /-- What the clock says, if it can be read. -/
  clock : Option Nat := some 1
  /-- Whether the text fits what is left of MySQL's batch. -/
  fits : Bool := true
  /-- Whether it would not fit an empty batch either. -/
  long : Bool := false

/-- `S`'s handle, for `bind` and the pass that steps it. -/
def statementFor (a : Access φ ρ γ) (statement : Statement) :
    Except Failure (Option Statement) × Access φ ρ γ :=
  match a.kind with
  | .mysql => (.ok none, a)
  | .sqlite =>
    let (prepared, a) := a.engine
    (prepared.map fun _ => some statement, a)

/-- Whether the statement fits the pending batch. SQLite binds in place. -/
def fits (a : Access φ ρ γ) (given : Circumstance) : Except Failure Bool × Access φ ρ γ :=
  match a.kind with
  | .sqlite => (.ok true, a)
  | .mysql =>
    let (checked, a) := a.engine
    (checked.map fun _ => !a.wire.longQuery && (a.wire.batch.isEmpty || given.fits), a)

/-- The statement joins MySQL's batch. -/
def append (a : Access φ ρ γ) (work : Work φ ρ γ) : Access φ ρ γ :=
  { a with wire := { a.wire with batch := a.wire.batch ++ [work] } }

/-- The statement is sent alone. -/
def stream (a : Access φ ρ γ) (work : Work φ ρ γ) : Access φ ρ γ :=
  let a := a.serve [work]
  { a with wire := { a.wire with longQuery := true } }

/-- Binds the statement. MySQL runs one that no batch can hold at once. -/
def bind (a : Access φ ρ γ) (work : Work φ ρ γ) (given : Circumstance) :
    Except Failure Unit × Access φ ρ γ :=
  let (bound, a) := a.engine
  match bound, a.kind with
  | .error name, _ => (.error name, a)
  | .ok (), .sqlite => (.ok (), a)
  | .ok (), .mysql =>
    (.ok (), if given.long && a.wire.batch.isEmpty then a.stream work else a.append work)

/-- The second bound to `@now`, if the statement uses it. -/
def transactionSecond (a : Access φ ρ γ) (statement : Statement) (given : Circumstance) :
    Bool × Access φ ρ γ :=
  if statement.usesNow then
    let (outcome, store) := a.body.store.transactionSecond given.clock
    (outcome = .ok, { a with body := { a.body with store } })
  else (true, a)

/-- A pass when the queue is full. -/
def reserve (a : Access φ ρ γ) : Access φ ρ γ :=
  if a.failure.isNone && a.queue.length = maxQueued then a.pass else a

/-- `work` is queued. -/
def enlist (a : Access φ ρ γ) (work : Work φ ρ γ) : Access φ ρ γ :=
  { a with ledger := { a.ledger with queued := a.ledger.queued ++ [work] } }

/-- The end of `queueStatement`: a slot for the bound statement. -/
def bindQueued (a : Access φ ρ γ) (entry : Queued φ ρ γ) (given : Circumstance) :
    Bool × Access φ ρ γ :=
  let a := a.reserve
  if a.failure.isSome then (false, a)
  else
    match a.bind entry.work given with
    | (.error name, a) => a.failWith name
    | (.ok (), a) =>
      (true, { a.enlist entry.work with queue := a.queue ++ [entry] })

/-- Binding a queued statement would replace the arguments it has not stepped with yet. -/
def rebind (a : Access φ ρ γ) (handle : Option Statement) : Access φ ρ γ :=
  if handle.isSome && a.queue.any fun entry => entry.handle == handle then a.pass else a

/-- Binds and queues a statement. True when it queued. -/
def queueStatement (a : Access φ ρ γ) (statement : Statement) (work : Work φ ρ γ)
    (given : Circumstance) : Bool × Access φ ρ γ :=
  let a := a.ensureOpen
  if a.failure.isSome || a.panicked then (false, a)
  else
    match a.statementFor statement with
    | (.error name, a) => a.failWith name
    | (.ok handle, a) =>
      let a := a.rebind handle
      match a.transactionSecond statement given with
      | (false, a) => a.failWith .clockReadFailed
      | (true, a) =>
        match a.fits given with
        | (.error name, a) => a.failWith name
        | (.ok fits, a) =>
          let a := if fits then a else a.pass
          a.bindQueued { statement, handle, work } given

/-! ## Calls -/

def touch (a : Access φ ρ γ) (head : Head) : Access φ ρ γ :=
  { a with body := a.body.touch ⟨head.ref, head.workspaceKey⟩ }

/-- What a call answers. -/
inductive Reply (γ : Type)
  | none
  /-- What a round reports. -/
  | round (failed : Option (Error γ))
  | value (value : Nat)
  /-- An error of the call's own, which ends the transition. -/
  | raised (e : Error γ)
  deriving DecidableEq, Repr

/-- `read`, `readInto`, `readEach` and `readEachFrom`. -/
def read (a : Access φ ρ γ) (statement : Statement) (read : Read φ ρ) (given : Circumstance) :
    Access φ ρ γ :=
  (a.queueStatement statement (.read read) given).2

/-- `write` and `writeCount`: touches each Session the write names. -/
def write (a : Access φ ρ γ) (statement : Statement) (sessions : List Head)
    (change : Change (Rows φ)) (expect : Expect γ) (given : Circumstance) : Access φ ρ γ :=
  let a := sessions.foldl touch a
  (a.queueStatement statement (.write change a.body.handed expect) given).2

def run (a : Access φ ρ γ) : Reply γ × Access φ ρ γ :=
  let a := a.pass
  (.round a.failure, a)

/-- Records that this Access changes `head`'s Session, and makes its position claimer. -/
def positions (a : Access φ ρ γ) (head : Head) : Reply γ × Access φ ρ γ :=
  let a := a.touch head
  if a.claims.any fun claim => claim.head.ref = head.ref then (.none, a)
  else if a.claims.length = maxClaims then (.raised (.failure .tooManyPositionClaims), a)
  else (.none, { a with
    claims := a.claims ++ [{ head, bounded := by have := head.bounded; simpa using this }] })

/-- `take` through the claimer of the Session `ref`. -/
def take (a : Access φ ρ γ) (ref : Id) (count : Nat) : Reply γ × Access φ ρ γ :=
  match a.claims.find? fun claim => claim.head.ref = ref with
  | none => (.none, a)
  | some claim =>
    match claim.take count with
    | none => (.raised (.failure .sessionPositionExhausted), a)
    | some (first, claimed) =>
      (.value first, { a with
        claims := a.claims.map fun claim => if claim.head.ref = ref then claimed else claim
        ledger := { a.ledger with handed := a.ledger.handed ++ [(ref, first, count)] } })

/-- A content id a sink may be opened on. -/
def hold (a : Access φ ρ γ) (contentId : Nat) : Access φ ρ γ :=
  { a with
    taken := a.taken.set (a.takenCount % maxTaken) contentId (Nat.mod_lt _ (by decide))
    takenCount := a.takenCount + 1 }

/-- The next value of `column`, inside this transaction. -/
def identity (a : Access φ ρ γ) (column : Identity) : Reply γ × Access φ ρ γ :=
  let a := a.ensureOpen
  match a.failure with
  | some e => (.raised e, a)
  | none =>
    match a.body.store.takeIdentity column with
    | (none, _) =>
      (.raised (.failure (if a.body.store.engine.inTransaction then .identityExhausted
        else .identityOutsideTransaction)), a)
    | (some id, _) =>
      let a := { a with body := (a.body.identity column).2 }
      (.value id, if column = .contentId then a.hold id else a)

/-- What a caller writes into an open sink, piece by piece. -/
def pieces (a : Access φ ρ γ) : List (Change (Rows φ)) → Reply γ × Access φ ρ γ
  | [] => (.none, a)
  | change :: rest =>
    let work : Work φ ρ γ := .piece change a.body.handed
    match a.execute work with
    | (.error name, a) => (.raised (.failure name), a)
    | (_, a) =>
      (((a.enlist work).enter work).receive []).pieces rest

/-- A sink for the payload of a content row, and what its caller writes into it. -/
def contentSink (a : Access φ ρ γ) (contentId : Nat) (writes : List (Change (Rows φ))) :
    Reply γ × Access φ ρ γ :=
  match a.failure with
  | some e => (.raised e, a)
  | none =>
    if contentId = 0 ∨ contentId ∉ a.taken.toList then (.raised (.failure .contentNotInserted), a)
    else
      let a := a.pass
      match a.failure with
      | some e => (.raised e, a)
      | none =>
        match a.engine with
        | (.error name, a) => (.raised (.failure name), a)
        | (.ok (), a) => a.pieces writes

/-- Queues the compare-and-set of each claim that took positions. -/
def queueAdvances (a : Access φ ρ γ) (given : Circumstance) : List Positions → Access φ ρ γ
  | [] => a
  | claim :: rest =>
    if claim.taken ≠ 0 then
      queueAdvances (a.queueStatement advanceStatement (claim.advance a.body.handed) given).2 given
        rest
    else queueAdvances a given rest

/-- The claims whose compare-and-sets are queued. -/
def settle (a : Access φ ρ γ) : Access φ ρ γ :=
  { a with ledger := { a.ledger with settled := a.claims } }

/-- `a.claims.clear()`. -/
def unclaim (a : Access φ ρ γ) : Access φ ρ γ := { a with claims := [] }

/-- The queued writes, then one compare-and-set per claiming Session. -/
def finishWrites (a : Access φ ρ γ) (given : Circumstance) :
    Except (Error γ) Unit × Access φ ρ γ :=
  let a := a.ensureOpen
  let a := if a.kind = .sqlite then a.pass else a
  match a.failure with
  | some e => (.error e, a)
  | none =>
    let a := (a.settle.queueAdvances given a.claims).pass.unclaim
    match a.failure with
    | some e => (.error e, a)
    | none => (.ok (), a)

/-- COMMIT is issued. -/
def issue (a : Access φ ρ γ) : Access φ ρ γ :=
  { a with ledger := { a.ledger with issued := true } }

/-- Runs the queued writes and the compare-and-sets, then COMMIT. -/
def commit (a : Access φ ρ γ) (given : Circumstance) : Reply γ × Access φ ρ γ :=
  match a.finishWrites given with
  | (.error e, a) => (.raised e, a)
  | (.ok (), a) =>
    let a := a.issue
    match a.body.store.commit with
    | (.ok, store) => (.round none, { a with body := { a.body with store }, ended := true })
    | (.failed, store) =>
      let (name, a) := { a with body := { a.body with store } }.fail
      (.raised (.failure name), a.record (.failure name))
    | (.panic, store) => (.none, { a with body := { a.body with store }, panicked := true })

/-- Ends a write Access without committing. -/
def abandon (a : Access φ ρ γ) : Except Failure Unit × Access φ ρ γ :=
  if a.ended then (.ok (), a)
  else
    let (discarded, a) := a.resetQueued
    let a := { a.unclaim with ended := true }
    if a.body.opened then
      match a.body.store.rollbackAfterError with
      | (true, store) => (discarded, { a with body := { a.body with store } })
      | (false, store) =>
        (.error .canonicalRollbackFailed, { a with body := { a.body with store } })
    else (discarded, a)

inductive Call (φ ρ γ : Type)
  | read (statement : Statement) (read : Read φ ρ) (given : Circumstance)
  | write (statement : Statement) (sessions : List Head) (change : Change (Rows φ))
    (expect : Expect γ) (given : Circumstance)
  | positions (head : Head)
  | take (ref : Id) (count : Nat)
  | identity (column : Identity)
  | contentSink (contentId : Nat) (writes : List (Change (Rows φ)))
  | run
  | commit (given : Circumstance)

def call (a : Access φ ρ γ) : Call φ ρ γ → Reply γ × Access φ ρ γ
  | .read statement read given => (.none, a.read statement read given)
  | .write statement sessions change expect given =>
    (.none, a.write statement sessions change expect given)
  | .positions head => a.positions head
  | .take ref count => a.take ref count
  | .identity column => a.identity column
  | .contentSink contentId writes => a.contentSink contentId writes
  | .run => a.run
  | .commit given => a.commit given

/-- The calls of a transition: it ends where it commits, and where a call raises an error, which
every call site hands on. -/
def calls (a : Access φ ρ γ) : List (Call φ ρ γ) → Option (Error γ) × Access φ ρ γ
  | [] => (none, a)
  | c :: rest =>
    match a.call c with
    | (.raised e, a) => (some e, a)
    | (_, a) => if a.ended then (none, a) else a.calls rest

/-- An Access under an entry's lock. -/
def «open» (kind : Kind) (store : Store (Rows φ)) (names : List Failure) : Access φ ρ γ :=
  { kind, body := { store }, names }

end Access

end Rui.Rounds
