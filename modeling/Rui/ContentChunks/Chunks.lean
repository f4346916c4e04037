import Rui.Library.Decimal
import Rui.Library.Hex
import Rui.Mysql.Client

/-!
# Content in chunks

`SinkState` and `readRaw` of `store/engine/mysql_content.zig`, over a connection that takes what is
written to it or breaks, and that answers a query with any events.
-/

namespace Rui.ContentChunks

open Library Mysql

def chunkBytes : Nat := 128 * 1024

/-- `engine.Failure`. -/
inductive Failure where
  | storeConnectionLost | commitOutcomeUnknown | ownershipLost | bindFailed | integerOutOfRange
  | statementPrepareFailed | outOfMemory | statementFailed | canonicalStorageFull
  | canonicalRollbackFailed | corruptStore | contentWriteFailed | contentReadFailed
  | rangeOutOfBounds | sqliteExecFailed | clockReadFailed | sessionPositionExhausted
  | identityExhausted | identityOutsideTransaction | identityReadFailed | tooManyPositionClaims
  | contentNotInserted
  deriving DecidableEq, Repr

/-! ## The connection -/

/-- What the server answers a query with: these events, and then it is ready or lost. -/
structure Answer where
  events : List Event
  lost : Bool := false

/-- How each write ends, where it breaks after some bytes, and how each query is answered. -/
structure Net where
  breaks : Nat → Option Nat
  answer : Nat → Answer

/-- A query as it was announced, and what was written to it. -/
structure Query where
  announced : Nat
  text : List UInt8
  deriving DecidableEq, Repr

/-- A connection with the queries it sent, oldest first. -/
structure Connection where
  lost : Bool := false
  queries : List Query := []
  writes : Nat := 0
  deriving DecidableEq, Repr

/-- The observer's calls. -/
structure Observer where
  errors : List Nat := []
  contentQueries : Nat := 0
  deriving DecidableEq, Repr

namespace Connection

/-- The last query with more text. -/
def extend (queries : List Query) (bytes : List UInt8) : List Query :=
  queries.dropLast ++ (queries.getLast?.map fun query =>
    { query with text := query.text ++ bytes }).toList

/-- Writes to the query that was begun, and whether it did not break. -/
def write (net : Net) (self : Connection) (bytes : List UInt8) : Connection × Bool :=
  match net.breaks self.writes with
  | none => ({ self with queries := extend self.queries bytes, writes := self.writes + 1 }, true)
  | some taken =>
    ({ self with
        queries := extend self.queries (bytes.take taken), writes := self.writes + 1, lost := true },
      false)

def beginQuery (self : Connection) (textLen : Nat) : Option Connection :=
  if self.lost then none
  else if textLen + 1 > maxPayload then none
  else some { self with queries := self.queries ++ [⟨textLen, []⟩] }

/-- Sends what is still buffered. -/
def endQuery (net : Net) (self : Connection) : Connection × Bool :=
  if self.lost then (self, false)
  else match net.breaks self.writes with
    | none => ({ self with writes := self.writes + 1 }, true)
    | some _ => ({ self with writes := self.writes + 1, lost := true }, false)

/-- The answer to the last query. -/
def answer (net : Net) (self : Connection) : Answer := net.answer (self.queries.length - 1)

end Connection

/-! ## The server's answer to an insert -/

def serverFailure (code : Nat) : Failure :=
  if code = 1114 ∨ code = 1021 then .canonicalStorageFull else .statementFailed

/-- `changed` and `failure` of `finishInsert`. -/
structure Inserting where
  changed : Option Nat := none
  failure : Option Failure := none
  deriving DecidableEq, Repr

def Inserting.event (self : Inserting) : Event → Inserting
  | .ok ok =>
    { changed := some ok.affectedRows
      failure := if self.changed ≠ none then some .corruptStore else self.failure }
  | .err err => { self with failure := some (serverFailure err.code) }
  | .ready => self
  | _ => { self with failure := some .corruptStore }

/-- The codes of the server's errors, which the observer is told. -/
def errorCodes (events : List Event) : List Nat :=
  events.filterMap fun event =>
    match event with
    | .err err => some err.code
    | _ => none

def finishInsert (answer : Answer) : Except Failure Nat :=
  let inserting := answer.events.foldl Inserting.event {}
  if answer.lost then .error .storeConnectionLost
  else match inserting.failure with
    | some err => .error err
    | none => if inserting.changed ≠ some 1 then .error .corruptStore else .ok 1

/-! ## The sink -/

/-- `insert_prefix` with an id and an index. -/
def insertStart (id index : Nat) : List UInt8 :=
  text "INSERT INTO content_chunk(content_id,chunk_index,bytes) VALUES(" ++ decimal id ++ text "," ++
    decimal index ++ text ",X'"

inductive WriteError where
  | contentWriteFailed | contentTooLarge
  deriving DecidableEq, Repr

/-- A sink, with the engine's failure and changes it points to. `remaining` is what the query that
was begun is still owed, and zero between chunks. -/
structure SinkState where
  opened : Bool := true
  connection : Connection := {}
  failure : Option Failure := none
  changes : Int := 0
  observer : Observer := {}
  id : Nat
  length : Nat
  position : Nat := 0
  remaining : Nat := 0
  deriving DecidableEq, Repr

namespace SinkState

variable (net : Net)

def latch (self : SinkState) (err : Failure) : SinkState :=
  if self.failure = none ∨ err = .storeConnectionLost then { self with failure := some err }
  else self

/-- Writes to the connection. -/
def send (self : SinkState) (bytes : List UInt8) : SinkState × Bool :=
  let (connection, taken) := self.connection.write net bytes
  ({ self with connection := connection }, taken)

def beginChunk (self : SinkState) (index length : Nat) : SinkState × Option Failure :=
  let size := (insertStart self.id index).length + length * 2 + 2
  let self :=
    { self with
      observer := { self.observer with contentQueries := self.observer.contentQueries + 1 } }
  match self.connection.beginQuery size with
  | none => (self, some .storeConnectionLost)
  | some connection =>
    match send net { self with connection := connection } (insertStart self.id index) with
    | (self, true) => (self, none)
    | (self, false) => (self, some .storeConnectionLost)

def endChunk (self : SinkState) : SinkState × Except Failure Nat :=
  match self.send net (text "')") with
  | (self, false) => (self, .error .storeConnectionLost)
  | (self, true) =>
    match self.connection.endQuery net with
    | (connection, false) => ({ self with connection := connection }, .error .storeConnectionLost)
    | (connection, true) =>
      let answer := connection.answer net
      ({ self with
          connection := { connection with lost := connection.lost || answer.lost }
          observer :=
            { self.observer with errors := self.observer.errors ++ errorCodes answer.events } },
        finishInsert answer)

/-- The head of a round of `append`: a chunk is begun unless one is. -/
def ready (self : SinkState) : SinkState × Option Failure :=
  if self.remaining = 0 then
    let n := min chunkBytes (self.length - self.position)
    match self.beginChunk net (self.position / chunkBytes) n with
    | (self, none) => ({ self with remaining := n }, none)
    | (self, some err) => (self, some err)
  else (self, none)

/-- The rest of a round: what fits of the bytes is written, and a full chunk is ended. -/
def fill (self : SinkState) (bytes : List UInt8) : SinkState × Except Failure (List UInt8) :=
  let n := min bytes.length self.remaining
  match self.send net (toHex (bytes.take n)) with
  | (self, false) => (self, .error .storeConnectionLost)
  | (self, true) =>
    let self := { self with remaining := self.remaining - n, position := self.position + n }
    if self.remaining = 0 then
      match self.endChunk net with
      | (self, .ok changed) => ({ self with changes := self.changes + changed }, .ok (bytes.drop n))
      | (self, .error err) => (self, .error err)
    else (self, .ok (bytes.drop n))

/-- The loop of `append`, which takes a byte at least in each round. -/
def append : Nat → SinkState → List UInt8 → SinkState × Option Failure
  | _, self, [] => (self, none)
  | 0, self, _ :: _ => (self, none)
  | fuel + 1, self, first :: rest =>
    match self.ready net with
    | (self, some err) => (self, some err)
    | (self, none) =>
      match self.fill net (first :: rest) with
      | (self, .ok more) => append fuel self more
      | (self, .error err) => (self, some err)

def write (self : SinkState) (bytes : List UInt8) (offset : Nat) :
    SinkState × Except WriteError Unit :=
  if self.opened = false ∨ self.failure ≠ none then (self, .error .contentWriteFailed)
  else if offset > self.length ∨ bytes.length > self.length - offset then
    (self, .error .contentTooLarge)
  else if offset ≠ self.position then (self, .error .contentWriteFailed)
  else
    match append net bytes.length self bytes with
    | (self, none) => (self, .ok ())
    | (self, some err) => (self.latch err, .error .contentWriteFailed)

/-- The loop of `close`, which fills the query with zeros. -/
def fillZeros : Nat → SinkState → SinkState × Bool
  | 0, self => (self, true)
  | fuel + 1, self =>
    if self.remaining = 0 then (self, true)
    else
      let n := min self.remaining 128
      match self.send net (toHex (List.replicate n 0)) with
      | (self, false) => (self, false)
      | (self, true) => fillZeros fuel { self with remaining := self.remaining - n }

def close (self : SinkState) : SinkState :=
  if self.opened = false then self
  else if self.remaining = 0 ∨ self.connection.lost = true then { self with opened := false }
  else
    match fillZeros net self.remaining self with
    | (self, false) => { self.latch .storeConnectionLost with opened := false }
    | (self, true) =>
      match self.endChunk net with
      | (self, .error err) => { self.latch err with opened := false }
      | (self, .ok changed) => { self with changes := self.changes + changed, opened := false }

end SinkState

/-! ## Reading -/

/-- `select_piece` for the bytes at a position. -/
def selectPiece (id position n : Nat) : List UInt8 :=
  text "SELECT chunk_index,SUBSTRING(bytes," ++ decimal (position % chunkBytes + 1) ++ text "," ++
    decimal n ++ text ") AS part FROM content_chunk WHERE content_id=" ++ decimal id ++
    text " AND chunk_index=" ++ decimal (position / chunkBytes)

def selectStart : List UInt8 := text "SELECT part FROM ("

def selectEnd : List UInt8 := text ") AS chunks ORDER BY chunk_index"

def unionAll : List UInt8 := text " UNION ALL "

/-- The bytes of a chunk from a position on, of those left. -/
def inChunk (position left : Nat) : Nat := min left (chunkBytes - position % chunkBytes)

/-- The loop that sizes the query. -/
def sizePieces (id offset : Nat) : Nat → Nat → Nat → Nat → Nat
  | 0, size, _, _ => size
  | fuel + 1, size, position, left =>
    if left = 0 then size
    else
      let n := inChunk position left
      let size := if position ≠ offset then size + unionAll.length else size
      let size := size + (selectPiece id position n).length
      sizePieces id offset fuel size (position + n) (left - n)

/-- Goes on where the connection took what was written. -/
def andThen (sent : Connection × Bool) (next : Connection → Connection × Bool) : Connection × Bool :=
  if sent.2 = true then next sent.1 else sent

/-- The loop that writes the query. -/
def writePieces (net : Net) (id offset : Nat) : Nat → Connection → Nat → Nat → Connection × Bool
  | 0, connection, _, _ => (connection, true)
  | fuel + 1, connection, position, left =>
    if left = 0 then (connection, true)
    else
      let n := inChunk position left
      andThen (if position ≠ offset then connection.write net unionAll else (connection, true))
        fun connection => andThen (connection.write net (selectPiece id position n))
          fun connection => writePieces net id offset fuel connection (position + n) (left - n)

/-- What `readRaw` keeps while it takes the answer; `filled` is the start of `dest`. -/
structure Reading where
  failure : Option Failure := none
  filled : List UInt8 := []
  valueLeft : Nat := 0
  rows : Nat := 0
  columns : Nat := 0
  awaitingValue : Bool := false
  deriving DecidableEq, Repr

/-- The column types of a `blob`, `binary` or `varbinary` value. -/
def isStringType (type : Nat) : Bool :=
  type = 15 || type = 253 || type = 254 || type = 249 || type = 250 || type = 251 || type = 252

def Reading.event (offset len : Nat) (self : Reading) : Event → Reading
  | .columns n => if n ≠ 1 then { self with failure := some .corruptStore } else self
  | .column column =>
    { self with
      columns := self.columns + 1
      failure :=
        if column.charset ≠ 63 ∨ isStringType column.type = false then some .corruptStore
        else self.failure }
  | .row =>
    { self with
      failure :=
        if self.awaitingValue = true ∨ self.valueLeft ≠ 0 then some .corruptStore else self.failure
      awaitingValue := true
      rows := self.rows + 1 }
  | .value maybe =>
    let n := maybe.getD 0
    let expected := inChunk (offset + self.filled.length) (len - self.filled.length)
    { self with
      failure :=
        if self.awaitingValue = false ∨ n ≠ expected ∨ n = 0 then some .corruptStore
        else self.failure
      awaitingValue := false
      valueLeft := n }
  | .bytes bytes =>
    if bytes.length > self.valueLeft ∨ bytes.length > len - self.filled.length then
      { self with failure := some .corruptStore }
    else
      { self with filled := self.filled ++ bytes, valueLeft := self.valueLeft - bytes.length }
  | .err err => { self with failure := some (serverFailure err.code) }
  | .rowsEnd _ => self
  | .ready => self
  | _ => { self with failure := some .corruptStore }

/-- What the answer fills the destination with. -/
def readAnswer (offset len : Nat) (answer : Answer) : Except Failure (List UInt8) :=
  let reading := answer.events.foldl (Reading.event offset len) {}
  if answer.lost then .error .storeConnectionLost
  else match reading.failure with
    | some err => .error err
    | none =>
      let expectedRows := (offset % chunkBytes + len - 1) / chunkBytes + 1
      if reading.filled.length ≠ len ∨ reading.valueLeft ≠ 0 ∨ reading.awaitingValue = true ∨
          reading.rows ≠ expectedRows ∨ reading.columns ≠ 1 then .error .corruptStore
      else .ok reading.filled

/-- The query of `readRaw`, to the end of its text. -/
def sendSelect (net : Net) (connection : Connection) (id offset len : Nat) : Connection × Bool :=
  andThen (connection.write net selectStart) fun connection =>
    andThen (writePieces net id offset len connection offset len) fun connection =>
      andThen (connection.write net selectEnd) fun connection => connection.endQuery net

/-- `readRaw` into a destination of this length: the observer's calls, and what it is filled with. -/
def readRaw (net : Net) (connection : Connection) (observer : Observer) (id offset len : Nat) :
    Connection × Observer × Except Failure (List UInt8) :=
  if len = 0 then (connection, observer, .ok [])
  else if len > 2 ^ 64 - 1 - offset then (connection, observer, .error .rangeOutOfBounds)
  else
    let size := sizePieces id offset len (selectStart.length + selectEnd.length) offset len
    let observer := { observer with contentQueries := observer.contentQueries + 1 }
    match connection.beginQuery size with
    | none => (connection, observer, .error .storeConnectionLost)
    | some connection =>
      match sendSelect net connection id offset len with
      | (connection, false) => (connection, observer, .error .storeConnectionLost)
      | (connection, true) =>
        let answer := connection.answer net
        ({ connection with lost := connection.lost || answer.lost },
          { observer with errors := observer.errors ++ errorCodes answer.events },
          readAnswer offset len answer)

end Rui.ContentChunks
