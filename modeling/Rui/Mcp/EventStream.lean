import Rui.Library.Checks
import Rui.Library.ServerSentEvents

/-!
# An event stream read as it arrives

`EventStream` reads a `text/event-stream` body one byte at a time and keeps
what a later byte can depend on: how far it is in its line, the start of the
field's name, and whether the event has data. The data itself goes to the
caller's writer.
-/

namespace Rui.Mcp

open Library

/-! ## The reader -/

def bom : List UInt8 := [0xEF, 0xBB, 0xBF]

inductive Error
  /-- An event's data outgrew the caller's writer. -/
  | eventTooLarge
  deriving DecidableEq, Repr

/-- A writer over a fixed buffer. -/
structure Writer where
  capacity : Nat
  buffered : List UInt8
  deriving DecidableEq, Repr

def Writer.fixed (capacity : Nat) : Writer := ⟨capacity, []⟩

/-- A full buffer refuses the byte; the reader names that error for its caller. -/
def Writer.writeByte (data : Writer) (byte : UInt8) : Except Error Writer :=
  if data.buffered.length < data.capacity then
    .ok { data with buffered := data.buffered ++ [byte] }
  else .error .eventTooLarge

inductive State
  /-- At the first byte of a line. -/
  | lineStart
  /-- Reading a field name; `name` holds its start. -/
  | name
  /-- Just after a field's colon: one space here is not part of the value. -/
  | valueStart
  | value
  /-- The rest of a comment or of a field nobody reads. -/
  | skip
  deriving DecidableEq, Repr

structure EventStream where
  state : State := .lineStart
  /-- Enough of a field name to tell `data` from every other name. -/
  name : List UInt8 := List.replicate 5 0
  nameLen : Nat := 0
  /-- The field being read is `data`. -/
  dataField : Bool := false
  /-- A CR ended the last line, so an LF right after it ends nothing. -/
  afterCr : Bool := false
  /-- The current event has a data line: a blank line then dispatches it. -/
  hasData : Bool := false
  /-- How much of a leading byte order mark has been read; 3 once the stream is past it. -/
  bomRead : Nat := 0
  deriving DecidableEq, Repr

structure Step where
  used : Nat
  /-- An event is complete and its data is all in the writer. -/
  dispatched : Bool
  deriving DecidableEq, Repr

namespace EventStream

/-- The length saturates at the largest `u8`. -/
def addName (stream : EventStream) (byte : UInt8) : EventStream :=
  { stream with
    name := if stream.nameLen < 5 then stream.name.set stream.nameLen byte else stream.name
    nameLen := min 255 (stream.nameLen + 1) }

def isData (stream : EventStream) : Bool :=
  stream.nameLen == 4 && stream.name.take 4 == text "data"

/-- The field's name is complete: a data field after an earlier data line
first gets the LF that joins them. -/
def startValue (stream : EventStream) (data : Writer) : Except Error (EventStream × Writer) :=
  if stream.isData then
    if stream.hasData then do
      let data ← data.writeByte (ascii '\n')
      .ok ({ stream with dataField := true }, data)
    else .ok ({ stream with dataField := true, hasData := true }, data)
  else .ok ({ stream with dataField := false, state := .skip }, data)

def addValue (stream : EventStream) (data : Writer) (byte : UInt8) : Except Error Writer :=
  if stream.dataField then data.writeByte byte else .ok data

/-- Ends a line; says whether it was the blank line that dispatches an event. -/
def endLine (stream : EventStream) (data : Writer) :
    Except Error (EventStream × Writer × Bool) :=
  match stream.state with
  | .lineStart =>
    if stream.hasData then .ok ({ stream with hasData := false }, data, true)
    else .ok (stream, data, false)
  -- A name with no colon is a field with an empty value.
  | .name => do
    let (stream, data) ← stream.startValue data
    .ok ({ stream with dataField := false, state := .lineStart }, data, false)
  | _ => .ok ({ stream with dataField := false, state := .lineStart }, data, false)

/-- A byte of a line. -/
def readField (stream : EventStream) (data : Writer) (byte : UInt8) :
    Except Error (EventStream × Writer) :=
  match stream.state with
  | .lineStart =>
    if byte = ascii ':' then .ok ({ stream with state := .skip }, data)
    else .ok (addName { stream with state := .name, nameLen := 0 } byte, data)
  | .name =>
    if byte = ascii ':' then do
      let (stream, data) ← stream.startValue data
      .ok (if stream.dataField then { stream with state := .valueStart } else stream, data)
    else .ok (stream.addName byte, data)
  | .valueStart =>
    if byte = ascii ' ' then .ok ({ stream with state := .value }, data)
    else do
      let data ← stream.addValue data byte
      .ok ({ stream with state := .value }, data)
  | .value => do
    let data ← stream.addValue data byte
    .ok (stream, data)
  | .skip => .ok (stream, data)

/-- A byte past the mark: the LF of a CRLF, a line's end, or a byte of a line. -/
def readByte (stream : EventStream) (data : Writer) (byte : UInt8) :
    Except Error (EventStream × Writer × Bool) :=
  if stream.afterCr ∧ byte = ascii '\n' then .ok ({ stream with afterCr := false }, data, false)
  else if byte = ascii '\r' ∨ byte = ascii '\n' then
    endLine { stream with afterCr := byte == ascii '\r' } data
  else do
    let (stream, data) ← readField { stream with afterCr := false } data byte
    .ok (stream, data, false)

/-- A byte at the start of the stream may belong to a byte order mark. -/
def readMark (stream : EventStream) (data : Writer) (byte : UInt8) :
    Except Error (EventStream × Writer × Bool) :=
  if stream.bomRead ≠ 3 then
    if bom[stream.bomRead]? = some byte then
      .ok ({ stream with bomRead := stream.bomRead + 1 }, data, false)
    else readByte { stream with bomRead := 3 } data byte
  else stream.readByte data byte

/-- Reads `input` up to and including the end of the next event, writing its
data to `data`. -/
def next (stream : EventStream) (data : Writer) :
    List UInt8 → Except Error (EventStream × Writer × Step)
  | [] => .ok (stream, data, ⟨0, false⟩)
  | byte :: rest => do
    let (stream, data, dispatched) ← stream.readMark data byte
    if dispatched then .ok (stream, data, ⟨1, true⟩)
    else do
      let (stream, data, step) ← next stream data rest
      .ok (stream, data, ⟨step.used + 1, step.dispatched⟩)

theorem next_used {stream stream' : EventStream} {data data' : Writer} {input : List UInt8}
    {step : Step} (h : stream.next data input = .ok (stream', data', step)) :
    (step.dispatched = true → 0 < step.used) ∧ step.used ≤ input.length := by
  induction input generalizing stream data step with
  | nil =>
    cases h
    exact ⟨fun h => (nomatch h), Nat.le_refl _⟩
  | cons byte rest ih =>
    rw [next, bind_eq_ok] at h
    obtain ⟨⟨stream₁, data₁, dispatched⟩, -, h⟩ := h
    cases dispatched with
    | true =>
      cases h
      exact ⟨fun _ => Nat.one_pos, Nat.succ_le_succ (Nat.zero_le _)⟩
    | false =>
      simp only [Bool.false_eq_true, if_false, bind_eq_ok] at h
      obtain ⟨⟨stream₂, data₂, step₂⟩, hnext, h⟩ := h
      cases h
      exact ⟨fun _ => Nat.succ_pos _, Nat.succ_le_succ (ih hnext).2⟩

end EventStream

/-! ## A body read in pieces -/

/-- What a driver holds between two reads. -/
structure Collecting where
  stream : EventStream
  data : Writer
  events : List (List UInt8)
  deriving DecidableEq, Repr

/-- One read: `next` until it needs more, the writer emptied at each dispatch. -/
def collectRead (now : Collecting) (rest : List UInt8) : Except Error Collecting :=
  match _h : now.stream.next now.data rest with
  | .error e => .error e
  | .ok (stream, data, step) =>
    if _hd : step.dispatched then
      collectRead ⟨stream, .fixed data.capacity, now.events ++ [data.buffered]⟩
        (rest.drop step.used)
    else .ok ⟨stream, data, now.events⟩
termination_by rest.length
decreasing_by
  have hused := EventStream.next_used _h
  have := hused.1 _hd
  rw [List.length_drop]
  omega

/-- The events of a body that comes in these reads. -/
def collect (capacity : Nat) (reads : List (List UInt8)) : Except Error (List (List UInt8)) := do
  let now ← reads.foldlM collectRead ⟨{}, .fixed capacity, []⟩
  .ok now.events

end Rui.Mcp
