import Rui.Library.Ascii
import Rui.Library.Told

/-!
# The Postgres decoder

`Decoder` of `store/wire/pg.zig`: backend messages after startup's SSL answer.
Messages are read whole, but for rows, whose columns come one at a time and
whose long columns come in parts, and for errors and notices, which are read
field by field. A check the program must never fail (an `unreachable`, a counter
below zero) is a `panic`.
-/

namespace Rui.Postgres

open Library

def receiveBufferBytes : Nat := 16 * 1024
def maxInlineValueBytes : Nat := receiveBufferBytes - 4
def maxMessageBytes : Nat := receiveBufferBytes

inductive DecodeError
  | protocolViolation
  deriving DecidableEq, Repr

/-- A result, an error, or a panic. -/
abbrev Attempt (α : Type) := Except (Fault DecodeError) α

def violation {α : Type} : Attempt α := .error (.error .protocolViolation)

def unreachable {α : Type} : Attempt α := .error .panic

/-- A subtraction that must not underflow. -/
def sub (a b : Nat) : Attempt Nat := if b ≤ a then .ok (a - b) else unreachable

/-- `std.mem.readInt` of an unsigned type, big-endian. -/
def readInt (bytes : List UInt8) : Nat := bytes.foldl (fun value byte => 256 * value + byte.toNat) 0

/-! ## Messages -/

inductive TransactionStatus
  | idle
  | inTransaction
  | failed
  deriving DecidableEq, Repr

/-- A list of NUL-terminated strings ended by an empty one. -/
structure Strings where
  body : List UInt8
  deriving DecidableEq, Repr

inductive Authentication
  | ok
  | sasl (mechanisms : Strings)
  | saslContinue (data : List UInt8)
  | saslFinal (data : List UInt8)
  | other (code : Nat)
  deriving DecidableEq, Repr

structure RowDescription where
  columns : Nat
  body : List UInt8
  deriving DecidableEq, Repr

structure ParameterDescription where
  oids : List UInt8
  deriving DecidableEq, Repr

inductive Message
  | authentication (authentication : Authentication)
  | parameterStatus (name value : List UInt8)
  | backendKeyData (pid key : Nat)
  | readyForQuery (status : TransactionStatus)
  | parseComplete
  | bindComplete
  | noData
  | parameterDescription (description : ParameterDescription)
  | rowDescription (description : RowDescription)
  | commandComplete (tag : List UInt8)
  | emptyQuery
  deriving DecidableEq, Repr

/-- What is kept of an ErrorResponse. -/
structure Diagnostic where
  sqlstate : List UInt8 := List.replicate 5 (ascii '0')
  sqlstateLen : Nat := 0
  severityBuffer : List UInt8 := List.replicate 5 0
  severityLen : Nat := 0
  /-- What is written of `message_buffer`. -/
  message : List UInt8 := []
  deriving DecidableEq, Repr

inductive Event
  | message (message : Message)
  | row (columns : Nat)
  | value (value : Option (List UInt8))
  | valueBegin (len : Nat)
  | valuePart (bytes : List UInt8)
  | errorResponse (diagnostic : Diagnostic)
  deriving DecidableEq, Repr

/-! ## Reading a message -/

/-! A reader is the bytes it has not read. -/

def int (n : Nat) (reader : List UInt8) : Attempt (Nat × List UInt8) :=
  if reader.length < n then violation else .ok (readInt (reader.take n), reader.drop n)

def string (reader : List UInt8) : Attempt (List UInt8 × List UInt8) :=
  match reader.dropWhile (· ≠ 0) with
  | [] => violation
  | _ :: rest => .ok (reader.takeWhile (· ≠ 0), rest)

def skip (count : Nat) (reader : List UInt8) : Attempt (List UInt8) :=
  if reader.length < count then violation else .ok (reader.drop count)

/-- `reader.end` behind a message. -/
def atEnd (read : Message × List UInt8) : Attempt Message :=
  if read.2 ≠ [] then violation else .ok read.1

def parseAuthentication (body : List UInt8) : Attempt (Message × List UInt8) := do
  let (code, rest) ← int 4 body
  if code = 0 then .ok (.authentication .ok, rest)
  else if code = 10 then
    if rest.length < 2 ∨ rest.drop (rest.length - 2) ≠ [0, 0] then violation
    else .ok (.authentication (.sasl ⟨rest⟩), [])
  else if code = 11 then .ok (.authentication (.saslContinue rest), [])
  else if code = 12 then .ok (.authentication (.saslFinal rest), [])
  else .ok (.authentication (.other code), [])

def parseStatus (code : Nat) : Attempt TransactionStatus :=
  if code = (ascii 'I').toNat then .ok .idle
  else if code = (ascii 'T').toNat then .ok .inTransaction
  else if code = (ascii 'E').toNat then .ok .failed
  else violation

/-- The layout of the fields a row description must have. -/
def skipFields : Nat → List UInt8 → Attempt (List UInt8)
  | 0, reader => .ok reader
  | columns + 1, reader => do
    let (_, reader) ← string reader
    let reader ← skip 18 reader
    skipFields columns reader

/-- A message, and what is left of its body. -/
def parseBody (tag : UInt8) (body : List UInt8) : Attempt (Message × List UInt8) :=
  if tag = ascii 'R' then parseAuthentication body
  else if tag = ascii 'S' then do
    let (name, rest) ← string body
    let (value, rest) ← string rest
    .ok (.parameterStatus name value, rest)
  else if tag = ascii 'K' then do
    let (pid, rest) ← int 4 body
    let (key, rest) ← int 4 rest
    .ok (.backendKeyData pid key, rest)
  else if tag = ascii 'Z' then do
    let (code, rest) ← int 1 body
    let status ← parseStatus code
    .ok (.readyForQuery status, rest)
  else if tag = ascii '1' then .ok (.parseComplete, body)
  else if tag = ascii '2' then .ok (.bindComplete, body)
  else if tag = ascii 'n' then .ok (.noData, body)
  else if tag = ascii 'I' then .ok (.emptyQuery, body)
  else if tag = ascii 't' then do
    let (count, oids) ← int 2 body
    if oids.length ≠ count * 4 then violation else .ok (.parameterDescription ⟨oids⟩, [])
  else if tag = ascii 'T' then do
    let (columns, fields) ← int 2 body
    let rest ← skipFields columns fields
    .ok (.rowDescription ⟨columns, fields⟩, rest)
  else if tag = ascii 'C' then do
    let (tag, rest) ← string body
    .ok (.commandComplete tag, rest)
  else violation

def parseMessage (tag : UInt8) (body : List UInt8) : Attempt Message := do
  let read ← parseBody tag body
  atEnd read

/-! ## What a description lists -/

structure Field where
  name : List UInt8
  typeOid : Nat
  format : Nat
  deriving DecidableEq, Repr

/-- `catch unreachable`. -/
def surely {α : Type} : Attempt α → Attempt α
  | .ok a => .ok a
  | .error _ => unreachable

/-- One field of a row description, as its iterator reads it. -/
def field (reader : List UInt8) : Attempt (Field × List UInt8) := do
  let (name, reader) ← surely (string reader)
  let reader ← surely (skip 6 reader)
  let (oid, reader) ← surely (int 4 reader)
  let reader ← surely (skip 6 reader)
  let (format, reader) ← surely (int 2 reader)
  .ok (⟨name, oid, format⟩, reader)

/-- `Iterator.next` until it gives no field, or `calls` times. -/
def iterate : Nat → List UInt8 → Attempt (List Field)
  | 0, _ => .ok []
  | calls + 1, reader =>
    if reader = [] then .ok []
    else do
      let (first, rest) ← field reader
      let others ← iterate calls rest
      .ok (first :: others)

def RowDescription.fields (self : RowDescription) (calls : Nat) : Attempt (List Field) :=
  iterate calls self.body

def ParameterDescription.count (self : ParameterDescription) : Nat := self.oids.length / 4

/-- `oid`, whose slice must be within the list. -/
def ParameterDescription.oid (self : ParameterDescription) (index : Nat) : Attempt Nat :=
  if self.oids.length < index * 4 + 4 then unreachable
  else .ok (readInt ((self.oids.drop (index * 4)).take 4))

/-! ## Fields of an error or a notice -/

def keepCode (diagnostic : Diagnostic) : Nat → List UInt8 → Diagnostic
  | _, [] => diagnostic
  | i, byte :: rest =>
    keepCode { diagnostic with
      sqlstate := if i < 5 then diagnostic.sqlstate.set i byte else diagnostic.sqlstate
      sqlstateLen := min (i + 1) 6 } (i + 1) rest

def keepSeverity (diagnostic : Diagnostic) : Nat → List UInt8 → Diagnostic
  | _, [] => diagnostic
  | i, byte :: rest =>
    if diagnostic.severityBuffer.length ≤ i then { diagnostic with severityLen := 0 }
    else
      keepSeverity { diagnostic with
        severityBuffer := diagnostic.severityBuffer.set i byte
        severityLen := i + 1 } (i + 1) rest

def messageRoom : Nat := 128

def keepField (diagnostic : Diagnostic) (code : UInt8) (offset : Nat) (part : List UInt8) :
    Diagnostic :=
  if code = ascii 'C' then keepCode diagnostic offset part
  else if code = ascii 'V' then keepSeverity diagnostic offset part
  else if code = ascii 'M' then
    { diagnostic with
      message := diagnostic.message ++ part.take (messageRoom - diagnostic.message.length) }
  else diagnostic

structure Fields where
  notice : Bool := false
  code : Option UInt8 := none
  terminated : Bool := false
  seen : Nat := 0
  diagnostic : Diagnostic := {}
  deriving DecidableEq, Repr

/-- `feed`, on what is left of its bytes. -/
def Fields.feed (self : Fields) (bytes : List UInt8) (last : Bool) : Attempt Fields :=
  match bytes with
  | [] => .ok self
  | byte :: rest =>
    match self.code with
    | none =>
      if byte = 0 then
        if !last ∨ rest ≠ [] then violation else .ok { self with terminated := true }
      else feed { self with code := some byte, seen := 0 } rest last
    | some code =>
      let part := (byte :: rest).takeWhile (· ≠ 0)
      let kept : Fields := { self with
        diagnostic := keepField self.diagnostic code self.seen part
        seen := self.seen + part.length }
      match _h : (byte :: rest).dropWhile (· ≠ 0) with
      | [] => .ok kept
      | _ :: behind => feed { kept with code := none } behind last
termination_by bytes.length
decreasing_by
  · simp
  · have hlength := (List.dropWhile_sublist (· ≠ 0) (l := byte :: rest)).length_le
    rw [_h] at hlength
    simp only [List.length_cons] at hlength ⊢
    omega

/-! ## The decoder -/

inductive State
  | header
  | row
  | value
  | fields
  deriving DecidableEq, Repr

structure Decoder where
  state : State := .header
  left : Nat := 0
  columnsLeft : Nat := 0
  valueLeft : Nat := 0
  fields : Fields := {}
  deriving DecidableEq, Repr

/-- How one turn of `next`'s loop ends: it wants more, returns an event with
the bytes it consumed, or goes on behind them. -/
inductive Turn
  | more
  | event (count : Nat) (event : Event) (decoder : Decoder)
  | on (count : Nat) (decoder : Decoder)

/-- The length word of the message at the front. -/
def lengthOf (rest : List UInt8) : Nat := readInt ((rest.drop 1).take 4)

namespace Decoder

def header (self : Decoder) (rest : List UInt8) : Attempt Turn :=
  if rest.length < 5 then .ok .more
  else
    let tag := rest.headD 0
    let length := lengthOf rest
    if length < 4 ∨ 2 ^ 31 - 1 < length then violation
    else if tag = ascii 'D' then
      if rest.length < 7 then .ok .more
      else if length - 4 < 2 then violation
      else
        let columns := readInt ((rest.drop 5).take 2)
        .ok (.event 7 (.row columns)
          { self with state := .row, left := length - 4 - 2, columnsLeft := columns })
    else if tag = ascii 'E' ∨ tag = ascii 'N' then
      .ok (.on 5 { self with
        state := .fields, left := length - 4, fields := { notice := tag = ascii 'N' } })
    else if maxMessageBytes - 5 < length - 4 then violation
    else if rest.length < 5 + (length - 4) then .ok .more
    else do
      let message ← parseMessage tag ((rest.drop 5).take (length - 4))
      .ok (.event (5 + (length - 4)) (.message message) self)

def row (self : Decoder) (rest : List UInt8) : Attempt Turn :=
  if self.columnsLeft = 0 then
    if self.left ≠ 0 then violation else .ok (.on 0 { self with state := .header })
  else if rest.length < 4 then .ok .more
  else if self.left < 4 then violation
  else
    let length := readInt (rest.take 4)
    -- a length of -1
    if length = 2 ^ 32 - 1 then do
      let left ← sub self.left 4
      let columnsLeft ← sub self.columnsLeft 1
      .ok (.event 4 (.value none) { self with left, columnsLeft })
    else if 2 ^ 31 ≤ length ∨ self.left - 4 < length then violation
    else if length ≤ maxInlineValueBytes then
      if rest.length < 4 + length then .ok .more
      else do
        let left ← sub self.left (4 + length)
        let columnsLeft ← sub self.columnsLeft 1
        .ok (.event (4 + length) (.value (some ((rest.drop 4).take length)))
          { self with left, columnsLeft })
    else do
      let left ← sub self.left (4 + length)
      let columnsLeft ← sub self.columnsLeft 1
      .ok (.event 4 (.valueBegin length)
        { self with state := .value, left, columnsLeft, valueLeft := length })

def value (self : Decoder) (rest : List UInt8) : Attempt Turn :=
  if self.valueLeft = 0 then .ok (.on 0 { self with state := .row })
  else if rest.length = 0 then .ok .more
  else do
    let count := min rest.length self.valueLeft
    let valueLeft ← sub self.valueLeft count
    .ok (.event count (.valuePart (rest.take count)) { self with valueLeft })

def diagnose (self : Decoder) (rest : List UInt8) : Attempt Turn :=
  if self.left = 0 then
    if !self.fields.terminated then violation
    else if self.fields.notice then .ok (.on 0 { self with state := .header })
    else if self.fields.diagnostic.sqlstateLen ≠ 5 then violation
    else .ok (.event 0 (.errorResponse self.fields.diagnostic) { self with state := .header })
  else if rest.length = 0 then .ok .more
  else do
    let count := min rest.length self.left
    let fields ← self.fields.feed (rest.take count) (self.left = count)
    let left ← sub self.left count
    .ok (.on count { self with fields, left })

/-- One turn of `next`'s loop. -/
def turn (self : Decoder) (rest : List UInt8) : Attempt Turn :=
  match self.state with
  | .header => self.header rest
  | .row => self.row rest
  | .value => self.value rest
  | .fields => self.diagnose rest

end Decoder

end Rui.Postgres
