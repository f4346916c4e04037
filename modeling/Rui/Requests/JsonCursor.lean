import Rui.Json.Escape
import Rui.Library.Machine

/-!
# The resumable JSON string cursor

A cursor that escapes stored content into a JSON string under a byte allowance
(`request_encoding.zig`). A call reads and writes as far as its allowance goes
and the next call resumes, so content is never held whole. Offsets are natural
numbers; a sink accepts every slice it is given.
-/

namespace Rui.Requests

open Library Rui.Json

def windowBytes : Nat := 4096

/-- The errors of a read; `indexOutOfBounds` stands for a failed bounds check. -/
inductive CursorError
  | shortCanonicalRead
  | rangeOutOfBounds
  | indexOutOfBounds
  deriving DecidableEq, Repr

/-- Immutable positional bytes. `maxWindow` clips a refill before it is read. -/
structure Source where
  contentLength : Nat
  readContent : (offset wanted : Nat) → Except CursorError (List UInt8)
  maxWindow : (offset wanted : Nat) → Nat

namespace Source

/-- A canonical read of stored bytes. -/
def readBytes (bytes : List UInt8) (offset wanted : Nat) : Except CursorError (List UInt8) :=
  if offset + wanted > bytes.length then .error .rangeOutOfBounds
  else .ok ((bytes.drop offset).take wanted)

/-- `PartitionedSource`: a refill ends at the first boundary after its offset. -/
def partitioned (bytes : List UInt8) (boundaries : List Nat) : Source where
  contentLength := bytes.length
  readContent := readBytes bytes
  maxWindow offset wanted :=
    match boundaries.find? fun boundary => offset < boundary with
    | none => wanted
    | some boundary => min wanted (boundary - offset)

/-- What a cursor relies on: reads give the content, and clipping a positive
refill leaves some of it. -/
structure Serves (source : Source) (content : List UInt8) : Prop where
  length : source.contentLength = content.length
  read : ∀ offset wanted, offset + wanted ≤ content.length →
    source.readContent offset wanted = .ok ((content.drop offset).take wanted)
  clip : ∀ offset wanted, 0 < wanted →
    0 < source.maxWindow offset wanted ∧ source.maxWindow offset wanted ≤ wanted

theorem partitioned_serves (bytes : List UInt8) (boundaries : List Nat) :
    (partitioned bytes boundaries).Serves bytes where
  length := rfl
  read _ _ h := if_neg (Nat.not_lt.mpr h)
  clip offset wanted h := by
    simp only [partitioned]
    split
    · exact ⟨h, Nat.le_refl wanted⟩
    · rename_i boundary hb
      have : offset < boundary := by simpa using List.find?_some hb
      omega

end Source

/-! ## The cursor -/

/-- Writes the plain text in front, two units of allowance a byte: one for the
scan and one for the byte written. -/
def writePlainJsonRun (bytes : List UInt8) (bytesLeft : Nat) : List UInt8 × Nat :=
  let limit := min bytes.length (bytesLeft / 2)
  let run := (bytes.take limit).takeWhile plain
  (run, bytesLeft - run.length * 2)

/-- What a plain run is: plain text in front, its allowance spent twice over. -/
structure PlainRun (bytes : List UInt8) (bytesLeft : Nat) (run : List UInt8) (left : Nat) :
    Prop where
  front : run <+: bytes
  plain : ∀ byte ∈ run, plain byte = true
  spent : bytesLeft = left + run.length * 2

theorem writePlainJsonRun_spec {bytes run : List UInt8} {bytesLeft left : Nat}
    (h : writePlainJsonRun bytes bytesLeft = (run, left)) : PlainRun bytes bytesLeft run left := by
  cases h
  refine ⟨(List.takeWhile_prefix _).trans (List.take_prefix _ _), fun byte hbyte => ?_, ?_⟩
  · exact List.mem_takeWhile_imp hbyte
  · have hrun := (List.takeWhile_prefix plain
      (l := bytes.take (min bytes.length (bytesLeft / 2)))).length_le
    rw [List.length_take] at hrun
    omega

/-- The escape the cursor writes for one byte of content. -/
def encodeByte (byte : UInt8) : List UInt8 :=
  if byte = ascii '"' then [ascii '\\', ascii '"']
  else if byte = ascii '\\' then [ascii '\\', ascii '\\']
  else if byte = 0x08 then [ascii '\\', ascii 'b']
  else if byte = 0x0c then [ascii '\\', ascii 'f']
  else if byte = ascii '\n' then [ascii '\\', ascii 'n']
  else if byte = ascii '\r' then [ascii '\\', ascii 'r']
  else if byte = ascii '\t' then [ascii '\\', ascii 't']
  else if byte ≤ 0x1f then
    [ascii '\\', ascii 'u', ascii '0', ascii '0',
      hexDigits.getD (byte >>> 4).toNat 0, hexDigits.getD (byte &&& 0xf).toNat 0]
  else [byte]

theorem encodeByte_eq (byte : UInt8) : encodeByte byte = escapeByte byte :=
  forall_byte (P := fun byte => encodeByte byte = escapeByte byte) (by decide +kernel) byte

/-- The longest twice-escaped byte is `\\\\u00xx`. -/
theorem twice_encoded_length (byte : UInt8) :
    (encodeByte byte).length ≤ 7 ∧ (encodeJsonStringChars (encodeByte byte)).length ≤ 7 :=
  forall_byte (P := fun byte => (encodeByte byte).length ≤ 7 ∧
    (encodeJsonStringChars (encodeByte byte)).length ≤ 7) (by decide +kernel) byte

/-- The cursor. `buffer` is the window read at `bufferStart`, and `encoded`
what is still to be written of the last escape. -/
structure JsonCursor where
  offset : Nat := 0
  bufferStart : Nat := 0
  buffer : List UInt8 := []
  nestedString : Bool := false
  encoded : List UInt8 := []
  encoded_le : encoded.length ≤ 7 := by decide
  deriving DecidableEq, Repr

/-- What a round of the loop of `advance` does. -/
inductive Round
  | finished (done : Bool) (cursor : JsonCursor)
  | again (cursor : JsonCursor) (written : List UInt8) (bytesLeft : Nat)
  deriving Repr

namespace JsonCursor

/-- Refills the window when the offset has left it; `none` when the source
offers nothing. -/
def refill (self : JsonCursor) (source : Source) (length bytesLeft : Nat) :
    Except CursorError (Option JsonCursor) :=
  if self.offset < self.bufferStart ∨ self.offset ≥ self.bufferStart + self.buffer.length then do
    let wanted := min (length - self.offset) (min windowBytes bytesLeft)
    let wanted := source.maxWindow self.offset wanted
    if wanted = 0 then return none
    let read ← source.readContent self.offset wanted
    if read.length ≠ wanted then throw .shortCanonicalRead
    return some { self with bufferStart := self.offset, buffer := read }
  else .ok (some self)

/-- Takes one byte of content and holds its escape. -/
def takeByte (self : JsonCursor) (byte : UInt8) : JsonCursor :=
  let encoded := encodeByte byte
  { self with
    offset := self.offset + 1
    encoded := if self.nestedString then encodeJsonStringChars encoded else encoded
    encoded_le := by
      split
      · exact (twice_encoded_length byte).2
      · exact (twice_encoded_length byte).1 }

/-- Writes the plain run in front of the window or takes its first byte. A
source scan and its emitted bytes each consume allowance. -/
def scan (self : JsonCursor) (bytesLeft : Nat) : Except CursorError Round :=
  let available := self.buffer.drop (self.offset - self.bufferStart)
  let (run, left) := writePlainJsonRun available bytesLeft
  if run.length ≠ 0 then .ok (.again { self with offset := self.offset + run.length } run left)
  else
    match available with
    | [] => .error .indexOutOfBounds
    | byte :: _ => .ok (.again (self.takeByte byte) [] (bytesLeft - 1))

/-- Writes what is left of the last escape, as far as the allowance goes. -/
def flush (self : JsonCursor) (bytesLeft : Nat) : Round :=
  let count := min bytesLeft self.encoded.length
  .again
    { self with
      encoded := self.encoded.drop count
      encoded_le := by have := self.encoded_le; simp; omega }
    (self.encoded.take count) (bytesLeft - count)

/-- One round of the loop, under some allowance. -/
def round (self : JsonCursor) (source : Source) (bytesLeft : Nat) : Except CursorError Round :=
  if self.encoded ≠ [] then .ok (self.flush bytesLeft)
  else
    let length := source.contentLength
    if self.offset = length then .ok (.finished true self)
    else
      match self.refill source length bytesLeft with
      | .error e => .error e
      | .ok none => .ok (.finished false self)
      | .ok (some self) => self.scan bytesLeft

variable {self cursor : JsonCursor} {bytesLeft left : Nat} {written : List UInt8}

theorem scan_lt (hleft : bytesLeft ≠ 0) (h : self.scan bytesLeft = .ok (.again cursor written left)) :
    left < bytesLeft := by
  simp only [scan] at h
  generalize hrun : writePlainJsonRun (self.buffer.drop (self.offset - self.bufferStart)) bytesLeft
    = run at h
  have hspent := (writePlainJsonRun_spec hrun).spent
  split at h
  · cases h
    omega
  · split at h <;> cases h
    omega

/-- Every round that goes on spends allowance. -/
theorem round_lt {source : Source} (hleft : bytesLeft ≠ 0)
    (h : self.round source bytesLeft = .ok (.again cursor written left)) : left < bytesLeft := by
  simp only [round] at h
  split at h
  · rename_i hencoded
    have := List.length_pos_of_ne_nil hencoded
    cases h
    omega
  · split at h
    · cases h
    · split at h
      · cases h
      · cases h
      · exact scan_lt hleft h

/-- What a call of `advance` returns and leaves. -/
structure Advance where
  done : Bool
  cursor : JsonCursor
  written : List UInt8
  bytesLeft : Nat
  deriving DecidableEq, Repr

/-- Writes escaped content until the allowance is spent or all is written. -/
def advance (self : JsonCursor) (source : Source) (bytesLeft : Nat) :
    Except CursorError Advance :=
  if _hleft : bytesLeft = 0 then .ok ⟨false, self, [], bytesLeft⟩
  else
    match _h : self.round source bytesLeft with
    | .error e => .error e
    | .ok (.finished done cursor) => .ok ⟨done, cursor, [], bytesLeft⟩
    | .ok (.again cursor written left) => do
      let rest ← cursor.advance source left
      return { rest with written := written ++ rest.written }
termination_by bytesLeft
decreasing_by exact round_lt _hleft _h

end JsonCursor

end Rui.Requests
