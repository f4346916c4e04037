import Rui.Library.Parts
import Rui.Library.Hex

/-!
# Terminal text

`TerminalText.zig`: untrusted bytes written without terminal controls, a byte at a time. A
sequence of UTF-8 is held until it is whole, and escaped when it breaks.
-/

namespace Rui.TerminalText

open Library

/-- A line also quotes `"` and `\`, a label `\`; multiline text keeps line breaks and tabs. -/
inductive Mode
  | line
  | label
  | multiline
  deriving DecidableEq, Repr

/-- `max_bytes_per_byte`. -/
def maxBytesPerByte : Nat := (text "\\x00").length

/-- A code point that must never reach a terminal raw. -/
def isControl (scalar : Nat) : Bool :=
  scalar < 0x20 || 0x7f ≤ scalar && scalar ≤ 0x9f || scalar = 0x061c || scalar = 0x200e ||
    scalar = 0x200f || 0x202a ≤ scalar && scalar ≤ 0x202e || 0x2066 ≤ scalar && scalar ≤ 0x2069

/-- The bytes of a sequence held, `utf8[0..utf8_len]`, and `utf8_need`. -/
structure State where
  held : List UInt8 := []
  need : Nat := 0
  deriving DecidableEq, Repr

/-- `\xNN`. -/
def escapeByte (value : UInt8) : List UInt8 :=
  text "\\x" ++ [hexDigit (value.toNat / 16), hexDigit (value.toNat % 16)]

/-- `\uNNNN`, in as many digits as the scalar needs and four at least. -/
def escapeScalar (scalar : Nat) : List UInt8 :=
  text "\\u" ++ List.replicate (4 - (hexNumber scalar).length) (ascii '0') ++ hexNumber scalar

def finish (self : State) : State × List UInt8 :=
  ({ self with held := [] }, self.held.flatMap escapeByte)

/-- What an ASCII byte is written as when nothing is held. -/
def asciiByte (mode : Mode) (value : UInt8) : List UInt8 :=
  if mode ≠ .multiline ∧ value = ascii '\n' then text "\\n"
  else if mode ≠ .multiline ∧ value = ascii '\t' then text "\\t"
  else if mode ≠ .multiline ∧ value = ascii '\r' then text "\\r"
  else if mode = .line ∧ value = ascii '"' then text "\\\""
  else if mode ≠ .multiline ∧ value = ascii '\\' then text "\\\\"
  else if isControl value.toNat = false ∨
      mode = .multiline ∧ (value = ascii '\n' ∨ value = ascii '\t') then [value]
  else escapeByte value

/-- A byte of a sequence, which ends the sequence when it is whole. -/
def hold (self : State) (value : UInt8) : State × List UInt8 :=
  let next : State := { self with held := self.held ++ [value] }
  if next.held.length = next.need then
    match utf8Decode next.held with
    | none => finish next
    | some scalar =>
      ({ next with held := [] }, if isControl scalar then escapeScalar scalar else next.held)
  else (next, [])

/-- A byte when nothing is held. -/
def beginByte (mode : Mode) (self : State) (value : UInt8) : State × List UInt8 :=
  if value.toNat < 0x80 then (self, asciiByte mode value)
  else match utf8ByteSequenceLength value with
    | none => (self, escapeByte value)
    | some need => hold { self with need } value

def feedByte (mode : Mode) (self : State) (value : UInt8) : State × List UInt8 :=
  if self.held = [] then beginByte mode self value
  else if isContinuation value = false then
    let broken := finish self
    let begun := beginByte mode broken.1 value
    (begun.1, broken.2 ++ begun.2)
  else hold self value

/-- A text with the bytes it was written as so far. -/
def feed (mode : Mode) (self : State × List UInt8) (bytes : List UInt8) : State × List UInt8 :=
  bytes.foldl (fun now value =>
    let fed := feedByte mode now.1 value
    (fed.1, now.2 ++ fed.2)) self

/-- What is written of a text that comes in these chunks, once it ends. -/
def written (mode : Mode) (chunks : List (List UInt8)) : List UInt8 :=
  let fed := chunks.foldl (feed mode) ({}, [])
  fed.2 ++ (finish fed.1).2

end Rui.TerminalText
