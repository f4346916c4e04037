import Rui.Tunnels.Answer

/-!
# What a proxy answers

The answers of HTTP/1: a status line and fields, each line ended by CR LF, and an empty line. Any
number of interim answers comes before the last.
-/

namespace Rui.Tunnels

open Library

/-- Bytes without a line end. -/
def Plain (bytes : List UInt8) : Prop := ∀ byte ∈ bytes, byte ≠ cr ∧ byte ≠ lf

/-- A status line, without its end. -/
structure StatusLine where
  minor : UInt8
  digits : List UInt8
  reason : Option (List UInt8)
  isMinor : isDigit minor = true
  isStatus : ∀ digit ∈ digits, isDigit digit = true
  three : digits.length = 3
  plain : ∀ words ∈ reason, Plain words

namespace StatusLine

def reasonBytes (line : StatusLine) : List UInt8 :=
  (line.reason.map fun words => ascii ' ' :: words).getD []

def status (line : StatusLine) : Nat := decimalValue line.digits

/-- Up to the status. -/
def head (line : StatusLine) : List UInt8 := versionLead ++ line.minor :: ascii ' ' :: line.digits

def bytes (line : StatusLine) : List UInt8 := line.head ++ line.reasonBytes

end StatusLine

/-- A field line, without its end. -/
structure FieldLine where
  bytes : List UInt8
  nonempty : bytes ≠ []
  plain : Plain bytes

structure Message where
  line : StatusLine
  fields : List FieldLine

/-- A line and its end. -/
def ended (line : List UInt8) : List UInt8 := line ++ [cr, lf]

def fieldLines (fields : List FieldLine) : List UInt8 :=
  fields.flatMap fun field => ended field.bytes

def Message.bytes (message : Message) : List UInt8 :=
  ended message.line.bytes ++ fieldLines message.fields ++ ended []

/-- Read past: 101 is no interim answer for a tunnel. -/
def Message.interim (message : Message) : Prop :=
  message.line.status < 200 ∧ message.line.status ≠ 101

instance (message : Message) : Decidable message.interim := inferInstanceAs (Decidable (_ ∧ _))

/-- Interim answers and one that is final. -/
structure Exchange where
  interims : List Message
  final : Message
  passed : ∀ message ∈ interims, message.interim
  ends : ¬ final.interim

namespace Exchange

def bytes (exchange : Exchange) : List UInt8 :=
  exchange.interims.flatMap Message.bytes ++ exchange.final.bytes

def status (exchange : Exchange) : Nat := exchange.final.line.status

end Exchange

/-- A proper beginning of an exchange. -/
def Begins (bytes : List UInt8) : Prop :=
  ∃ (exchange : Exchange) (rest : List UInt8), rest ≠ [] ∧ bytes ++ rest = exchange.bytes

/-- What is to be said of the bytes so far. -/
def Verdict (bytes : List UInt8) : Step → Prop
  | .done status used => ∃ exchange : Exchange, exchange.bytes <+: bytes ∧
      exchange.bytes.length = used ∧ used ≤ maxBytes ∧ exchange.status = status
  | .more => bytes.length ≤ maxBytes ∧ Begins bytes
  | .malformed => (¬ ∃ exchange : Exchange, exchange.bytes <+: bytes ∧
      exchange.bytes.length ≤ maxBytes) ∧ ¬ (bytes.length ≤ maxBytes ∧ Begins bytes)

end Rui.Tunnels
