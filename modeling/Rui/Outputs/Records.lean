import Rui.Library.LittleEndian
import Rui.Library.Slices

/-!
# Output metadata records

`OutputMetadataWriter.append` and `decodeRecord` of `output_format.zig`: a record in 104
bytes, where an action's bytes and a report's counts stand in slots of other tags.
-/

namespace Rui.Outputs

open Library

/-! ## Tags and kinds -/

/-- The value of an enumeration that has this code. -/
def valueOf {α : Type} (code : α → UInt8) (values : List α) (byte : UInt8) : Option α :=
  values.find? fun value => code value == byte

inductive OutputRecordTag
  | item | text | usage | name | callId | arguments | part | extras | member | action | pattern
  deriving DecidableEq, Repr

/-- Tag 4 was a call's provider item id. -/
def OutputRecordTag.code : OutputRecordTag → UInt8
  | .item => 1
  | .text => 2
  | .usage => 3
  | .name => 5
  | .callId => 6
  | .arguments => 7
  | .part => 8
  | .extras => 9
  | .member => 10
  | .action => 11
  | .pattern => 12

def OutputRecordTag.ofCode : UInt8 → Option OutputRecordTag :=
  valueOf code [item, text, usage, name, callId, arguments, part, extras, member, action, pattern]

inductive OutputItemKind
  | reasoning | message | functionCall | compaction | webSearchCall
  deriving DecidableEq, Repr

def OutputItemKind.code : OutputItemKind → UInt8
  | .reasoning => 1
  | .message => 2
  | .functionCall => 3
  | .compaction => 4
  | .webSearchCall => 5

def OutputItemKind.ofCode : UInt8 → Option OutputItemKind :=
  valueOf code [reasoning, message, functionCall, compaction, webSearchCall]

/-- What a hosted tool call did. -/
inductive HostedAction
  | none | search | openPage | findInPage
  deriving DecidableEq, Repr

def HostedAction.code : HostedAction → UInt8
  | .none => 0
  | .search => 1
  | .openPage => 2
  | .findInPage => 3

def HostedAction.ofCode : UInt8 → Option HostedAction :=
  valueOf code [none, search, openPage, findInPage]

inductive PartKind
  | opaqueBlock | outputText | refusal | summaryText | reasoningText
  deriving DecidableEq, Repr

def PartKind.code : PartKind → UInt8
  | .opaqueBlock => 0
  | .outputText => 1
  | .refusal => 2
  | .summaryText => 3
  | .reasoningText => 4

def PartKind.ofCode : UInt8 → Option PartKind :=
  valueOf code [opaqueBlock, outputText, refusal, summaryText, reasoningText]

inductive NeutralPhase
  | unphased | commentary | finalAnswer
  deriving DecidableEq, Repr

def NeutralPhase.code : NeutralPhase → UInt8
  | .unphased => 0
  | .commentary => 1
  | .finalAnswer => 2

def NeutralPhase.ofCode : UInt8 → Option NeutralPhase :=
  valueOf code [unphased, commentary, finalAnswer]

inductive PartArray
  | none | content | summary
  deriving DecidableEq, Repr

def PartArray.code : PartArray → UInt8
  | .none => 0
  | .content => 1
  | .summary => 2

def PartArray.ofCode : UInt8 → Option PartArray :=
  valueOf code [none, content, summary]

inductive BagScope
  | item | part
  deriving DecidableEq, Repr

def BagScope.code : BagScope → UInt8
  | .item => 0
  | .part => 1

def BagScope.ofCode : UInt8 → Option BagScope :=
  valueOf code [item, part]

/-! ## Records -/

structure Usage where
  uncached : UInt64
  cacheRead : UInt64
  cacheWrite : UInt64
  output : UInt64
  deriving DecidableEq, Repr

@[ext] structure Digest where
  bytes : List UInt8
  length_eq : bytes.length = 32
  deriving DecidableEq, Repr

def Digest.zero : Digest := ⟨List.replicate 32 0, rfl⟩

structure OutputMetadataRecord where
  tag : OutputRecordTag
  kind : OutputItemKind
  ordinal : UInt64
  start : UInt64
  length : UInt64
  decodedLength : UInt64
  idDigest : Digest
  contentDigest : Digest
  usage : Option Usage
  omitReasoningText : Bool
  partKind : PartKind
  partArray : PartArray
  scope : BagScope
  phase : NeutralPhase
  action : HostedAction
  callFailed : Bool
  deriving DecidableEq, Repr

/-- The assertions of the writer. -/
structure OutputMetadataRecord.Admitted (record : OutputMetadataRecord) : Prop where
  usage : record.usage = none ∨ record.tag = .usage
  text : record.tag ≠ .text ∨ record.kind = .message
  replay : record.omitReasoningText = false ∨ record.tag = .item ∧ record.kind = .reasoning
  action : record.action = .none ∧ record.callFailed = false ∨ record.tag = .action
  hosted : record.tag ≠ .action ∧ record.tag ≠ .pattern ∨ record.kind = .webSearchCall
  part : record.tag = .part ∨ record.partKind = .opaqueBlock ∧ record.partArray = .none
  array : record.tag ≠ .part ∨ record.partArray ≠ .none
  scope : record.scope = .item ∨ record.tag = .extras ∨ record.tag = .member
  phase : record.phase = .unphased ∨ record.tag = .item ∧ record.kind = .message
  counts : record.usage = none ∨
    record.ordinal = 0 ∧ record.decodedLength = 0 ∧ record.idDigest = .zero

/-! ## Bytes -/

def outputMetadataRecordBytes : Nat := 104

@[ext] structure Encoded where
  bytes : List UInt8
  length_eq : bytes.length = outputMetadataRecordBytes
  deriving DecidableEq, Repr

def u64Bytes (n : UInt64) : List UInt8 := littleEndian 8 n.toNat

theorem length_u64Bytes (n : UInt64) : (u64Bytes n).length = 8 := length_littleEndian 8 _

namespace OutputMetadataRecord

/-- An action record holds its outcome and action where others hold the replay rule and
part kind. -/
def header (record : OutputMetadataRecord) : List UInt8 :=
  [record.tag.code, record.kind.code, if record.usage.isSome then 1 else 0,
    if record.omitReasoningText || record.callFailed then 1 else 0,
    if record.tag = .action then record.action.code else record.partKind.code,
    record.scope.code, record.partArray.code, record.phase.code]

/-- The slot of the ordinal, or of the first count. -/
def ordinalSlot (record : OutputMetadataRecord) : List UInt8 :=
  u64Bytes (record.usage.elim record.ordinal Usage.uncached)

def decodedLengthSlot (record : OutputMetadataRecord) : List UInt8 :=
  u64Bytes (record.usage.elim record.decodedLength Usage.cacheRead)

/-- The slot of the id digest, whose front two counts overwrite. -/
def idSlot (record : OutputMetadataRecord) : List UInt8 :=
  match record.usage with
  | none => record.idDigest.bytes
  | some usage =>
    u64Bytes usage.cacheWrite ++ u64Bytes usage.output ++ slice record.idDigest.bytes 16 32

theorem length_idSlot (record : OutputMetadataRecord) : record.idSlot.length = 32 := by
  rw [idSlot]
  cases record.usage with
  | none => exact record.idDigest.length_eq
  | some usage =>
    simp only [List.length_append, length_u64Bytes,
      length_slice (le_of_eq record.idDigest.length_eq.symm)]

/-- The bytes that the writer appends. -/
def encode (record : OutputMetadataRecord) : Encoded where
  bytes := record.header ++ (record.ordinalSlot ++ (u64Bytes record.start ++
    (u64Bytes record.length ++ (record.decodedLengthSlot ++ (record.idSlot ++
      record.contentDigest.bytes)))))
  length_eq := by
    simp only [List.length_append, header, List.length_cons, List.length_nil, ordinalSlot,
      decodedLengthSlot, length_u64Bytes, length_idSlot, record.contentDigest.length_eq]
    rfl

end OutputMetadataRecord

namespace Encoded

def byte (encoded : Encoded) (i : Nat) : UInt8 := encoded.bytes.getD i 0

def readInt (encoded : Encoded) (start stop : Nat) : UInt64 :=
  UInt64.ofNat (fromLittleEndian (slice encoded.bytes start stop))

def digest (encoded : Encoded) (start : Nat) (h : start + 32 ≤ outputMetadataRecordBytes) : Digest :=
  ⟨slice encoded.bytes start (start + 32), by
    rw [length_slice (h.trans_eq encoded.length_eq.symm), Nat.add_sub_cancel_left]⟩

def isAction (encoded : Encoded) : Prop := encoded.byte 0 = OutputRecordTag.action.code

def isHosted (encoded : Encoded) : Prop :=
  encoded.isAction ∨ encoded.byte 0 = OutputRecordTag.pattern.code

def isPart (encoded : Encoded) : Prop := encoded.byte 0 = OutputRecordTag.part.code

def isBag (encoded : Encoded) : Prop :=
  encoded.byte 0 = OutputRecordTag.extras.code ∨ encoded.byte 0 = OutputRecordTag.member.code

instance (encoded : Encoded) : Decidable encoded.isAction := inferInstanceAs (Decidable (_ = _))

instance (encoded : Encoded) : Decidable encoded.isHosted := inferInstanceAs (Decidable (_ ∨ _))

instance (encoded : Encoded) : Decidable encoded.isPart := inferInstanceAs (Decidable (_ = _))

instance (encoded : Encoded) : Decidable encoded.isBag := inferInstanceAs (Decidable (_ ∨ _))

/-- A byte that the tag or the kind rules out. -/
def Corrupt (encoded : Encoded) : Prop :=
  (1 < encoded.byte 2 ∨ encoded.byte 2 = 1 ∧ encoded.byte 0 ≠ OutputRecordTag.usage.code) ∨
  (encoded.isHosted ∧ encoded.byte 1 ≠ OutputItemKind.webSearchCall.code) ∨
  (1 < encoded.byte 3 ∨ encoded.byte 3 = 1 ∧ ¬ encoded.isAction ∧
    (encoded.byte 0 ≠ OutputRecordTag.item.code ∨
      encoded.byte 1 ≠ OutputItemKind.reasoning.code)) ∨
  (4 < encoded.byte 4 ∨ 1 < encoded.byte 5 ∨ 2 < encoded.byte 6 ∨
    (¬ encoded.isPart ∧ ¬ encoded.isAction ∧ (encoded.byte 4 ≠ 0 ∨ encoded.byte 6 ≠ 0)) ∨
    (encoded.isAction ∧ (3 < encoded.byte 4 ∨ encoded.byte 6 ≠ 0)) ∨
    (encoded.isPart ∧ encoded.byte 6 = 0) ∨ (¬ encoded.isBag ∧ encoded.byte 5 ≠ 0)) ∨
  (2 < encoded.byte 7 ∨ encoded.byte 7 ≠ 0 ∧
    (encoded.byte 0 ≠ OutputRecordTag.item.code ∨
      encoded.byte 1 ≠ OutputItemKind.message.code)) ∨
  (encoded.byte 0 = OutputRecordTag.text.code ∧
    encoded.byte 1 ≠ OutputItemKind.message.code) ∨
  (encoded.byte 2 = 1 ∧ ¬ ∀ byte ∈ slice encoded.bytes 56 72, byte = 0)

instance (encoded : Encoded) : Decidable encoded.Corrupt := inferInstanceAs (Decidable (_ ∨ _))

end Encoded

inductive Failure
  | corruptOutputMetadata
  /-- A byte cast to an enumeration that has no such code. -/
  | illegalCast
  deriving DecidableEq, Repr

def cast {α : Type} : Option α → Except Failure α
  | some value => .ok value
  | none => .error .illegalCast

def found {α : Type} : Option α → Except Failure α
  | some value => .ok value
  | none => .error .corruptOutputMetadata

def Encoded.usage (encoded : Encoded) : Option Usage :=
  if encoded.byte 2 = 1 then
    some ⟨encoded.readInt 8 16, encoded.readInt 32 40, encoded.readInt 40 48,
      encoded.readInt 48 56⟩
  else none

def decodeRecord (encoded : Encoded) : Except Failure OutputMetadataRecord :=
  if encoded.Corrupt then .error .corruptOutputMetadata
  else do
    let usage := encoded.usage
    let tag ← found (OutputRecordTag.ofCode (encoded.byte 0))
    let kind ← found (OutputItemKind.ofCode (encoded.byte 1))
    let action ← cast (if encoded.isAction then HostedAction.ofCode (encoded.byte 4)
      else some .none)
    let partKind ← cast (if encoded.isAction then some .opaqueBlock
      else PartKind.ofCode (encoded.byte 4))
    let scope ← cast (BagScope.ofCode (encoded.byte 5))
    let partArray ← cast (PartArray.ofCode (encoded.byte 6))
    let phase ← cast (NeutralPhase.ofCode (encoded.byte 7))
    .ok
      { tag, kind
        ordinal := if usage = none then encoded.readInt 8 16 else 0
        start := encoded.readInt 16 24
        length := encoded.readInt 24 32
        decodedLength := if usage = none then encoded.readInt 32 40 else 0
        idDigest := if usage = none then encoded.digest 40 (by decide) else .zero
        contentDigest := encoded.digest 72 (by decide)
        usage
        omitReasoningText := decide (encoded.byte 3 = 1 ∧ ¬ encoded.isAction)
        partKind, partArray, scope, phase, action
        callFailed := decide (encoded.byte 3 = 1 ∧ encoded.isAction) }

end Rui.Outputs
