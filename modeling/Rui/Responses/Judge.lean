import Rui.Library.Checks
import Rui.Responses.Words

/-!
# The streaming judge

One output item's grammar, judged while the reader tells its calls (`Judge` of
`codecs/responses.zig`). A block's meaning depends on its item's type, which can
arrive after the block, so each block keeps one result per reading. A step that
would index past the frames or leave a container that is not open has no result.
-/

namespace Rui.Responses

open Library Library.Json Rui.Json

inductive Incompatibility
  | duplicateJsonField
  | missingProviderField
  | expectedJsonString
  | providerValueTooLong
  | emptyProviderIdentity
  | unsupportedItemStatus
  | continuationUnavailable
  | unexpectedJsonDelimiter
  | unsupportedContentBlock
  | unsupportedReasoningBlock
  | unsupportedItemType
  | unsupportedReasoningText
  | unsupportedProviderOutput
  | unsupportedAsyncCall
  | invalidJsonLiteral
  | unsupportedCallControl
  | unsupportedMessageRole
  | unsupportedMessagePhase
  | malformedProviderOutput
  | unsupportedAnnotation
  | unsupportedCaller
  | unsupportedMetadataAuthority
  deriving DecidableEq, Repr

inductive Shape | absent | string | object | array | nullValue | falseValue | trueValue | number
  deriving DecidableEq, Repr

def shapeOf : Token → Shape
  | .object => .object
  | .array => .array
  | .string _ _ => .string
  | .number _ _ => .number
  | .literal .trueValue => .trueValue
  | .literal .falseValue => .falseValue
  | .literal .nullValue => .nullValue

/-- The longest string compared with a known word or code. -/
def maxWordBytes : Nat := 256

/-- The names that rules read. A block, an annotation, a caller and metadata
read only leading ones, and their frames hold only those. -/
inductive Name
  | type
  | text
  | refusal
  | annotations
  | cellId
  | executedToolCalls
  | toolCallsComplete
  | id
  | status
  | role
  | phase
  | internalChatMessageMetadataPassthrough
  | content
  | encryptedContent
  | summary
  | name
  | callId
  | arguments
  | caller
  | async
  | nameSpace
  | encryptedFunctionArgs
  deriving DecidableEq, Repr

namespace Name

def spell : Name → List UInt8
  | type => Library.text "type"
  | text => Library.text "text"
  | refusal => Library.text "refusal"
  | annotations => Library.text "annotations"
  | cellId => Library.text "cell_id"
  | executedToolCalls => Library.text "executed_tool_calls"
  | toolCallsComplete => Library.text "tool_calls_complete"
  | id => Library.text "id"
  | status => Library.text "status"
  | role => Library.text "role"
  | phase => Library.text "phase"
  | internalChatMessageMetadataPassthrough =>
    Library.text "internal_chat_message_metadata_passthrough"
  | content => Library.text "content"
  | encryptedContent => Library.text "encrypted_content"
  | summary => Library.text "summary"
  | name => Library.text "name"
  | callId => Library.text "call_id"
  | arguments => Library.text "arguments"
  | caller => Library.text "caller"
  | async => Library.text "async"
  | nameSpace => Library.text "namespace"
  | encryptedFunctionArgs => Library.text "encrypted_function_args"

def all : List Name :=
  [type, text, refusal, annotations, cellId, executedToolCalls, toolCallsComplete, id, status, role,
    phase, internalChatMessageMetadataPassthrough, content, encryptedContent, summary, name, callId,
    arguments, caller, async, nameSpace, encryptedFunctionArgs]

/-- Where a name stands among the names. -/
def index (field : Name) : Nat := all.idxOf field

/-- The name that bytes are, if any. -/
def named (bytes : List UInt8) : Option Name := stringToEnum spell all bytes

/-- The name that a key the reader kept is: a key too long to keep is none. -/
def of (kept : Text) : Option Name := named (kept.slice.getD [])

theorem named_spell (field : Name) : named field.spell = some field := by
  cases field <;> decide +kernel

theorem named_eq_some {bytes : List UInt8} {field : Name} :
    named bytes = some field ↔ bytes = field.spell := by
  constructor
  · intro h
    exact (spell_of_stringToEnum h).symm
  · rintro rfl
    exact named_spell field

theorem of_text (bytes : List UInt8) : of (.of bytes) = named bytes := by
  have hslice : (Text.of bytes).slice.bind named = named bytes := stringToEnum_slice (by decide) bytes
  rw [of]
  cases hkept : (Text.of bytes).slice with
  | none =>
    rw [hkept] at hslice
    exact hslice
  | some kept =>
    rw [hkept] at hslice
    exact hslice

end Name

/-! ## Readings and values -/

/-- What a block is read as. -/
inductive Reading | output | reasoning | summary
  deriving DecidableEq, Repr

/-- What a frame keeps of a value. `failures` and `ambiguities` are under each
reading; `failure` and `ambiguous` under every one. -/
structure Value where
  shape : Shape := .absent
  word : Option Word := none
  length : Nat := 0
  duplicate : Bool := false
  failure : Option Incompatibility := none
  failures : Reading → Option Incompatibility := fun _ => none
  ambiguous : Bool := false
  ambiguities : Reading → Bool := fun _ => false

namespace Value

def is (self : Value) (word : Word) : Bool := self.shape = .string ∧ self.word = some word

def failureAs (self : Value) (reading : Reading) : Option Incompatibility :=
  self.failure <|> self.failures reading

def ambiguousAs (self : Value) (reading : Reading) : Bool :=
  self.ambiguous || self.ambiguities reading

def itemKind (self : Value) : Option OutputKind :=
  if self.shape = .string then Word.kind self.word else none

end Value

/-! ## Frames -/

inductive Kind | item | block | annotation | caller | metadata | blocks | annotations | ignored
  deriving DecidableEq, Repr

/-- A container being judged. `fields` holds the names present, up to
`capacity`. -/
structure Frame where
  kind : Kind
  object : Bool
  key : Option Name
  fields : Name → Option Value
  capacity : Nat
  aggregate : Value

abbrev Check := Except Incompatibility

namespace Frame

def lookup (self : Frame) (field : Name) : Value := (self.fields field).getD {}

def get (self : Frame) (field : Name) : Check Value :=
  if (self.lookup field).duplicate then throw .duplicateJsonField else pure (self.lookup field)

def string (self : Frame) (field : Name) : Check Value := do
  let value ← self.get field
  match value.shape with
  | .string => pure value
  | .absent => throw .missingProviderField
  | _ => throw .expectedJsonString

/-- A string compared with known words, readable only when short. -/
def word (self : Frame) (field : Name) : Check Value := do
  let value ← self.string field
  if value.length > maxWordBytes then throw .providerValueTooLong else pure value

def identity (self : Frame) (field : Name) : Check Unit := do
  let value ← self.string field
  require (value.length ≠ 0) .emptyProviderIdentity

def completed (self : Frame) : Check Unit := do
  let status ← self.get .status
  if status.shape = .absent then pure ()
  else
    let word ← self.word .status
    require (word.is .completed) .unsupportedItemStatus

def encrypted (self : Frame) : Check Unit := do
  let value ← self.get .encryptedContent
  match value.shape with
  | .absent => throw .continuationUnavailable
  | .string => require (value.length ≠ 0) .continuationUnavailable
  | _ => throw .expectedJsonString

/-- Passes on what a nested value broke. -/
def unlessFailed : Option Incompatibility → Check Unit
  | some e => throw e
  | none => pure ()

/-- A nested array the reading consumes: when present, an array whose elements
all satisfy that reading. -/
def blocks (self : Frame) (field : Name) (reading : Reading) : Check Unit := do
  let value ← self.get field
  if value.shape = .absent then pure ()
  else if value.shape ≠ .array then throw .unexpectedJsonDelimiter
  else unlessFailed (value.failureAs reading)

end Frame

/-! ## Consumed fields -/

/-- The fields one object's rules consume: plain ones, and nested arrays read
under one reading. -/
structure Consumed where
  plain : List Name := []
  nested : List (Name × Reading) := []

namespace Consumed

def join (a b : Consumed) : Consumed := ⟨a.plain ++ b.plain, a.nested ++ b.nested⟩

/-- A consumed field is a duplicate, or what it means consumes one. -/
def duplicateIn (self : Consumed) (frame : Frame) : Bool :=
  (self.plain.any fun field => (frame.lookup field).duplicate || (frame.lookup field).ambiguous) ||
    self.nested.any fun (field, reading) =>
      (frame.lookup field).duplicate || (frame.lookup field).ambiguousAs reading

/-- How many names, from the first, the fields reach. -/
def reach (tables : List Consumed) : Nat :=
  (tables.flatMap fun table => table.plain ++ table.nested.map Prod.fst).foldl
    (fun count field => max count (field.index + 1)) 0

end Consumed

def itemFields : Consumed where
  plain := [.type, .id, .status, .internalChatMessageMetadataPassthrough]

def kindFields : OutputKind → Consumed
  | .reasoning => itemFields.join
      { plain := [.text, .encryptedContent]
        nested := [(.summary, .summary), (.content, .reasoning)] }
  | .compaction => itemFields.join { plain := [.encryptedContent] }
  | .webSearchCall => itemFields.join { plain := [.encryptedContent] }
  | .functionCall => itemFields.join
      { plain := [.name, .callId, .arguments, .caller, .async, .nameSpace,
          .encryptedFunctionArgs] }
  | .message => itemFields.join { plain := [.role, .phase], nested := [(.content, .output)] }

def typeFields : Consumed where
  plain := [.type]

def refusalFields : Consumed where
  plain := [.refusal]

def outputTextFields : Consumed where
  plain := [.text]
  nested := [(.annotations, .output)]

def textFields : Consumed where
  plain := [.text]

def metadataFields : Consumed where
  plain := [.cellId, .executedToolCalls, .toolCallsComplete]

def maxFrames : Nat := 5

/-- How many names the frame at each depth reads: the item at 0, a caller,
metadata or block array at 1, a block at 2, an annotation array at 3 and an
annotation at 4. -/
def capacity : Nat → Nat
  | 0 => Name.all.length
  | 1 => Consumed.reach [typeFields, metadataFields]
  | 2 => Consumed.reach [typeFields, refusalFields, outputTextFields, textFields]
  | 4 => Consumed.reach [typeFields]
  | _ => 0

/-! ## Rules -/

namespace Frame

/-- A consumed duplicate, wherever it stands among the rules: under every
reading, and under each one. -/
def ambiguity (self : Frame) : Bool × (Reading → Bool) :=
  let declared := self.lookup .type
  match self.kind with
  | .item =>
    (itemFields.duplicateIn self ||
      match declared.itemKind with
      | some kind => (kindFields kind).duplicateIn self
      | none => false, fun _ => false)
  | .block =>
    (typeFields.duplicateIn self, fun
      | .output =>
        if declared.is .refusal then refusalFields.duplicateIn self
        else declared.is .outputText && outputTextFields.duplicateIn self
      | .reasoning => declared.is .reasoningText && textFields.duplicateIn self
      | .summary => declared.is .summaryText && textFields.duplicateIn self)
  | Kind.annotation | .caller => (typeFields.duplicateIn self, fun _ => false)
  | .metadata => (metadataFields.duplicateIn self, fun _ => false)
  | _ => (false, fun _ => false)

/-- An item's metadata, which the judge has judged. -/
def metadataField (self : Frame) : Check Unit := do
  let metadata ← self.get .internalChatMessageMetadataPassthrough
  if metadata.shape = .absent then pure ()
  else if metadata.shape ≠ .object then throw .unexpectedJsonDelimiter
  else unlessFailed metadata.failure

/-- The rules of an item before its type is consulted, and its kind. -/
def itemKind (self : Frame) : Check OutputKind := do
  let _ ← self.word .type
  self.identity .id
  self.metadataField
  let declared ← self.get .type
  match declared.itemKind with
  | some kind => pure kind
  | none => throw .unsupportedItemType

/-- A reasoning item has no text of its own. -/
def textField (self : Frame) : Check Unit := do
  let text ← self.get .text
  require (text.shape = .absent) .unsupportedReasoningText

def reasoningRules (self : Frame) : Check Unit := do
  self.completed
  self.textField
  self.encrypted
  self.blocks .summary .summary
  self.blocks .content .reasoning

def compactionRules (self : Frame) (operation : Operation) : Check Unit := do
  require (operation = .compaction) .unsupportedProviderOutput
  self.completed
  self.encrypted

/-- The status of a search, which may have failed. -/
def searched (self : Frame) : Check Unit := do
  let status ← self.get .status
  if status.shape = .absent then pure ()
  else
    let word ← self.word .status
    require (word.is .completed || status.is .failed) .unsupportedItemStatus

/-- A search may name its continuation, or none. -/
def continued (self : Frame) : Check Unit := do
  let encrypted ← self.get .encryptedContent
  match encrypted.shape with
  | .absent | .nullValue | .string => pure ()
  | _ => throw .expectedJsonString

def webSearchCallRules (self : Frame) (operation : Operation) : Check Unit := do
  require (operation ≠ .compaction) .unsupportedProviderOutput
  self.searched
  self.continued

/-- A control that may only be absent, null or empty. -/
def unusedControl (self : Frame) (field : Name) : Check Unit := do
  let value ← self.get field
  match value.shape with
  | .absent | .nullValue => pure ()
  | .string => require (value.length = 0) .unsupportedCallControl
  | _ => throw .expectedJsonString

def callerField (self : Frame) : Check Unit := do
  let caller ← self.get .caller
  match caller.shape with
  | .absent | .nullValue => pure ()
  | .object => unlessFailed caller.failure
  | _ => throw .unexpectedJsonDelimiter

def asyncField (self : Frame) : Check Unit := do
  let async ← self.get .async
  match async.shape with
  | .absent | .nullValue | .falseValue => pure ()
  | .trueValue => throw .unsupportedAsyncCall
  | _ => throw .invalidJsonLiteral

def functionCallRules (self : Frame) (operation : Operation) : Check Unit := do
  require (operation ≠ .compaction) .unsupportedProviderOutput
  self.completed
  self.callerField
  self.asyncField
  self.unusedControl .nameSpace
  self.unusedControl .encryptedFunctionArgs
  self.identity .name
  self.identity .callId
  let _ ← self.string .arguments

def phaseField (self : Frame) : Check Unit := do
  let phase ← self.get .phase
  if phase.shape = .absent ∨ phase.shape = .nullValue then pure ()
  else
    let _ ← self.word .phase
    require (phase.is .commentary || phase.is .partialAnswer || phase.is .finalAnswer)
      .unsupportedMessagePhase

/-- A message has at least one block. -/
def contentField (self : Frame) : Check Unit := do
  let content ← self.get .content
  require (content.shape ≠ .absent) .missingProviderField
  self.blocks .content .output
  require (content.length ≠ 0) .malformedProviderOutput

def messageRules (self : Frame) : Check Unit := do
  self.completed
  let role ← self.word .role
  require (role.is .assistant) .unsupportedMessageRole
  self.phaseField
  self.contentField

def kindRules (self : Frame) (operation : Operation) : OutputKind → Check Unit
  | .reasoning => self.reasoningRules
  | .compaction => self.compactionRules operation
  | .webSearchCall => self.webSearchCallRules operation
  | .functionCall => self.functionCallRules operation
  | .message => self.messageRules

def outputBlock (self : Frame) (kind : Value) : Check Unit :=
  if kind.is .refusal then do
    let _ ← self.string .refusal
  else if !kind.is .outputText then throw .unsupportedContentBlock
  else do
    self.blocks .annotations .output
    let _ ← self.string .text

/-- Reasoning and summary blocks retain annotations without interpreting
them. -/
def textBlock (self : Frame) (kind : Value) (expected : Word) : Check Unit := do
  require (kind.is expected) .unsupportedReasoningBlock
  let _ ← self.string .text

def callerRules (self : Frame) : Check Unit := do
  let type ← self.get .type
  require (type.shape ≠ .absent) .unsupportedCaller
  let word ← self.word .type
  require (word.is .direct) .unsupportedCaller

def unheld (self : Frame) (field : Name) : Check Unit := do
  let value ← self.get field
  require (value.shape = .absent) .unsupportedMetadataAuthority

def metadataRules (self : Frame) : Check Unit :=
  metadataFields.plain.forM self.unheld

/-- Each object's rules run in a fixed order; the first one broken is its
failure. The kind is that of an item whose type was consulted. -/
def judge (self : Frame) (operation : Operation) (result : Value) : Value × Option OutputKind :=
  match self.kind with
  | .item =>
    match self.itemKind with
    | .error e => ({ result with failure := some e }, none)
    | .ok kind => ({ result with failure := failureOf (self.kindRules operation kind) }, some kind)
  | .block =>
    match self.word .type with
    | .error e => ({ result with failure := some e }, none)
    | .ok kind =>
      ({ result with
        failures := fun
          | .output => failureOf (self.outputBlock kind)
          | .reasoning => failureOf (self.textBlock kind .reasoningText)
          | .summary => failureOf (self.textBlock kind .summaryText) }, none)
  | Kind.annotation =>
    match self.word .type with
    | .error e => ({ result with failure := some e }, none)
    | .ok type =>
      (if type.is .urlCitation then result
      else { result with
        failures := fun
          | .output => some Incompatibility.unsupportedAnnotation
          | reading => result.failures reading }, none)
  | .caller => ({ result with failure := failureOf self.callerRules }, none)
  | .metadata => ({ result with failure := failureOf self.metadataRules }, none)
  | _ => (result, none)

/-- What a closed frame is to the one around it. -/
def finish (self : Frame) (operation : Operation) : Value × Option OutputKind :=
  if self.object then
    self.judge operation
      { shape := .object, ambiguous := self.ambiguity.1, ambiguities := self.ambiguity.2 }
  else (self.aggregate, none)

/-- Takes the value of the key that is open, or one more element. -/
def accept (self : Frame) (value : Value) : Frame :=
  if self.object then
    { self with
      key := none
      fields := fun field =>
        if self.key = some field then
          some { value with duplicate := (self.fields field).isSome }
        else self.fields field }
  else
    -- Elements are judged in order: the first failure stands.
    { self with
      aggregate := { self.aggregate with
        length := self.aggregate.length + 1
        failures := fun reading => self.aggregate.failures reading <|>
          if value.shape ≠ .object then some .unexpectedJsonDelimiter else value.failureAs reading
        ambiguities := fun reading =>
          self.aggregate.ambiguities reading || value.ambiguousAs reading } }

/-- What a container inside this one is judged as. -/
def childKind (self : Frame) (object : Bool) : Kind :=
  if !self.object then
    match self.kind with
    | .blocks => if object then .block else .ignored
    | .annotations => if object then Kind.annotation else .ignored
    | _ => .ignored
  else
    match self.key with
    | none => .ignored
    | some field =>
      match self.kind with
      | .item =>
        if object && field = .caller then .caller
        else if object && field = .internalChatMessageMetadataPassthrough then .metadata
        else if !object && (field = .content || field = .summary) then .blocks
        else .ignored
      | .block => if !object && field = .annotations then .annotations else .ignored
      | _ => .ignored

/-- The names that an object's frame keeps. -/
def keyOf (self : Frame) (field : Option Name) : Frame :=
  { self with key := field.filter fun field => field.index < self.capacity }

/-- A frame whose container has just opened at `depth`. -/
def opened (kind : Kind) (object : Bool) (depth : Nat) : Frame where
  kind
  object
  key := none
  fields := fun _ => none
  capacity := Responses.capacity depth
  aggregate := { shape := .array }

end Frame

/-! ## The judge -/

/-- The judge of one item. `frames` are the judged containers open, innermost
first; `ignored` counts those open below them; `outermost` is what the first
frame held when it closed. -/
structure Judge where
  operation : Operation
  frames : List Frame := []
  ignored : Nat := 0
  result : Value := {}
  itemKind : Option OutputKind := none
  outermost : Option Frame := none

namespace Judge

/-- Readies the judge for one item. -/
def reset (operation : Operation) : Judge := { operation }

/-- A key of the innermost open container. -/
def key (self : Judge) (kept : Text) : Option Judge :=
  if self.ignored ≠ 0 then some self
  else
    match self.frames with
    | [] => none
    | frame :: outer => some { self with frames := frame.keyOf (Name.of kept) :: outer }

def childKind (self : Judge) (object : Bool) : Kind :=
  match self.frames with
  | [] => if object then .item else .ignored
  | parent :: _ => parent.childKind object

def beginContainer (self : Judge) (object : Bool) : Option Judge :=
  if self.ignored ≠ 0 then some { self with ignored := self.ignored + 1 }
  else if self.childKind object = .ignored ∧ self.frames ≠ [] then some { self with ignored := 1 }
  else if self.frames.length < maxFrames then
    some { self with
      frames := .opened (self.childKind object) object self.frames.length :: self.frames }
  else none

def begins (self : Judge) : Json.Kind → Option Judge
  | .object => self.beginContainer true
  | .array => self.beginContainer false
  | _ => some self

def accept (self : Judge) (value : Value) : Judge :=
  match self.frames with
  | [] => { self with result := value }
  | frame :: outer => { self with frames := frame.accept value :: outer }

def endContainer (self : Judge) (shape : Shape) : Option Judge :=
  if self.ignored ≠ 0 then
    let self := { self with ignored := self.ignored - 1 }
    some (if self.ignored = 0 then self.accept { shape } else self)
  else
    match self.frames with
    | [] => none
    | frame :: outer =>
      let (value, kind) := frame.finish self.operation
      some ({ self with
        frames := outer
        itemKind := kind <|> self.itemKind
        outermost := if outer = [] then some frame else self.outermost }.accept value)

def ends (self : Judge) (token : Token) : Option Judge :=
  match token with
  | .object | .array => self.endContainer (shapeOf token)
  | .string kept _ =>
    some (if self.ignored ≠ 0 then self
      else self.accept { shape := .string, length := kept.length, word := Word.of kept })
  | _ => some (if self.ignored ≠ 0 then self else self.accept { shape := shapeOf token })

/-- What the reader's call does to the judge of the item it is in. -/
def hear (self : Judge) : Call → Option Judge
  | .key kept _ _ => self.key kept
  | .begins kind _ _ _ => self.begins kind
  | .ends token _ _ => self.ends token

/-- Other kinds leave `content` open, duplicates included. -/
def replaysReasoningText (self : Judge) : Option Bool :=
  if self.itemKind ≠ some .reasoning then some false
  else
    match self.outermost.map fun frame => frame.get .content with
    | some (Except.ok content) => some (content.shape = .array && content.length ≠ 0)
    | _ => none

/-- The item's verdict once its last byte is read. -/
def verdict (self : Judge) : Option (Check Bool) :=
  if self.result.shape ≠ .object then some (throw .unexpectedJsonDelimiter)
  else
    match self.result.failure with
    | some e => some (throw e)
    | none => if self.result.ambiguous then none else self.replaysReasoningText.map pure

/-- After a compatible message is judged, the phase that selects its answer. -/
def answerPhase (self : Judge) : Option Phase :=
  if self.itemKind ≠ some .message then some .unphased
  else
    match self.outermost.map fun frame => frame.get .phase with
    | some (Except.ok phase) => some (
        if phase.is .commentary || phase.is .partialAnswer then .commentary
        else if phase.is .finalAnswer then .finalAnswer
        else .unphased)
    | _ => none

end Judge

end Rui.Responses
