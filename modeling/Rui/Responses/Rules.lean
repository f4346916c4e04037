import Rui.Responses.Judge

/-!
# The rules of an output item

What the judge decides, as rules over the parsed item: each object's rules in
their order, each value looked up where a rule needs it. A name that appears
twice is an error where it is first read.
-/

namespace Rui.Responses

open Library Library.Json Rui.Json

/-- The members of a parsed object. -/
abbrev Members := List (List UInt8 × Json.Value)

/-- What an accepted item is. -/
structure Verdict where
  kind : OutputKind
  answerPhase : Phase
  replaysReasoningText : Bool
  deriving DecidableEq, Repr

namespace Rules

/-- The values that a name has. -/
def named (members : Members) (field : Name) : List Json.Value :=
  members.filterMap fun (key, value) => if key = field.spell then some value else none

theorem named_cons (key : List UInt8) (value : Json.Value) (members : Members) (field : Name) :
    named ((key, value) :: members) field =
      if key = field.spell then value :: named members field else named members field := by
  rw [named, List.filterMap_cons]
  by_cases hkey : key = field.spell
  · simp only [hkey, if_true]
    rfl
  · simp only [hkey, if_false]
    rfl

theorem named_append (members more : Members) (field : Name) :
    named (members ++ more) field = named members field ++ named more field :=
  List.filterMap_append

def get (members : Members) (field : Name) : Check (Option Json.Value) :=
  match named members field with
  | [] => pure none
  | [value] => pure (some value)
  | _ => throw .duplicateJsonField

def string (members : Members) (field : Name) : Check (List UInt8) := do
  match ← get members field with
  | some (.string bytes) => pure bytes
  | none => throw .missingProviderField
  | some _ => throw .expectedJsonString

/-- A string compared with known words, readable only when short. -/
def word (members : Members) (field : Name) : Check (Option Word) := do
  let bytes ← string members field
  if bytes.length > maxWordBytes then throw .providerValueTooLong else pure (Word.named bytes)

def identity (members : Members) (field : Name) : Check Unit := do
  let bytes ← string members field
  require (bytes.length ≠ 0) .emptyProviderIdentity

def completed (members : Members) : Check Unit := do
  match ← get members .status with
  | none => pure ()
  | some _ =>
    let status ← word members .status
    require (status = some .completed) .unsupportedItemStatus

def encrypted (members : Members) : Check Unit := do
  match ← get members .encryptedContent with
  | none => throw .continuationUnavailable
  | some (.string bytes) => require (bytes.length ≠ 0) .continuationUnavailable
  | some _ => throw .expectedJsonString

/-- Only an object has rules. -/
def inObject (rules : Members → Check Unit) : Json.Value → Check Unit
  | .object members => rules members
  | _ => throw .unexpectedJsonDelimiter

/-- Every element keeps the rules, judged in order. -/
def elements (rules : Members → Check Unit) : List Json.Value → Check Unit
  | [] => pure ()
  | value :: values => do
    inObject rules value
    elements rules values

/-- When present, an array whose elements all keep the rules. -/
def blocks (rules : Members → Check Unit) (members : Members) (field : Name) : Check Unit := do
  match ← get members field with
  | none => pure ()
  | some (.array values) => elements rules values
  | some _ => throw .unexpectedJsonDelimiter

/-! ## Parts of an item -/

def annotation (members : Members) : Check Unit := do
  let type ← word members .type
  require (type = some .urlCitation) Incompatibility.unsupportedAnnotation

def refusalBlock (members : Members) : Check Unit := do
  let _ ← string members .refusal

def outputTextBlock (members : Members) : Check Unit := do
  blocks annotation members .annotations
  let _ ← string members .text

def outputBlock (members : Members) : Check Unit := do
  let type ← word members .type
  if type = some .refusal then refusalBlock members
  else if type = some .outputText then outputTextBlock members
  else throw .unsupportedContentBlock

def textBlock (expected : Word) (members : Members) : Check Unit := do
  let type ← word members .type
  require (type = some expected) .unsupportedReasoningBlock
  let _ ← string members .text

/-- The rules of a block under a reading. -/
def block : Reading → Members → Check Unit
  | .output => outputBlock
  | .reasoning => textBlock .reasoningText
  | .summary => textBlock .summaryText

def caller (members : Members) : Check Unit := do
  let type ← get members .type
  require (type.isSome) .unsupportedCaller
  let word ← word members .type
  require (word = some .direct) .unsupportedCaller

def unheld (members : Members) (field : Name) : Check Unit := do
  let value ← get members field
  require (value.isNone) .unsupportedMetadataAuthority

def metadata (members : Members) : Check Unit :=
  [Name.cellId, .executedToolCalls, .toolCallsComplete].forM (unheld members)

/-! ## Items -/

def metadataField (members : Members) : Check Unit := do
  match ← get members .internalChatMessageMetadataPassthrough with
  | none => pure ()
  | some value => inObject metadata value

/-- The rules of an item before its type is consulted, and its kind. -/
def itemKind (members : Members) : Check OutputKind := do
  let type ← word members .type
  identity members .id
  metadataField members
  match Word.kind type with
  | some kind => pure kind
  | none => throw .unsupportedItemType

/-- A reasoning item has no text of its own. -/
def textField (members : Members) : Check Unit := do
  let text ← get members .text
  require (text.isNone) .unsupportedReasoningText

def reasoning (members : Members) : Check Unit := do
  completed members
  textField members
  encrypted members
  blocks (block .summary) members .summary
  blocks (block .reasoning) members .content

def compaction (operation : Operation) (members : Members) : Check Unit := do
  require (operation = .compaction) .unsupportedProviderOutput
  completed members
  encrypted members

/-- The status of a search, which may have failed. -/
def searched (members : Members) : Check Unit := do
  match ← get members .status with
  | none => pure ()
  | some _ =>
    let status ← word members .status
    require (status = some .completed ∨ status = some .failed) .unsupportedItemStatus

/-- A search may name its continuation, or none. -/
def continued (members : Members) : Check Unit := do
  match ← get members .encryptedContent with
  | none | some (.literal .nullValue) | some (.string _) => pure ()
  | some _ => throw .expectedJsonString

def webSearchCall (operation : Operation) (members : Members) : Check Unit := do
  require (operation ≠ .compaction) .unsupportedProviderOutput
  searched members
  continued members

/-- A control that may only be absent, null or empty. -/
def unusedControl (members : Members) (field : Name) : Check Unit := do
  match ← get members field with
  | none | some (.literal .nullValue) => pure ()
  | some (.string bytes) => require (bytes.length = 0) .unsupportedCallControl
  | some _ => throw .expectedJsonString

def callerField (members : Members) : Check Unit := do
  match ← get members .caller with
  | none | some (.literal .nullValue) => pure ()
  | some value => inObject caller value

def asyncField (members : Members) : Check Unit := do
  match ← get members .async with
  | none | some (.literal .nullValue) | some (.literal .falseValue) => pure ()
  | some (.literal .trueValue) => throw .unsupportedAsyncCall
  | some _ => throw .invalidJsonLiteral

def functionCall (operation : Operation) (members : Members) : Check Unit := do
  require (operation ≠ .compaction) .unsupportedProviderOutput
  completed members
  callerField members
  asyncField members
  unusedControl members .nameSpace
  unusedControl members .encryptedFunctionArgs
  identity members .name
  identity members .callId
  let _ ← string members .arguments

def phaseField (members : Members) : Check Unit := do
  match ← get members .phase with
  | none | some (.literal .nullValue) => pure ()
  | some _ =>
    let phase ← word members .phase
    require (phase = some .commentary ∨ phase = some .partialAnswer ∨ phase = some .finalAnswer)
      .unsupportedMessagePhase

/-- How many elements an array has. -/
def count : Option Json.Value → Nat
  | some (.array values) => values.length
  | _ => 0

/-- A message has at least one block. -/
def contentField (members : Members) : Check Unit := do
  let content ← get members .content
  require (content.isSome) .missingProviderField
  blocks (block .output) members .content
  require (count content ≠ 0) .malformedProviderOutput

def message (members : Members) : Check Unit := do
  completed members
  let role ← word members .role
  require (role = some .assistant) .unsupportedMessageRole
  phaseField members
  contentField members

def kindRules (operation : Operation) : OutputKind → Members → Check Unit
  | .reasoning => reasoning
  | .compaction => compaction operation
  | .webSearchCall => webSearchCall operation
  | .functionCall => functionCall operation
  | .message => message

/-- The phase that a message's `phase` names. -/
def phaseOf : Option Word → Phase
  | some .commentary | some .partialAnswer => .commentary
  | some .finalAnswer => .finalAnswer
  | _ => .unphased

/-- The phase that selects the answer of a message. -/
def answerPhase (members : Members) : OutputKind → Phase
  | .message =>
    match get members .phase with
    | .ok (some (.string bytes)) => phaseOf (Word.named bytes)
    | _ => .unphased
  | _ => .unphased

/-- Whether an item holds reasoning text, which its replay leaves out. -/
def replaysReasoningText (members : Members) : OutputKind → Bool
  | .reasoning =>
    match get members .content with
    | .ok content => count content ≠ 0
    | .error _ => false
  | _ => false

/-- The verdict on a parsed item. -/
def verdict (operation : Operation) : Json.Value → Check Verdict
  | .object members => do
    let kind ← itemKind members
    kindRules operation kind members
    pure ⟨kind, answerPhase members kind, replaysReasoningText members kind⟩
  | _ => throw .unexpectedJsonDelimiter

end Rules

end Rui.Responses
