import Rui.Json.Escape
import Rui.Responses.Words

/-!
# The request encoder

The codec contract's neutral items (`codec_abi.zig`) and the encoder that
answers each with the pieces of its encoding (`codecs/responses.zig`). The Host
writes the pieces in place: a literal as it is, a handle under its escape.
-/

namespace Rui.Responses

open Library Rui.Json

/-! ## The codec contract -/

inductive Effort | none | low | medium | high | xhigh | max
  deriving DecidableEq, Repr

/-- `@tagName`. -/
def Effort.tagName : Effort → String
  | none => "none"
  | low => "low"
  | medium => "medium"
  | high => "high"
  | xhigh => "xhigh"
  | max => "max"

inductive Author | user | instruction
  deriving DecidableEq, Repr

inductive PartKind | opaqueBlock | outputText | refusal | summaryText | reasoningText
  deriving DecidableEq, Repr

inductive PartArray | none | content | summary
  deriving DecidableEq, Repr

/-- The frozen settings an encoder reads; the model is the item's handle. -/
structure Settings where
  effort : Option Effort
  startingEffort : Option Effort := none
  deriving DecidableEq, Repr

inductive Item
  | settings (settings : Settings)
  | instructions
  | message (author : Author)
  | outputOpen (kind : OutputKind) (phase : Phase) (omitReasoningText : Bool)
  | outputPart (array : PartArray) (kind : PartKind)
  | outputClose
  | toolResult
  | operation (effort : Option Effort)
  | declareOpen
  | declaredTool
  | declareClose
  | historyEnd
  | compactionTrigger
  | toolsStart
  | tool
  | webSearch
  | textFormat
  | requestEnd
  deriving DecidableEq, Repr

/-- The items the Host resumes the codec from its carry before. -/
def Item.resumes : Item → Bool
  | message _ | outputOpen .. | toolResult | operation _ | declareOpen | historyEnd => true
  | _ => false

/-- The items that end a history element, after which the Host keeps the codec's carry. -/
def Item.endsElement : Item → Bool
  | message _ | outputClose | toolResult | operation _ | declareClose => true
  | _ => false

def maxHandles : Nat := 3

/-- One item, as the Host gives it to the codec; bit `i` is set when handle `i` exists. -/
structure ItemHeader where
  item : Item
  handles : Nat
  deriving DecidableEq, Repr

def ItemHeader.has (self : ItemHeader) (handle : Nat) : Bool :=
  handle < maxHandles && self.handles.testBit handle

/-- How the Host writes a handle's bytes. -/
inductive Escape | verbatim | jsonStringV1
  deriving DecidableEq, Repr

/-- One stretch of an item's encoding. -/
inductive Piece
  | literal (bytes : List UInt8)
  | content (handle : Nat) (escape : Escape)
  deriving DecidableEq, Repr

/-- The most pieces one item takes. -/
def maxPieces : Nat := 8

/-- `Pieces.push`, with its assertion. -/
def Pieces.push (self : List Piece) (piece : Piece) : Option (List Piece) :=
  if self.length < maxPieces then some (self ++ [piece]) else none

/-! ## The encoder -/

inductive Version | one | two
  deriving DecidableEq, Repr

/-- The encoder's state between history elements. -/
structure Carry where
  inputComma : Bool := false
  version : Version
  effort : Option Effort := none
  deriving DecidableEq, Repr

/-- The carry before the first history element. -/
def initial (version : Version) (startingEffort : Option Effort) : Carry :=
  match version with
  | .one => { version := .one }
  | .two => { version := .two, effort := startingEffort }

structure Encoder where
  carry : Carry
  omitReasoningText : Bool := false
  array : PartArray := .none
  toolComma : Bool := false
  deriving DecidableEq, Repr

inductive Failure
  /-- `error.Declined`. -/
  | declined
  /-- A piece names a handle that its item does not have. -/
  | missing
  deriving DecidableEq, Repr

def literal (s : String) : Piece := .literal (text s)

def escaped (handle : Nat) : Piece := .content handle .jsonStringV1

def verbatim (handle : Nat) : Piece := .content handle .verbatim

def envelope : String :=
  "\",\"parallel_tool_calls\":true,\"store\":false,\"stream\":true," ++
    "\"include\":[\"reasoning.encrypted_content\"]"

namespace Encoder

/-- An input item after another takes a comma. -/
def separateInput (self : Encoder) : Encoder × List Piece :=
  ({ self with carry := { self.carry with inputComma := true } },
    if self.carry.inputComma then [literal ","] else [])

/-- A comma unless first in the tools array. -/
def separateTool (self : Encoder) : Encoder × List Piece :=
  ({ self with toolComma := true }, if self.toolComma then [literal ","] else [])

/-- One function tool from handles 0-2. -/
def functionTool (self : Encoder) : Encoder × List Piece :=
  let (self, comma) := self.separateTool
  (self, comma ++ [literal "\x7b\"type\":\"function\",\"name\":\"", escaped 0,
    literal "\",\"description\":\"", escaped 1, literal "\",\"strict\":false,\"parameters\":",
    verbatim 2, literal "\x7d"])

/-- What opens a message, by its author. -/
def messageOpen : Author → String
  | .user => "\x7b\"role\":\"user\",\"content\":[\x7b\"type\":\"input_text\",\"text\":\""
  | .instruction =>
    "\x7b\"role\":\"developer\",\"content\":[\x7b\"type\":\"input_text\",\"text\":\""

/-- What opens an output item. -/
def itemOpen (phase : Phase) : OutputKind → List Piece
  | .reasoning => [literal "\x7b\"type\":\"reasoning\""]
  | .compaction => [literal "\x7b\"type\":\"compaction\""]
  | .webSearchCall => [literal "\x7b\"type\":\"web_search_call\""]
  | .message => [match phase with
    | .unphased => literal "\x7b\"type\":\"message\",\"role\":\"assistant\""
    | .commentary =>
      literal "\x7b\"type\":\"message\",\"role\":\"assistant\",\"phase\":\"commentary\""
    | .finalAnswer =>
      literal "\x7b\"type\":\"message\",\"role\":\"assistant\",\"phase\":\"final_answer\""]
  | .functionCall => [literal "\x7b\"type\":\"function_call\",\"name\":\"", escaped 0,
    literal "\",\"call_id\":\"", escaped 1, literal "\",\"arguments\":\"", escaped 2, literal "\""]

/-- What opens a part that has text; an opaque block has none. -/
def partOpen : PartKind → Option String
  | .outputText => some "\x7b\"type\":\"output_text\",\"text\":\""
  | .refusal => some "\x7b\"type\":\"refusal\",\"refusal\":\""
  | .summaryText => some "\x7b\"type\":\"summary_text\",\"text\":\""
  | .reasoningText => some "\x7b\"type\":\"reasoning_text\",\"text\":\""
  | .opaqueBlock => none

def encodePart (self : Encoder) (header : ItemHeader) (array : PartArray) (kind : PartKind) :
    Except Failure (Encoder × List Piece) :=
  -- private reasoning text is never replay input
  if self.omitReasoningText ∧ array = .content then .ok (self, [])
  else
    let lead :=
      if self.array = array then [literal ","]
      else (if self.array ≠ .none then [literal "]"] else []) ++
        [literal (if array = .content then ",\"content\":[" else ",\"summary\":[")]
    let self := { self with array }
    if header.has 0 then
      match partOpen kind with
      | none => .error .declined
      | some start => .ok (self, lead ++ [literal start, escaped 0] ++
        if header.has 1 then [literal "\",", verbatim 1, literal "\x7d"] else [literal "\"\x7d"])
    else .ok (self, lead ++ [literal "\x7b", verbatim 1, literal "\x7d"])

/-- The pieces of one item. -/
def encodeItem (self : Encoder) (header : ItemHeader) : Except Failure (Encoder × List Piece) :=
  match header.item with
  | .settings settings =>
    let top := match self.carry.version with
      | .one => settings.effort
      | .two => settings.startingEffort
    .ok (self, [literal "\x7b\"model\":\"", escaped 0, literal envelope] ++ match top with
      | none => []
      | some effort => [literal (",\"reasoning\":\x7b\"effort\":\"" ++ effort.tagName ++ "\"\x7d")])
  | .instructions =>
    .ok (self, [literal ",\"instructions\":\"", escaped 0, literal "\",\"input\":["])
  | .message author =>
    let (self, comma) := self.separateInput
    .ok (self, comma ++ [literal (messageOpen author)] ++
      (if header.has 1 then
        [escaped 1, literal "\"\x7d,\x7b\"type\":\"input_text\",\"text\":\""] else []) ++
      [escaped 0, literal "\"\x7d]\x7d"])
  | .outputOpen kind phase omitReasoningText =>
    let (self, comma) := self.separateInput
    .ok ({ self with omitReasoningText, array := .none }, comma ++ itemOpen phase kind)
  | .outputPart array kind => self.encodePart header array kind
  | .outputClose =>
    .ok (self, (if self.array ≠ .none then [literal "]"] else []) ++
      (if header.has 0 then [literal ",", verbatim 0] else []) ++ [literal "\x7d"])
  | .toolResult =>
    let (self, comma) := self.separateInput
    .ok (self, comma ++ [literal "\x7b\"type\":\"function_call_output\",\"call_id\":\"", escaped 0,
      literal "\",\"output\":\"", escaped 1, literal "\"\x7d"])
  -- an unchanged effort writes nothing, and a boundary never returns to none
  | .operation effort =>
    if self.carry.version = .two ∧ effort ≠ self.carry.effort then
      match effort with
      | none => .error .declined
      | some changed =>
        let (self, comma) := self.separateInput
        .ok ({ self with carry := { self.carry with effort := some changed } },
          comma ++ [literal ("\x7b\"type\":\"configuration_update\",\"reasoning\":\x7b\"effort\":\"" ++
            changed.tagName ++ "\"\x7d\x7d")])
    else .ok (self, [])
  | .declareOpen =>
    if self.carry.version ≠ .two then .error .declined
    else
      let (self, comma) := self.separateInput
      .ok ({ self with toolComma := false },
        comma ++ [literal "\x7b\"type\":\"additional_tools\",\"role\":\"developer\",\"tools\":["])
  | .declaredTool =>
    if self.carry.version ≠ .two then .error .declined else .ok self.functionTool
  | .declareClose =>
    if self.carry.version ≠ .two then .error .declined
    else .ok ({ self with toolComma := false }, [literal "]\x7d"])
  | .historyEnd => .ok (self, [])
  | .compactionTrigger =>
    let (self, comma) := self.separateInput
    .ok (self, comma ++ [literal "\x7b\"type\":\"compaction_trigger\"\x7d"])
  | .toolsStart => .ok ({ self with toolComma := false }, [literal "],\"tools\":["])
  | .tool => if self.carry.version ≠ .one then .error .declined else .ok self.functionTool
  | .webSearch =>
    let (self, comma) := self.separateTool
    .ok (self, comma ++ [literal "\x7b\"type\":\"web_search\",\"external_web_access\":true\x7d"])
  -- the tools array closes here, after its last tool
  | .textFormat =>
    .ok (self, if header.has 0 then
      [literal ("],\"text\":\x7b\"verbosity\":\"low\",\"format\":\x7b\"type\":\"json_schema\"," ++
        "\"name\":\"rui_output\",\"strict\":true,\"schema\":"),
        verbatim 0, literal "\x7d\x7d"]
    else [literal "],\"text\":\x7b\"verbosity\":\"low\"\x7d"])
  | .requestEnd => .ok (self, [literal "\x7d"])

end Encoder

/-! ## The Host's writing -/

/-- An item with the bytes of its handles. -/
structure TestItem where
  item : Item
  handles : List (Option (List UInt8)) := []
  deriving DecidableEq, Repr

/-- The bits of the handles that exist, from `index` on. -/
def handleBits (index : Nat) : List (Option (List UInt8)) → Nat
  | [] => 0
  | none :: handles => handleBits (index + 1) handles
  | some _ :: handles => 1 <<< index ||| handleBits (index + 1) handles

def TestItem.header (self : TestItem) : ItemHeader := ⟨self.item, handleBits 0 self.handles⟩

/-- A handle's bytes, where the item has it. -/
def handleAt : List (Option (List UInt8)) → Nat → Option (List UInt8)
  | [], _ => none
  | handle :: _, 0 => handle
  | _ :: handles, index + 1 => handleAt handles index

/-- A piece in the request. -/
def Piece.written (handles : List (Option (List UInt8))) : Piece → Except Failure (List UInt8)
  | literal bytes => .ok bytes
  | content handle escape =>
    match handleAt handles handle with
    | none => .error .missing
    | some bytes =>
      match escape with
      | .verbatim => .ok bytes
      | .jsonStringV1 => .ok (encodeJsonStringChars bytes)

def writeAll (handles : List (Option (List UInt8))) : List Piece → Except Failure (List UInt8)
  | [] => .ok []
  | piece :: pieces => do
    let bytes ← piece.written handles
    let rest ← writeAll handles pieces
    return bytes ++ rest

namespace Encoder

/-- An item's bytes. -/
def write (self : Encoder) (item : TestItem) : Except Failure (Encoder × List UInt8) := do
  let (self, pieces) ← self.encodeItem item.header
  let bytes ← writeAll item.handles pieces
  return (self, bytes)

/-- One encoder over items, never resumed. -/
def encode (self : Encoder) : List TestItem → Except Failure (Encoder × List UInt8)
  | [] => .ok (self, [])
  | item :: items => do
    let (self, bytes) ← self.write item
    let (self, rest) ← self.encode items
    return (self, bytes ++ rest)

/-- As the Host encodes: resumed from the last carry before each item that resumes. -/
def encodeForTesting (self : Encoder) (carry : Carry) :
    List TestItem → Except Failure (Encoder × Carry × List UInt8)
  | [] => .ok (self, carry, [])
  | item :: items => do
    let self := if item.item.resumes then { carry } else self
    let (self, bytes) ← self.write item
    let carry := if item.item.endsElement then self.carry else carry
    let (self, carry, rest) ← self.encodeForTesting carry items
    return (self, carry, bytes ++ rest)

end Encoder

end Rui.Responses
