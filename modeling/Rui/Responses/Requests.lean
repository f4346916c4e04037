import Rui.Json.Spelling
import Rui.Library.JsonCompact
import Rui.Responses.Encoder

/-!
# Requests and what they say

A request as the Host gives it, with contents that are well formed by
construction, the neutral items it is yielded in, and the JSON tree it is to
be encoded as.
-/

namespace Rui.Responses

open Library Library.Json Rui.Json

/-! ## Contents -/

/-- A stored JSON value, with whitespace around it. -/
structure JsonText where
  lead : Space
  tree : Tree
  trail : Space

def JsonText.bytes (self : JsonText) : List UInt8 :=
  self.lead.bytes ++ self.tree.render ++ self.trail.bytes

/-- A provider bag: members of an object, joined by commas. The Host gives no empty one. -/
structure Bag where
  members : List (Member Tree)
  nonempty : members ≠ []

def Bag.bytes (self : Bag) : List UInt8 := renderMembers self.members

/-! ## The Host's request -/

/-- A part of an output item. An opaque block is all bag; every other part has text. -/
structure Part where
  array : PartArray
  isArray : array ≠ .none
  kind : PartKind
  text : Option (List Char)
  bag : Option Bag
  held : text.isSome = true ∨ bag.isSome = true

structure FunctionCall where
  name : List Char
  callId : List Char
  arguments : List Char

structure Output where
  kind : OutputKind
  phase : Phase
  omitReasoningText : Bool
  call : Option FunctionCall
  called : kind = .functionCall → call.isSome = true
  parts : List Part
  bag : Option Bag

structure FunctionTool where
  name : List Char
  description : List Char
  parameters : JsonText

/-- A history element. -/
inductive HistoryElement
  | message (author : Author) (chars : List Char) (sender : Option (List Char))
  | output (saved : Output)
  | toolResult (callId : List Char) (result : List Char)
  | operation (effort : Option Effort)
  | declaration (tools : List FunctionTool)

inductive OfferedTool
  | function (tool : FunctionTool)
  | webSearch

structure Request where
  settings : Settings
  model : List Char
  instructions : List Char
  history : List HistoryElement
  /-- The effort of the Operation being prepared, and the tools it declares. -/
  effort : Option Effort
  declares : Option (List FunctionTool)
  compaction : Bool
  tools : List OfferedTool
  schema : Option JsonText

/-! ## Its neutral items -/

def Part.item (self : Part) : TestItem :=
  ⟨.outputPart self.array self.kind, [self.text.map utf8, self.bag.map Bag.bytes]⟩

def FunctionCall.handles (self : FunctionCall) : List (Option (List UInt8)) :=
  [some (utf8 self.name), some (utf8 self.callId), some (utf8 self.arguments)]

def Output.items (self : Output) : List TestItem :=
  ⟨.outputOpen self.kind self.phase self.omitReasoningText,
      (self.call.map FunctionCall.handles).getD []⟩ ::
    (self.parts.map Part.item ++ [⟨.outputClose, [self.bag.map Bag.bytes]⟩])

def FunctionTool.handles (self : FunctionTool) : List (Option (List UInt8)) :=
  [some (utf8 self.name), some (utf8 self.description), some self.parameters.bytes]

def HistoryElement.items : HistoryElement → List TestItem
  | message author chars sender => [⟨.message author, [some (utf8 chars), sender.map utf8]⟩]
  | output saved => saved.items
  | toolResult callId result => [⟨.toolResult, [some (utf8 callId), some (utf8 result)]⟩]
  | operation effort => [⟨.operation effort, []⟩]
  | declaration tools =>
    ⟨.declareOpen, []⟩ :: (tools.map (fun tool => ⟨.declaredTool, tool.handles⟩) ++
      [⟨.declareClose, []⟩])

def OfferedTool.item : OfferedTool → TestItem
  | function tool => ⟨.tool, tool.handles⟩
  | webSearch => ⟨.webSearch, []⟩

namespace Request

/-- What stands before the history. -/
def headItems (self : Request) : List TestItem :=
  [⟨.settings self.settings, [some (utf8 self.model)]⟩,
    ⟨.instructions, [some (utf8 self.instructions)]⟩]

/-- The Operation being prepared, behind the history. -/
def current (self : Request) : List HistoryElement :=
  .operation self.effort :: (self.declares.map .declaration).toList

/-- What stands behind the history and the Operation. -/
def tailItems (self : Request) : List TestItem :=
  (if self.compaction then [⟨.compactionTrigger, []⟩] else []) ++ ⟨.toolsStart, []⟩ ::
    (self.tools.map OfferedTool.item ++
      [⟨.textFormat, [self.schema.map JsonText.bytes]⟩, ⟨.requestEnd, []⟩])

/-- The items from a place in the history on. -/
def itemsFrom (self : Request) (history : List HistoryElement) : List TestItem :=
  history.flatMap HistoryElement.items ++
    (⟨.historyEnd, []⟩ :: (self.current.flatMap HistoryElement.items ++ self.tailItems))

/-- The neutral items of a request, in the order the Host yields them. -/
def items (self : Request) : List TestItem := self.headItems ++ self.itemsFrom self.history

end Request

/-! ## Trees -/

/-- A string that says a text. -/
def str (chars : List Char) : Tree := .string (spelled chars)

/-- A string that says plain text. -/
def word (s : String) : Tree := str s.toList

/-- A member under a plain key. -/
def key (s : String) (value : Tree) : Member Tree := pair (spelled s.toList) value

def inputText (chars : List Char) : Tree :=
  object [key "type" (word "input_text"), key "text" (str chars)]

def Author.role : Author → String
  | user => "user"
  | instruction => "developer"

def messageTree (author : Author) (chars : List Char) (sender : Option (List Char)) : Tree :=
  object [key "role" (word author.role),
    key "content" (array ((sender.map inputText).toList ++ [inputText chars]))]

/-- The type of a part that has text, and the member its text is. -/
def PartKind.names : PartKind → Option (String × String)
  | outputText => some ("output_text", "text")
  | refusal => some ("refusal", "refusal")
  | summaryText => some ("summary_text", "text")
  | reasoningText => some ("reasoning_text", "text")
  | opaqueBlock => none

def bagMembers (bag : Option Bag) : List (Member Tree) :=
  match bag with
  | none => []
  | some bag => bag.members

/-- The members of a part ahead of its bag. -/
def Part.own (self : Part) : List (Member Tree) :=
  match self.text, self.kind.names with
  | some chars, some (type, field) => [key "type" (word type), key field (str chars)]
  | _, _ => []

def Part.tree (self : Part) : Tree := object (self.own ++ bagMembers self.bag)

/-- An opaque block has no text. -/
def Part.declined (self : Part) : Bool := self.text.isSome && self.kind == .opaqueBlock

/-- Parts by runs of one array. -/
def runs : List Part → List (PartArray × List Part)
  | [] => []
  | part :: parts =>
    match runs parts with
    | [] => [(part.array, [part])]
    | (array, run) :: rest =>
      if part.array = array then (array, part :: run) :: rest
      else (part.array, [part]) :: (array, run) :: rest

def PartArray.name : PartArray → String
  | content => "content"
  | _ => "summary"

def runMember (run : PartArray × List Part) : Member Tree :=
  key run.1.name (array (run.2.map Part.tree))

namespace Output

/-- The parts the model is sent back: private reasoning text is left out. -/
def replayed (self : Output) : List Part :=
  if self.omitReasoningText then self.parts.filter fun part => part.array ≠ .content
  else self.parts

def declined (self : Output) : Bool := self.replayed.any Part.declined

def phaseMember : Phase → List (Member Tree)
  | .unphased => []
  | .commentary => [key "phase" (word "commentary")]
  | .finalAnswer => [key "phase" (word "final_answer")]

/-- The members Rui itself holds of an item. -/
def own (self : Output) : List (Member Tree) :=
  match self.kind with
  | .reasoning => [key "type" (word "reasoning")]
  | .compaction => [key "type" (word "compaction")]
  | .webSearchCall => [key "type" (word "web_search_call")]
  | .message => key "type" (word "message") :: key "role" (word "assistant") ::
      phaseMember self.phase
  | .functionCall => key "type" (word "function_call") :: match self.call with
    | none => []
    | some call => [key "name" (str call.name), key "call_id" (str call.callId),
        key "arguments" (str call.arguments)]

def tree (self : Output) : Tree :=
  object (self.own ++ (runs self.replayed).map runMember ++ bagMembers self.bag)

end Output

def literalTree (value : Bool) : Tree := .literal (if value then .trueValue else .falseValue)

/-- A member whose value is stored text. -/
def storedMember (s : String) (value : JsonText) : Member Tree :=
  ⟨.none, spelled s.toList, .none, value.lead, value.tree, value.trail⟩

def FunctionTool.tree (self : FunctionTool) : Tree :=
  object [key "type" (word "function"), key "name" (str self.name),
    key "description" (str self.description), key "strict" (literalTree false),
    storedMember "parameters" self.parameters]

def effortMember (effort : Effort) : Member Tree :=
  key "reasoning" (object [key "effort" (word effort.tagName)])

def HistoryElement.tree : HistoryElement → Tree
  | message author chars sender => messageTree author chars sender
  | output saved => saved.tree
  | toolResult callId result =>
    object [key "type" (word "function_call_output"), key "call_id" (str callId),
      key "output" (str result)]
  | operation effort =>
    object (key "type" (word "configuration_update") :: (effort.map effortMember).toList)
  | declaration tools =>
    object [key "type" (word "additional_tools"), key "role" (word "developer"),
      key "tools" (array (tools.map FunctionTool.tree))]

/-- What an element does to the effort in force, and whether it is an input item. -/
def HistoryElement.entry (element : HistoryElement) (carry : Carry) :
    Except Failure (Carry × Option Tree) :=
  match element with
  | message .. | toolResult .. => .ok (carry, some element.tree)
  | output saved => if saved.declined then .error .declined else .ok (carry, some element.tree)
  | operation effort =>
    if carry.version = .two ∧ effort ≠ carry.effort then
      if effort = none then .error .declined else .ok ({ carry with effort }, some element.tree)
    else .ok (carry, none)
  | declaration _ =>
    if carry.version = .two then .ok (carry, some element.tree) else .error .declined

/-- The input items of elements, in order. -/
def entries (carry : Carry) : List HistoryElement → Except Failure (Carry × List Tree)
  | [] => .ok (carry, [])
  | element :: elements => do
    let (carry, tree) ← element.entry carry
    let carry := if tree.isSome then { carry with inputComma := true } else carry
    let (carry, trees) ← entries carry elements
    return (carry, tree.toList ++ trees)

def OfferedTool.tree : OfferedTool → Tree
  | function tool => tool.tree
  | webSearch =>
    object [key "type" (word "web_search"), key "external_web_access" (literalTree true)]

def OfferedTool.isFunction : OfferedTool → Bool
  | function _ => true
  | webSearch => false

namespace Request

/-- The effort at the top of a request. -/
def top (self : Request) : Version → Option Effort
  | .one => self.settings.effort
  | .two => self.settings.startingEffort

def textMember (schema : Option JsonText) : Member Tree :=
  key "text" (object (key "verbosity" (word "low") :: match schema with
    | none => []
    | some schema => [key "format" (object [key "type" (word "json_schema"),
        key "name" (word "rui_output"), key "strict" (literalTree true),
        storedMember "schema" schema])]))

/-- The members ahead of the effort. -/
def opening (self : Request) : List (Member Tree) :=
  [key "model" (str self.model), key "parallel_tool_calls" (literalTree true),
    key "store" (literalTree false), key "stream" (literalTree true),
    key "include" (array [word "reasoning.encrypted_content"])]

/-- The members ahead of the input. -/
def lead (self : Request) (version : Version) : List (Member Tree) :=
  self.opening ++ ((self.top version).map effortMember).toList ++
    [key "instructions" (str self.instructions)]

/-- The members behind the input. -/
def trail (self : Request) : List (Member Tree) :=
  [key "tools" (array (self.tools.map OfferedTool.tree)), textMember self.schema]

/-- A request around its input items. -/
def tree (self : Request) (version : Version) (input : List Tree) : Tree :=
  object (self.lead version ++ [key "input" (array input)] ++ self.trail)

def trigger (self : Request) : List Tree :=
  if self.compaction then [object [key "type" (word "compaction_trigger")]] else []

/-- Version two declares function tools in the history instead. -/
def toolsDeclined (self : Request) (version : Version) : Bool :=
  version == .two && self.tools.any OfferedTool.isFunction

end Request

end Rui.Responses
