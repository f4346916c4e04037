import Rui.Library.Characters
import Rui.Library.Ascii
import Rui.SessionEnvironments.Table

/-!
# The line a tool call is shown as

`describe` of `tools.zig`, and `ToolPresentation.validDescription`. A step that stops the Host, an
assertion or an index out of range, answers nothing.
-/

namespace Rui.Descriptions

open Library

def maxToolDescriptionBytes : Nat := 100

/-! ## Valid lines -/

/-- `Utf8View`'s `nextCodepointSlice`, to the end of the bytes. -/
def codepointSlices : Nat → List UInt8 → Option (List (List UInt8))
  | _, [] => some []
  | 0, _ :: _ => none
  | fuel + 1, first :: rest => do
    let length ← utf8ByteSequenceLength first
    if length ≤ rest.length + 1 then
      let slices ← codepointSlices fuel ((first :: rest).drop length)
      return (first :: rest).take length :: slices
    else none

def isLineBreak (scalar : Nat) : Bool :=
  scalar = 0xa || scalar = 0xd || scalar = 0x85 || scalar = 0x2028 || scalar = 0x2029

def isLineSpace (scalar : Nat) : Bool :=
  scalar = 0x20 || scalar = 0x9 || scalar = 0xb || scalar = 0xc || scalar = 0xa0 ||
    scalar = 0x1680 || 0x2000 ≤ scalar && scalar ≤ 0x200a || scalar = 0x202f || scalar = 0x205f ||
    scalar = 0x3000

/-- The loop of `validDescription` over a line's scalars. -/
def validScalars (nonblank : Bool) : List Nat → Bool
  | [] => nonblank
  | scalar :: rest =>
    if isLineBreak scalar then false else validScalars (nonblank || !isLineSpace scalar) rest

def validDescription (bytes : List UInt8) : Option Bool :=
  if bytes.length = 0 ∨ bytes.length > maxToolDescriptionBytes ∨ utf8Validate bytes = false then
    some false
  else do
    let slices ← codepointSlices bytes.length bytes
    let scalars ← slices.mapM utf8Decode
    return validScalars false scalars

/-! ## Calls -/

/-- `BashArguments`: its parser accepts no other description. -/
structure BashArguments where
  timeoutMs : Option UInt64 := none
  description : List UInt8
  stdinPresent : Bool := false
  valid : validDescription description = some true

/-- `codec_abi.HostedAction`. -/
inductive HostedAction where
  | none | search | openPage | findInPage
  deriving DecidableEq, Repr

structure WebSearchCall where
  action : HostedAction
  target : List UInt8 := []
  pattern : List UInt8 := []
  deriving DecidableEq, Repr

/-- `WebSearchCall.excerpt_bytes`. -/
def excerptBytes : Nat := 2 * maxToolDescriptionBytes

/-- `core_tools.MessageAgentArguments`: its parser accepts no other id. -/
structure MessageAgentArguments where
  id : SessionEnvironments.Session
  textBytes : UInt64 := 0

inductive Call where
  | bash (arguments : BashArguments)
  | findTools
  | messageAgent (arguments : MessageAgentArguments)
  | readTranscript (id : Option SessionEnvironments.Session)
  | skill
  | startAgent
  | webSearch (search : WebSearchCall)

/-! ## Excerpts -/

structure Excerpt where
  bytes : List UInt8 := []
  deriving DecidableEq, Repr

namespace Excerpt

/-- A scalar that is folded into a space. -/
def blank (scalar : Nat) : Bool :=
  scalar < 0x20 || scalar = 0x7f || scalar = 0x20 || scalar = 0x85 || scalar = 0xa0 ||
    scalar = 0x1680 || 0x2000 ≤ scalar && scalar ≤ 0x200a || scalar = 0x2028 || scalar = 0x2029 ||
    scalar = 0x202f || scalar = 0x205f || scalar = 0x3000

def append (self : Excerpt) (encoded : List UInt8) : Option Excerpt :=
  if self.bytes.length + encoded.length ≤ excerptBytes then some ⟨self.bytes ++ encoded⟩ else none

/-- The space that is owed before a word. -/
def separate (self : Excerpt) (space : Bool) : Option Excerpt :=
  if space then self.append (text " ") else some self

/-- The loop of `read` that drops a cut scalar: the longest valid start of at most these bytes. -/
def validLength (raw : List UInt8) : Nat → Nat
  | 0 => 0
  | valid + 1 =>
    if utf8Validate (raw.take (valid + 1)) then valid + 1 else validLength raw valid

/-- The loop of `read` over the scalars. -/
def fold (self : Excerpt) (space : Bool) : List (List UInt8) → Option Excerpt
  | [] => some self
  | encoded :: rest => do
    let scalar ← utf8Decode encoded
    if blank scalar then fold self (self.bytes.length ≠ 0) rest
    else
      let spaced ← self.separate space
      let next ← spaced.append encoded
      fold next false rest

def read (self : Excerpt) (bytes : List UInt8) : Option Excerpt :=
  let raw := bytes.take (min bytes.length excerptBytes)
  let valid := validLength raw raw.length
  if raw.length - valid > 3 then some self
  else do
    let slices ← codepointSlices valid (raw.take valid)
    fold self false slices

end Excerpt

/-! ## Composing -/

def ellipsis : List UInt8 := [0xe2, 0x80, 0xa6]

/-- A writer into the description's bytes. -/
def writeAll (out bytes : List UInt8) : Option (List UInt8) :=
  if out.length + bytes.length ≤ maxToolDescriptionBytes then some (out ++ bytes) else none

/-- Back to the start of a scalar. -/
def scalarStart (text : List UInt8) : Nat → Option Nat
  | 0 => some 0
  | last + 1 => do
    let byte ← text[last + 1]?
    if isContinuation byte then scalarStart text last else some (last + 1)

/-- Back to the end of a word. -/
def wordEnd (text : List UInt8) : Nat → Option Nat
  | 0 => some 0
  | last + 1 => do
    let byte ← text[last]?
    if byte = ascii ' ' then wordEnd text last else some (last + 1)

def writeCut (out text : List UInt8) (width : Nat) : Option (List UInt8) :=
  if text.length ≤ width then writeAll out text
  else do
    let start ← scalarStart text (width - ellipsis.length)
    let last ← wordEnd text start
    let kept ← writeAll out (text.take last)
    writeAll kept ellipsis

/-- What each value may take of the room. -/
def widths (room : Nat) : List (List UInt8) → Option (List Nat)
  | [] => some []
  | [value] => some [min value.length room]
  | [first, second] =>
    let later := min second.length (max (room / 2) (room - first.length))
    some [min first.length (room - later), later]
  | _ => none

/-- The loop of `compose`. -/
def writeParts (out : List UInt8) : List (List UInt8) → List (List UInt8 × Nat) →
    Option (List UInt8)
  | [], _ => some out
  | literal :: literals, [] => do
    let next ← writeAll out literal
    writeParts next literals []
  | literal :: literals, (value, width) :: values => do
    let next ← writeAll out literal
    let cut ← writeCut next value width
    writeParts cut literals values

def compose (literals values : List (List UInt8)) : Option (List UInt8) := do
  guard (literals.length = values.length + 1)
  let fixed := (literals.map List.length).sum
  guard (fixed ≤ maxToolDescriptionBytes)
  let widths ← widths (maxToolDescriptionBytes - fixed) values
  writeParts [] literals (values.zip widths)

/-! ## Describing -/

def startsWithIgnoreCase (haystack needle : List UInt8) : Bool :=
  decide (needle.length ≤ haystack.length) && eqlIgnoreCase (haystack.take needle.length) needle

/-- A page without its scheme. -/
def trimScheme (page : List UInt8) : List UInt8 :=
  match [text "https://", text "http://"].find? (startsWithIgnoreCase page) with
  | some scheme => page.drop scheme.length
  | none => page

/-- A page without its scheme and its `www.`. -/
def trimPage (page : List UInt8) : List UInt8 :=
  let page := trimScheme page
  if startsWithIgnoreCase page (text "www.") then page.drop 4 else page

def openQuote : List UInt8 := [0xe2, 0x80, 0x9c]

def closeQuote : List UInt8 := [0xe2, 0x80, 0x9d]

def describeWebSearch (call : WebSearchCall) : Option (List UInt8) := do
  let targetText ← Excerpt.read {} call.target
  let patternText ← Excerpt.read {} call.pattern
  let page :=
    if call.action = .openPage ∨ call.action = .findInPage then trimPage targetText.bytes
    else targetText.bytes
  let quoted := targetText.bytes
  let found := patternText.bytes
  match call.action with
  | .search =>
    if quoted.length ≠ 0 then compose [text "Search " ++ openQuote, closeQuote] [quoted]
    else compose [text "Search the web"] []
  | .openPage =>
    if page.length ≠ 0 then compose [text "Open ", []] [page]
    else compose [text "Open a page"] []
  | .findInPage =>
    if found.length ≠ 0 ∧ page.length ≠ 0 then
      compose [text "Find " ++ openQuote, closeQuote ++ text " in ", []] [found, page]
    else if found.length ≠ 0 then compose [text "Find " ++ openQuote, closeQuote] [found]
    else if page.length ≠ 0 then compose [text "Find in ", []] [page]
    else compose [text "Find in a page"] []
  | .none => compose [text "Search the web"] []

/-- The line of a call, before it is asserted to be valid. -/
def lineOf (call : Call) : Option (List UInt8) :=
  match call with
  | .bash arguments => some arguments.description
  | .messageAgent arguments => compose [text "Message ", []] [arguments.id.bytes]
  | .findTools => writeAll [] (text "Find tools")
  | .readTranscript (some target) => compose [text "Read ", text "'s transcript"] [target.bytes]
  | .readTranscript none => compose [text "Read own transcript"] []
  | .skill => writeAll [] (text "Use skills")
  | .startAgent => writeAll [] (text "Start an agent")
  | .webSearch search => describeWebSearch search

def describe (call : Call) : Option (List UInt8) := do
  let out ← lineOf call
  let valid ← validDescription out
  if valid then some out else none

end Rui.Descriptions
