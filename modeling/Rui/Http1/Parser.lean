import Rui.Library.Ascii
import Rui.Library.Incremental
import Rui.Library.Search

/-!
# The HTTP/1.1 response parser

A response read as it arrives, bytes in and one event out
(`http1/Parser.zig`). The caller keeps unread bytes and passes them again with
whatever arrived after them. Lengths are natural numbers below `2 ^ 64`.
-/

namespace Rui.Http1

open Library

def maxHeadBytes : Nat := 16 * 1024
def maxLineBytes : Nat := 4 * 1024

/-- The errors of the parser; `panic` stands for an unwrapped null or a
reached `unreachable`. -/
inductive Error
  | invalidHead
  | headTooLarge
  | invalidFraming
  | invalidChunk
  | lineTooLarge
  | unexpectedUpgrade
  | truncatedResponse
  | panic
  deriving DecidableEq, Repr

def crlf : List UInt8 := [0x0d, 0x0a]

/-! ## Field lines -/

/-- A byte a reason phrase, a field value or a chunk extension may hold. -/
def isText (byte : UInt8) : Bool := byte == ascii '\t' || !(byte < ascii ' ' || byte == 0x7f)

structure FieldLine where
  name : List UInt8
  value : List UInt8
  deriving DecidableEq, Repr

/-- RFC 9110 `token`: one or more `tchar`. -/
def isToken (bytes : List UInt8) : Bool :=
  !bytes.isEmpty &&
    bytes.all fun byte => isAlphanumeric byte || (text "!#$%&'*+-.^_`|~").contains byte

/-- `field-name ":" OWS field-value OWS`. -/
def fieldLine (line : List UInt8) : Except Error FieldLine :=
  match indexOf [ascii ':'] line with
  | none => .error .invalidHead
  | some colon =>
    let name := line.take colon
    let raw := line.drop (colon + 1)
    if !isToken name then .error .invalidHead
    else if !raw.all isText then .error .invalidHead
    else .ok ⟨name, trim raw⟩

/-- The first of the CRLF-ended lines `rest`, and those behind it. -/
def nextChecked (rest : List UInt8) : Except Error (Option (FieldLine × List UInt8)) :=
  if rest = [] then .ok none
  else
    match indexOf crlf rest with
    | none => .error .invalidHead
    | some cut => (fieldLine (rest.take cut)).map fun line => some (line, rest.drop (cut + 2))

theorem nextChecked_shorter {rest after : List UInt8} {line : FieldLine}
    (h : nextChecked rest = .ok (some (line, after))) : after.length < rest.length := by
  simp only [nextChecked] at h
  split at h
  · cases h
  · split at h
    · cases h
    · rename_i cut hcut
      have hle := indexOf_le (by decide) hcut
      cases hline : fieldLine (rest.take cut) with
      | error e => simp [hline, Except.map] at h
      | ok line =>
        simp only [hline, Except.map, Except.ok.injEq, Option.some.injEq, Prod.mk.injEq] at h
        rw [← h.2, List.length_drop]
        have : crlf.length = 2 := rfl
        omega

/-- All of the CRLF-ended lines `rest`. -/
def fieldLines (rest : List UInt8) : Except Error (List FieldLine) :=
  match _h : nextChecked rest with
  | .error e => .error e
  | .ok none => .ok []
  | .ok (some (line, after)) => (fieldLines after).map (line :: ·)
termination_by rest.length
decreasing_by exact nextChecked_shorter _h

/-- Lines that `parseHead` has checked, walked again. -/
def walk (fields : List UInt8) : Except Error (List FieldLine) :=
  match fieldLines fields with
  | .error _ => .error .panic
  | .ok lines => .ok lines

/-! ## The head -/

structure Head where
  status : Nat
  fields : List UInt8
  deriving DecidableEq, Repr

/-- The value of the first field named `name`, ignoring case. -/
def Head.field (self : Head) (name : List UInt8) : Except Error (Option (List UInt8)) :=
  (walk self.fields).map fun lines =>
    (lines.find? fun line => eqlIgnoreCase line.name name).map FieldLine.value

/-- `HTTP/1.1 SP 3DIGIT SP reason-phrase`, where the reason may be empty. -/
def statusLine (line : List UInt8) : Except Error Nat :=
  let lead := text "HTTP/1.1 "
  if line.length < lead.length + 4 ∨ ¬ lead.isPrefixOf line then .error .invalidHead
  else
    let code := (line.drop lead.length).take 3
    if (line)[lead.length + 3]? ≠ some (ascii ' ') then .error .invalidHead
    else if !code.all isDigit then .error .invalidHead
    else
      let status := code.foldl (fun status digit => status * 10 + (digit - ascii '0').toNat) 0
      if status < 100 then .error .invalidHead
      else if !(line.drop (lead.length + 4)).all isText then .error .invalidHead
      else .ok status

def parseHead (bytes : List UInt8) : Except Error Head :=
  match indexOf crlf bytes with
  | none => .error .panic
  | some statusEnd => do
    let status ← statusLine (bytes.take statusEnd)
    let fields := (bytes.take (bytes.length - 2)).drop (statusEnd + 2)
    let _ ← fieldLines fields
    return ⟨status, fields⟩

/-! ## Framing -/

/-- The state of a response; `chunkData` always has bytes left to come. -/
inductive State
  | head
  | length (left : Nat)
  | chunkSize
  | chunkData (left : Nat) (pos : 0 < left)
  | chunkEnd
  | trailers
  | untilClose
  | done
  deriving DecidableEq, Repr

/-- One digit more of a number below `2 ^ 64`. -/
def shiftIn (base : Nat) (e : Error) (number digit : Nat) : Except Error Nat :=
  if number * base + digit < 2 ^ 64 then .ok (number * base + digit) else .error e

def contentLength (value : List UInt8) : Except Error Nat :=
  if value = [] then .error .invalidFraming
  else
    value.foldlM
      (fun length digit =>
        if !isDigit digit then .error .invalidFraming
        else shiftIn 10 .invalidFraming length (digit - ascii '0').toNat) 0

/-- What the field lines read so far say of the body. -/
structure Framing where
  length : Option Nat := none
  chunked : Bool := false
  deriving DecidableEq, Repr

def Framing.read (self : Framing) (line : FieldLine) : Except Error Framing :=
  if eqlIgnoreCase line.name (text "Transfer-Encoding") then
    if self.chunked ∨ ¬ eqlIgnoreCase line.value (text "chunked") then .error .invalidFraming
    else .ok { self with chunked := true }
  else if eqlIgnoreCase line.name (text "Content-Length") then do
    let value ← contentLength line.value
    match self.length with
    | some earlier =>
      if earlier ≠ value then .error .invalidFraming else .ok { self with length := some value }
    | none => .ok { self with length := some value }
  else .ok self

/-- The body state a final response's head selects (RFC 9112 section 6.3). -/
def framing (head : Head) : Except Error State := do
  let lines ← walk head.fields
  let said ← lines.foldlM Framing.read {}
  if said.chunked ∧ said.length ≠ none then throw .invalidFraming
  if head.status = 204 ∨ head.status = 304 then
    if said.chunked ∨ said.length.getD 0 ≠ 0 then throw .invalidFraming
    return .done
  if said.chunked then return .chunkSize
  match said.length with
  | some value => return .length value
  | none => return .untilClose

/-! ## Lines of a chunked body -/

structure Line where
  text : List UInt8
  used : Nat
  deriving DecidableEq, Repr

/-- The CRLF-ended line at the start of `input`, or none while it is still
arriving. -/
def takeLine (input : List UInt8) : Except Error (Option Line) :=
  let window := input.take (maxLineBytes + 2)
  match indexOf crlf window with
  | none => if window.length = maxLineBytes + 2 then .error .lineTooLarge else .ok none
  | some cut => .ok (some ⟨input.take cut, cut + 2⟩)

/-- The number at the front of `line` in base 16, and what follows it. -/
def leadingSize (size : Nat) : List UInt8 → Except Error (Nat × List UInt8)
  | [] => .ok (size, [])
  | byte :: rest =>
    match hexValue byte with
    | none => .ok (size, byte :: rest)
    | some value => do
      let size ← shiftIn 16 .invalidChunk size value
      leadingSize size rest

/-- `chunk-size [ chunk-ext ]`. -/
def chunkSize (line : List UInt8) : Except Error Nat := do
  let (size, rest) ← leadingSize 0 line
  if rest.length = line.length then throw .invalidChunk
  if rest ≠ [] then
    let trimmed := trimStart rest
    if trimmed.head? ≠ some (ascii ';') then throw .invalidChunk
    if !trimmed.all isText then throw .invalidChunk
  return size

/-! ## The parser -/

inductive Event
  | more
  | head (head : Head)
  | body (bytes : List UInt8)
  | done
  deriving DecidableEq, Repr

structure Step where
  used : Nat
  event : Event
  deriving DecidableEq, Repr

/-- The parser, with how far it has searched a pending head for its end. -/
structure Parser where
  state : State := .head
  scanned : Nat := 0
  deriving DecidableEq, Repr

/-- What a whole head means for a response: an interim one is skipped. -/
def takeHead (bytes : List UInt8) : Except Error (Event × State) := do
  let head ← parseHead bytes
  if head.status = 101 then throw .unexpectedUpgrade
  if head.status < 200 then return (.more, .head)
  let state ← framing head
  return (.head head, state)

namespace Parser

/-- The step of a state that waits for a whole head. -/
def nextHead (self : Parser) (input : List UInt8) : Except Error (Step × Parser) :=
  match indexOfPos (crlf ++ crlf) input (self.scanned - 3) with
  | none =>
    if input.length ≥ maxHeadBytes then .error .headTooLarge
    else .ok (⟨0, .more⟩, { self with scanned := input.length })
  | some found =>
    let length := found + 4
    if length > maxHeadBytes then .error .headTooLarge
    else
      (takeHead (input.take length)).map fun (event, state) =>
        (⟨length, event⟩, { state, scanned := 0 })

/-- Reads from `input`, which begins at the first byte not yet used. -/
def next (self : Parser) (input : List UInt8) : Except Error (Step × Parser) :=
  match self.state with
  | .head => self.nextHead input
  | .length left =>
    if left = 0 then .ok (⟨0, .done⟩, { self with state := .done })
    else if input = [] then .ok (⟨0, .more⟩, self)
    else
      let take := min left input.length
      .ok (⟨take, .body (input.take take)⟩, { self with state := .length (left - take) })
  | .chunkSize =>
    match takeLine input with
    | .error e => .error e
    | .ok none => .ok (⟨0, .more⟩, self)
    | .ok (some line) =>
      (chunkSize line.text).map fun size =>
        (⟨line.used, .more⟩,
          { self with state := if h : size = 0 then .trailers else .chunkData size (by omega) })
  | .chunkData left _ =>
    if input = [] then .ok (⟨0, .more⟩, self)
    else
      let take := min left input.length
      .ok (⟨take, .body (input.take take)⟩,
        { self with
          state := if h : take = left then .chunkEnd else .chunkData (left - take) (by omega) })
  | .chunkEnd =>
    if input.length < 2 then .ok (⟨0, .more⟩, self)
    else if input.take 2 ≠ crlf then .error .invalidChunk
    else .ok (⟨2, .more⟩, { self with state := .chunkSize })
  | .trailers =>
    match takeLine input with
    | .error e => .error e
    | .ok none => .ok (⟨0, .more⟩, self)
    | .ok (some line) =>
      if line.text = [] then .ok (⟨line.used, .done⟩, { self with state := .done })
      else (fieldLine line.text).map fun _ => (⟨line.used, .more⟩, self)
  | .untilClose =>
    if input = [] then .ok (⟨0, .more⟩, self) else .ok (⟨input.length, .body input⟩, self)
  | .done => .ok (⟨0, .done⟩, self)

/-- The connection ended, after every byte it carried went through `next`. -/
def finish (self : Parser) : Except Error (Event × Parser) :=
  match self.state with
  | .untilClose | .done => .ok (.done, { self with state := .done })
  | _ => .error .truncatedResponse

end Parser

end Rui.Http1
