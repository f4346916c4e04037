import Rui.Json.Strings
import Rui.Library.Told

/-!
# The JSON reader

The reader a codec runs over a whole document (`codecs/json.zig`), byte by
byte but for the contents of strings. The containers it has open are a list,
innermost first, true for an array; a handler is what hears the calls, so a
reading is the calls it makes and its answer. Offsets and lengths are natural
numbers.
-/

namespace Rui.Json

open Library Library.Json

/-- The deepest value a document may hold: the top object's members are at
depth 1. -/
def maxDepth : Nat := 64

/-- How much of a string's decoded start the reader keeps. -/
def maxTextBytes : Nat := 64

inductive Kind | object | array | string | number | literal
  deriving DecidableEq, Repr

/-- How a number differs from a plain nonnegative integer that fits. -/
inductive DigitsClass | plain | negative | overflow | fractional
  deriving DecidableEq, Repr

/-- A range of a document. -/
structure Range where
  start : Nat
  length : Nat
  deriving DecidableEq, Repr

/-! ## Strings -/

/-- A string's decoded start and decoded length. -/
structure Text where
  bytes : List UInt8 := []
  length : Nat := 0
  deriving DecidableEq, Repr

namespace Text

/-- The decoded string, when no longer than `maxTextBytes`. -/
def slice (self : Text) : Option (List UInt8) :=
  if self.length ≤ maxTextBytes then some self.bytes else none

/-- Keeps the decoded start and counts the rest. -/
def append (self : Text) (bytes : List UInt8) : Text where
  bytes := self.bytes ++ bytes.take (maxTextBytes - self.length)
  length := self.length + bytes.length

end Text

/-! ## What a handler hears -/

/-- What a value turned out to be: a string with its decoded start and its
range, a number as far as it is a plain integer. -/
inductive Token
  | object
  | array
  | string (text : Text) (contents : Range)
  | number (integer : Option Nat) (digits : DigitsClass)
  | literal (value : Literal)
  deriving DecidableEq, Repr

def Token.kind : Token → Kind
  | object => .object
  | array => .array
  | string _ _ => .string
  | number _ _ => .number
  | literal _ => .literal

/-- A call of the handler, with what the reader lets it see: `key`, `begin` and
`end`, each at its depth and at the reader's offset. -/
inductive Call
  | key (text : Text) (contents : Range) (depth : Nat)
  | begins (kind : Kind) (depth offset : Nat) (inArray : Bool)
  | ends (token : Token) (depth offset : Nat)
  deriving DecidableEq, Repr

/-! ## The reader -/

inductive State
  | document
  | keyOrClose
  | key
  | colon
  | value
  | valueOrClose
  | afterValue
  | string
  | minus
  | zero
  | integerDigits
  | fractionStart
  | fraction
  | exponentStart
  | exponentSign
  | exponent
  | literal
  | done
  deriving DecidableEq, Repr

/-- The reader between two bytes. `literal` is where the rest of the literal
being read starts in `literalTails`. -/
structure Reader where
  offset : Nat := 0
  state : State := .document
  arrays : List Bool := []
  inKey : Bool := false
  stringStart : Nat := 0
  text : Text := {}
  literal : Nat := 0
  integer : Option Nat := none
  digits : DigitsClass := .plain
  deriving DecidableEq, Repr

/-- A part of a reading: the calls it makes, and the reader after it. -/
abbrev Reading := Told Call (Fault Error) Reader

/-- Each literal after its first byte, ended by a 0. -/
def literalTails : List UInt8 := text "rue" ++ 0 :: (text "alse" ++ 0 :: (text "ull" ++ [0]))

namespace Reader

/-- How many containers are open. -/
def depth (self : Reader) : Nat := self.arrays.length

/-- The contents of the string just read, without its quotes. -/
def string (self : Reader) : Range := ⟨self.stringStart, self.offset - self.stringStart⟩

/-- The literal just read: `literal` stops at the terminator after its tail. -/
def literalValue (self : Reader) : Option Literal :=
  if self.literal = 3 then some .trueValue
  else if self.literal = 8 then some .falseValue
  else if self.literal = 12 then some .nullValue
  else none

def openContainer (self : Reader) (array : Bool) : Reader :=
  { self with
    arrays := array :: self.arrays
    state := if array then .valueOrClose else .keyOrClose }

def close (self : Reader) (array : Bool) : Reading :=
  match self.arrays with
  | [] => .fail .panic
  | _ :: arrays =>
    .tell [.ends (if array then .array else .object) arrays.length self.offset]
      (.ok { self with arrays, state := if arrays.length = 0 then .done else .afterValue })

/-- The value that `token` describes ended. -/
def endValue (self : Reader) (token : Token) : Reading :=
  .tell [.ends token self.depth self.offset] (.ok { self with state := .afterValue })

def endString (self : Reader) : Reading := self.endValue (.string self.text self.string)

def endLiteral (self : Reader) : Reading :=
  match self.literalValue with
  | none => .fail .panic
  | some value => self.endValue (.literal value)

def afterValue (self : Reader) (byte : UInt8) : Reading :=
  if isSpace byte then .ok self
  else
    match self.arrays with
    | [] => .fail .panic
    | array :: _ =>
      if byte = ascii ',' then .ok { self with state := if array then .value else .key }
      else if byte = ascii '}' then
        if array then .fail (.error .unexpectedJsonDelimiter) else self.close false
      else if byte = ascii ']' then
        if array then self.close true else .fail (.error .unexpectedJsonDelimiter)
      else .fail (.error .unexpectedJsonDelimiter)

/-- The number ended just before `byte`, which follows it. -/
def endNumber (self : Reader) (byte : UInt8) : Reading :=
  (self.endValue (.number self.integer self.digits)).andThen fun self => self.afterValue byte

def fractional (self : Reader) : Reader :=
  { self with
    integer := none
    digits := if self.digits = .plain then .fractional else self.digits }

def overflow (self : Reader) : Reader :=
  { self with
    integer := none
    digits := if self.digits = .plain then .overflow else self.digits }

/-- A byte that is not a digit after an integer part: a fraction, an exponent,
or the end of the number. -/
def numberTail (self : Reader) (byte : UInt8) : Reading :=
  if byte = ascii '.' then .ok { self.fractional with state := .fractionStart }
  else if byte = ascii 'e' ∨ byte = ascii 'E' then
    .ok { self.fractional with state := .exponentStart }
  else self.endNumber byte

/-- One digit more of an integer part, while it fits a machine word. -/
def addDigit (self : Reader) (byte : UInt8) : Reader :=
  match self.integer with
  | none => self
  | some value =>
    let more := value * 10 + (byte - ascii '0').toNat
    if more < 2 ^ 64 then { self with integer := some more } else self.overflow

def startString (self : Reader) (key : Bool) : Reader :=
  { self with inKey := key, stringStart := self.offset + 1, text := {}, state := .string }

def startLiteral (self : Reader) (start : Nat) : Reader :=
  { self with literal := start, state := .literal }

def begins (self : Reader) (kind : Kind) : Call :=
  .begins kind self.depth self.offset (self.arrays.headD false)

def beginValue (self : Reader) (byte : UInt8) : Reading :=
  if self.depth > maxDepth then .fail (.error .jsonTooDeep)
  else if byte = ascii '{' then .tell [self.begins .object] (.ok (self.openContainer false))
  else if byte = ascii '[' then .tell [self.begins .array] (.ok (self.openContainer true))
  else if byte = ascii '"' then .tell [self.begins .string] (.ok (self.startString false))
  else if byte = ascii '-' then
    .tell [self.begins .number]
      (.ok { self with integer := none, digits := .negative, state := .minus })
  else if isDigit byte then
    .tell [self.begins .number]
      (.ok { self with
        integer := some (byte - ascii '0').toNat
        digits := .plain
        state := if byte = ascii '0' then .zero else .integerDigits })
  else if byte = ascii 't' then .tell [self.begins .literal] (.ok (self.startLiteral 0))
  else if byte = ascii 'f' then .tell [self.begins .literal] (.ok (self.startLiteral 4))
  else if byte = ascii 'n' then .tell [self.begins .literal] (.ok (self.startLiteral 9))
  else .fail (.error .invalidJsonValue)

/-- Skips a space, or reads `byte` as `next` does. -/
def unlessSpace (self : Reader) (byte : UInt8) (next : Reading) : Reading :=
  if isSpace byte then .ok self else next

/-- One byte outside a string. -/
def step (self : Reader) (byte : UInt8) : Reading :=
  match self.state with
  | .document => self.unlessSpace byte <|
    if byte ≠ ascii '{' then .fail (.error .unexpectedJsonDelimiter)
    else .tell [.begins .object 0 self.offset false] (.ok (self.openContainer false))
  | .keyOrClose => self.unlessSpace byte <|
    if byte = ascii '"' then .ok (self.startString true)
    else if byte = ascii '}' then self.close false
    else .fail (.error .expectedJsonString)
  | .key => self.unlessSpace byte <|
    if byte ≠ ascii '"' then .fail (.error .expectedJsonString) else .ok (self.startString true)
  | .colon => self.unlessSpace byte <|
    if byte ≠ ascii ':' then .fail (.error .unexpectedJsonDelimiter)
    else .ok { self with state := .value }
  | .value => self.unlessSpace byte (self.beginValue byte)
  | .valueOrClose => self.unlessSpace byte <|
    if byte = ascii ']' then self.close true else self.beginValue byte
  | .afterValue => self.afterValue byte
  | .string => .fail .panic
  | .minus =>
    if byte = ascii '0' then .ok { self with state := .zero }
    else if isDigit byte then .ok { self with state := .integerDigits }
    else .fail (.error .invalidJsonNumber)
  | .zero => if isDigit byte then .fail (.error .invalidJsonNumber) else self.numberTail byte
  | .integerDigits => if isDigit byte then .ok (self.addDigit byte) else self.numberTail byte
  | .fractionStart =>
    if isDigit byte then .ok { self with state := .fraction }
    else .fail (.error .invalidJsonNumber)
  | .fraction =>
    if isDigit byte then .ok self
    else if byte = ascii 'e' ∨ byte = ascii 'E' then .ok { self with state := .exponentStart }
    else self.endNumber byte
  | .exponentStart =>
    if byte = ascii '+' ∨ byte = ascii '-' then .ok { self with state := .exponentSign }
    else if isDigit byte then .ok { self with state := .exponent }
    else .fail (.error .invalidJsonNumber)
  | .exponentSign =>
    if isDigit byte then .ok { self with state := .exponent }
    else .fail (.error .invalidJsonNumber)
  | .exponent => if isDigit byte then .ok self else self.endNumber byte
  | .literal =>
    match literalTails[self.literal]?, literalTails[self.literal + 1]? with
    | some expected, some next =>
      if byte ≠ expected then .fail (.error .invalidJsonLiteral)
      else
        let self := { self with literal := self.literal + 1 }
        if next = 0 then self.endLiteral else .ok self
    | _, _ => .fail .panic
  | .done => self.unlessSpace byte (.fail (.error .trailingJson))

/-- The string decoder's sink. -/
def append (self : Reader) (bytes : List UInt8) : Reader :=
  { self with text := self.text.append bytes }

def advance (self : Reader) (count : Nat) : Reader := { self with offset := self.offset + count }

/-- The closing quote of a string, at the reader's offset. -/
def closeString (self : Reader) : Reading :=
  if self.inKey then
    .tell [.key self.text self.string self.depth] (.ok { self with state := .colon })
  else self.endString

/-- The contents of a string up to where the decoder stopped. -/
def takeString (self : Reader) (bytes : List UInt8) :
    Except (Fault Error) (Reader × List UInt8) :=
  match decodeString bytes with
  | .error e => .error (.error e)
  | .ok (results, rest) =>
    .ok ((results.foldl (fun self result => self.append result.bytes) self).advance
      (bytes.length - rest.length), rest)

theorem takeString_length {self after : Reader} {bytes rest : List UInt8}
    (h : self.takeString bytes = .ok (after, rest)) : rest.length ≤ bytes.length := by
  simp only [takeString] at h
  cases hdecode : decodeString bytes with
  | error e => simp [hdecode] at h
  | ok found =>
    obtain ⟨results, stop⟩ := found
    simp only [hdecode, Except.ok.injEq, Prod.mk.injEq] at h
    obtain ⟨_, pieces, hraw, _⟩ := decodeString_sound hdecode
    rw [← h.2, hraw, List.length_append]
    omega

/-- The loop of `read`: each byte, or a whole string up to its quote. -/
def readBytes (self : Reader) (bytes : List UInt8) : Reading :=
  if self.state ≠ .string then
    match bytes with
    | [] => .ok self
    | byte :: rest =>
      (self.step byte).andThen fun self => (self.advance 1).readBytes rest
  else
    match bytes with
    | [] => .ok self
    | byte :: behind =>
      match _h : self.takeString (byte :: behind) with
      | .error e => .fail e
      | .ok (self, []) => .ok self
      | .ok (self, _ :: rest) =>
        self.closeString.andThen fun self => (self.advance 1).readBytes rest
termination_by bytes.length
decreasing_by
  · exact Nat.lt_succ_self _
  · have := takeString_length _h
    simp only [List.length_cons] at this ⊢
    omega

/-- Why a document that ends in a state is not whole. -/
def finish (self : Reader) : Reading :=
  if self.state = .done then .ok self
  else if (self.state = .value ∨ self.state = .valueOrClose) ∧ self.depth > maxDepth then
    .fail (.error .jsonTooDeep)
  else .fail (.error .unexpectedJsonEnd)

/-- Reads `bytes` as one whole document, telling a handler what it finds. -/
def read (bytes : List UInt8) : Reading := (readBytes {} bytes).andThen finish

end Reader

end Rui.Json
