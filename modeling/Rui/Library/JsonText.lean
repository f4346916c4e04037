import Rui.Library.Ascii
import Rui.Library.Utf8

/-!
# JSON texts

The texts of RFC 8259 as trees that keep their spelling: whitespace, escapes
and the parts of a number. Every tree is well formed by construction, and
`render` writes the text it was read from.
-/

namespace Library.Json

/-! ## Whitespace -/

def isSpace (byte : UInt8) : Bool :=
  byte == ascii ' ' || byte == ascii '\t' || byte == ascii '\n' || byte == ascii '\r'

/-- Insignificant whitespace. -/
structure Space where
  bytes : List UInt8
  spaces : ∀ byte ∈ bytes, isSpace byte = true
  deriving DecidableEq

def Space.none : Space := ⟨[], by simp⟩

/-! ## Strings -/

/-- The byte a one-letter escape stands for. -/
def shortEscape (letter : UInt8) : Option UInt8 :=
  if letter = ascii '"' ∨ letter = ascii '\\' ∨ letter = ascii '/' then some letter
  else if letter = ascii 'b' then some 0x08
  else if letter = ascii 'f' then some 0x0c
  else if letter = ascii 'n' then some (ascii '\n')
  else if letter = ascii 'r' then some (ascii '\r')
  else if letter = ascii 't' then some (ascii '\t')
  else none

/-- The value of four hexadecimal digits. -/
def hexQuad : List UInt8 → Option Nat
  | [a, b, c, d] => do
    let a ← hexValue a
    let b ← hexValue b
    let c ← hexValue c
    let d ← hexValue d
    return ((a * 16 + b) * 16 + c) * 16 + d
  | _ => none

def IsHighSurrogate (value : Nat) : Prop := 0xd800 ≤ value ∧ value ≤ 0xdbff

def IsLowSurrogate (value : Nat) : Prop := 0xdc00 ≤ value ∧ value ≤ 0xdfff

/-- The scalar value a surrogate pair stands for. -/
def fromSurrogates (high low : Nat) : Nat := 0x10000 + (high - 0xd800) * 1024 + (low - 0xdc00)

/-- One character of a string, as it is spelled. -/
inductive Piece
  | char (scalar : Nat) (valid : IsScalar scalar)
      (plain : 0x20 ≤ scalar ∧ scalar ≠ 0x22 ∧ scalar ≠ 0x5c)
  | short (letter value : UInt8) (spells : shortEscape letter = some value)
  | unicode (digits : List UInt8) (scalar : Nat) (spells : hexQuad digits = some scalar)
      (valid : IsScalar scalar)
  | pair (highDigits lowDigits : List UInt8) (high low : Nat)
      (spellsHigh : hexQuad highDigits = some high) (spellsLow : hexQuad lowDigits = some low)
      (isHigh : IsHighSurrogate high) (isLow : IsLowSurrogate low)

namespace Piece

/-- The bytes that spell a character. -/
def raw : Piece → List UInt8
  | char scalar _ _ => utf8Encode scalar
  | short letter _ _ => [ascii '\\', letter]
  | unicode digits _ _ _ => ascii '\\' :: ascii 'u' :: digits
  | pair highDigits lowDigits .. =>
    ascii '\\' :: ascii 'u' :: (highDigits ++ ascii '\\' :: ascii 'u' :: lowDigits)

/-- The scalar value a character has. -/
def scalar : Piece → Nat
  | char scalar _ _ => scalar
  | short _ value _ => value.toNat
  | unicode _ scalar _ _ => scalar
  | pair _ _ high low .. => fromSurrogates high low

/-- A character in UTF-8. -/
def decoded (piece : Piece) : List UInt8 := utf8Encode piece.scalar

end Piece

/-- The bytes between the quotes of a string. -/
def raw (pieces : List Piece) : List UInt8 := pieces.flatMap Piece.raw

/-- A string's characters in UTF-8. -/
def decoded (pieces : List Piece) : List UInt8 := pieces.flatMap Piece.decoded

@[simp] theorem raw_nil : raw [] = [] := rfl
@[simp] theorem decoded_nil : decoded [] = [] := rfl

@[simp] theorem raw_cons (piece : Piece) (pieces : List Piece) :
    raw (piece :: pieces) = piece.raw ++ raw pieces := List.flatMap_cons

@[simp] theorem decoded_cons (piece : Piece) (pieces : List Piece) :
    decoded (piece :: pieces) = piece.decoded ++ decoded pieces := List.flatMap_cons

@[simp] theorem raw_append (pieces more : List Piece) :
    raw (pieces ++ more) = raw pieces ++ raw more := List.flatMap_append

@[simp] theorem decoded_append (pieces more : List Piece) :
    decoded (pieces ++ more) = decoded pieces ++ decoded more := List.flatMap_append

/-! ## Numbers -/

/-- One or more digits. -/
structure Digits where
  bytes : List UInt8
  digits : ∀ byte ∈ bytes, isDigit byte = true
  nonempty : bytes ≠ []
  deriving DecidableEq

/-- An integer part: a lone zero, or digits that begin with another. -/
structure Whole extends Digits where
  canonical : bytes = [ascii '0'] ∨ bytes.head? ≠ some (ascii '0')
  deriving DecidableEq

structure Exponent where
  letter : UInt8
  isLetter : letter = ascii 'e' ∨ letter = ascii 'E'
  sign : Option UInt8
  isSign : ∀ byte, sign = some byte → byte = ascii '+' ∨ byte = ascii '-'
  power : Digits
  deriving DecidableEq

structure Number where
  negative : Bool
  whole : Whole
  fraction : Option Digits
  exponent : Option Exponent
  deriving DecidableEq

def Exponent.raw (exponent : Exponent) : List UInt8 :=
  exponent.letter :: (exponent.sign.toList ++ exponent.power.bytes)

namespace Number

def tail (number : Number) : List UInt8 :=
  (match number.fraction with
    | none => []
    | some digits => ascii '.' :: digits.bytes) ++
  match number.exponent with
  | none => []
  | some exponent => exponent.raw

def raw (number : Number) : List UInt8 :=
  (if number.negative then [ascii '-'] else []) ++ number.whole.bytes ++ number.tail

end Number

/-- The number that digits spell. -/
def natValue (digits : List UInt8) : Nat :=
  digits.foldl (fun value digit => value * 10 + (digit - ascii '0').toNat) 0

/-! ## Trees -/

inductive Literal | trueValue | falseValue | nullValue
  deriving DecidableEq, Repr

def Literal.raw : Literal → List UInt8
  | trueValue => text "true"
  | falseValue => text "false"
  | nullValue => text "null"

/-- A member of an object, with the whitespace around its parts. -/
structure Member (τ : Type) where
  lead : Space
  key : List Piece
  beforeColon : Space
  afterColon : Space
  value : τ
  trail : Space

/-- An element of an array, with the whitespace around it. -/
structure Element (τ : Type) where
  lead : Space
  value : τ
  trail : Space

/-- A value. `inner` is what an empty container holds. -/
inductive Tree where
  | object (inner : Space) (members : List (Member Tree))
  | array (inner : Space) (elements : List (Element Tree))
  | string (pieces : List Piece)
  | number (number : Number)
  | literal (literal : Literal)

/-- A string in its quotes. -/
def quoted (pieces : List Piece) : List UInt8 := ascii '"' :: (Json.raw pieces ++ [ascii '"'])

mutual

/-- The text of a value. -/
def Tree.render : Tree → List UInt8
  | .object inner members => ascii '{' :: (inner.bytes ++ renderMembers members ++ [ascii '}'])
  | .array inner elements => ascii '[' :: (inner.bytes ++ renderElements elements ++ [ascii ']'])
  | .string pieces => quoted pieces
  | .number number => number.raw
  | .literal literal => literal.raw

/-- The members of an object, with commas between them. -/
def renderMembers : List (Member Tree) → List UInt8
  | [] => []
  | ⟨lead, key, beforeColon, afterColon, value, trail⟩ :: members =>
    lead.bytes ++ quoted key ++ beforeColon.bytes ++ ascii ':' :: afterColon.bytes ++
      value.render ++ trail.bytes ++
      (if members.isEmpty then [] else ascii ',' :: renderMembers members)

/-- The elements of an array, with commas between them. -/
def renderElements : List (Element Tree) → List UInt8
  | [] => []
  | ⟨lead, value, trail⟩ :: elements =>
    lead.bytes ++ value.render ++ trail.bytes ++
      (if elements.isEmpty then [] else ascii ',' :: renderElements elements)

end

mutual

/-- How many containers deep the values of a tree go. -/
def Tree.depth : Tree → Nat
  | .object _ members => depthMembers members
  | .array _ elements => depthElements elements
  | .string _ => 0
  | .number _ => 0
  | .literal _ => 0

def depthMembers : List (Member Tree) → Nat
  | [] => 0
  | ⟨_, _, _, _, value, _⟩ :: members => max (value.depth + 1) (depthMembers members)

def depthElements : List (Element Tree) → Nat
  | [] => 0
  | ⟨_, value, _⟩ :: elements => max (value.depth + 1) (depthElements elements)

end

/-- **Induction over trees**, through the lists of their members. -/
theorem Tree.induction {P : Tree → Prop}
    (object : ∀ inner (members : List (Member Tree)), (∀ member ∈ members, P member.value) →
      P (.object inner members))
    (array : ∀ inner (elements : List (Element Tree)), (∀ element ∈ elements, P element.value) →
      P (.array inner elements))
    (string : ∀ pieces, P (.string pieces)) (number : ∀ number, P (.number number))
    (literal : ∀ literal, P (.literal literal)) (tree : Tree) : P tree :=
  @Tree.rec P (fun members => ∀ member ∈ members, P member.value)
    (fun elements => ∀ element ∈ elements, P element.value)
    (fun member => P member.value) (fun element => P element.value)
    object array string number literal
    (fun _ h => absurd h List.not_mem_nil)
    (fun _ _ hhead htail => List.forall_mem_cons.mpr ⟨hhead, htail⟩)
    (fun _ h => absurd h List.not_mem_nil)
    (fun _ _ hhead htail => List.forall_mem_cons.mpr ⟨hhead, htail⟩)
    (fun _ _ _ _ _ _ h => h) (fun _ _ _ h => h) tree

/-- A document: one object, with whitespace around it. -/
structure Document where
  lead : Space
  inner : Space
  members : List (Member Tree)
  trail : Space

namespace Document

def root (document : Document) : Tree := .object document.inner document.members

def render (document : Document) : List UInt8 :=
  document.lead.bytes ++ document.root.render ++ document.trail.bytes

end Document

/-! ## Values -/

/-- What a text means: keys and strings are their characters in UTF-8. -/
inductive Value where
  | object (members : List (List UInt8 × Value))
  | array (elements : List Value)
  | string (bytes : List UInt8)
  | number (number : Number)
  | literal (literal : Literal)

mutual

/-- The value that a tree spells. -/
def Tree.value : Tree → Value
  | .object _ members => .object (membersValue members)
  | .array _ elements => .array (elementsValue elements)
  | .string pieces => .string (decoded pieces)
  | .number number => .number number
  | .literal literal => .literal literal

def membersValue : List (Member Tree) → List (List UInt8 × Value)
  | [] => []
  | ⟨_, key, _, _, value, _⟩ :: members => (decoded key, value.value) :: membersValue members

def elementsValue : List (Element Tree) → List Value
  | [] => []
  | ⟨_, value, _⟩ :: elements => value.value :: elementsValue elements

end

@[simp] theorem membersValue_nil : membersValue [] = [] := rfl
@[simp] theorem elementsValue_nil : elementsValue [] = [] := rfl

@[simp] theorem membersValue_cons (member : Member Tree) (members : List (Member Tree)) :
    membersValue (member :: members) =
      (decoded member.key, member.value.value) :: membersValue members := rfl

@[simp] theorem elementsValue_cons (element : Element Tree) (elements : List (Element Tree)) :
    elementsValue (element :: elements) = element.value.value :: elementsValue elements := rfl

end Library.Json
