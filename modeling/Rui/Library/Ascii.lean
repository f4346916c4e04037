import Mathlib

/-!
# ASCII text as bytes

The byte of a character and the byte-level helpers of the standard library.
-/

namespace Library

/-- The byte of an ASCII character. -/
abbrev ascii (c : Char) : UInt8 := c.toUInt8

/-- The bytes of an ASCII text. -/
def text (s : String) : List UInt8 := s.toList.map ascii

def isDigit (byte : UInt8) : Bool := ascii '0' ≤ byte && byte ≤ ascii '9'

def isUpper (byte : UInt8) : Bool := ascii 'A' ≤ byte && byte ≤ ascii 'Z'

def isLower (byte : UInt8) : Bool := ascii 'a' ≤ byte && byte ≤ ascii 'z'

def isAlphanumeric (byte : UInt8) : Bool := isDigit byte || isUpper byte || isLower byte

def toLower (byte : UInt8) : UInt8 := if isUpper byte then byte + 32 else byte

def eqlIgnoreCase (a b : List UInt8) : Bool := a.map toLower == b.map toLower

/-- The value of a digit in base 16. -/
def hexValue (byte : UInt8) : Option Nat :=
  if isDigit byte then some (byte - ascii '0').toNat
  else if ascii 'a' ≤ byte && byte ≤ ascii 'f' then some (byte - ascii 'a' + 10).toNat
  else if ascii 'A' ≤ byte && byte ≤ ascii 'F' then some (byte - ascii 'A' + 10).toNat
  else none

/-- A space or a tab. -/
def isBlank (byte : UInt8) : Bool := byte == ascii ' ' || byte == ascii '\t'

def trimStart (bytes : List UInt8) : List UInt8 := bytes.dropWhile isBlank

def trim (bytes : List UInt8) : List UInt8 :=
  ((trimStart bytes).reverse.dropWhile isBlank).reverse

theorem forall_byte {P : UInt8 → Prop} (h : ∀ n < 256, P (UInt8.ofNat n)) (byte : UInt8) :
    P byte := by
  simpa using h byte.toNat byte.toNat_lt

end Library
