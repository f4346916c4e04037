import Rui.Library.Ascii

/-!
# JSON string escaping

The characters of a JSON string as the standard library writes them: quotes,
backslashes and control characters are escaped, every other byte is itself.
-/

namespace Rui.Json

open Library

/-- A byte that a JSON string holds as itself. -/
def plain (byte : UInt8) : Bool :=
  !(byte < 0x20 || byte == ascii '"' || byte == ascii '\\')

def hexDigits : List UInt8 := text "0123456789abcdef"

/-- The escape of a byte that is not plain. -/
def writeSpecialEscape (byte : UInt8) : List UInt8 :=
  if byte = ascii '\\' then [ascii '\\', ascii '\\']
  else if byte = ascii '"' then [ascii '\\', ascii '"']
  else if byte = 0x08 then [ascii '\\', ascii 'b']
  else if byte = 0x0c then [ascii '\\', ascii 'f']
  else if byte = ascii '\n' then [ascii '\\', ascii 'n']
  else if byte = ascii '\r' then [ascii '\\', ascii 'r']
  else if byte = ascii '\t' then [ascii '\\', ascii 't']
  else [ascii '\\', ascii 'u', ascii '0', ascii '0',
    hexDigits.getD (byte >>> 4).toNat 0, hexDigits.getD (byte &&& 0xf).toNat 0]

def escapeByte (byte : UInt8) : List UInt8 :=
  if plain byte then [byte] else writeSpecialEscape byte

/-- `std.json.Stringify.encodeJsonStringChars` under its default options. -/
def encodeJsonStringChars (chars : List UInt8) : List UInt8 := chars.flatMap escapeByte

@[simp] theorem encodeJsonStringChars_append (chars more : List UInt8) :
    encodeJsonStringChars (chars ++ more) =
      encodeJsonStringChars chars ++ encodeJsonStringChars more := List.flatMap_append

@[simp] theorem encodeJsonStringChars_singleton (byte : UInt8) :
    encodeJsonStringChars [byte] = escapeByte byte := List.flatMap_singleton _ _

theorem escapeByte_of_plain {byte : UInt8} (h : plain byte = true) : escapeByte byte = [byte] :=
  if_pos h

theorem encodeJsonStringChars_of_plain {chars : List UInt8} (h : ∀ byte ∈ chars, plain byte = true) :
    encodeJsonStringChars chars = chars := by
  induction chars with
  | nil => rfl
  | cons byte chars ih =>
    have hhead := escapeByte_of_plain (h byte List.mem_cons_self)
    have htail := ih fun b hb => h b (List.mem_cons_of_mem _ hb)
    rw [← List.singleton_append, encodeJsonStringChars_append, htail,
      encodeJsonStringChars_singleton, hhead]

end Rui.Json
