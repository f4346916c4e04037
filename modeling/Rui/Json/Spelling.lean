import Rui.Json.Escape
import Rui.Json.Strings

/-!
# How escaped text reads

Escaped text is the spelling of a JSON string that says the text.
-/

namespace Rui.Json

open Library Library.Json

/-- A text in UTF-8. -/
def utf8 (chars : List Char) : List UInt8 := chars.flatMap fun c => utf8Encode c.toNat

theorem hexQuad_control : ∀ n < 0x20,
    hexQuad [ascii '0', ascii '0', hexDigits.getD (n / 16) 0, hexDigits.getD (n % 16) 0] = some n := by
  decide +kernel

/-- How an escaped character is spelled. -/
def spell (c : Char) : Piece :=
  if h : 0x20 ≤ c.toNat ∧ c.toNat ≠ 0x22 ∧ c.toNat ≠ 0x5c then .char c.toNat c.valid h
  else if quote : c.toNat = 0x22 then .short (ascii '"') (ascii '"') rfl
  else if backslash : c.toNat = 0x5c then .short (ascii '\\') (ascii '\\') rfl
  else if c.toNat = 0x08 then .short (ascii 'b') 0x08 rfl
  else if c.toNat = 0x0c then .short (ascii 'f') 0x0c rfl
  else if c.toNat = 0x0a then .short (ascii 'n') (ascii '\n') rfl
  else if c.toNat = 0x0d then .short (ascii 'r') (ascii '\r') rfl
  else if c.toNat = 0x09 then .short (ascii 't') (ascii '\t') rfl
  else .unicode [ascii '0', ascii '0', hexDigits.getD (c.toNat / 16) 0,
    hexDigits.getD (c.toNat % 16) 0] c.toNat (hexQuad_control c.toNat (by omega)) c.valid

def spelled (chars : List Char) : List Piece := chars.map spell

theorem spell_ascii : ∀ n < 0x80,
    (spell (Char.ofNat n)).raw = encodeJsonStringChars (utf8Encode n) ∧
      (spell (Char.ofNat n)).decoded = utf8Encode n := by
  decide +kernel

theorem plain_of_high {byte : UInt8} (h : 0x80 ≤ byte.toNat) : plain byte = true := by
  obtain ⟨_, hcontrol, hbackslash, hquote⟩ := not_plain_of_high h
  have hlow : ¬ byte.toNat < 0x20 := by omega
  simp [plain, UInt8.lt_iff_toNat_lt, hlow, hbackslash, hquote]

theorem spell_eq (c : Char) : (spell c).raw = encodeJsonStringChars (utf8Encode c.toNat) ∧
    (spell c).decoded = utf8Encode c.toNat := by
  by_cases hascii : c.toNat < 0x80
  · have := spell_ascii c.toNat hascii
    rwa [Char.ofNat_toNat] at this
  · have hspell : spell c = .char c.toNat c.valid (by omega) := dif_pos (by omega)
    rw [hspell]
    refine ⟨?_, rfl⟩
    obtain ⟨first, tail, hsequence, hfirst⟩ := encode_high (isScalar_char c) (by omega)
    show utf8Encode c.toNat = _
    rw [encodeJsonStringChars_of_plain]
    intro byte hbyte
    rw [hsequence.eq] at hbyte
    rcases List.mem_cons.mp hbyte with rfl | htail
    · exact plain_of_high hfirst
    · exact plain_of_high (isContinuation_iff.mp (hsequence.continues byte htail)).1

/-- **Escaped text spells a string.** -/
theorem raw_spelled (chars : List Char) : raw (spelled chars) = encodeJsonStringChars (utf8 chars) := by
  induction chars with
  | nil => rfl
  | cons c chars ih =>
    rw [spelled, List.map_cons, raw_cons, (spell_eq c).1, utf8, List.flatMap_cons,
      encodeJsonStringChars_append]
    exact congrArg _ ih

/-! ## Plain text -/

/-- A text of plain ASCII characters. -/
def isPlainText (s : String) : Bool := s.toList.all fun c => c.toNat < 0x80 && plain (ascii c)

theorem raw_plain {s : String} (h : isPlainText s = true) : raw (spelled s.toList) = text s := by
  rw [isPlainText, List.all_eq_true] at h
  rw [raw_spelled, text, utf8]
  have hbytes : s.toList.flatMap (fun c => utf8Encode c.toNat) = s.toList.map ascii := by
    rw [List.map_eq_flatMap]
    refine List.flatMap_congr fun c hc => ?_
    have hlow := (Bool.and_eq_true _ _ ▸ h c hc).1
    rw [decide_eq_true_iff] at hlow
    rw [utf8Encode, if_pos hlow]
    rfl
  rw [hbytes]
  apply encodeJsonStringChars_of_plain
  intro byte hbyte
  obtain ⟨c, hc, rfl⟩ := List.mem_map.mp hbyte
  exact (Bool.and_eq_true _ _ ▸ h c hc).2

end Rui.Json
