import Rui.Library.Decimal

/-!
# Bytes in lowercase hexadecimal

Two digits a byte, as the standard library writes and reads them.
-/

namespace Library

/-- The digit of a number below 16. -/
def hexDigit (n : Nat) : UInt8 := (text "0123456789abcdef").getD n 0

def toHex (bytes : List UInt8) : List UInt8 :=
  bytes.flatMap fun byte => [hexDigit (byte.toNat / 16), hexDigit (byte.toNat % 16)]

/-- `std.fmt.hexToBytes`, which takes digits of either case. -/
def fromHex : List UInt8 → Option (List UInt8)
  | [] => some []
  | [_] => none
  | high :: low :: rest =>
    match hexValue high, hexValue low, fromHex rest with
    | some high, some low, some bytes => some (UInt8.ofNat (16 * high + low) :: bytes)
    | _, _, _ => none

def isLowerHex (byte : UInt8) : Bool :=
  isDigit byte || (ascii 'a' ≤ byte && byte ≤ ascii 'f')

theorem hexValue_hexDigit : ∀ n < 16, hexValue (hexDigit n) = some n ∧ isLowerHex (hexDigit n) := by
  decide

variable {byte : UInt8} {bytes : List UInt8} {n : Nat}

theorem isLowerHex_iff : isLowerHex byte = true ↔
    0x30 ≤ byte.toNat ∧ byte.toNat ≤ 0x39 ∨ 0x61 ≤ byte.toNat ∧ byte.toNat ≤ 0x66 := by
  have hfirst : (ascii 'a').toNat = 0x61 := rfl
  have hlast : (ascii 'f').toNat = 0x66 := rfl
  rw [isLowerHex, Bool.or_eq_true, isDigit_iff, Bool.and_eq_true, decide_eq_true_iff,
    decide_eq_true_iff, UInt8.le_iff_toNat_le, UInt8.le_iff_toNat_le, hfirst, hlast]

theorem hexValue_lower (h : isLowerHex byte = true) :
    ∃ n, n < 16 ∧ hexValue byte = some n ∧ hexDigit n = byte := by
  have hdigit : ∀ n < 16, (hexDigit n).toNat = if n < 10 then 0x30 + n else 0x57 + n := by decide
  have hspelled : ∀ n < 16, (if n < 10 then 0x30 + n else 0x57 + n) = byte.toNat →
      ∃ n < 16, hexValue byte = some n ∧ hexDigit n = byte := by
    intro n hn hsame
    have heq : hexDigit n = byte := UInt8.toNat_inj.mp ((hdigit n hn).trans hsame)
    exact ⟨n, hn, heq ▸ (hexValue_hexDigit n hn).1, heq⟩
  rcases isLowerHex_iff.mp h with ⟨hlow, hhigh⟩ | ⟨hlow, hhigh⟩
  · exact hspelled (byte.toNat - 0x30) (by omega) (by rw [if_pos (by omega)]; omega)
  · exact hspelled (byte.toNat - 0x57) (by omega) (by rw [if_neg (by omega)]; omega)

theorem fromHex_toHex (bytes : List UInt8) : fromHex (toHex bytes) = some bytes := by
  induction bytes with
  | nil => rfl
  | cons byte bytes ih =>
    have hbyte := byte.toNat_lt
    have hhigh := (hexValue_hexDigit (byte.toNat / 16) (by omega)).1
    have hlow := (hexValue_hexDigit (byte.toNat % 16) (by omega)).1
    rw [toHex, List.flatMap_cons, ← toHex, List.cons_append, List.cons_append, List.nil_append,
      fromHex, hhigh, hlow, ih]
    simp only [Nat.div_add_mod, UInt8.ofNat_toNat]

@[simp] theorem length_toHex (bytes : List UInt8) : (toHex bytes).length = 2 * bytes.length := by
  induction bytes with
  | nil => rfl
  | cons byte bytes ih =>
    rw [toHex, List.flatMap_cons, ← toHex, List.length_append, ih, List.length_cons]
    simp only [List.length_cons, List.length_nil]
    omega

theorem isLowerHex_of_mem_toHex (h : byte ∈ toHex bytes) : isLowerHex byte = true := by
  obtain ⟨of, -, hmem⟩ := List.mem_flatMap.mp h
  have hlt := of.toNat_lt
  rcases List.mem_cons.mp hmem with rfl | hmem
  · exact (hexValue_hexDigit _ (by omega)).2
  · rw [List.mem_singleton.mp hmem]
    exact (hexValue_hexDigit _ (by omega)).2

/-- **The canonical spelling.** Lowercase digits are those of the bytes they say. -/
theorem toHex_fromHex {digits : List UInt8} (h : ∀ byte ∈ digits, isLowerHex byte = true)
    (hread : fromHex digits = some bytes) : digits = toHex bytes := by
  induction digits using List.twoStepInduction generalizing bytes with
  | nil =>
    cases hread
    rfl
  | singleton digit => cases hread
  | cons_cons high low rest ih _ =>
    obtain ⟨first, hfirst, hhigh, hfirstDigit⟩ := hexValue_lower (h high (by simp))
    obtain ⟨second, hsecond, hlow, hsecondDigit⟩ := hexValue_lower (h low (by simp))
    rw [fromHex, hhigh, hlow] at hread
    cases hrest : fromHex rest with
    | none => simp [hrest] at hread
    | some more =>
      simp only [hrest, Option.some.injEq] at hread
      subst hread
      have hvalue : (UInt8.ofNat (16 * first + second)).toNat = 16 * first + second := by
        rw [UInt8.toNat_ofNat']
        omega
      rw [toHex, List.flatMap_cons, ← toHex, hvalue,
        ← ih (fun b hb => h b (by simp [hb])) hrest]
      have hdiv : (16 * first + second) / 16 = first := by omega
      have hmod : (16 * first + second) % 16 = second := by omega
      rw [hdiv, hmod, hfirstDigit, hsecondDigit]
      rfl

/-! ## Numbers -/

/-- The digits of a number in lowercase hexadecimal. -/
def hexNumber (n : Nat) : List UInt8 := (Nat.toDigits 16 n).map ascii

/-- The last four digits of a number, whatever it is. -/
def hexFour (n : Nat) : List UInt8 :=
  [hexDigit (n / 4096 % 16), hexDigit (n / 256 % 16), hexDigit (n / 16 % 16), hexDigit (n % 16)]

theorem ascii_hexDigit : ∀ d < 16, ascii (Nat.digitChar d) = hexDigit d := by decide

theorem hexNumber_of_lt (h : n < 16) : hexNumber n = [hexDigit n] := by
  rw [hexNumber, Nat.toDigits_of_lt_base h, List.map_singleton, ascii_hexDigit n h]

theorem hexNumber_split (h : 16 ≤ n) : hexNumber n = hexNumber (n / 16) ++ [hexDigit (n % 16)] := by
  have hlast := Nat.mod_lt n (by decide : 16 > 0)
  have hsplit := @Nat.toDigits_append_toDigits 16 (n / 16) (n % 16) (by decide) (by omega) hlast
  rw [Nat.div_add_mod, Nat.toDigits_of_lt_base hlast] at hsplit
  rw [hexNumber, ← hsplit, List.map_append, List.map_singleton, ascii_hexDigit _ hlast, hexNumber]

theorem hexNumber_padded (h : n < 65536) :
    List.replicate (4 - (hexNumber n).length) (ascii '0') ++ hexNumber n = hexFour n := by
  have hzero : hexDigit 0 = ascii '0' := by decide
  have hsmall : ∀ m k, m < k → m / k = 0 := fun m k => Nat.div_eq_of_lt
  rw [hexFour]
  rcases Nat.lt_or_ge n 16 with h₁ | h₁
  · rw [hexNumber_of_lt h₁, hsmall n 4096 (by omega), hsmall n 256 (by omega), hsmall n 16 h₁,
      Nat.mod_eq_of_lt h₁, Nat.zero_mod, hzero]
    rfl
  rw [hexNumber_split h₁]
  rcases Nat.lt_or_ge (n / 16) 16 with h₂ | h₂
  · rw [hexNumber_of_lt h₂, hsmall n 4096 (by omega), hsmall n 256 (by omega), Nat.mod_eq_of_lt h₂,
      Nat.zero_mod, hzero]
    rfl
  rw [hexNumber_split h₂, Nat.div_div_eq_div_mul]
  rcases Nat.lt_or_ge (n / (16 * 16)) 16 with h₃ | h₃
  · rw [hexNumber_of_lt h₃, hsmall n 4096 (by omega), Nat.zero_mod, hzero,
      show n / (16 * 16) = n / 256 from rfl, Nat.mod_eq_of_lt (show n / 256 < 16 from h₃)]
    rfl
  · rw [hexNumber_split h₃, Nat.div_div_eq_div_mul, hexNumber_of_lt (by omega),
      show n / (16 * 16) = n / 256 from rfl, show n / (16 * 16 * 16) = n / 4096 from rfl,
      Nat.mod_eq_of_lt (show n / 4096 < 16 by omega)]
    rfl

end Library
