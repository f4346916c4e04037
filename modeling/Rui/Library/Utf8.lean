import Mathlib

/-!
# UTF-8

The standard library's coding of one scalar value. A sequence decodes exactly
when it is the encoding of a character, the one it decodes to.
-/

namespace Library

/-- The Unicode scalar values. -/
def IsScalar (scalar : Nat) : Prop := scalar < 0xd800 ∨ 0xdfff < scalar ∧ scalar < 0x110000

instance (scalar : Nat) : Decidable (IsScalar scalar) := inferInstanceAs (Decidable (_ ∨ _))

/-- How long the sequence that a byte begins is. -/
def utf8ByteSequenceLength (first : UInt8) : Option Nat :=
  if first.toNat < 0x80 then some 1
  else if first.toNat < 0xc0 then none
  else if first.toNat < 0xe0 then some 2
  else if first.toNat < 0xf0 then some 3
  else if first.toNat < 0xf8 then some 4
  else none

/-- A byte that continues a sequence. -/
def isContinuation (byte : UInt8) : Bool := byte.toNat / 64 == 2

/-- The scalar value of a whole sequence, in its shortest form. -/
def utf8Decode : List UInt8 → Option Nat
  | [a] => some a.toNat
  | [a, b] =>
    let scalar := a.toNat % 32 * 64 + b.toNat % 64
    if !isContinuation b then none else if scalar < 0x80 then none else some scalar
  | [a, b, c] =>
    let scalar := a.toNat % 16 * 4096 + b.toNat % 64 * 64 + c.toNat % 64
    if !(isContinuation b && isContinuation c) then none
    else if scalar < 0x800 then none
    else if 0xd800 ≤ scalar ∧ scalar ≤ 0xdfff then none
    else some scalar
  | [a, b, c, d] =>
    let scalar := a.toNat % 8 * 262144 + b.toNat % 64 * 4096 + c.toNat % 64 * 64 + d.toNat % 64
    if !(isContinuation b && isContinuation c && isContinuation d) then none
    else if scalar < 0x10000 then none
    else if 0x10ffff < scalar then none
    else some scalar
  | _ => none

/-- The encoding of a scalar value. -/
def utf8Encode (scalar : Nat) : List UInt8 :=
  if scalar < 0x80 then [UInt8.ofNat scalar]
  else if scalar < 0x800 then [UInt8.ofNat (scalar / 64 + 0xc0), UInt8.ofNat (scalar % 64 + 0x80)]
  else if scalar < 0x10000 then
    [UInt8.ofNat (scalar / 4096 + 0xe0), UInt8.ofNat (scalar / 64 % 64 + 0x80),
      UInt8.ofNat (scalar % 64 + 0x80)]
  else
    [UInt8.ofNat (scalar / 262144 + 0xf0), UInt8.ofNat (scalar / 4096 % 64 + 0x80),
      UInt8.ofNat (scalar / 64 % 64 + 0x80), UInt8.ofNat (scalar % 64 + 0x80)]

/-- Whole sequences, at most this many. -/
def utf8Sequences : Nat → List UInt8 → Bool
  | _, [] => true
  | 0, _ :: _ => false
  | fuel + 1, first :: rest =>
    (utf8ByteSequenceLength first).any fun length =>
      decide (length ≤ rest.length + 1) && (utf8Decode ((first :: rest).take length)).isSome &&
        utf8Sequences fuel ((first :: rest).drop length)

/-- Text that is UTF-8 throughout. -/
def utf8Validate (bytes : List UInt8) : Bool := utf8Sequences bytes.length bytes

variable {n scalar : Nat} {first : UInt8}

theorem toNat_ofNat_of_lt (h : n < 256) : (UInt8.ofNat n).toNat = n := by
  rw [UInt8.toNat_ofNat']
  exact Nat.mod_eq_of_lt h

theorem ofNat_toNat_of_eq (byte : UInt8) (h : n = byte.toNat) : UInt8.ofNat n = byte := by
  rw [h, UInt8.ofNat_toNat]

theorem isContinuation_iff {byte : UInt8} :
    isContinuation byte = true ↔ 0x80 ≤ byte.toNat ∧ byte.toNat < 0xc0 := by
  simp only [isContinuation, beq_iff_eq]
  omega

theorem utf8ByteSequenceLength_eq {length : Nat} (h : utf8ByteSequenceLength first = some length) :
    length = 1 ∧ first.toNat < 0x80 ∨ length = 2 ∧ 0xc0 ≤ first.toNat ∧ first.toNat < 0xe0 ∨
      length = 3 ∧ 0xe0 ≤ first.toNat ∧ first.toNat < 0xf0 ∨
      length = 4 ∧ 0xf0 ≤ first.toNat ∧ first.toNat < 0xf8 := by
  simp only [utf8ByteSequenceLength] at h
  split at h
  · cases h; omega
  · split at h
    · cases h
    · split at h
      · cases h; omega
      · split at h
        · cases h; omega
        · split at h <;> cases h
          omega

/-- What decodes is the encoding of what it decodes to. -/
theorem utf8Decode_sound {rest : List UInt8}
    (hlength : utf8ByteSequenceLength first = some (rest.length + 1))
    (h : utf8Decode (first :: rest) = some scalar) :
    IsScalar scalar ∧ first :: rest = utf8Encode scalar := by
  have hfirst := utf8ByteSequenceLength_eq hlength
  have ha := first.toNat_lt
  match rest with
  | [] =>
    simp only [List.length_nil] at hfirst
    simp only [utf8Decode, Option.some.injEq] at h
    subst h
    refine ⟨.inl (by omega), ?_⟩
    rw [utf8Encode, if_pos (by omega), UInt8.ofNat_toNat]
  | [b] =>
    have hb := b.toNat_lt
    simp only [List.length_cons, List.length_nil] at hfirst
    simp only [utf8Decode] at h
    split at h
    · cases h
    · rename_i hb
      rw [Bool.not_eq_true', Bool.not_eq_false, isContinuation_iff] at hb
      split at h
      · cases h
      · simp only [Option.some.injEq] at h
        refine ⟨.inl (by omega), ?_⟩
        rw [utf8Encode, if_neg (by omega), if_pos (by omega), ofNat_toNat_of_eq first
          (by omega), ofNat_toNat_of_eq b (by omega)]
  | [b, c] =>
    simp only [List.length_cons, List.length_nil] at hfirst
    simp only [utf8Decode] at h
    split at h
    · cases h
    · rename_i hcont
      rw [Bool.not_eq_true', Bool.not_eq_false, Bool.and_eq_true, isContinuation_iff,
        isContinuation_iff] at hcont
      split at h
      · cases h
      · split at h
        · cases h
        · simp only [Option.some.injEq] at h
          refine ⟨?_, ?_⟩
          · rw [IsScalar]
            omega
          · rw [utf8Encode, if_neg (by omega), if_neg (by omega), if_pos (by omega),
              ofNat_toNat_of_eq first (by omega),
              ofNat_toNat_of_eq b (by omega), ofNat_toNat_of_eq c (by omega)]
  | [b, c, d] =>
    simp only [List.length_cons, List.length_nil] at hfirst
    simp only [utf8Decode] at h
    split at h
    · cases h
    · rename_i hcont
      rw [Bool.not_eq_true', Bool.not_eq_false, Bool.and_eq_true, Bool.and_eq_true,
        isContinuation_iff, isContinuation_iff, isContinuation_iff] at hcont
      split at h
      · cases h
      · split at h
        · cases h
        · simp only [Option.some.injEq] at h
          refine ⟨.inr (by omega), ?_⟩
          rw [utf8Encode, if_neg (by omega), if_neg (by omega), if_neg (by omega),
            ofNat_toNat_of_eq first (by omega),
            ofNat_toNat_of_eq b (by omega), ofNat_toNat_of_eq c (by omega),
            ofNat_toNat_of_eq d (by omega)]
  | _ :: _ :: _ :: _ :: _ => simp [utf8Decode] at h

theorem exists_byte (h : n < 256) : ∃ byte : UInt8, UInt8.ofNat n = byte ∧ byte.toNat = n :=
  ⟨_, rfl, toNat_ofNat_of_lt h⟩

/-- A sequence that its first byte announces and its other bytes continue. -/
structure IsSequence (bytes : List UInt8) (first : UInt8) (rest : List UInt8) : Prop where
  eq : bytes = first :: rest
  length : utf8ByteSequenceLength first = some (rest.length + 1)
  continues : ∀ byte ∈ rest, isContinuation byte = true

/-- An encoding decodes, and its first byte tells its length. -/
theorem utf8Decode_encode (h : IsScalar scalar) : utf8Decode (utf8Encode scalar) = some scalar ∧
      ∃ first rest, IsSequence (utf8Encode scalar) first rest := by
  rw [IsScalar] at h
  rw [utf8Encode]
  split
  · obtain ⟨a, hba, ha⟩ := exists_byte (n := scalar) (by omega)
    rw [hba, utf8Decode, ha]
    refine ⟨rfl, a, [], rfl, ?_, by simp⟩
    rw [utf8ByteSequenceLength, if_pos (by omega)]
    rfl
  · split
    · obtain ⟨a, hba, ha⟩ := exists_byte (n := scalar / 64 + 0xc0) (by omega)
      obtain ⟨b, hbb, hb⟩ := exists_byte (n := scalar % 64 + 0x80) (by omega)
      have hcb : isContinuation b = true := isContinuation_iff.mpr (by omega)
      have hscalar : a.toNat % 32 * 64 + b.toNat % 64 = scalar := by omega
      rw [hba, hbb]
      refine ⟨?_, a, [b], rfl, ?_, by simpa using hcb⟩
      · simp only [utf8Decode, hcb, hscalar, Bool.not_true, Bool.false_eq_true, if_false]
        rw [if_neg (by omega)]
      · rw [utf8ByteSequenceLength, if_neg (by omega), if_neg (by omega), if_pos (by omega)]
        rfl
    · split
      · obtain ⟨a, hba, ha⟩ := exists_byte (n := scalar / 4096 + 0xe0) (by omega)
        obtain ⟨b, hbb, hb⟩ := exists_byte (n := scalar / 64 % 64 + 0x80) (by omega)
        obtain ⟨c, hbc, hc⟩ := exists_byte (n := scalar % 64 + 0x80) (by omega)
        have hcb : isContinuation b = true := isContinuation_iff.mpr (by omega)
        have hcc : isContinuation c = true := isContinuation_iff.mpr (by omega)
        have hscalar : a.toNat % 16 * 4096 + b.toNat % 64 * 64 + c.toNat % 64 = scalar := by omega
        rw [hba, hbb, hbc]
        refine ⟨?_, a, [b, c], rfl, ?_, by simpa using ⟨hcb, hcc⟩⟩
        · simp only [utf8Decode, hcb, hcc, hscalar, Bool.and_self, Bool.not_true,
            Bool.false_eq_true, if_false]
          rw [if_neg (by omega), if_neg (by omega)]
        · rw [utf8ByteSequenceLength, if_neg (by omega), if_neg (by omega), if_neg (by omega),
            if_pos (by omega)]
          rfl
      · obtain ⟨a, hba, ha⟩ := exists_byte (n := scalar / 262144 + 0xf0) (by omega)
        obtain ⟨b, hbb, hb⟩ := exists_byte (n := scalar / 4096 % 64 + 0x80) (by omega)
        obtain ⟨c, hbc, hc⟩ := exists_byte (n := scalar / 64 % 64 + 0x80) (by omega)
        obtain ⟨d, hbd, hd⟩ := exists_byte (n := scalar % 64 + 0x80) (by omega)
        have hcb : isContinuation b = true := isContinuation_iff.mpr (by omega)
        have hcc : isContinuation c = true := isContinuation_iff.mpr (by omega)
        have hcd : isContinuation d = true := isContinuation_iff.mpr (by omega)
        have hscalar : a.toNat % 8 * 262144 + b.toNat % 64 * 4096 + c.toNat % 64 * 64 +
            d.toNat % 64 = scalar := by omega
        rw [hba, hbb, hbc, hbd]
        refine ⟨?_, a, [b, c, d], rfl, ?_, by simpa using ⟨hcb, hcc, hcd⟩⟩
        · simp only [utf8Decode, hcb, hcc, hcd, hscalar, Bool.and_self, Bool.not_true,
            Bool.false_eq_true, if_false]
          rw [if_neg (by omega), if_neg (by omega)]
        · rw [utf8ByteSequenceLength, if_neg (by omega), if_neg (by omega), if_neg (by omega),
            if_neg (by omega), if_pos (by omega)]
          rfl

theorem isScalar_char (c : Char) : IsScalar c.toNat := c.valid

end Library
