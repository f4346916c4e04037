import Rui.Library.JsonText

/-!
# The contents of JSON strings

The decoder that the reader runs over each string and the shell over each range
a codec names (`decodeString` of `codecs/json.zig`). It works on what is left
of its bytes, and gives its sink the contents piece by piece; joined, they are
the string's characters in UTF-8.
-/

namespace Rui.Json

open Library Library.Json

inductive Error
  | unexpectedJsonEnd
  | trailingJson
  | unexpectedJsonDelimiter
  | expectedJsonString
  | jsonTooDeep
  | invalidJsonValue
  | invalidJsonNumber
  | invalidJsonLiteral
  | invalidJsonString
  | invalidJsonEscape
  | invalidJsonSurrogate
  | invalidJsonUtf8
  deriving DecidableEq, Repr

/-! ## The decoder -/

/-- What the decoder gives its sink: bytes, with the scalar they are unless
they are a run of plain ASCII. -/
structure Decoded where
  bytes : List UInt8
  scalar : Option Nat
  deriving DecidableEq, Repr

/-- Contents that need no check: no quote, backslash, control or UTF-8. -/
def isPlain (byte : UInt8) : Bool :=
  !(byte == ascii '"' || byte == ascii '\\' || byte < 0x20 || byte ≥ 0x80)

/-- Four hex digits at the front, and what follows them. -/
def hex : List UInt8 → Except Error (Nat × List UInt8) :=
  let rec go (value : Nat) : Nat → List UInt8 → Except Error (Nat × List UInt8)
    | 0, bytes => .ok (value, bytes)
    | _ + 1, [] => .error .unexpectedJsonEnd
    | count + 1, byte :: bytes =>
      match hexValue byte with
      | none => .error .invalidJsonEscape
      | some digit => go (value * 16 + digit) count bytes
  go 0 4

/-- A `\u` escape behind its `u`, with its low surrogate when it is a high
one. -/
def unicodeEscape (bytes : List UInt8) : Except Error (Decoded × List UInt8) :=
  match hex bytes with
  | .error e => .error e
  | .ok (value, bytes) =>
    if 0xdc00 ≤ value ∧ value ≤ 0xdfff then .error .invalidJsonSurrogate
    else if 0xd800 ≤ value ∧ value ≤ 0xdbff then
      match bytes with
      | [] => .error .unexpectedJsonEnd
      | backslash :: bytes =>
        if backslash ≠ ascii '\\' then .error .invalidJsonSurrogate
        else
          match bytes with
          | [] => .error .unexpectedJsonEnd
          | u :: bytes =>
            if u ≠ ascii 'u' then .error .invalidJsonSurrogate
            else
              match hex bytes with
              | .error e => .error e
              | .ok (low, bytes) =>
                if low < 0xdc00 ∨ low > 0xdfff then .error .invalidJsonSurrogate
                else
                  let scalar := fromSurrogates value low
                  .ok (⟨utf8Encode scalar, some scalar⟩, bytes)
    else .ok (⟨utf8Encode value, some value⟩, bytes)

/-- The escape behind its backslash. -/
def escape : List UInt8 → Except Error (Decoded × List UInt8)
  | [] => .error .unexpectedJsonEnd
  | byte :: bytes =>
    if byte = ascii 'u' then unicodeEscape bytes
    else
      match shortEscape byte with
      | none => .error .invalidJsonEscape
      | some value => .ok (⟨[value], some value.toNat⟩, bytes)

/-- The bytes of a sequence behind its first, or why they are none. -/
def sequenceTail : Nat → List UInt8 → Except Error (List UInt8 × List UInt8)
  | 0, bytes => .ok ([], bytes)
  | _ + 1, [] => .error .unexpectedJsonEnd
  | count + 1, byte :: bytes =>
    if byte ≤ 0x1f then .error .invalidJsonString
    else if byte = ascii '"' ∨ byte = ascii '\\' then .error .invalidJsonUtf8
    else (sequenceTail count bytes).map fun (tail, rest) => (byte :: tail, rest)

/-- The UTF-8 sequence that `first` begins. -/
def sequence (first : UInt8) (bytes : List UInt8) : Except Error (Decoded × List UInt8) :=
  match utf8ByteSequenceLength first with
  | none => .error .invalidJsonUtf8
  | some length =>
    match sequenceTail (length - 1) bytes with
    | .error e => .error e
    | .ok (tail, rest) =>
      match utf8Decode (first :: tail) with
      | none => .error .invalidJsonUtf8
      | some scalar => .ok (⟨first :: tail, some scalar⟩, rest)

/-- One step of the decoder, before a byte that is neither a quote nor the end:
what it gives the sink, and where it goes on. -/
def decodeNext (first : UInt8) (bytes : List UInt8) : Except Error (Decoded × List UInt8) :=
  if isPlain first then
    .ok (⟨first :: bytes.takeWhile isPlain, none⟩, bytes.dropWhile isPlain)
  else if first ≤ 0x1f then .error .invalidJsonString
  else if first = ascii '\\' then escape bytes
  else sequence first bytes

variable {bytes rest tail : List UInt8} {value scalar : Nat} {byte first : UInt8}
  {result : Decoded} {results : List Decoded}

theorem sequenceTail_length {count : Nat} (h : sequenceTail count bytes = .ok (tail, rest)) :
    tail.length = count ∧ bytes = tail ++ rest := by
  induction count generalizing bytes tail with
  | zero =>
    cases h
    exact ⟨rfl, rfl⟩
  | succ count ih =>
    cases bytes with
    | nil => simp [sequenceTail] at h
    | cons byte bytes =>
      simp only [sequenceTail] at h
      split at h
      · cases h
      · split at h
        · cases h
        · cases htail : sequenceTail count bytes with
          | error e => simp [htail, Except.map] at h
          | ok result =>
            simp only [htail, Except.map, Except.ok.injEq, Prod.mk.injEq] at h
            obtain ⟨rfl, rfl⟩ := h
            obtain ⟨hlength, hbytes⟩ := ih htail
            exact ⟨congrArg (· + 1) hlength, congrArg (byte :: ·) hbytes⟩

theorem hex_eq_ok : hex bytes = .ok (value, rest) ↔
      ∃ digits, bytes = digits ++ rest ∧ hexQuad digits = some value := by
  constructor
  · intro h
    match bytes with
    | [] | [_] | [_, _] | [_, _, _] =>
      simp only [hex, hex.go] at h
      repeat' split at h
      all_goals cases h
    | a :: b :: c :: d :: tail =>
      simp only [hex, hex.go] at h
      cases ha : hexValue a <;> simp only [ha] at h <;> try cases h
      cases hb : hexValue b <;> simp only [hb] at h <;> try cases h
      cases hc : hexValue c <;> simp only [hc] at h <;> try cases h
      cases hd : hexValue d <;> simp only [hd] at h <;> try cases h
      exact ⟨[a, b, c, d], rfl, by simp [hexQuad, ha, hb, hc, hd]⟩
  · rintro ⟨digits, rfl, hquad⟩
    match digits with
    | [] | [_] | [_, _] | [_, _, _] | _ :: _ :: _ :: _ :: _ :: _ => simp [hexQuad] at hquad
    | [a, b, c, d] =>
      cases ha : hexValue a <;> simp [hexQuad, ha] at hquad
      cases hb : hexValue b <;> simp [hb] at hquad
      cases hc : hexValue c <;> simp [hc] at hquad
      cases hd : hexValue d <;> simp [hd] at hquad
      simp [hex, hex.go, ha, hb, hc, hd, ← hquad]

/-! ## What one step decodes -/

theorem piece_raw_ne_nil (piece : Piece) : piece.raw ≠ [] := by
  cases piece with
  | char scalar valid _ =>
    obtain ⟨_, first, rest, hseq⟩ := utf8Decode_encode valid
    simp [Piece.raw, hseq.eq]
  | short => simp [Piece.raw]
  | unicode => simp [Piece.raw]
  | pair => simp [Piece.raw]

theorem isPlain_iff : isPlain byte = true ↔
    0x20 ≤ byte.toNat ∧ byte.toNat < 0x80 ∧ byte.toNat ≠ 0x22 ∧ byte.toNat ≠ 0x5c := by
  have hquote : (ascii '"').toNat = 0x22 := rfl
  have hbackslash : (ascii '\\').toNat = 0x5c := rfl
  have hlow : (0x20 : UInt8).toNat = 0x20 := rfl
  have hhigh : (0x80 : UInt8).toNat = 0x80 := rfl
  simp only [isPlain, Bool.not_eq_true', Bool.or_eq_false_iff, beq_eq_false_iff_ne, ne_eq,
    decide_eq_false_iff_not, UInt8.lt_iff_toNat_lt, ge_iff_le, UInt8.le_iff_toNat_le,
    ← UInt8.toNat_inj, hquote, hbackslash, hlow, hhigh]
  omega

theorem high_of_not_plain (hplain : ¬ isPlain byte = true) (hcontrol : ¬ byte ≤ 0x1f)
    (hquote : byte ≠ ascii '"') (hbackslash : byte ≠ ascii '\\') : 0x80 ≤ byte.toNat := by
  have hcontrol : ¬ byte.toNat ≤ 0x1f := hcontrol
  have hquote : byte.toNat ≠ 0x22 := fun h => hquote (UInt8.toNat_inj.mp h)
  have hbackslash : byte.toNat ≠ 0x5c := fun h => hbackslash (UInt8.toNat_inj.mp h)
  rw [isPlain_iff] at hplain
  omega

theorem shortEscape_lt {letter value : UInt8} (h : shortEscape letter = some value) :
    value.toNat < 0x80 := by
  unfold shortEscape at h
  split_ifs at h with hself <;> cases h
  · rcases hself with rfl | rfl | rfl <;> decide
  all_goals decide

theorem hexValue_lt (h : hexValue byte = some value) : value < 16 := by
  have hdigit : (ascii '0').toNat = 0x30 ∧ (ascii '9').toNat = 0x39 := ⟨rfl, rfl⟩
  have hlower : (ascii 'a').toNat = 0x61 ∧ (ascii 'f').toNat = 0x66 := ⟨rfl, rfl⟩
  have hupper : (ascii 'A').toNat = 0x41 ∧ (ascii 'F').toNat = 0x46 := ⟨rfl, rfl⟩
  have hten : (10 : UInt8).toNat = 10 := rfl
  unfold hexValue isDigit at h
  simp only [Bool.and_eq_true, decide_eq_true_eq, UInt8.le_iff_toNat_le] at h
  split_ifs at h with h0 h1 h2 <;> cases h
  all_goals simp only [UInt8.toNat_add, UInt8.toNat_sub]; omega

theorem hexQuad_lt {digits : List UInt8} (h : hexQuad digits = some value) : value < 0x10000 := by
  match digits with
  | [] | [_] | [_, _] | [_, _, _] | _ :: _ :: _ :: _ :: _ :: _ => simp [hexQuad] at h
  | [a, b, c, d] =>
    cases ha : hexValue a <;> simp [hexQuad, ha] at h
    cases hb : hexValue b <;> simp [hb] at h
    cases hc : hexValue c <;> simp [hc] at h
    cases hd : hexValue d <;> simp [hd] at h
    have := hexValue_lt ha
    have := hexValue_lt hb
    have := hexValue_lt hc
    have := hexValue_lt hd
    omega

/-- Plain bytes are the characters that are their own encoding. -/
theorem exists_piece_of_plain (h : isPlain byte = true) :
    ∃ piece : Piece, piece.raw = [byte] ∧ piece.decoded = [byte] := by
  obtain ⟨hlow, hhigh, hquote, hbackslash⟩ := isPlain_iff.mp h
  have hencode : utf8Encode byte.toNat = [byte] := by
    rw [utf8Encode, if_pos hhigh, UInt8.ofNat_toNat]
  exact ⟨.char byte.toNat (.inl (by omega)) ⟨hlow, hquote, hbackslash⟩, hencode, hencode⟩

theorem exists_pieces_of_plain (h : ∀ byte ∈ bytes, isPlain byte = true) :
    ∃ pieces : List Piece, raw pieces = bytes ∧ decoded pieces = bytes := by
  induction bytes with
  | nil => exact ⟨[], rfl, rfl⟩
  | cons byte bytes ih =>
    obtain ⟨pieces, hraw, hdecoded⟩ := ih fun b hb => h b (List.mem_cons_of_mem _ hb)
    obtain ⟨piece, hpiece, hvalue⟩ := exists_piece_of_plain (h byte List.mem_cons_self)
    exact ⟨piece :: pieces, by simp [hraw, hpiece], by simp [hdecoded, hvalue]⟩

theorem unicodeEscape_sound (h : unicodeEscape bytes = .ok (result, rest)) :
    ∃ piece : Piece, ascii '\\' :: ascii 'u' :: bytes = piece.raw ++ rest ∧
      result.bytes = piece.decoded := by
  simp only [unicodeEscape] at h
  cases hhigh : hex bytes with
  | error e => simp [hhigh] at h
  | ok found =>
    obtain ⟨value, after⟩ := found
    obtain ⟨digits, rfl, hquad⟩ := hex_eq_ok.mp hhigh
    simp only [hhigh] at h
    split at h
    · cases h
    · rename_i hlow
      split at h
      · rename_i hhighest
        split at h
        · cases h
        · split at h
          · cases h
          · rename_i hbackslash
            split at h
            · cases h
            · split at h
              · cases h
              · rename_i hu
                rw [not_not] at hbackslash hu
                rename_i behind
                cases hlower : hex behind with
                | error e => simp [hlower] at h
                | ok found =>
                  obtain ⟨lowValue, after⟩ := found
                  obtain ⟨lowDigits, rfl, hlowQuad⟩ := hex_eq_ok.mp hlower
                  simp only [hlower] at h
                  split at h
                  · cases h
                  · rename_i hisLow
                    simp only [Except.ok.injEq, Prod.mk.injEq] at h
                    obtain ⟨rfl, rfl⟩ := h
                    have isHigh : IsHighSurrogate value := hhighest
                    have isLow : IsLowSurrogate lowValue := by rw [IsLowSurrogate]; omega
                    refine ⟨.pair digits lowDigits value lowValue hquad hlowQuad isHigh isLow, ?_, ?_⟩
                    · simp [Piece.raw, hbackslash, hu]
                    · simp only [Piece.decoded, Piece.scalar]
      · rename_i hplain
        simp only [Except.ok.injEq, Prod.mk.injEq] at h
        obtain ⟨rfl, rfl⟩ := h
        have hscalar : IsScalar value := by
          have := hexQuad_lt hquad
          rw [IsScalar]
          omega
        exact ⟨.unicode digits value hquad hscalar, rfl, rfl⟩

theorem escape_sound (h : escape bytes = .ok (result, rest)) :
    ∃ piece : Piece, ascii '\\' :: bytes = piece.raw ++ rest ∧ result.bytes = piece.decoded := by
  cases bytes with
  | nil => simp [escape] at h
  | cons byte bytes =>
    simp only [escape] at h
    split at h
    · rename_i hu
      obtain ⟨piece, hraw, hvalue⟩ := unicodeEscape_sound h
      rw [hu]
      exact ⟨piece, hraw, hvalue⟩
    · split at h
      · cases h
      · rename_i value hvalue
        simp only [Except.ok.injEq, Prod.mk.injEq] at h
        obtain ⟨rfl, rfl⟩ := h
        refine ⟨.short byte value hvalue, by simp [Piece.raw], ?_⟩
        show [value] = utf8Encode value.toNat
        rw [utf8Encode, if_pos (shortEscape_lt hvalue), UInt8.ofNat_toNat]

theorem sequence_sound (hfirst : 0x80 ≤ first.toNat) (h : sequence first bytes = .ok (result, rest)) :
    ∃ piece : Piece, first :: bytes = piece.raw ++ rest ∧ result.bytes = piece.decoded := by
  simp only [sequence] at h
  cases hlength : utf8ByteSequenceLength first with
  | none => simp [hlength] at h
  | some length =>
    have hfour := utf8ByteSequenceLength_eq hlength
    simp only [hlength] at h
    cases htail : sequenceTail (length - 1) bytes with
    | error e => simp [htail] at h
    | ok found =>
      obtain ⟨tail, after⟩ := found
      obtain ⟨hcount, rfl⟩ := sequenceTail_length htail
      simp only [htail] at h
      cases hdecode : utf8Decode (first :: tail) with
      | none => simp [hdecode] at h
      | some scalar =>
        simp only [hdecode, Except.ok.injEq, Prod.mk.injEq] at h
        obtain ⟨rfl, rfl⟩ := h
        rw [show length = tail.length + 1 by omega] at hlength
        obtain ⟨hscalar, hencode⟩ := utf8Decode_sound hlength hdecode
        have hplain : 0x80 ≤ scalar := by
          by_contra hsmall
          have hhead := congrArg List.head? hencode
          rw [utf8Encode, if_pos (by omega), List.head?_cons, List.head?_cons,
            Option.some.injEq] at hhead
          rw [hhead, toNat_ofNat_of_lt (by omega)] at hfirst
          omega
        refine ⟨.char scalar hscalar ⟨by omega, by omega, by omega⟩, ?_, hencode⟩
        rw [Piece.raw, ← hencode, List.cons_append]

theorem decodeNext_sound (hquote : first ≠ ascii '"')
    (h : decodeNext first bytes = .ok (result, rest)) :
    ∃ pieces : List Piece, pieces ≠ [] ∧ first :: bytes = raw pieces ++ rest ∧
      result.bytes = decoded pieces := by
  simp only [decodeNext] at h
  split at h
  · rename_i hplain
    simp only [Except.ok.injEq, Prod.mk.injEq] at h
    obtain ⟨rfl, rfl⟩ := h
    obtain ⟨piece, hpiece, hvalue⟩ := exists_piece_of_plain hplain
    have hrun : ∀ byte ∈ bytes.takeWhile isPlain, isPlain byte = true :=
      fun byte hbyte => List.mem_takeWhile_imp hbyte
    obtain ⟨pieces, hraw, hdecoded⟩ := exists_pieces_of_plain hrun
    refine ⟨piece :: pieces, List.cons_ne_nil _ _, ?_, ?_⟩
    · rw [raw_cons, hpiece, hraw, List.append_assoc, List.takeWhile_append_dropWhile]
      rfl
    · rw [decoded_cons, hvalue, hdecoded]
      rfl
  · rename_i hplain
    have hone : ∀ piece : Piece, first :: bytes = piece.raw ++ rest →
        result.bytes = piece.decoded → ∃ pieces : List Piece, pieces ≠ [] ∧
          first :: bytes = raw pieces ++ rest ∧ result.bytes = decoded pieces :=
      fun piece hraw hvalue => ⟨[piece], List.cons_ne_nil _ _, by simpa using hraw, by simpa using hvalue⟩
    split at h
    · cases h
    · split at h
      · rename_i hbackslash
        obtain ⟨piece, hraw, hvalue⟩ := escape_sound h
        exact hone piece (hbackslash ▸ hraw) hvalue
      · rename_i hbackslash
        have hhigh := high_of_not_plain hplain ‹_› hquote hbackslash
        obtain ⟨piece, hraw, hvalue⟩ := sequence_sound hhigh h
        exact hone piece hraw hvalue

/-! ## Whole strings -/

theorem decodeNext_length (hquote : first ≠ ascii '"')
    (h : decodeNext first bytes = .ok (result, rest)) : rest.length < (first :: bytes).length := by
  obtain ⟨pieces, hne, hraw, _⟩ := decodeNext_sound hquote h
  obtain ⟨piece, pieces, rfl⟩ := List.exists_cons_of_ne_nil hne
  have := List.length_pos_of_ne_nil (piece_raw_ne_nil piece)
  rw [hraw, raw_cons, List.length_append, List.length_append]
  omega

/-- Decodes contents up to the first unescaped quote or the end: what it gives
the sink, and where it stopped. -/
def decodeString : List UInt8 → Except Error (List Decoded × List UInt8)
  | [] => .ok ([], [])
  | first :: bytes =>
    if _hquote : first = ascii '"' then .ok ([], first :: bytes)
    else
      match _h : decodeNext first bytes with
      | .error e => .error e
      | .ok (result, rest) =>
        (decodeString rest).map fun (results, rest) => (result :: results, rest)
termination_by bytes => bytes.length
decreasing_by exact decodeNext_length _hquote _h

/-- All the bytes the sink is given. -/
def joined (results : List Decoded) : List UInt8 := results.flatMap Decoded.bytes

@[simp] theorem joined_nil : joined [] = [] := rfl

@[simp] theorem joined_cons (result : Decoded) (results : List Decoded) :
    joined (result :: results) = result.bytes ++ joined results := List.flatMap_cons

/-- Where a string's contents stop: at the end, or before a quote. -/
def Stops (rest : List UInt8) : Prop := rest = [] ∨ rest.head? = some (ascii '"')

theorem decodeString_stop (h : Stops rest) : decodeString rest = .ok ([], rest) := by
  cases rest with
  | nil => rw [decodeString]
  | cons first bytes =>
    rcases h with h | h
    · cases h
    · rw [List.head?_cons, Option.some.injEq] at h
      rw [decodeString, dif_pos h]

theorem decodeString_next (hquote : first ≠ ascii '"') : decodeString (first :: bytes) =
      match decodeNext first bytes with
      | .error e => .error e
      | .ok (result, rest) =>
        (decodeString rest).map fun (results, rest) => (result :: results, rest) := by
  rw [decodeString, dif_neg hquote]
  split <;> simp_all

theorem decodeString_sound (h : decodeString bytes = .ok (results, rest)) :
    Stops rest ∧ ∃ pieces : List Piece, bytes = raw pieces ++ rest ∧
      joined results = decoded pieces := by
  induction hn : bytes.length using Nat.strongRecOn generalizing bytes results with
  | ind n ih =>
    cases bytes with
    | nil =>
      rw [decodeString] at h
      cases h
      exact ⟨.inl rfl, [], rfl, rfl⟩
    | cons first bytes =>
      by_cases hquote : first = ascii '"'
      · rw [decodeString, dif_pos hquote] at h
        cases h
        exact ⟨.inr (congrArg some hquote), [], rfl, rfl⟩
      · rw [decodeString_next hquote] at h
        cases hnext : decodeNext first bytes with
        | error e => simp [hnext] at h
        | ok found =>
          obtain ⟨result, after⟩ := found
          simp only [hnext] at h
          cases hafter : decodeString after with
          | error e => simp [hafter, Except.map] at h
          | ok found =>
            obtain ⟨more, stop⟩ := found
            simp only [hafter, Except.map, Except.ok.injEq, Prod.mk.injEq] at h
            obtain ⟨rfl, rfl⟩ := h
            obtain ⟨hstop, pieces, hraw, hjoined⟩ :=
              ih _ (hn ▸ decodeNext_length hquote hnext) hafter rfl
            obtain ⟨front, _, hfront, hbytes⟩ := decodeNext_sound hquote hnext
            refine ⟨hstop, front ++ pieces, ?_, ?_⟩
            · rw [hfront, hraw, raw_append, List.append_assoc]
            · rw [joined_cons, hbytes, hjoined, decoded_append]

/-- One plain byte more in front of contents is one more in what they decode
to, in the first run or before it. -/
theorem decodeString_plain (hplain : isPlain byte = true)
    (h : decodeString bytes = .ok (results, rest)) :
    ∃ results', decodeString (byte :: bytes) = .ok (results', rest) ∧
      joined results' = byte :: joined results := by
  have hquote : ∀ b, isPlain b = true → b ≠ ascii '"' := by
    rintro b hb rfl
    exact absurd hb (by decide)
  rw [decodeString_next (hquote byte hplain), decodeNext, if_pos hplain]
  cases bytes with
  | nil =>
    rw [decodeString] at h
    cases h
    refine ⟨[⟨[byte], none⟩], ?_, rfl⟩
    simp only [List.takeWhile_nil, List.dropWhile_nil]
    rw [decodeString]
    rfl
  | cons next bytes =>
    by_cases hnext : isPlain next = true
    · rw [decodeString_next (hquote next hnext), decodeNext, if_pos hnext] at h
      rw [List.takeWhile_cons_of_pos hnext, List.dropWhile_cons_of_pos hnext]
      simp only at h ⊢
      cases hafter : decodeString (bytes.dropWhile isPlain) with
      | error e => simp [hafter, Except.map] at h
      | ok found =>
        simp only [hafter, Except.map, Except.ok.injEq, Prod.mk.injEq] at h ⊢
        obtain ⟨rfl, rfl⟩ := h
        exact ⟨_, ⟨rfl, rfl⟩, rfl⟩
    · rw [List.takeWhile_cons_of_neg hnext, List.dropWhile_cons_of_neg hnext]
      simp only [h]
      exact ⟨_, rfl, rfl⟩

/-- The bytes that continue a sequence are all taken. -/
theorem not_plain_of_high (h : 0x80 ≤ byte.toNat) :
    ¬ isPlain byte = true ∧ ¬ byte ≤ 0x1f ∧ byte ≠ ascii '\\' ∧ byte ≠ ascii '"' := by
  have hcontrol : ¬ byte.toNat ≤ 0x1f := by omega
  have hbackslash : byte ≠ ascii '\\' := fun e => by
    have : byte.toNat = 0x5c := congrArg UInt8.toNat e
    omega
  have hquote : byte ≠ ascii '"' := fun e => by
    have : byte.toNat = 0x22 := congrArg UInt8.toNat e
    omega
  refine ⟨?_, hcontrol, hbackslash, hquote⟩
  rw [isPlain_iff]
  omega

theorem sequenceTail_append (h : ∀ byte ∈ tail, isContinuation byte = true) (rest : List UInt8) :
    sequenceTail tail.length (tail ++ rest) = .ok (tail, rest) := by
  induction tail with
  | nil => rfl
  | cons byte tail ih =>
    have hbyte := isContinuation_iff.mp (h byte List.mem_cons_self)
    obtain ⟨_, hcontrol, hbackslash, hquote⟩ := not_plain_of_high hbyte.1
    have hallowed : ¬ byte ≤ 0x1f ∧ ¬ (byte = ascii '"' ∨ byte = ascii '\\') :=
      ⟨hcontrol, fun h => h.elim hquote hbackslash⟩
    simp only [List.length_cons, List.cons_append, sequenceTail, if_neg hallowed.1,
      if_neg hallowed.2, ih fun b hb => h b (List.mem_cons_of_mem _ hb)]
    rfl

/-- An escape begins with a backslash, and the decoder goes to `escape`. -/
theorem decodeNext_backslash (bytes : List UInt8) :
    decodeNext (ascii '\\') bytes = escape bytes := by
  have hplain : ¬ isPlain (ascii '\\') = true := by decide
  have hcontrol : ¬ ascii '\\' ≤ 0x1f := by decide
  rw [decodeNext, if_neg hplain, if_neg hcontrol, if_pos rfl]

/-- A scalar past ASCII is a sequence whose bytes are all high. -/
theorem encode_high (h : IsScalar scalar) (hhigh : 0x80 ≤ scalar) :
    ∃ first tail, IsSequence (utf8Encode scalar) first tail ∧ 0x80 ≤ first.toNat := by
  obtain ⟨hdecode, first, tail, hsequence⟩ := utf8Decode_encode h
  refine ⟨first, tail, hsequence, ?_⟩
  have hlead := utf8ByteSequenceLength_eq hsequence.length
  by_contra hlow
  have htail : tail = [] := List.eq_nil_of_length_eq_zero (by omega)
  rw [hsequence.eq, htail, utf8Decode, Option.some.injEq] at hdecode
  omega

theorem sequence_encode (h : IsScalar scalar) (hhigh : 0x80 ≤ scalar) (rest : List UInt8) :
    ∃ first tail, utf8Encode scalar = first :: tail ∧
      first ≠ ascii '"' ∧
      decodeNext first (tail ++ rest) = .ok (⟨utf8Encode scalar, some scalar⟩, rest) := by
  obtain ⟨hdecode, _⟩ := utf8Decode_encode h
  obtain ⟨first, tail, ⟨heq, hlength, hcontinues⟩, hfirst⟩ := encode_high h hhigh
  obtain ⟨hplain, hcontrol, hbackslash, hquote⟩ := not_plain_of_high hfirst
  refine ⟨first, tail, heq, hquote, ?_⟩
  rw [heq] at hdecode
  rw [decodeNext, if_neg hplain, if_neg hcontrol, if_neg hbackslash, sequence, hlength]
  simp only [Nat.add_sub_cancel, sequenceTail_append hcontinues, hdecode, heq]

theorem decodeNext_piece (piece : Piece) (rest : List UInt8) :
    (∃ byte, isPlain byte = true ∧ piece.raw = [byte] ∧ piece.decoded = [byte]) ∨
    ∃ first tail, piece.raw = first :: tail ∧ first ≠ ascii '"' ∧
      decodeNext first (tail ++ rest) = .ok (⟨piece.decoded, some piece.scalar⟩, rest) := by
  have hbackslash : ascii '\\' ≠ ascii '"' := by decide
  cases piece with
  | char scalar valid plain =>
    by_cases hhigh : 0x80 ≤ scalar
    · exact .inr (sequence_encode valid hhigh rest)
    · have hencode : utf8Encode scalar = [UInt8.ofNat scalar] := by
        rw [utf8Encode, if_pos (by omega)]
      refine .inl ⟨UInt8.ofNat scalar, isPlain_iff.mpr ?_, hencode, hencode⟩
      rw [toNat_ofNat_of_lt (by omega)]
      omega
  | short letter value spells =>
    refine .inr ⟨ascii '\\', [letter], rfl, hbackslash, ?_⟩
    have hu : letter ≠ ascii 'u' := by
      rintro rfl
      have hnone : shortEscape (ascii 'u') = none := by decide
      rw [hnone] at spells
      cases spells
    rw [decodeNext_backslash]
    simp only [List.cons_append, List.nil_append, escape, if_neg hu, spells, Piece.decoded,
      Piece.scalar]
    rw [utf8Encode, if_pos (shortEscape_lt spells), UInt8.ofNat_toNat]
  | unicode digits scalar spells valid =>
    refine .inr ⟨ascii '\\', ascii 'u' :: digits, rfl, hbackslash, ?_⟩
    have hhex : hex (digits ++ rest) = .ok (scalar, rest) := hex_eq_ok.mpr ⟨digits, rfl, spells⟩
    have hscalar : ¬ (0xdc00 ≤ scalar ∧ scalar ≤ 0xdfff) ∧
        ¬ (0xd800 ≤ scalar ∧ scalar ≤ 0xdbff) := by
      rw [IsScalar] at valid
      omega
    rw [decodeNext_backslash, List.cons_append, escape, if_pos rfl]
    simp only [unicodeEscape, hhex, if_neg hscalar.1, if_neg hscalar.2, Piece.decoded,
      Piece.scalar]
  | pair highDigits lowDigits high low spellsHigh spellsLow isHigh isLow =>
    refine .inr ⟨ascii '\\', _, rfl, hbackslash, ?_⟩
    have hhex : hex (highDigits ++ (ascii '\\' :: ascii 'u' :: (lowDigits ++ rest))) =
        .ok (high, ascii '\\' :: ascii 'u' :: (lowDigits ++ rest)) :=
      hex_eq_ok.mpr ⟨highDigits, rfl, spellsHigh⟩
    have hhexLow : hex (lowDigits ++ rest) = .ok (low, rest) :=
      hex_eq_ok.mpr ⟨lowDigits, rfl, spellsLow⟩
    have hhigh : ¬ (0xdc00 ≤ high ∧ high ≤ 0xdfff) ∧ (0xd800 ≤ high ∧ high ≤ 0xdbff) := by
      rw [IsHighSurrogate] at isHigh
      omega
    have hlow : ¬ (low < 0xdc00 ∨ low > 0xdfff) := by
      rw [IsLowSurrogate] at isLow
      omega
    rw [decodeNext_backslash, List.cons_append, escape, if_pos rfl, List.append_assoc,
      List.cons_append, List.cons_append]
    simp only [unicodeEscape, hhex, if_neg hhigh.1, if_pos hhigh.2, ne_eq, not_true_eq_false,
      if_false, hhexLow, if_neg hlow, Piece.decoded, Piece.scalar]

theorem decodeString_complete (pieces : List Piece) (hrest : Stops rest) :
    ∃ results, decodeString (raw pieces ++ rest) = .ok (results, rest) ∧
      joined results = decoded pieces := by
  induction pieces with
  | nil => exact ⟨[], decodeString_stop hrest, rfl⟩
  | cons piece pieces ih =>
    obtain ⟨results, hresults, hjoined⟩ := ih
    rw [raw_cons, List.append_assoc]
    rcases decodeNext_piece piece (raw pieces ++ rest) with
      ⟨byte, hplain, hraw, hvalue⟩ | ⟨first, tail, hraw, hquote, hnext⟩
    · obtain ⟨results', hresults', hjoined'⟩ := decodeString_plain hplain hresults
      refine ⟨results', by rwa [hraw], ?_⟩
      rw [hjoined', hjoined, decoded_cons, hvalue]
      rfl
    · refine ⟨⟨piece.decoded, some piece.scalar⟩ :: results, ?_, ?_⟩
      · rw [hraw, List.cons_append, decodeString_next hquote, hnext]
        simp only [hresults]
        rfl
      · rw [joined_cons, hjoined, decoded_cons]

end Rui.Json
