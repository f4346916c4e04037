import Rui.Library.JsonText
import Rui.Terminal.TextLaws

/-!
# The forms of terminal text

Every part is written in one of four forms: as it is, quoted, or as the escape of a byte or of a
scalar. Each is characters without a control, and outside multiline text each can be read back.
-/

namespace Rui.TerminalText

open Library

/-- A line break or a tab, which multiline text keeps. -/
def isBreak (byte : UInt8) : Bool := byte = ascii '\n' || byte = ascii '\t'

/-- The letter after the `\` of each byte that is quoted. -/
def quotes : List (UInt8 × UInt8) :=
  [(ascii '\n', ascii 'n'), (ascii '\t', ascii 't'), (ascii '\r', ascii 'r'),
    (ascii '"', ascii '"'), (ascii '\\', ascii '\\')]

/-- A character that a terminal may be given in this mode. -/
def Plain (mode : Mode) (char : List UInt8) : Prop :=
  ∃ scalar, utf8Decode char = some scalar ∧
    (isControl scalar = false ∨ mode = .multiline ∧ ∃ byte, isBreak byte = true ∧ char = [byte])

/-- The bytes of a part, and what they are written as. -/
inductive Form (mode : Mode) : List UInt8 → List UInt8 → Prop
  | raw (char : List UInt8) : IsCharacter char → Plain mode char →
      (mode ≠ .multiline → char.head? ≠ some (ascii '\\')) → Form mode char char
  | quoted (byte letter : UInt8) : (byte, letter) ∈ quotes → mode ≠ .multiline →
      Form mode [byte] [ascii '\\', letter]
  | byte (value : UInt8) : (mode = .multiline → isBreak value = false) →
      Form mode [value] (escapeByte value)
  | scalar (value : Nat) : IsScalar value → 0x80 ≤ value → value < 0x10000 →
      Form mode (utf8Encode value) (escapeScalar value)

/-- The twelve code points that set a direction: the Arabic letter mark, the two direction marks,
the embeddings and overrides with their end, the isolates with theirs. -/
def bidiControls : List Nat :=
  [0x061c, 0x200e, 0x200f, 0x202a, 0x202b, 0x202c, 0x202d, 0x202e, 0x2066, 0x2067, 0x2068, 0x2069]

/-- The code points that are control: those below the space, from the delete on those of Latin-1,
and those that set a direction. -/
theorem isControl_iff (scalar : Nat) : isControl scalar = true ↔
    scalar < 0x20 ∨ 0x7f ≤ scalar ∧ scalar < 0xa0 ∨ scalar ∈ bidiControls := by
  simp only [isControl, bidiControls, Bool.or_eq_true, Bool.and_eq_true, decide_eq_true_eq,
    List.mem_cons, List.not_mem_nil, or_false]
  omega

variable {scalar : Nat} {mode : Mode} {byte : UInt8} {bytes out : List UInt8}

theorem isControl_lt (h : isControl scalar = true) : scalar < 0x2070 := by
  rcases (isControl_iff scalar).mp h with h | h | h
  · omega
  · omega
  · exact (by decide : ∀ scalar ∈ bidiControls, scalar < 0x2070) scalar h

theorem escapeScalar_eq (h : scalar < 0x10000) :
    escapeScalar scalar = text "\\u" ++ hexFour scalar := by
  rw [escapeScalar, List.append_assoc, hexNumber_padded h]

theorem asciiByte_form (mode : Mode) {value : UInt8} (h : value.toNat < 0x80) :
    Form mode [value] (asciiByte mode value) := by
  have hone := isCharacter_ascii h
  rw [asciiByte]
  split_ifs with hnewline htab hreturn hquote hslash hplain
  · rw [hnewline.2]
    exact .quoted _ _ (by decide) hnewline.1
  · rw [htab.2]
    exact .quoted _ _ (by decide) htab.1
  · rw [hreturn.2]
    exact .quoted _ _ (by decide) hreturn.1
  · rw [hquote.2]
    exact .quoted _ _ (by decide) (by rw [hquote.1]; decide)
  · rw [hslash.2]
    exact .quoted _ _ (by decide) hslash.1
  · refine .raw _ hone ⟨value.toNat, rfl, ?_⟩ fun hmode hhead => hslash ⟨hmode, ?_⟩
    · refine hplain.imp_right fun hbreak => ⟨hbreak.1, value, ?_, rfl⟩
      simpa [isBreak] using hbreak.2
    · simpa using hhead
  · refine .byte value fun hmode => Bool.eq_false_iff.mpr fun hbreak => hplain (.inr ⟨hmode, ?_⟩)
    simpa [isBreak] using hbreak

/-- **Every part has a form.** -/
theorem form_of_mem {mode : Mode} {bytes : List UInt8} {part : Part} (h : part ∈ parts bytes) :
    Form mode part.bytes (shown mode part) := by
  cases part with
  | stray byte =>
    have hhigh := le_of_stray_mem_parts h
    refine .byte byte fun _ => Bool.eq_false_iff.mpr fun hbreak => ?_
    simp only [isBreak, Bool.or_eq_true, decide_eq_true_eq] at hbreak
    rcases hbreak with rfl | rfl
    · exact absurd hhigh (by decide)
    · exact absurd hhigh (by decide)
  | char char =>
    have hchar := isCharacter_of_mem_parts h
    obtain ⟨first, rest, rfl, hlength⟩ := hchar.exists_cons
    obtain ⟨scalar, hscalar⟩ := Option.isSome_iff_exists.mp hchar.decodes
    obtain ⟨hvalid, hencode⟩ := utf8Decode_sound hlength hscalar
    have hfirst := utf8ByteSequenceLength_eq hlength
    cases rest with
    | nil =>
      rw [shown]
      rw [List.length_nil] at hfirst
      exact asciiByte_form mode (by omega)
    | cons second rest =>
      have hhigh : 0x80 ≤ first.toNat := by
        rw [List.length_cons] at hfirst
        omega
      rw [shown]
      · rw [hscalar, Option.getD_some]
        by_cases hcontrol : isControl scalar = true
        · have hlow : 0x80 ≤ scalar := by
            by_contra hascii
            rw [utf8Encode, if_pos (Nat.not_le.mp hascii)] at hencode
            cases (List.cons.inj hencode).2
          have hlt := isControl_lt hcontrol
          simp only [if_pos hcontrol, Part.bytes]
          rw [hencode]
          exact .scalar scalar hvalid hlow (by omega)
        · simp only [if_neg hcontrol, Part.bytes]
          rw [Bool.not_eq_true] at hcontrol
          refine .raw _ hchar ⟨scalar, hscalar, .inl hcontrol⟩ fun _ hhead => ?_
          rw [List.head?_cons, Option.some.injEq] at hhead
          rw [hhead] at hhigh
          exact absurd hhigh (by decide)
      · simp

/-! ## What a terminal is given -/

/-- A printable byte of ASCII. -/
def printable (byte : UInt8) : Bool := 0x20 ≤ byte.toNat && byte.toNat < 0x7f

theorem plain_printable (h : printable byte = true) : IsCharacter [byte] ∧ Plain mode [byte] := by
  simp only [printable, Bool.and_eq_true, decide_eq_true_eq] at h
  refine ⟨isCharacter_ascii (by omega), byte.toNat, rfl, .inl ?_⟩
  simp only [isControl, Bool.or_eq_false_iff, Bool.and_eq_false_iff, decide_eq_false_iff_not]
  omega

theorem printable_hexDigit : ∀ d < 16, printable (hexDigit d) = true := by decide

theorem printable_escapeByte (value : UInt8) : ∀ byte ∈ escapeByte value, printable byte = true := by
  have hvalue := value.toNat_lt
  intro byte hbyte
  rw [escapeByte] at hbyte
  rcases List.mem_append.mp hbyte with hlead | hdigit
  · exact List.all_eq_true.mp (rfl : (text "\\x").all printable = true) byte hlead
  · simp only [List.mem_cons, List.not_mem_nil, or_false] at hdigit
    rcases hdigit with rfl | rfl
    · exact printable_hexDigit _ (by omega)
    · exact printable_hexDigit _ (by omega)

theorem printable_escapeScalar (h : scalar < 0x10000) :
    ∀ byte ∈ escapeScalar scalar, printable byte = true := by
  intro byte hbyte
  rw [escapeScalar_eq h] at hbyte
  rcases List.mem_append.mp hbyte with hlead | hdigit
  · exact List.all_eq_true.mp (rfl : (text "\\u").all printable = true) byte hlead
  · simp only [hexFour, List.mem_cons, List.not_mem_nil, or_false] at hdigit
    rcases hdigit with rfl | rfl | rfl | rfl
    all_goals exact printable_hexDigit _ (Nat.mod_lt _ (by decide))

theorem plain_bytes (h : ∀ byte ∈ bytes, printable byte = true) : ∃ chars : List (List UInt8),
      bytes = chars.flatten ∧ ∀ char ∈ chars, IsCharacter char ∧ Plain mode char := by
  refine ⟨bytes.map fun byte => [byte], ?_, ?_⟩
  · rw [← List.flatMap_def, List.flatMap_singleton']
  · intro char hchar
    obtain ⟨byte, hbyte, rfl⟩ := List.mem_map.mp hchar
    exact plain_printable (h byte hbyte)

/-- **A form is plain characters.** -/
theorem Form.plain (h : Form mode bytes out) : ∃ chars : List (List UInt8), out = chars.flatten ∧
      ∀ char ∈ chars, IsCharacter char ∧ Plain mode char := by
  cases h with
  | raw _ hchar hplain _ =>
    refine ⟨[bytes], by rw [List.flatten_cons, List.flatten_nil, List.append_nil], ?_⟩
    intro char hmem
    rw [List.mem_singleton.mp hmem]
    exact ⟨hchar, hplain⟩
  | quoted byte letter hquote _ =>
    refine plain_bytes ?_
    have hprintable := List.all_eq_true.mp
      (rfl : (quotes.all fun pair => printable pair.2) = true) _ hquote
    intro other hother
    simp only [List.mem_cons, List.not_mem_nil, or_false] at hother
    rcases hother with rfl | rfl
    · decide
    · exact hprintable
  | byte value _ => exact plain_bytes (printable_escapeByte value)
  | scalar value _ _ hlt => exact plain_bytes (printable_escapeScalar hlt)

theorem Form.length_le (h : Form mode bytes out) : out.length ≤ maxBytesPerByte * bytes.length := by
  have hmax : maxBytesPerByte = 4 := by decide
  rw [hmax]
  cases h with
  | raw _ _ _ _ => omega
  | quoted byte letter _ _ => exact (by decide : 2 ≤ 4 * 1)
  | byte value _ => exact (by decide : 4 ≤ 4 * 1)
  | scalar value hvalid hlow hlt =>
    have hlength : 2 ≤ (utf8Encode value).length := by
      rw [utf8Encode, if_neg (Nat.not_lt.mpr hlow)]
      split_ifs <;> simp
    rw [escapeScalar_eq hlt]
    have hsix : (text "\\u" ++ hexFour value).length = 6 := rfl
    omega

theorem isBreak_high (h : 0x80 ≤ byte.toNat) : isBreak byte = false := by
  refine Bool.eq_false_iff.mpr fun hbreak => ?_
  simp only [isBreak, Bool.or_eq_true, decide_eq_true_eq] at hbreak
  rcases hbreak with rfl | rfl
  · exact absurd h (by decide)
  · exact absurd h (by decide)

theorem isBreak_printable (h : printable byte = true) : isBreak byte = false := by
  refine Bool.eq_false_iff.mpr fun hbreak => ?_
  simp only [isBreak, Bool.or_eq_true, decide_eq_true_eq] at hbreak
  rcases hbreak with rfl | rfl
  · exact absurd h (by decide)
  · exact absurd h (by decide)

theorem Form.breaks (h : Form .multiline bytes out) :
    out.filter isBreak = bytes.filter isBreak := by
  cases h with
  | raw _ _ _ _ => rfl
  | quoted byte letter _ hmode => exact absurd rfl hmode
  | byte value hvalue =>
    rw [List.filter_eq_nil_iff.mpr fun byte hbyte => by
      rw [isBreak_printable (printable_escapeByte value byte hbyte)]; exact Bool.false_ne_true]
    rw [List.filter_cons_of_neg (by rw [hvalue rfl]; exact Bool.false_ne_true), List.filter_nil]
  | scalar value hvalid hlow hlt =>
    rw [List.filter_eq_nil_iff.mpr fun byte hbyte => by
      rw [isBreak_printable (printable_escapeScalar hlt byte hbyte)]; exact Bool.false_ne_true]
    refine (List.filter_eq_nil_iff.mpr fun byte hbyte => ?_).symm
    rw [isBreak_high]
    · exact Bool.false_ne_true
    · have hle : value < 0x110000 := by omega
      rw [utf8Encode, if_neg (Nat.not_lt.mpr hlow)] at hbyte
      split_ifs at hbyte
      all_goals
        simp only [List.mem_cons, List.not_mem_nil, or_false] at hbyte
        rcases hbyte with rfl | rfl | rfl | rfl
      all_goals
        rw [toNat_ofNat_of_lt (by omega)]
        omega

/-! ## Reading a line back -/

/-- The bytes of the first part of a line or a label, and what follows it. -/
def readPart : List UInt8 → Option (List UInt8 × List UInt8)
  | [] => none
  | first :: rest =>
    if first = ascii '\\' then
      match rest with
      | [] => none
      | letter :: rest =>
        if letter = ascii 'x' then
          (fromHex (rest.take 2)).map fun bytes => (bytes, rest.drop 2)
        else if letter = ascii 'u' then
          (Json.hexQuad (rest.take 4)).map fun scalar => (utf8Encode scalar, rest.drop 4)
        else (quotes.find? fun pair => pair.2 = letter).map fun pair => ([pair.1], rest)
    else (charAt (first :: rest) 0).map fun char => (char, (first :: rest).drop char.length)

theorem hexQuad_hexFour {n : Nat} (h : n < 65536) : Json.hexQuad (hexFour n) = some n := by
  have hdigit := fun d (hd : d < 16) => (hexValue_hexDigit d hd).1
  rw [hexFour, Json.hexQuad, hdigit _ (Nat.mod_lt _ (by decide)), hdigit _ (Nat.mod_lt _ (by decide)),
    hdigit _ (Nat.mod_lt _ (by decide)), hdigit _ (Nat.mod_lt _ (by decide))]
  refine congrArg some ?_
  omega

/-- **A form is read back.** -/
theorem Form.readPart (h : Form mode bytes out) (hmode : mode ≠ .multiline) (rest : List UInt8) :
    readPart (out ++ rest) = some (bytes, rest) := by
  cases h with
  | raw _ hchar _ hslash =>
    have hcharAt : charAt (bytes ++ rest) 0 = some bytes :=
      charAt_eq_some.mpr ⟨hchar, List.prefix_append _ _⟩
    obtain ⟨first, tail, rfl, -⟩ := hchar.exists_cons
    have hread : TerminalText.readPart (first :: (tail ++ rest)) =
        (charAt (first :: (tail ++ rest)) 0).map fun char =>
          (char, (first :: (tail ++ rest)).drop char.length) :=
      if_neg fun hfirst => hslash hmode (by rw [hfirst]; rfl)
    rw [List.cons_append] at hcharAt ⊢
    rw [hread, hcharAt, Option.map_some, ← List.cons_append, List.drop_left' rfl]
  | quoted byte letter hquote _ =>
    simp only [quotes, List.mem_cons, Prod.mk.injEq, List.not_mem_nil, or_false] at hquote
    rcases hquote with ⟨rfl, rfl⟩ | ⟨rfl, rfl⟩ | ⟨rfl, rfl⟩ | ⟨rfl, rfl⟩ | ⟨rfl, rfl⟩
    all_goals rfl
  | byte value _ =>
    have hhex : fromHex [hexDigit (value.toNat / 16), hexDigit (value.toNat % 16)] =
        some [value] := fromHex_toHex [value]
    have hread : TerminalText.readPart (escapeByte value ++ rest) =
        (fromHex [hexDigit (value.toNat / 16), hexDigit (value.toNat % 16)]).map
          fun bytes => (bytes, rest) := rfl
    rw [hread, hhex, Option.map_some]
  | scalar value _ _ hlt =>
    rw [escapeScalar_eq hlt]
    have hread : TerminalText.readPart (text "\\u" ++ hexFour value ++ rest) =
        (Json.hexQuad (hexFour value)).map fun scalar => (utf8Encode scalar, rest) := rfl
    rw [hread, hexQuad_hexFour hlt, Option.map_some]

/-! ## Terminal text -/

theorem written_plain (mode : Mode) (chunks : List (List UInt8)) :
    ∃ chars : List (List UInt8), written mode chunks = chars.flatten ∧
      ∀ char ∈ chars, IsCharacter char ∧ Plain mode char := by
  rw [written_eq]
  have hforms : ∀ part ∈ parts chunks.flatten, Form mode part.bytes (shown mode part) :=
    fun _ => form_of_mem
  generalize parts chunks.flatten = list at hforms ⊢
  induction list with
  | nil => exact ⟨[], rfl, fun char hchar => (by cases hchar)⟩
  | cons part rest ih =>
    obtain ⟨first, hfirst, hplain⟩ := (hforms part List.mem_cons_self).plain
    obtain ⟨more, hmore, hrest⟩ := ih fun each heach => hforms each (List.mem_cons_of_mem _ heach)
    refine ⟨first ++ more, ?_, fun char hchar => ?_⟩
    · rw [List.flatMap_cons, hfirst, hmore, List.flatten_append]
    · exact (List.mem_append.mp hchar).elim (hplain char) (hrest char)

theorem written_length (mode : Mode) (chunks : List (List UInt8)) :
    (written mode chunks).length ≤ maxBytesPerByte * chunks.flatten.length := by
  rw [written_eq]
  have hforms : ∀ part ∈ parts chunks.flatten, Form mode part.bytes (shown mode part) :=
    fun _ => form_of_mem
  conv_rhs => rw [← parts_bytes chunks.flatten]
  generalize parts chunks.flatten = list at hforms ⊢
  induction list with
  | nil => exact Nat.zero_le _
  | cons part rest ih =>
    have hfirst := (hforms part List.mem_cons_self).length_le
    have hrest := ih fun each heach => hforms each (List.mem_cons_of_mem _ heach)
    rw [List.flatMap_cons, List.flatMap_cons, List.length_append, List.length_append, Nat.mul_add]
    omega

theorem written_breaks (chunks : List (List UInt8)) :
    (written .multiline chunks).filter isBreak = chunks.flatten.filter isBreak := by
  rw [written_eq]
  have hforms : ∀ part ∈ parts chunks.flatten, Form .multiline part.bytes (shown .multiline part) :=
    fun _ => form_of_mem
  conv_rhs => rw [← parts_bytes chunks.flatten]
  generalize parts chunks.flatten = list at hforms ⊢
  induction list with
  | nil => rfl
  | cons part rest ih =>
    rw [List.flatMap_cons, List.flatMap_cons, List.filter_append, List.filter_append,
      (hforms part List.mem_cons_self).breaks,
      ih fun each heach => hforms each (List.mem_cons_of_mem _ heach)]

/-- A byte that a mode quotes, controls apart. -/
def needsQuoting (mode : Mode) (byte : UInt8) : Bool :=
  mode ≠ .multiline && byte = ascii '\\' || mode = .line && byte = ascii '"'

/-- A character that needs no quoting is shown as it is. -/
theorem shown_unchanged {char : List UInt8} (hdecode : utf8Decode char = some scalar)
    (hcontrol : isControl scalar = false)
    (hquoting : ∀ byte ∈ char.head?, needsQuoting mode byte = false) :
    shown mode (.char char) = char := by
  match char with
  | [] => cases hdecode
  | [byte] =>
    simp only [utf8Decode, Option.some.injEq] at hdecode
    subst hdecode
    have hneeds := hquoting byte rfl
    simp only [needsQuoting, Bool.or_eq_false_iff, Bool.and_eq_false_iff,
      decide_eq_false_iff_not] at hneeds
    have hbyte : ∀ other : UInt8, isControl other.toNat = true → byte ≠ other := by
      rintro other hother rfl
      rw [hcontrol] at hother
      cases hother
    rw [shown, asciiByte, if_neg fun h => hbyte _ (by decide) h.2,
      if_neg fun h => hbyte _ (by decide) h.2, if_neg fun h => hbyte _ (by decide) h.2,
      if_neg fun h => hneeds.2.elim (fun hmode => hmode h.1) fun hother => hother h.2,
      if_neg fun h => hneeds.1.elim (fun hmode => hmode h.1) fun hother => hother h.2,
      if_pos (.inl hcontrol)]
  | first :: second :: rest =>
    rw [shown]
    · rw [hdecode, Option.getD_some]
      simp only [hcontrol]
      exact if_neg Bool.false_ne_true
    · simp

/-- **Terminal text.** What is written does not depend on the chunks, is bounded, is UTF-8 without
controls but the breaks that multiline text was given, keeps every other character, and outside
multiline text is what one input only gives. -/
theorem written_safe (mode : Mode) (chunks : List (List UInt8)) :
    written mode chunks = written mode [chunks.flatten] ∧
      (written mode chunks).length ≤ maxBytesPerByte * chunks.flatten.length ∧
      utf8Validate (written mode chunks) = true ∧
      (∀ part ∈ parts (written mode chunks), ∃ char, part = .char char ∧ Plain mode char) ∧
      (mode = .multiline →
        (written mode chunks).filter isBreak = chunks.flatten.filter isBreak) ∧
      (∀ front char back scalar, IsCharacter char → utf8Decode char = some scalar →
        isControl scalar = false → (∀ byte ∈ char.head?, needsQuoting mode byte = false) →
        chunks.flatten = front ++ char ++ back →
        written mode chunks = written mode [front] ++ char ++ written mode [back]) ∧
      (mode ≠ .multiline → ∀ others, written mode chunks = written mode others →
        chunks.flatten = others.flatten) := by
  obtain ⟨chars, hchars, hplain⟩ := written_plain mode chunks
  refine ⟨?_, written_length mode chunks, ?_, ?_, ?_, ?_, ?_⟩
  · rw [written_eq, written_eq, List.flatten_singleton]
  · rw [hchars]
    exact utf8Validate_flatten fun char hchar => (hplain char hchar).1
  · intro part hpart
    rw [hchars, parts_flatten fun char hchar => (hplain char hchar).1] at hpart
    obtain ⟨char, hchar, rfl⟩ := List.mem_map.mp hpart
    exact ⟨char, rfl, (hplain char hchar).2⟩
  · rintro rfl
    exact written_breaks chunks
  · intro front char back scalar hchar hdecode hcontrol hquoting hflatten
    rw [written_eq, written_eq, written_eq, hflatten, List.flatten_singleton,
      List.flatten_singleton, List.append_assoc, parts_append hchar.begins, parts_char hchar,
      List.flatMap_append, List.flatMap_cons, shown_unchanged hdecode hcontrol hquoting,
      List.append_assoc]
  · intro hmode others hsame
    rw [written_eq, written_eq] at hsame
    have hbytes := map_eq_of_flatMap_eq (rfl : readPart [] = none)
      (fun part hpart => (@form_of_mem mode _ part hpart).readPart hmode)
      (fun part hpart => (@form_of_mem mode _ part hpart).readPart hmode) hsame
    rw [← parts_bytes chunks.flatten, ← parts_bytes others.flatten, List.flatMap_def,
      List.flatMap_def, hbytes]

end Rui.TerminalText
