import Rui.Library.Utf8

/-!
# Characters of a text

The valid characters of bytes that may be anything. A character's first byte tells its length
and its other bytes begin none, so where characters stand does not depend on where a reader
starts.
-/

namespace Library

/-- The bytes of one valid character. -/
structure IsCharacter (char : List UInt8) : Prop where
  length : char.head?.bind utf8ByteSequenceLength = some char.length
  decodes : (utf8Decode char).isSome = true

/-- The valid character that begins at a place of a text. -/
def charAt (bytes : List UInt8) (p : Nat) : Option (List UInt8) :=
  ((bytes.drop p).head?.bind utf8ByteSequenceLength).bind fun size =>
    if size ≤ (bytes.drop p).length ∧ (utf8Decode ((bytes.drop p).take size)).isSome = true then
      some ((bytes.drop p).take size)
    else none

theorem utf8ByteSequenceLength_bounds {first : UInt8} {size : Nat}
    (h : utf8ByteSequenceLength first = some size) : 1 ≤ size ∧ size ≤ 4 := by
  rw [utf8ByteSequenceLength] at h
  split_ifs at h <;> cases h <;> decide

variable {byte : UInt8} {char bytes : List UInt8} {p : Nat}

/-- A byte that continues a character begins none. -/
theorem utf8ByteSequenceLength_continuation (h : isContinuation byte = true) :
    utf8ByteSequenceLength byte = none := by
  rw [isContinuation_iff] at h
  rw [utf8ByteSequenceLength, if_neg (by omega), if_pos (by omega)]

theorem IsCharacter.exists_cons (h : IsCharacter char) :
    ∃ first rest, char = first :: rest ∧ utf8ByteSequenceLength first = some (rest.length + 1) := by
  cases char with
  | nil => cases h.length
  | cons first rest => exact ⟨first, rest, rfl, h.length⟩

theorem IsCharacter.length_bounds (h : IsCharacter char) : 1 ≤ char.length ∧ char.length ≤ 4 := by
  obtain ⟨first, rest, rfl, hlength⟩ := h.exists_cons
  exact utf8ByteSequenceLength_bounds hlength

theorem IsCharacter.continues (h : IsCharacter char) {i : Nat} (hi : char[i + 1]? = some byte) :
    isContinuation byte = true := by
  obtain ⟨first, rest, rfl, hlength⟩ := h.exists_cons
  obtain ⟨scalar, hscalar⟩ := Option.isSome_iff_exists.mp h.decodes
  obtain ⟨hvalid, hencode⟩ := utf8Decode_sound hlength hscalar
  obtain ⟨-, first', rest', hsequence⟩ := utf8Decode_encode hvalid
  rw [← hencode] at hsequence
  obtain ⟨rfl, rfl⟩ := List.cons.inj hsequence.eq
  rw [List.getElem?_cons_succ] at hi
  exact hsequence.continues byte (List.mem_of_getElem? hi)

theorem charAt_eq_some : charAt bytes p = some char ↔ IsCharacter char ∧ char <+: bytes.drop p := by
  rw [charAt]
  generalize bytes.drop p = text
  constructor
  · intro h
    obtain ⟨size, hsize, hchar⟩ := Option.bind_eq_some_iff.mp h
    split_ifs at hchar with hwhole
    cases hchar
    obtain ⟨hle, hdecodes⟩ := hwhole
    cases text with
    | nil => cases hsize
    | cons first rest =>
      obtain ⟨hpos, -⟩ := utf8ByteSequenceLength_bounds hsize
      refine ⟨⟨?_, hdecodes⟩, List.take_prefix _ _⟩
      obtain ⟨k, rfl⟩ : ∃ k, size = k + 1 := ⟨size - 1, by omega⟩
      rw [List.take_succ_cons, List.head?_cons, List.length_cons, List.length_take,
        min_eq_left (by rw [List.length_cons] at hle; omega)]
      exact hsize
  · rintro ⟨hchar, hprefix⟩
    obtain ⟨first, rest, rfl, hlength⟩ := hchar.exists_cons
    obtain ⟨more, rfl⟩ := hprefix
    have htake : (first :: rest ++ more).take (rest.length + 1) = first :: rest :=
      List.take_left' rfl
    have hsize : (first :: rest ++ more).head?.bind utf8ByteSequenceLength =
        some (rest.length + 1) := hlength
    have hle : rest.length + 1 ≤ (first :: rest ++ more).length := by
      rw [List.length_append, List.length_cons]
      exact Nat.le_add_right _ _
    rw [hsize, Option.bind_some, htake, if_pos ⟨hle, hchar.decodes⟩]

theorem charAt_le (h : charAt bytes p = some char) : p + char.length ≤ bytes.length := by
  obtain ⟨hchar, hprefix⟩ := charAt_eq_some.mp h
  have hle := hprefix.length_le
  have hpos := hchar.length_bounds.1
  rw [List.length_drop] at hle
  omega

theorem charAt_getElem? {i : Nat} (h : charAt bytes p = some char) (hi : i < char.length) :
    char[i]? = bytes[p + i]? := by
  obtain ⟨-, more, hmore⟩ := charAt_eq_some.mp h
  rw [← List.getElem?_drop, ← hmore, List.getElem?_append_left hi]

theorem charAt_disjoint {q : Nat} {other : List UInt8} (h : charAt bytes p = some char)
    (hother : charAt bytes q = some other) (hlt : p < q) : p + char.length ≤ q := by
  by_contra hinside
  obtain ⟨i, rfl⟩ := Nat.exists_eq_add_of_lt hlt
  obtain ⟨hchar, -⟩ := charAt_eq_some.mp h
  obtain ⟨hotherChar, -⟩ := charAt_eq_some.mp hother
  obtain ⟨first, rest, rfl, hlength⟩ := hotherChar.exists_cons
  have hfirst := charAt_getElem? hother (Nat.succ_pos rest.length)
  have hinner := charAt_getElem? h (by omega : i + 1 < char.length)
  rw [Nat.add_zero, List.getElem?_cons_zero] at hfirst
  rw [← Nat.add_assoc, ← hfirst] at hinner
  rw [utf8ByteSequenceLength_continuation (hchar.continues hinner)] at hlength
  cases hlength

theorem charAt_append {more : List UInt8} (h : p + 4 ≤ bytes.length) :
    charAt (bytes ++ more) p = charAt bytes p := by
  refine Option.ext fun char => ?_
  rw [charAt_eq_some, charAt_eq_some, List.drop_append_of_le_length (by omega)]
  refine and_congr_right fun hchar => ⟨fun hprefix => ?_, fun hprefix =>
    hprefix.trans (List.prefix_append _ _)⟩
  have hle := hchar.length_bounds.2
  exact List.prefix_of_prefix_length_le hprefix (List.prefix_append _ _)
    (by rw [List.length_drop]; omega)

/-! ## Valid text -/

theorem utf8Sequences_eq {fuel fuel' : Nat} (h : bytes.length ≤ fuel) (h' : bytes.length ≤ fuel') :
    utf8Sequences fuel bytes = utf8Sequences fuel' bytes := by
  induction fuel generalizing fuel' bytes with
  | zero =>
    obtain rfl := List.length_eq_zero_iff.mp (Nat.le_zero.mp h)
    rw [utf8Sequences, utf8Sequences]
  | succ fuel ih =>
    cases bytes with
    | nil => rw [utf8Sequences, utf8Sequences]
    | cons first rest =>
      obtain ⟨k, rfl⟩ : ∃ k, fuel' = k + 1 := ⟨fuel' - 1, by rw [List.length_cons] at h'; omega⟩
      rw [utf8Sequences, utf8Sequences]
      cases hlength : utf8ByteSequenceLength first with
      | none => rfl
      | some size =>
        have hpos := (utf8ByteSequenceLength_bounds hlength).1
        have hrest : ((first :: rest).drop size).length ≤ rest.length := by
          rw [List.length_drop, List.length_cons]
          omega
        rw [List.length_cons] at h h'
        rw [Option.any_some, Option.any_some, ih (by omega) (by omega : _ ≤ k)]

theorem utf8Validate_append_char {rest : List UInt8} (h : IsCharacter char) :
    utf8Validate (char ++ rest) = utf8Validate rest := by
  obtain ⟨first, tail, rfl, hlength⟩ := h.exists_cons
  have htake : (first :: (tail ++ rest)).take (tail.length + 1) = first :: tail :=
    (List.take_left' rfl : (first :: tail ++ rest).take (tail.length + 1) = first :: tail)
  have hdrop : (first :: (tail ++ rest)).drop (tail.length + 1) = rest :=
    (List.drop_left' rfl : (first :: tail ++ rest).drop (tail.length + 1) = rest)
  rw [utf8Validate, utf8Validate, List.cons_append, List.length_cons, utf8Sequences, hlength,
    Option.any_some, htake, hdrop, h.decodes, Bool.and_true,
    decide_eq_true (by rw [List.length_append]; omega), Bool.true_and]
  exact utf8Sequences_eq (by rw [List.length_append]; omega) le_rfl

/-- Valid text is a sequence of characters. -/
inductive Characters : List UInt8 → Prop
  | nil : Characters []
  | cons {char rest : List UInt8} : IsCharacter char → Characters rest → Characters (char ++ rest)

theorem Characters.append {more : List UInt8} (h : Characters bytes) (hmore : Characters more) :
    Characters (bytes ++ more) := by
  induction h with
  | nil => exact hmore
  | cons hchar _ ih =>
    rw [List.append_assoc]
    exact .cons hchar ih

theorem Characters.single (h : IsCharacter char) : Characters char := by
  rw [← List.append_nil char]
  exact .cons h .nil

theorem Characters.valid (h : Characters bytes) : utf8Validate bytes = true := by
  induction h with
  | nil => rfl
  | cons hchar _ ih => rw [utf8Validate_append_char hchar, ih]

theorem isCharacter_ascii (h : byte.toNat < 0x80) : IsCharacter [byte] :=
  ⟨by rw [List.head?_cons, Option.bind_some, utf8ByteSequenceLength, if_pos h]; rfl, rfl⟩

/-! ## Text of characters that have a property -/

/-- Text of characters that all have a property. -/
def TextOf (P : List UInt8 → Prop) (bytes : List UInt8) : Prop :=
  ∃ chars : List (List UInt8), bytes = chars.flatten ∧ ∀ char ∈ chars, IsCharacter char ∧ P char

namespace TextOf

variable {P Q : List UInt8 → Prop} {bytes more : List UInt8}

theorem nil : TextOf P [] := ⟨[], rfl, nofun⟩

theorem append (h : TextOf P bytes) (hmore : TextOf P more) : TextOf P (bytes ++ more) := by
  obtain ⟨chars, rfl, hchars⟩ := h
  obtain ⟨others, rfl, hothers⟩ := hmore
  refine ⟨chars ++ others, List.flatten_append.symm, fun char hchar => ?_⟩
  exact (List.mem_append.mp hchar).elim (hchars char) (hothers char)

theorem single {char : List UInt8} (h : IsCharacter char) (hP : P char) : TextOf P char := by
  refine ⟨[char], by simp, fun other hother => ?_⟩
  rw [List.mem_singleton.mp hother]
  exact ⟨h, hP⟩

theorem validate_append (h : TextOf P bytes) : utf8Validate (bytes ++ more) = utf8Validate more := by
  obtain ⟨chars, rfl, hchars⟩ := h
  induction chars with
  | nil => rfl
  | cons char rest ih =>
    rw [List.flatten_cons, List.append_assoc,
      utf8Validate_append_char (hchars char List.mem_cons_self).1]
    exact ih fun other hother => hchars other (List.mem_cons_of_mem _ hother)

theorem valid (h : TextOf P bytes) : utf8Validate bytes = true := by
  rw [← List.append_nil bytes, h.validate_append]
  rfl

/-- **Text splits** where a byte that begins a character stands. -/
theorem split (h : TextOf P bytes) {at_ : Nat} {byte : UInt8} (hbyte : bytes[at_]? = some byte)
    (hbegins : isContinuation byte = false) :
    TextOf P (bytes.take at_) ∧ TextOf P (bytes.drop at_) := by
  obtain ⟨chars, rfl, hchars⟩ := h
  induction chars generalizing at_ with
  | nil => cases hbyte
  | cons char rest ih =>
    obtain ⟨hchar, hP⟩ := hchars char List.mem_cons_self
    have hrest : ∀ other ∈ rest, IsCharacter other ∧ P other :=
      fun other hother => hchars other (List.mem_cons_of_mem _ hother)
    rw [List.flatten_cons] at hbyte ⊢
    rcases Nat.lt_or_ge at_ char.length with hin | hout
    · cases at_ with
      | zero => exact ⟨nil, char :: rest, List.flatten_cons.symm, hchars⟩
      | succ before =>
        rw [List.getElem?_append_left hin] at hbyte
        rw [hchar.continues hbyte] at hbegins
        cases hbegins
    · obtain ⟨k, rfl⟩ := Nat.exists_eq_add_of_le hout
      rw [List.getElem?_append_right (Nat.le_add_right _ _), Nat.add_sub_cancel_left] at hbyte
      obtain ⟨htake, hdrop⟩ := ih hrest hbyte
      rw [List.take_length_add_append, List.drop_length_add_append]
      exact ⟨(single hchar hP).append htake, hdrop⟩

theorem drop (h : TextOf P bytes) {n : Nat} (hascii : ∀ byte ∈ bytes.take n, byte.toNat < 0x80) :
    TextOf P (bytes.drop n) := by
  obtain ⟨chars, rfl, hchars⟩ := h
  induction chars generalizing n with
  | nil => simpa using nil
  | cons char rest ih =>
    cases n with
    | zero => exact ⟨char :: rest, rfl, hchars⟩
    | succ k =>
      have hrest : ∀ other ∈ rest, IsCharacter other ∧ P other :=
        fun other hother => hchars other (List.mem_cons_of_mem _ hother)
      obtain ⟨first, tail, rfl, hlength⟩ := (hchars char List.mem_cons_self).1.exists_cons
      rw [List.flatten_cons, List.cons_append, List.take_succ_cons] at hascii
      have hfirst := hascii first List.mem_cons_self
      rw [utf8ByteSequenceLength, if_pos hfirst] at hlength
      have htail : tail = [] := by
        rw [← List.length_eq_zero_iff]
        have := Option.some_inj.mp hlength
        omega
      subst htail
      rw [List.flatten_cons, List.cons_append, List.nil_append, List.drop_succ_cons]
      exact ih hrest fun byte hbyte => hascii byte (List.mem_cons_of_mem _ (by simpa using hbyte))

end TextOf

/-- **Valid text** is text of characters. -/
theorem textOf_of_valid (h : utf8Validate bytes = true) : TextOf (fun _ => True) bytes := by
  induction hlength : bytes.length using Nat.strong_induction_on generalizing bytes with
  | _ n ih =>
    cases bytes with
    | nil => exact .nil
    | cons first rest =>
      rw [utf8Validate, List.length_cons, utf8Sequences, Option.any_eq_true] at h
      obtain ⟨size, hsize, h⟩ := h
      rw [Bool.and_eq_true, Bool.and_eq_true, decide_eq_true_eq] at h
      obtain ⟨⟨hle, hdecodes⟩, hrest⟩ := h
      have hpos := (utf8ByteSequenceLength_bounds hsize).1
      have hchar : IsCharacter ((first :: rest).take size) := by
        have hat : charAt (first :: rest) 0 = some ((first :: rest).take size) := by
          rw [charAt, List.drop_zero, List.head?_cons, Option.bind_some, hsize, Option.bind_some,
            if_pos ⟨hle, hdecodes⟩]
        exact (charAt_eq_some.mp hat).1
      have hshort : ((first :: rest).drop size).length < n := by
        rw [← hlength, List.length_drop, List.length_cons]
        omega
      rw [← List.take_append_drop size (first :: rest)]
      refine (TextOf.single hchar trivial).append (ih _ hshort ?_ rfl)
      rw [utf8Validate, ← hrest]
      exact utf8Sequences_eq le_rfl (by rw [List.length_drop, List.length_cons]; omega)

theorem not_continuation_of_valid {text : List UInt8} {n : Nat} (htext : utf8Validate text = true)
    (hstart : utf8Validate (text.take n) = true) (hbyte : text[n]? = some byte) :
    isContinuation byte = false := by
  have hdrop : utf8Validate (text.drop n) = true := by
    rw [← (textOf_of_valid hstart).validate_append, List.take_append_drop]
    exact htext
  obtain ⟨rest, hrest⟩ : ∃ rest, text.drop n = byte :: rest := by
    obtain ⟨hn, hget⟩ := List.getElem?_eq_some_iff.mp hbyte
    exact ⟨_, by rw [List.drop_eq_getElem_cons hn, hget]⟩
  rw [hrest, utf8Validate, List.length_cons, utf8Sequences, Option.any_eq_true] at hdrop
  obtain ⟨size, hsize, -⟩ := hdrop
  cases hcontinues : isContinuation byte with
  | false => rfl
  | true =>
    rw [utf8ByteSequenceLength_continuation hcontinues] at hsize
    cases hsize

end Library
