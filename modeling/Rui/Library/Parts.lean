import Rui.Library.Characters

/-!
# The parts of any text

Bytes that may be anything are valid characters and stray bytes that belong to none. The parts do
not depend on how a reader found them, and a text whose parts are written one by one in a code
that can be read back is the only text so written.
-/

namespace Library

/-- A valid character, or a byte of none. -/
inductive Part
  | char (bytes : List UInt8)
  | stray (byte : UInt8)
  deriving DecidableEq, Repr

def Part.bytes : Part → List UInt8
  | .char bytes => bytes
  | .stray byte => [byte]

variable {char rest more : List UInt8} {first : UInt8} {chars : List (List UInt8)}

theorem charAt_zero_length {bytes : List UInt8} (h : charAt bytes 0 = some char) :
    1 ≤ char.length := (charAt_eq_some.mp h).1.length_bounds.1

/-- The parts of a text, from its first byte on. -/
def parts : List UInt8 → List Part
  | [] => []
  | first :: rest =>
    match _h : charAt (first :: rest) 0 with
    | some char => .char char :: parts ((first :: rest).drop char.length)
    | none => .stray first :: parts rest
termination_by bytes => bytes.length
decreasing_by
  · have := charAt_zero_length _h
    simp only [List.length_drop, List.length_cons]
    omega
  · exact Nat.lt_succ_self _

@[simp] theorem parts_nil : parts [] = [] := by rw [parts]

theorem parts_char {char rest : List UInt8} (h : IsCharacter char) :
    parts (char ++ rest) = .char char :: parts rest := by
  obtain ⟨first, tail, rfl, -⟩ := h.exists_cons
  have hchar : charAt (first :: (tail ++ rest)) 0 = some (first :: tail) :=
    charAt_eq_some.mpr ⟨h, rest, rfl⟩
  rw [List.cons_append, parts]
  split
  · next char hsome =>
    rw [hchar] at hsome
    cases hsome
    rw [← List.cons_append, List.drop_left' rfl]
  · next hnone =>
    rw [hchar] at hnone
    cases hnone

theorem parts_stray (h : charAt (first :: rest) 0 = none) :
    parts (first :: rest) = .stray first :: parts rest := by
  rw [parts]
  split
  · next char hsome =>
    rw [h] at hsome
    cases hsome
  · rfl

/-- A text begins with a character or with a stray byte. -/
theorem text_cases (bytes : List UInt8) :
    bytes = [] ∨ (∃ char rest, IsCharacter char ∧ bytes = char ++ rest) ∨
      ∃ first rest, charAt (first :: rest) 0 = none ∧ bytes = first :: rest := by
  cases bytes with
  | nil => exact .inl rfl
  | cons first rest =>
    cases h : charAt (first :: rest) 0 with
    | none => exact .inr (.inr ⟨first, rest, h, rfl⟩)
    | some char =>
      obtain ⟨hchar, more, hmore⟩ := charAt_eq_some.mp h
      exact .inr (.inl ⟨char, more, hchar, hmore.symm⟩)

/-- **Induction over the parts of a text.** -/
theorem parts_induction {P : List UInt8 → Prop} (nil : P [])
    (char : ∀ char rest, IsCharacter char → P rest → P (char ++ rest))
    (stray : ∀ first rest, charAt (first :: rest) 0 = none → P rest → P (first :: rest))
    (bytes : List UInt8) : P bytes := by
  induction hlength : bytes.length using Nat.strong_induction_on generalizing bytes with
  | _ n ih =>
  rcases text_cases bytes with rfl | ⟨c, rest, hc, rfl⟩ | ⟨first, rest, hnone, rfl⟩
  · exact nil
  · have hpos := hc.length_bounds.1
    rw [List.length_append] at hlength
    exact char c rest hc (ih rest.length (by omega) rest rfl)
  · rw [List.length_cons] at hlength
    exact stray first rest hnone (ih rest.length (by omega) rest rfl)

theorem parts_bytes (bytes : List UInt8) : (parts bytes).flatMap Part.bytes = bytes := by
  induction bytes using parts_induction with
  | nil => rw [parts_nil, List.flatMap_nil]
  | char char rest hchar ih => rw [parts_char hchar, List.flatMap_cons, ih, Part.bytes]
  | stray first rest hnone ih =>
    rw [parts_stray hnone, List.flatMap_cons, ih, Part.bytes, List.singleton_append]

theorem isCharacter_of_mem_parts {bytes : List UInt8} (h : .char char ∈ parts bytes) :
    IsCharacter char := by
  induction bytes using parts_induction with
  | nil => rw [parts_nil] at h; cases h
  | char head rest hchar ih =>
    rw [parts_char hchar] at h
    rcases List.mem_cons.mp h with heq | hrest
    · cases heq
      exact hchar
    · exact ih hrest
  | stray first rest hnone ih =>
    rw [parts_stray hnone] at h
    rcases List.mem_cons.mp h with heq | hrest
    · cases heq
    · exact ih hrest

/-- A stray byte is no ASCII. -/
theorem le_of_stray_mem_parts {bytes : List UInt8} {byte : UInt8} (h : .stray byte ∈ parts bytes) :
    0x80 ≤ byte.toNat := by
  induction bytes using parts_induction with
  | nil => rw [parts_nil] at h; cases h
  | char head rest hchar ih =>
    rw [parts_char hchar] at h
    rcases List.mem_cons.mp h with heq | hrest
    · cases heq
    · exact ih hrest
  | stray first rest hnone ih =>
    rw [parts_stray hnone] at h
    rcases List.mem_cons.mp h with heq | hrest
    · cases heq
      by_contra hascii
      have hchar : charAt (byte :: rest) 0 = some [byte] :=
        charAt_eq_some.mpr ⟨isCharacter_ascii (Nat.not_le.mp hascii), rest, rfl⟩
      rw [hchar] at hnone
      cases hnone
    · exact ih hrest

/-! ## Where a text can be cut -/

/-- Text after which a character does not go on. -/
def Begins (more : List UInt8) : Prop := ∀ byte ∈ more.head?, isContinuation byte = false

theorem IsCharacter.begins (h : IsCharacter char) : Begins (char ++ rest) := by
  obtain ⟨first, tail, rfl, hlength⟩ := h.exists_cons
  intro byte hbyte
  rw [List.cons_append, List.head?_cons, Option.mem_some_iff] at hbyte
  subst hbyte
  by_contra hcontinuation
  rw [Bool.not_eq_false] at hcontinuation
  rw [utf8ByteSequenceLength_continuation hcontinuation] at hlength
  cases hlength

theorem charAt_append_begins (hmore : Begins more) (h : charAt (first :: rest) 0 = none) :
    charAt (first :: rest ++ more) 0 = none := by
  refine Option.eq_none_iff_forall_ne_some.mpr fun char hchar => ?_
  obtain ⟨hcharacter, hprefix⟩ := charAt_eq_some.mp hchar
  rw [List.drop_zero] at hprefix
  rcases Nat.lt_or_ge (first :: rest).length char.length with hlonger | hshorter
  · -- The character would go on into what follows.
    obtain ⟨k, hk⟩ : ∃ k, (first :: rest).length = k + 1 := ⟨rest.length, rfl⟩
    obtain ⟨tail, htail⟩ := hprefix
    have hget : char[k + 1]? = more.head? := by
      rw [List.head?_eq_getElem?, ← Nat.sub_self (k + 1), ← hk,
        ← List.getElem?_append_right le_rfl, ← htail, List.getElem?_append_left hlonger]
    obtain ⟨byte, hbyte⟩ : ∃ byte, char[k + 1]? = some byte :=
      ⟨char[k + 1], List.getElem?_eq_getElem (by omega)⟩
    have hcontinues := hcharacter.continues hbyte
    rw [hmore byte (hget ▸ hbyte)] at hcontinues
    cases hcontinues
  · have hsome : charAt (first :: rest) 0 = some char := charAt_eq_some.mpr
      ⟨hcharacter, List.prefix_of_prefix_length_le hprefix (List.prefix_append _ _) hshorter⟩
    rw [hsome] at h
    cases h

/-- **A text can be cut** before any byte that does not continue a character. -/
theorem parts_append {bytes : List UInt8} (h : Begins more) :
    parts (bytes ++ more) = parts bytes ++ parts more := by
  induction bytes using parts_induction with
  | nil => rw [parts_nil, List.nil_append, List.nil_append]
  | char char rest hchar ih =>
    rw [List.append_assoc, parts_char hchar, parts_char hchar, ih, List.cons_append]
  | stray first rest hnone ih =>
    have hnone' := charAt_append_begins h hnone
    rw [List.cons_append] at hnone' ⊢
    rw [parts_stray hnone', parts_stray hnone, ih, List.cons_append]

/-- Bytes that continue no character are stray. -/
theorem parts_continuations {bytes : List UInt8} (h : ∀ byte ∈ bytes, isContinuation byte = true) :
    parts (bytes ++ more) = bytes.map Part.stray ++ parts more := by
  induction bytes with
  | nil => rfl
  | cons first rest ih =>
    have hnone : charAt (first :: (rest ++ more)) 0 = none := by
      rw [charAt, List.drop_zero, List.head?_cons, Option.bind_some,
        utf8ByteSequenceLength_continuation (h first List.mem_cons_self), Option.bind_none]
    rw [List.cons_append, parts_stray hnone, ih fun byte hbyte => h byte (List.mem_cons_of_mem _ hbyte),
      List.map_cons, List.cons_append]

theorem parts_flatten (h : ∀ char ∈ chars, IsCharacter char) :
    parts chars.flatten = chars.map Part.char := by
  induction chars with
  | nil => exact parts_nil
  | cons char chars ih =>
    rw [List.flatten_cons, parts_char (h char List.mem_cons_self),
      ih fun each heach => h each (List.mem_cons_of_mem _ heach), List.map_cons]

theorem utf8Validate_flatten (h : ∀ char ∈ chars, IsCharacter char) :
    utf8Validate chars.flatten = true := by
  induction chars with
  | nil => rfl
  | cons char chars ih =>
    rw [List.flatten_cons, utf8Validate_append_char (h char List.mem_cons_self),
      ih fun each heach => h each (List.mem_cons_of_mem _ heach)]

/-! ## Codes that can be read back -/

universe u v w

/-- A reader that takes one code word from the front of a text and finds its value. -/
def ReadsBack {α : Type u} {β : Type v} {γ : Type w} (read : List β → Option (γ × List β))
    (code : α → List β) (value : α → γ) (a : α) : Prop :=
  ∀ rest, read (code a ++ rest) = some (value a, rest)

/-- **What can be read back** was written from the same values. -/
theorem map_eq_of_flatMap_eq {α : Type u} {β : Type v} {γ : Type w}
    {read : List β → Option (γ × List β)} {code : α → List β} {value : α → γ}
    (hnil : read [] = none) {as bs : List α} (has : ∀ a ∈ as, ReadsBack read code value a)
    (hbs : ∀ b ∈ bs, ReadsBack read code value b) (h : as.flatMap code = bs.flatMap code) :
    as.map value = bs.map value := by
  induction as generalizing bs with
  | nil =>
    cases bs with
    | nil => rfl
    | cons b bs =>
      have hread := hbs b List.mem_cons_self (bs.flatMap code)
      rw [← List.flatMap_cons, ← h, List.flatMap_nil, hnil] at hread
      cases hread
  | cons a as ih =>
    have hreadA := has a List.mem_cons_self (as.flatMap code)
    rw [← List.flatMap_cons, h] at hreadA
    cases bs with
    | nil =>
      rw [List.flatMap_nil, hnil] at hreadA
      cases hreadA
    | cons b bs =>
      rw [List.flatMap_cons, hbs b List.mem_cons_self (bs.flatMap code)] at hreadA
      have hpair := Option.some.inj hreadA
      have hvalue : value b = value a := congrArg Prod.fst hpair
      have hrest : bs.flatMap code = as.flatMap code := congrArg Prod.snd hpair
      rw [List.map_cons, List.map_cons, hvalue,
        ih (fun each heach => has each (List.mem_cons_of_mem _ heach))
          (fun each heach => hbs each (List.mem_cons_of_mem _ heach)) hrest.symm]

end Library
