import Rui.Json.ReaderSound

/-!
# The reader over a source

`readSource` takes one byte at a time and keeps none: in a string it gathers
the bytes of one scalar and gives them to the decoder. The source is the list
of the bytes it still holds.
-/

namespace Rui.Json

open Library Library.Json

namespace Reader

/-- How many bytes the scalar that `first` begins has, as far as `first` tells. -/
def neededBytes (first : UInt8) : Except Error Nat :=
  if first = ascii '\\' then .ok 2
  else if first ≥ 0x80 then
    match utf8ByteSequenceLength first with
    | none => .error .invalidJsonUtf8
    | some length => .ok length
  else .ok 1

/-- How many bytes a scalar needs once `scalar` is taken: an escape may need more
than its first byte tells. -/
def moreNeeded (first : UInt8) (needed : Nat) (scalar : List UInt8) : Except Error Nat :=
  let needed :=
    if scalar.length = 2 ∧ first = ascii '\\' ∧ scalar[1]? = some (ascii 'u') then 6 else needed
  if scalar.length = 6 ∧ needed = 6 then
    match hex (scalar.drop 2) with
    | .error e => .error e
    | .ok (value, _) => .ok (if 0xd800 ≤ value ∧ value ≤ 0xdbff then 12 else needed)
  else .ok needed

/-- Takes bytes behind `scalar` until it has those it needs. -/
def gather (first : UInt8) (needed : Nat) (scalar : List UInt8) :
    List UInt8 → Except Error (List UInt8 × List UInt8)
  | [] => if scalar.length < needed then .error .unexpectedJsonEnd else .ok (scalar, [])
  | byte :: source =>
    if scalar.length < needed then
      match moreNeeded first needed (scalar ++ [byte]) with
      | .error e => .error e
      | .ok needed => gather first needed (scalar ++ [byte]) source
    else .ok (scalar, byte :: source)

/-- The bytes of the scalar that `first` begins, and the rest of the source. -/
def takeScalar (first : UInt8) (source : List UInt8) :
    Except Error (List UInt8 × List UInt8) :=
  match neededBytes first with
  | .error e => .error e
  | .ok needed => gather first needed [first] source

variable {first : UInt8} {needed : Nat} {scalar source rest : List UInt8} {self : Reader}
  {calls : List Call}

/-- What is gathered is what was there and bytes from the front of the source. -/
theorem gather_append {found : List UInt8}
    (h : gather first needed scalar source = .ok (found, rest)) :
    ∃ taken, found = scalar ++ taken ∧ source = taken ++ rest := by
  induction source generalizing needed scalar with
  | nil =>
    simp only [gather] at h
    split at h
    · cases h
    · cases h
      exact ⟨[], by simp⟩
  | cons byte source ih =>
    simp only [gather] at h
    split at h
    · split at h
      · cases h
      · obtain ⟨taken, hfound, hsource⟩ := ih h
        exact ⟨byte :: taken, by simp [hfound], by simp [hsource]⟩
    · cases h
      exact ⟨[], by simp⟩

theorem takeScalar_append (h : takeScalar first source = .ok (scalar, rest)) :
    ∃ taken, scalar = first :: taken ∧ source = taken ++ rest := by
  simp only [takeScalar] at h
  split at h
  · cases h
  · exact gather_append h

theorem takeScalar_length (h : takeScalar first source = .ok (scalar, rest)) :
    rest.length ≤ source.length := by
  obtain ⟨taken, _, rfl⟩ := takeScalar_append h
  rw [List.length_append]
  omega

/-- The loop of `readSource`. -/
def readFrom (self : Reader) (source : List UInt8) : Reading :=
  match source with
  | [] => .ok self
  | byte :: source =>
    if self.state ≠ .string then
      (self.step byte).andThen fun self => (self.advance 1).readFrom source
    else if byte = ascii '"' then
      self.closeString.andThen fun self => (self.advance 1).readFrom source
    else
      match _h : takeScalar byte source with
      | .error e => .fail (.error e)
      | .ok (scalar, source) =>
        match decodeString scalar with
        | .error e => .fail (.error e)
        | .ok (results, _) =>
          ((results.foldl (fun self result => self.append result.bytes) self).advance
            scalar.length).readFrom source
termination_by source.length
decreasing_by
  · exact Nat.lt_succ_self _
  · exact Nat.lt_succ_self _
  · exact Nat.lt_succ_of_le (takeScalar_length _h)

/-- Reads one object from a source of bytes. -/
def readSource (source : List UInt8) : Reading :=
  (readFrom {} source).andThen fun self =>
    if self.state ≠ .done then .fail (.error .unexpectedJsonEnd) else .ok self

/-! ## One scalar -/

theorem gather_whole (h : needed ≤ scalar.length) (source : List UInt8) :
    gather first needed scalar source = .ok (scalar, source) := by
  cases source <;> rw [gather, if_neg (Nat.not_lt.mpr h)]

variable {byte : UInt8} {digits : List UInt8} {value : Nat} {reading : Reading}

theorem gather_next {more : Nat} (h : scalar.length < needed)
    (hmore : moreNeeded first needed (scalar ++ [byte]) = .ok more) (source : List UInt8) :
    gather first needed scalar (byte :: source) = gather first more (scalar ++ [byte]) source := by
  rw [gather, if_pos h, hmore]

/-- As long as no byte changes what is needed, so many bytes are taken. -/
theorem gather_taken {taken : List UInt8} (hlength : scalar.length + taken.length = needed)
    (hsame : ∀ front : List UInt8, scalar.length < front.length → front.length ≤ needed →
      moreNeeded first needed front = .ok needed) (rest : List UInt8) :
    gather first needed scalar (taken ++ rest) = .ok (scalar ++ taken, rest) := by
  induction taken generalizing scalar with
  | nil =>
    rw [List.length_nil, Nat.add_zero] at hlength
    rw [List.nil_append, List.append_nil]
    exact gather_whole (Nat.le_of_eq hlength.symm) rest
  | cons byte taken ih =>
    rw [List.length_cons] at hlength
    have hgrown : (scalar ++ [byte]).length = scalar.length + 1 := List.length_append
    have hmore : moreNeeded first needed (scalar ++ [byte]) = .ok needed :=
      hsame _ (by omega) (by omega)
    have hfront : ∀ front : List UInt8, (scalar ++ [byte]).length < front.length →
        front.length ≤ needed → moreNeeded first needed front = .ok needed :=
      fun front hlong hshort => hsame front (by omega) hshort
    rw [List.cons_append, gather_next (by omega) hmore, ih (by omega) hfront, List.append_assoc,
      List.singleton_append]

theorem moreNeeded_plain (h : first ≠ ascii '\\') (hneeded : needed ≠ 6) (scalar : List UInt8) :
    moreNeeded first needed scalar = .ok needed := by
  simp [moreNeeded, h, hneeded]

theorem moreNeeded_long (h : 6 < scalar.length) (first : UInt8) :
    moreNeeded first needed scalar = .ok needed := by
  have hlength : scalar.length ≠ 2 ∧ scalar.length ≠ 6 := by omega
  simp [moreNeeded, hlength]

/-- A `\u` escape is gathered up to its digits, which tell whether it is half of
a pair. -/
theorem gather_unicode (h : hexQuad digits = some value) (source : List UInt8) :
    gather (ascii '\\') 2 [ascii '\\'] (ascii 'u' :: (digits ++ source)) =
      gather (ascii '\\') (if 0xd800 ≤ value ∧ value ≤ 0xdbff then 12 else 6)
        (ascii '\\' :: ascii 'u' :: digits) source := by
  match digits with
  | [] | [_] | [_, _] | [_, _, _] | _ :: _ :: _ :: _ :: _ :: _ => simp [hexQuad] at h
  | [a, b, c, d] =>
    have hhex : hex ([a, b, c, d] ++ []) = .ok (value, []) := hex_eq_ok.mpr ⟨_, rfl, h⟩
    rw [List.append_nil] at hhex
    have hfirst : ∀ (front : List UInt8), front.length ∈ [3, 4, 5] →
        moreNeeded (ascii '\\') 6 front = .ok 6 := by
      intro front hfront
      have hlength : front.length ≠ 2 ∧ front.length ≠ 6 := by
        simp only [List.mem_cons, List.not_mem_nil, or_false] at hfront
        omega
      simp [moreNeeded, hlength]
    have hu : moreNeeded (ascii '\\') 2 ([ascii '\\'] ++ [ascii 'u']) = .ok 6 := rfl
    have hlast : moreNeeded (ascii '\\') 6 ([ascii '\\', ascii 'u', a, b, c] ++ [d]) =
        .ok (if 0xd800 ≤ value ∧ value ≤ 0xdbff then 12 else 6) := by
      simp [moreNeeded, hhex]
    simp only [List.cons_append, List.nil_append] at hu hlast ⊢
    rw [gather_next (by decide) hu, gather_next (by simp) (hfirst _ (by simp)),
      gather_next (by simp) (hfirst _ (by simp)), gather_next (by simp) (hfirst _ (by simp)),
      gather_next (by simp) hlast]
    rfl

theorem hexQuad_length (h : hexQuad digits = some value) : digits.length = 4 := by
  match digits with
  | [] | [_] | [_, _] | [_, _, _] | _ :: _ :: _ :: _ :: _ :: _ => simp [hexQuad] at h
  | [_, _, _, _] => rfl

theorem takeScalar_encode {scalar : Nat} (h : IsScalar scalar) (hhigh : 0x80 ≤ scalar)
    (rest : List UInt8) : ∃ first tail, utf8Encode scalar = first :: tail ∧
      first ≠ ascii '"' ∧ takeScalar first (tail ++ rest) = .ok (utf8Encode scalar, rest) := by
  obtain ⟨first, tail, ⟨heq, hlength, _⟩, hfirst⟩ := encode_high h hhigh
  obtain ⟨_, _, hbackslash, hquote⟩ := not_plain_of_high hfirst
  have hsix : tail.length + 1 ≠ 6 := by
    have := utf8ByteSequenceLength_eq hlength
    omega
  refine ⟨first, tail, heq, hquote, ?_⟩
  have hbig : first ≥ 0x80 := hfirst
  rw [takeScalar, neededBytes, if_neg hbackslash, if_pos hbig, hlength, heq]
  have hall : [first].length + tail.length = tail.length + 1 := Nat.add_comm _ _
  exact gather_taken hall (fun front _ _ => moreNeeded_plain hbackslash hsix front) rest

theorem takeScalar_piece (piece : Piece) (rest : List UInt8) : ∃ first tail,
    piece.raw = first :: tail ∧ first ≠ ascii '"' ∧
      takeScalar first (tail ++ rest) = .ok (piece.raw, rest) := by
  have hbackslash : ascii '\\' ≠ ascii '"' := by decide
  cases piece with
  | char scalar valid plain =>
    by_cases hhigh : 0x80 ≤ scalar
    · exact takeScalar_encode valid hhigh rest
    · have hencode : utf8Encode scalar = [UInt8.ofNat scalar] := by
        rw [utf8Encode, if_pos (by omega)]
      have hnat : (UInt8.ofNat scalar).toNat = scalar := toNat_ofNat_of_lt (by omega)
      have hne : ∀ c : Char, (ascii c).toNat ≠ scalar → UInt8.ofNat scalar ≠ ascii c := by
        rintro c hc heq
        exact hc (by rw [← heq, hnat])
      have hsmall : ¬ UInt8.ofNat scalar ≥ 0x80 := by
        intro hbig
        have : 0x80 ≤ (UInt8.ofNat scalar).toNat := hbig
        omega
      refine ⟨UInt8.ofNat scalar, [], hencode, hne '"' (Ne.symm plain.2.1), ?_⟩
      rw [takeScalar, neededBytes, if_neg (hne '\\' (Ne.symm plain.2.2)), if_neg hsmall, Piece.raw,
        hencode]
      have hone : 1 ≤ [UInt8.ofNat scalar].length := Nat.le_refl _
      exact gather_whole hone rest
  | short letter value spells =>
    refine ⟨ascii '\\', [letter], rfl, hbackslash, ?_⟩
    have hu : letter ≠ ascii 'u' := by
      rintro rfl
      have hnone : shortEscape (ascii 'u') = none := by decide
      rw [hnone] at spells
      cases spells
    have hmore : moreNeeded (ascii '\\') 2 ([ascii '\\'] ++ [letter]) = .ok 2 := by
      simp [moreNeeded, hu]
    rw [takeScalar, neededBytes, if_pos rfl, List.cons_append]
    exact (gather_next (by decide) hmore _).trans (gather_whole (by simp) _)
  | unicode digits scalar spells valid =>
    refine ⟨ascii '\\', _, rfl, hbackslash, ?_⟩
    have hplain : ¬ (0xd800 ≤ scalar ∧ scalar ≤ 0xdbff) := by
      rw [IsScalar] at valid
      omega
    rw [takeScalar, neededBytes, if_pos rfl, List.cons_append]
    have hgather := gather_unicode spells rest
    rw [if_neg hplain] at hgather
    exact hgather.trans (gather_whole (by simp [hexQuad_length spells]) rest)
  | pair highDigits lowDigits high low spellsHigh spellsLow isHigh isLow =>
    refine ⟨ascii '\\', _, rfl, hbackslash, ?_⟩
    have hhigh : 0xd800 ≤ high ∧ high ≤ 0xdbff := isHigh
    have hfour := hexQuad_length spellsHigh
    have hlow : (ascii '\\' :: ascii 'u' :: lowDigits).length = 6 := by
      simp [hexQuad_length spellsLow]
    have hgather := gather_unicode spellsHigh
      ((ascii '\\' :: ascii 'u' :: lowDigits) ++ rest)
    rw [if_pos hhigh] at hgather
    have hall : (ascii '\\' :: ascii 'u' :: highDigits).length +
        (ascii '\\' :: ascii 'u' :: lowDigits).length = 12 := by
      simp [hfour, hlow]
    have hsame : ∀ front : List UInt8,
        (ascii '\\' :: ascii 'u' :: highDigits).length < front.length → front.length ≤ 12 →
          moreNeeded (ascii '\\') 12 front = .ok 12 := by
      intro front hlong _
      simp only [List.length_cons, hfour] at hlong
      exact moreNeeded_long (by omega) _
    have hrest := gather_taken hall hsame rest
    rw [takeScalar, neededBytes, if_pos rfl, List.cons_append, List.append_assoc]
    exact hgather.trans hrest

theorem takeScalar_sound (hquote : first ≠ ascii '"') {stop : List UInt8} {results : List Decoded}
    (htake : takeScalar first source = .ok (scalar, rest))
    (hdecode : decodeString scalar = .ok (results, stop)) :
    ∃ piece : Piece, first :: source = piece.raw ++ rest := by
  obtain ⟨taken, rfl, rfl⟩ := takeScalar_append htake
  obtain ⟨hstops, pieces, hraw, _⟩ := decodeString_sound hdecode
  cases pieces with
  | nil =>
    rw [raw_nil, List.nil_append] at hraw
    rw [← hraw] at hstops
    rcases hstops with h | h
    · cases h
    · rw [List.head?_cons, Option.some.injEq] at h
      exact absurd h hquote
  | cons piece pieces =>
    rw [raw_cons, List.append_assoc] at hraw
    obtain ⟨first', tail, htail, _, hpiece⟩ := takeScalar_piece piece (raw pieces ++ stop ++ rest)
    rw [htail, List.cons_append] at hraw
    obtain ⟨rfl, rfl⟩ := List.cons.inj hraw
    -- the whole character is gathered from the same source
    rw [← List.append_assoc tail, htake, Except.ok.injEq, Prod.mk.injEq] at hpiece
    refine ⟨piece, ?_⟩
    rw [← List.cons_append, hpiece.1]

/-! ## Whole documents -/

theorem readFrom_nil (self : Reader) : self.readFrom [] = .ok self := by
  rw [readFrom.eq_def]

theorem readFrom_cons (h : self.state ≠ .string) (byte : UInt8) (rest : List UInt8) :
    self.readFrom (byte :: rest) =
      (self.step byte).andThen fun self => (self.advance 1).readFrom rest := by
  rw [readFrom.eq_def]
  exact if_pos h

theorem readFrom_quote (h : self.state = .string) (rest : List UInt8) :
    self.readFrom (ascii '"' :: rest) =
      self.closeString.andThen fun self => (self.advance 1).readFrom rest := by
  rw [readFrom.eq_def]
  exact (if_neg (not_not_intro h)).trans (if_pos rfl)

theorem readFrom_scalar (h : self.state = .string) (hquote : byte ≠ ascii '"') (source : List UInt8) :
    self.readFrom (byte :: source) =
      match takeScalar byte source with
      | .error e => .fail (.error e)
      | .ok (scalar, source) =>
        match decodeString scalar with
        | .error e => .fail (.error e)
        | .ok (results, _) =>
          ((self.append (joined results)).advance scalar.length).readFrom source := by
  rw [readFrom.eq_def]
  simp only [h, ne_eq, not_true_eq_false, if_false, if_neg hquote, foldl_append]
  split <;> simp_all

theorem readFrom_piece (h : self.state = .string) (piece : Piece) (rest : List UInt8) :
    self.readFrom (piece.raw ++ rest) =
      ((self.append piece.decoded).advance piece.raw.length).readFrom rest := by
  obtain ⟨first, tail, hraw, hquote, htake⟩ := takeScalar_piece piece rest
  have hstops : Stops [] := .inl rfl
  obtain ⟨results, hdecode, hjoined⟩ := decodeString_complete [piece] hstops
  rw [raw_cons, raw_nil, List.append_nil, List.append_nil] at hdecode
  rw [decoded_cons, decoded_nil, List.append_nil] at hjoined
  have hfirst : piece.raw ++ rest = first :: (tail ++ rest) := by rw [hraw]; rfl
  rw [hfirst, readFrom_scalar h hquote, htake]
  simp only [hdecode, hjoined]

theorem readFrom_string (h : self.state = .string) (pieces : List Piece) (rest : List UInt8) :
    self.readFrom (raw pieces ++ ascii '"' :: rest) =
      ((self.append (decoded pieces)).advance (raw pieces).length).closeString.andThen
        fun self => (self.advance 1).readFrom rest := by
  induction pieces generalizing self with
  | nil =>
    have hsame : (self.append []).advance 0 = self := by simp [append, advance]
    rw [raw_nil, decoded_nil, List.nil_append, readFrom_quote h, List.length_nil, hsame]
  | cons piece pieces ih =>
    have hmoved : ((self.append piece.decoded).advance piece.raw.length).state = .string := h
    have hsame : (((self.append piece.decoded).advance piece.raw.length).append
        (decoded pieces)).advance (raw pieces).length =
        (self.append (piece.decoded ++ decoded pieces)).advance
          (piece.raw ++ raw pieces).length := by
      simp only [append, advance, Text.append_append, List.length_append, Nat.add_assoc]
    rw [raw_cons, decoded_cons, List.append_assoc, readFrom_piece h, ih hmoved, hsame]

/-- A reading that comes to the end of a document, with its calls. -/
def Finishes (reading : Reading) (calls : List Call) : Prop :=
  reading.calls = calls ∧ ∃ after, reading.result = .ok after ∧ after.state = .done

theorem finishes_tell {told : List Call} : Finishes (reading.tell told) calls ↔
      ∃ more, calls = told ++ more ∧ Finishes reading more := by
  constructor
  · rintro ⟨rfl, after, hresult, hdone⟩
    exact ⟨reading.calls, rfl, rfl, after, hresult, hdone⟩
  · rintro ⟨more, rfl, rfl, after, hresult, hdone⟩
    exact ⟨rfl, after, hresult, hdone⟩

theorem finishes_andThen {f g : Reader → Reading}
    (h : ∀ self calls, Finishes (f self) calls ↔ Finishes (g self) calls) (calls : List Call) :
    Finishes (reading.andThen f) calls ↔ Finishes (reading.andThen g) calls := by
  simp only [Told.andThen]
  cases reading.result with
  | error e => exact Iff.rfl
  | ok self => simp only [finishes_tell, h self]

/-- In a string that a reading gets out of, the string is closed. -/
theorem closed_of_finishes (hstate : self.state = .string)
    (h : Finishes (self.readFrom source) calls) :
    ∃ pieces rest, source = raw pieces ++ ascii '"' :: rest := by
  induction hn : source.length using Nat.strongRecOn generalizing self source calls with
  | ind n ih =>
    cases source with
    | nil =>
      obtain ⟨_, after, hresult, hdone⟩ := h
      rw [readFrom_nil, Told.ok_result, Except.ok.injEq] at hresult
      rw [← hresult, hstate] at hdone
      cases hdone
    | cons byte source =>
      by_cases hquote : byte = ascii '"'
      · exact ⟨[], source, by rw [hquote]; rfl⟩
      · rw [readFrom_scalar hstate hquote] at h
        cases htake : takeScalar byte source with
        | error e => simp [htake, Finishes] at h
        | ok found =>
          obtain ⟨scalar, rest⟩ := found
          cases hdecode : decodeString scalar with
          | error e => simp [htake, hdecode, Finishes] at h
          | ok found =>
            obtain ⟨results, stop⟩ := found
            simp only [htake, hdecode] at h
            obtain ⟨piece, hpiece⟩ := takeScalar_sound hquote htake hdecode
            have hless : rest.length < n := by
              have := takeScalar_length htake
              rw [← hn, List.length_cons]
              omega
            have hmoved : ((self.append (joined results)).advance scalar.length).state = .string :=
              hstate
            obtain ⟨pieces, behind, hbehind⟩ := ih _ hless hmoved h rfl
            refine ⟨piece :: pieces, behind, ?_⟩
            rw [hpiece, hbehind, raw_cons, List.append_assoc]

theorem finishes_iff (self : Reader) (bytes : List UInt8) (calls : List Call) :
    Finishes (self.readFrom bytes) calls ↔ Finishes (self.readBytes bytes) calls := by
  induction hn : bytes.length using Nat.strongRecOn generalizing self bytes calls with
  | ind n ih =>
    by_cases hstate : self.state = .string
    · by_cases hclosed : ∃ pieces rest, bytes = raw pieces ++ ascii '"' :: rest
      · obtain ⟨pieces, rest, rfl⟩ := hclosed
        have hless : rest.length < n := by
          rw [← hn, List.length_append, List.length_cons]
          omega
        rw [readFrom_string hstate, readBytes_string hstate]
        exact finishes_andThen (fun self calls => ih _ hless _ rest calls rfl) calls
      · constructor
        · intro h
          exact absurd (closed_of_finishes hstate h) hclosed
        · intro h
          exact absurd (accepts_string hstate h.2) hclosed
    · cases bytes with
      | nil => rw [readFrom_nil, readBytes_nil]
      | cons byte rest =>
        have hless : rest.length < n := by
          rw [← hn, List.length_cons]
          omega
        rw [readFrom_cons hstate, readBytes_cons hstate]
        exact finishes_andThen (fun self calls => ih _ hless _ rest calls rfl) calls

theorem read_finishes {bytes : List UInt8} :
    ((read bytes).calls = calls ∧ ∃ after, (read bytes).result = .ok after) ↔
      Finishes (readBytes {} bytes) calls := by
  simp only [read, Told.andThen, Finishes]
  cases hresult : (readBytes {} bytes).result with
  | error e => simp
  | ok after =>
    by_cases hdone : after.state = .done
    · simp [finish, hdone]
    · simp [hdone, finish_ok]

theorem readSource_finishes :
    ((readSource source).calls = calls ∧ ∃ after, (readSource source).result = .ok after) ↔
      Finishes (readFrom {} source) calls := by
  simp only [readSource, Told.andThen, Finishes]
  cases hresult : (readFrom {} source).result with
  | error e => simp
  | ok after =>
    by_cases hdone : after.state = .done
    · simp [hdone]
    · simp [hdone]

end Reader

/-- **One byte at a time.** A source is accepted exactly when its bytes are,
and then the handlers hear the same calls. -/
theorem readSource_accepts (bytes : List UInt8) :
    ((∃ after, (Reader.readSource bytes).result = .ok after) ↔
      ∃ after, (Reader.read bytes).result = .ok after) ∧
    ((∃ after, (Reader.read bytes).result = .ok after) →
      (Reader.readSource bytes).calls = (Reader.read bytes).calls) := by
  have hsame : ∀ calls,
      ((Reader.readSource bytes).calls = calls ∧
        ∃ after, (Reader.readSource bytes).result = .ok after) ↔
      ((Reader.read bytes).calls = calls ∧ ∃ after, (Reader.read bytes).result = .ok after) := by
    intro calls
    rw [Reader.readSource_finishes, Reader.read_finishes]
    exact Reader.finishes_iff {} bytes calls
  refine ⟨⟨?_, ?_⟩, ?_⟩
  · intro h
    exact ((hsame _).mp ⟨rfl, h⟩).2
  · intro h
    exact ((hsame _).mpr ⟨rfl, h⟩).2
  · intro h
    exact ((hsame _).mpr ⟨rfl, h⟩).1

end Rui.Json
