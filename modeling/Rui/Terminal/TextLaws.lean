import Rui.Terminal.Text

/-!
# What terminal text shows

The byte machine writes each part of its input by itself: a character as its mode shows it, a
stray byte escaped. So what is written does not depend on the chunks, holds no control, and in a
line or a label can be read back.
-/

namespace Rui.TerminalText

open Library

/-- What a part is written as. -/
def shown (mode : Mode) : Part → List UInt8
  | .stray byte => escapeByte byte
  | .char [byte] => asciiByte mode byte
  | .char bytes =>
    let scalar := (utf8Decode bytes).getD 0
    if isControl scalar then escapeScalar scalar else bytes

theorem flatMap_stray (mode : Mode) (bytes : List UInt8) :
    (bytes.map Part.stray).flatMap (shown mode) = bytes.flatMap escapeByte := by
  rw [List.flatMap_map]
  rfl

/-! ## Sequences -/

/-- A sequence that goes on: a leading byte and some of the bytes that continue it. -/
structure Sequence (need : Nat) (bytes : List UInt8) : Prop where
  leads : ∃ first rest, bytes = first :: rest ∧ utf8ByteSequenceLength first = some need ∧
    0x80 ≤ first.toNat ∧ ∀ byte ∈ rest, isContinuation byte = true

/-- **A sequence that breaks** is stray bytes: what follows begins, or it is whole and invalid. -/
theorem Sequence.parts_broken {need : Nat} {bytes more : List UInt8} (h : Sequence need bytes)
    (hbroken : bytes.length < need ∧ Begins more ∨ bytes.length = need ∧ utf8Decode bytes = none) :
    parts (bytes ++ more) = bytes.map Part.stray ++ parts more := by
  obtain ⟨first, rest, rfl, hlength, -, hrest⟩ := h.leads
  have hnone : charAt (first :: (rest ++ more)) 0 = none := by
    rcases hbroken with ⟨hshort, hmore⟩ | ⟨hwhole, hinvalid⟩
    · rw [← List.cons_append]
      refine charAt_append_begins hmore ?_
      rw [charAt, List.drop_zero, List.head?_cons, Option.bind_some, hlength, Option.bind_some,
        if_neg fun hfits => Nat.not_le.mpr hshort hfits.1]
    · rw [charAt, List.drop_zero, List.head?_cons, Option.bind_some, hlength, Option.bind_some,
        ← List.cons_append, ← hwhole, List.take_left' rfl, hinvalid]
      simp
  rw [List.cons_append, parts_stray hnone, parts_continuations hrest, List.map_cons,
    List.cons_append]

/-! ## The machine -/

/-- What was fed and written: the parts that ended, and a sequence that goes on. -/
structure Fed (mode : Mode) (bytes : List UInt8) (now : State × List UInt8) : Prop where
  ended : ∃ done, bytes = done ++ now.1.held ∧ now.2 = (parts done).flatMap (shown mode) ∧
    ∀ more, parts (done ++ (now.1.held ++ more)) = parts done ++ parts (now.1.held ++ more)
  held : now.1.held ≠ [] → Sequence now.1.need now.1.held ∧ now.1.held.length < now.1.need

theorem Fed.start (mode : Mode) : Fed mode [] ({}, []) where
  ended := ⟨[], rfl, by rw [parts_nil, List.flatMap_nil], fun more => by
    rw [parts_nil]
    rfl⟩
  held h := absurd rfl h

variable {mode : Mode} {now : State × List UInt8} {bytes : List UInt8}

theorem Fed.of_done {done : List UInt8} (hheld : now.1.held = [])
    (hwritten : now.2 = (parts done).flatMap (shown mode))
    (hcut : ∀ more, parts (done ++ more) = parts done ++ parts more) : Fed mode done now where
  ended := ⟨done, by rw [hheld, List.append_nil], hwritten, fun more => by
    rw [hheld, List.nil_append]
    exact hcut more⟩
  held h := absurd hheld h

theorem utf8ByteSequenceLength_high {first : UInt8} {need : Nat} (hascii : 0x80 ≤ first.toNat)
    (h : utf8ByteSequenceLength first = some need) : 2 ≤ need := by
  rw [utf8ByteSequenceLength, if_neg (Nat.not_lt.mpr hascii)] at h
  split_ifs at h <;> cases h <;> decide

/-- **A byte when nothing is held**, after parts that can be cut here. -/
theorem beginByte_fed {mode : Mode} {done out : List UInt8} {state : State} {value : UInt8}
    (hheld : state.held = []) (hout : out = (parts done).flatMap (shown mode))
    (hcut : ∀ more, parts (done ++ value :: more) = parts done ++ parts (value :: more)) :
    Fed mode (done ++ [value])
      ((beginByte mode state value).1, out ++ (beginByte mode state value).2) := by
  have hcut₁ : ∀ more, parts (done ++ [value] ++ more) = parts done ++ parts (value :: more) :=
    fun more => by rw [List.append_assoc, List.singleton_append, hcut]
  have hparts : parts (done ++ [value]) = parts done ++ parts [value] := hcut []
  rw [beginByte]
  by_cases hascii : value.toNat < 0x80
  · rw [if_pos hascii]
    have hchar := fun more => @parts_char [value] more (isCharacter_ascii hascii)
    have hone : parts [value] = [.char [value]] := (hchar []).trans (by rw [parts_nil])
    refine Fed.of_done hheld ?_ fun more => ?_
    · rw [hparts, hone, List.flatMap_append, hout, List.flatMap_singleton]
      rfl
    · rw [hcut₁, hparts, hone, List.append_assoc, List.singleton_append]
      exact congrArg _ (hchar more)
  · rw [if_neg hascii]
    cases hlength : utf8ByteSequenceLength value with
    | none =>
      have hstray : ∀ more, parts (value :: more) = .stray value :: parts more := fun more =>
        parts_stray (by rw [charAt, List.drop_zero, List.head?_cons, Option.bind_some, hlength,
          Option.bind_none])
      refine Fed.of_done hheld ?_ fun more => ?_
      · rw [hparts, hstray, parts_nil, List.flatMap_append, hout, List.flatMap_singleton]
        rfl
      · rw [hcut₁, hparts, hstray, hstray, parts_nil, List.append_assoc, List.singleton_append]
    | some need =>
      have htwo := utf8ByteSequenceLength_high (Nat.not_lt.mp hascii) hlength
      have hnext : hold { state with need } value = ({ held := [value], need }, []) := by
        rw [hold]
        simp only [hheld, List.nil_append, List.length_singleton]
        rw [if_neg (by omega)]
      simp only [hnext, List.append_nil]
      refine ⟨⟨done, rfl, hout, fun more => hcut more⟩, fun _ => ⟨⟨value, [], rfl, hlength,
        Nat.not_lt.mp hascii, fun byte hbyte => (by cases hbyte)⟩, ?_⟩⟩
      simp only [List.length_singleton]
      omega

/-- **A byte that continues** what is held. -/
theorem hold_fed {value : UInt8} (h : Fed mode bytes now) (hheld : now.1.held ≠ [])
    (hvalue : isContinuation value = true) :
    Fed mode (bytes ++ [value]) ((hold now.1 value).1, now.2 ++ (hold now.1 value).2) := by
  obtain ⟨done, hbytes, hwritten, hcut⟩ := h.ended
  obtain ⟨hsequence, hshort⟩ := h.held hheld
  have hnext : Sequence now.1.need (now.1.held ++ [value]) := by
    obtain ⟨first, rest, hfirst, hlength, hhigh, hrest⟩ := hsequence.leads
    refine ⟨first, rest ++ [value], by rw [hfirst, List.cons_append], hlength, hhigh, ?_⟩
    intro byte hbyte
    rcases List.mem_append.mp hbyte with hold | hnew
    · exact hrest byte hold
    · rw [List.mem_singleton.mp hnew]
      exact hvalue
  have hcut' : ∀ more, parts (done ++ (now.1.held ++ [value] ++ more)) =
      parts done ++ parts (now.1.held ++ [value] ++ more) := fun more => by
    rw [List.append_assoc now.1.held, hcut]
  rw [hbytes, List.append_assoc, hold]
  simp only
  by_cases hwhole : (now.1.held ++ [value]).length = now.1.need
  · rw [if_pos hwhole]
    cases hdecode : utf8Decode (now.1.held ++ [value]) with
    | none =>
      have hbroken := fun more => @Sequence.parts_broken _ _ more hnext (.inr ⟨hwhole, hdecode⟩)
      have hparts : parts (done ++ (now.1.held ++ [value])) =
          parts done ++ (now.1.held ++ [value]).map Part.stray := by
        rw [← List.append_nil (now.1.held ++ [value]), hcut', hbroken, parts_nil,
          List.append_nil, List.append_nil]
      refine Fed.of_done rfl ?_ fun more => ?_
      · rw [hparts, List.flatMap_append, flatMap_stray, hwritten]
        rfl
      · rw [hparts, List.append_assoc, hcut', hbroken, List.append_assoc]
    | some scalar =>
      have hchar : IsCharacter (now.1.held ++ [value]) := by
        obtain ⟨first, rest, hfirst, hlength, -, -⟩ := hnext.leads
        refine ⟨?_, by rw [hdecode]; rfl⟩
        rw [hwhole, hfirst, List.head?_cons, Option.bind_some, hlength]
      have hparts : parts (done ++ (now.1.held ++ [value])) =
          parts done ++ [.char (now.1.held ++ [value])] := by
        rw [← List.append_nil (now.1.held ++ [value]), hcut', parts_char hchar, parts_nil,
          List.append_nil]
      have hshown : shown mode (.char (now.1.held ++ [value])) =
          if isControl scalar then escapeScalar scalar else now.1.held ++ [value] := by
        obtain ⟨first, rest, hfirst, -⟩ := hsequence.leads
        rw [hfirst] at hdecode ⊢
        cases rest with
        | nil =>
          simp only [List.cons_append, List.nil_append] at hdecode ⊢
          rw [shown, hdecode]
          · rfl
          · simp
        | cons second rest =>
          simp only [List.cons_append] at hdecode ⊢
          rw [shown, hdecode]
          · rfl
          · simp
      refine Fed.of_done rfl ?_ fun more => ?_
      · rw [hparts, List.flatMap_append, List.flatMap_singleton, hshown, hwritten]
      · rw [hparts, List.append_assoc, hcut', parts_char hchar, List.append_assoc,
          List.singleton_append]
  · rw [if_neg hwhole, List.append_nil]
    refine ⟨⟨done, rfl, hwritten, hcut'⟩, fun _ => ⟨hnext, ?_⟩⟩
    simp only [List.length_append, List.length_singleton] at hwhole ⊢
    omega

/-- **One byte.** -/
theorem feedByte_fed (h : Fed mode bytes now) (value : UInt8) :
    Fed mode (bytes ++ [value]) ((feedByte mode now.1 value).1,
      now.2 ++ (feedByte mode now.1 value).2) := by
  obtain ⟨done, hbytes, hwritten, hcut⟩ := h.ended
  rw [feedByte]
  by_cases hheld : now.1.held = []
  · rw [if_pos hheld]
    rw [hheld, List.append_nil] at hbytes
    refine beginByte_fed hheld (hbytes ▸ hwritten) fun more => ?_
    have hmore := hcut (value :: more)
    rw [hheld, List.nil_append] at hmore
    rw [hbytes]
    exact hmore
  rw [if_neg hheld]
  by_cases hvalue : isContinuation value = true
  · rw [if_neg (by rw [hvalue]; exact Bool.true_eq_false_eq_False)]
    exact hold_fed h hheld hvalue
  · rw [Bool.not_eq_true] at hvalue
    rw [if_pos hvalue]
    obtain ⟨hsequence, hshort⟩ := h.held hheld
    have hbroken : ∀ more, parts (now.1.held ++ value :: more) =
        now.1.held.map Part.stray ++ parts (value :: more) := fun more =>
      hsequence.parts_broken (.inl ⟨hshort, fun byte hbyte => by
        rw [List.head?_cons, Option.mem_some_iff] at hbyte
        rw [← hbyte, hvalue]⟩)
    have hparts : parts (done ++ now.1.held) = parts done ++ now.1.held.map Part.stray := by
      have hnil := hcut []
      rw [List.append_nil] at hnil
      rw [hnil, ← List.append_nil now.1.held, hsequence.parts_broken (.inl ⟨hshort, fun byte hbyte =>
        (by cases hbyte)⟩), parts_nil, List.append_nil, List.append_nil]
    have hout : now.2 ++ (finish now.1).2 = (parts bytes).flatMap (shown mode) := by
      rw [hbytes, hparts, List.flatMap_append, flatMap_stray, hwritten]
      rfl
    have hbegun := @beginByte_fed mode bytes (now.2 ++ (finish now.1).2) (finish now.1).1 value rfl
      hout fun more => by
        rw [hbytes, List.append_assoc, hcut, hbroken, hparts, List.append_assoc]
    simp only [List.append_assoc] at hbegun ⊢
    exact hbegun

theorem feed_fed {more : List UInt8} (h : Fed mode bytes now) :
    Fed mode (bytes ++ more) (feed mode now more) := by
  induction more generalizing bytes now with
  | nil => rwa [List.append_nil]
  | cons value more ih =>
    have hnext := ih (feedByte_fed h value)
    rw [List.append_assoc, List.singleton_append] at hnext
    exact hnext

theorem feed_chunks {mode : Mode} {bytes : List UInt8} {now : State × List UInt8}
    {chunks : List (List UInt8)} (h : Fed mode bytes now) :
    Fed mode (bytes ++ chunks.flatten) (chunks.foldl (feed mode) now) := by
  induction chunks generalizing bytes now with
  | nil => rwa [List.flatten_nil, List.append_nil]
  | cons chunk chunks ih =>
    rw [List.flatten_cons, ← List.append_assoc]
    exact ih (feed_fed h)

/-- **Each part is written by itself.** -/
theorem written_eq (mode : Mode) (chunks : List (List UInt8)) :
    written mode chunks = (parts chunks.flatten).flatMap (shown mode) := by
  have h := @feed_chunks mode [] _ chunks (Fed.start mode)
  rw [List.nil_append] at h
  obtain ⟨done, hbytes, hwritten, hcut⟩ := h.ended
  rw [written, hwritten, hbytes]
  by_cases hheld : (chunks.foldl (feed mode) ({}, [])).1.held = []
  · rw [finish, hheld, List.append_nil, List.flatMap_nil, List.append_nil]
  · obtain ⟨hsequence, hshort⟩ := h.held hheld
    have hnil := hcut []
    rw [List.append_nil] at hnil
    have hbroken := @Sequence.parts_broken _ _ [] hsequence (.inl ⟨hshort, fun byte hbyte =>
      (by cases hbyte)⟩)
    rw [List.append_nil, parts_nil, List.append_nil] at hbroken
    rw [hnil, hbroken, List.flatMap_append, flatMap_stray]
    rfl

end Rui.TerminalText
