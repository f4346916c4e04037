import Rui.Postgres.DecoderSplits

/-!
# What the decoder gives

The driver asks `next` until it wants more. Its events are those of the whole
stream, but for the parts in which long values come, and lie over the stream
message by message: a row's columns fill its message, and no check fails.
-/

namespace Rui.Postgres

open Library

/-! ## Answers -/

namespace Decoder

variable {self : Decoder} {rest : List UInt8}

/-- What an answer says of the bytes it consumed and the decoder it leaves. -/
structure Answers (decoder : Decoder) (rest : List UInt8) (decoded : Decoded) : Prop where
  within : decoded.consumed ≤ rest.length
  moves : decoded.event ≠ none → decoded.decoder.state ≠ .fields ∧
    (decoded.consumed = 0 → decoder.state = .fields ∧ decoder.left = 0)
  settled : decoded.event = none → decoded.decoder.Settled ∧
    rest.length < decoded.consumed + receiveBufferBytes

/-- **Every answer** moves on, or wants more than a full inbox does not hold. -/
theorem next_answers (self : Decoder) (rest : List UInt8) :
    ∀ decoded, self.next rest = .ok decoded → self.Answers rest decoded := by
  induction self, rest using turn_induction with
  | turn self rest ih =>
    intro decoded hnext
    have hturned := self.turn_turned rest
    cases hturn : self.turn rest with
    | error e =>
      rw [next_error hturn] at hnext
      cases hnext
    | ok answer =>
      rw [hturn] at hturned
      cases answer with
      | more =>
        rw [next_more hturn] at hnext
        cases hnext
        cases hturned with
        | more settled short =>
          exact ⟨Nat.zero_le _, fun h => absurd rfl h, fun _ => ⟨settled, by simpa using short⟩⟩
      | event count event decoder =>
        rw [next_event hturn] at hnext
        cases hnext
        suffices hmoves : count ≤ rest.length ∧ decoder.state ≠ .fields ∧
            (count = 0 → self.state = .fields ∧ self.left = 0) from
          ⟨hmoves.1, fun _ => hmoves.2, fun h => (by cases h)⟩
        cases hturned with
        | rowBegin state within => exact ⟨within, fun h => (by cases h), fun h => (by cases h)⟩
        | message message state length within =>
          exact ⟨within, fun h => (by cases state.symm.trans h), fun h => by omega⟩
        | null state columns left within =>
          exact ⟨within, fun h => (by cases state.symm.trans h), fun h => (by cases h)⟩
        | whole len state columns left within =>
          exact ⟨within, fun h => (by cases state.symm.trans h), fun h => by omega⟩
        | long len state columns left within =>
          exact ⟨within, fun h => (by cases h), fun h => (by cases h)⟩
        | part state left within =>
          exact ⟨Nat.min_le_left _ _, fun h => (by cases state.symm.trans h), fun h => by omega⟩
        | diagnosed state left => exact ⟨Nat.zero_le _, fun h => (by cases h), fun _ => ⟨state, left⟩⟩
      | on count decoder =>
        rw [next_on hturn] at hnext
        obtain ⟨hcount, hrank⟩ := hturned.on
        cases hlater : decoder.next (rest.drop count) with
        | error e =>
          rw [hlater] at hnext
          cases hnext
        | ok later =>
          rw [hlater] at hnext
          cases hnext
          obtain ⟨hwithin, hmoves, hsettled⟩ := ih count decoder hturn later hlater
          rw [List.length_drop] at hwithin hsettled
          refine ⟨?_, fun hevent => ⟨(hmoves hevent).1, fun hzero => ?_⟩, fun hnone => ?_⟩
          · show count + later.consumed ≤ rest.length
            omega
          · -- a turn that goes on without consuming leads to a header or a row
            have hzero : count + later.consumed = 0 := hzero
            have hfields := ((hmoves hevent).2 (by omega)).1
            have hless := hrank (by omega)
            rw [hfields] at hless
            cases hturned with
            | feed => omega
            | diagnosis => omega
            | rowEnd => cases hfields
            | valueEnd => cases hfields
            | noticed => cases hfields
          · refine ⟨(hsettled hnone).1, ?_⟩
            have := (hsettled hnone).2
            show rest.length < count + later.consumed + receiveBufferBytes
            omega

/-- A settled decoder that wants more, and has consumed nothing, is as it was. -/
theorem settled_next (h : self.Settled) {decoded : Decoded} (hnext : self.next rest = .ok decoded)
    (hzero : decoded.consumed = 0) : decoded = ⟨self, 0, none⟩ := by
  have hturned := self.turn_turned rest
  cases hturn : self.turn rest with
  | error e =>
    rw [next_error hturn] at hnext
    cases hnext
  | ok answer =>
    rw [hturn] at hturned
    cases answer with
    | more =>
      rw [next_more hturn] at hnext
      exact (Except.ok.inj hnext).symm
    | event count event decoder =>
      have hanswers := next_answers self rest _ (next_event hturn)
      rw [next_event hturn] at hnext
      cases hnext
      obtain ⟨hfields, hleft⟩ := (hanswers.moves (fun h => (by cases h))).2 hzero
      exact absurd hleft (h.fields hfields)
    | on count decoder =>
      have hcount : count = 0 := by
        rw [next_on hturn] at hnext
        cases hlater : decoder.next (rest.drop count) with
        | error e =>
          rw [hlater] at hnext
          cases hnext
        | ok later =>
          rw [hlater] at hnext
          cases hnext
          exact Nat.eq_zero_of_add_eq_zero_right hzero
      cases hturned with
      | diagnosis => cases hcount
      | feed => omega
      | rowEnd state columns => exact absurd columns (h.row state)
      | valueEnd state left => exact absurd left (h.value state)
      | noticed state left => exact absurd left (h.fields state)

theorem next_violation (self : Decoder) (rest : List UInt8) :
    ∀ e, self.next rest = .error e → e = .error .protocolViolation := by
  induction self, rest using turn_induction with
  | turn self rest ih =>
    intro e hnext
    have hturned := self.turn_turned rest
    cases hturn : self.turn rest with
    | error e' =>
      rw [next_error hturn] at hnext
      cases hnext
      rw [hturn] at hturned
      cases hturned
      rfl
    | ok answer =>
      cases answer with
      | more =>
        rw [next_more hturn] at hnext
        cases hnext
      | event count event decoder =>
        rw [next_event hturn] at hnext
        cases hnext
      | on count decoder =>
        rw [next_on hturn] at hnext
        cases hlater : decoder.next (rest.drop count) with
        | error e' =>
          rw [hlater] at hnext
          cases hnext
          exact ih count decoder hturn _ hlater
        | ok later =>
          rw [hlater] at hnext
          cases hnext

end Decoder

/-! ## The driver -/

/-- An answer as the driver takes it: an event is behind the bytes it consumed,
and a decoder that wants more has them kept for it. -/
def Decoded.answer (self : Decoded) (held : List UInt8) :
    Answer Decoder Event (Fault DecodeError) :=
  if 0 < self.consumed ∧ self.consumed ≤ held.length then
    .emit self.consumed self.event.toList self.decoder
  else .wait self.decoder

/-- The driver's decoder. -/
def decoding : Incremental Decoder UInt8 Event (Fault DecodeError) where
  next self held :=
    match self.next held with
    | .error e => .fail e
    | .ok decoded => decoded.answer held
  progress {self held used out decoder} h := by
    split at h
    · cases h
    · rw [Decoded.answer] at h
      split at h
      · cases h
        assumption
      · cases h

/-- An event, with a part of a value byte by byte. -/
inductive Item
  | event (event : Event)
  | byte (byte : UInt8)
  deriving DecidableEq, Repr

def Event.items : Event → List Item
  | .valuePart bytes => bytes.map .byte
  | event => [.event event]

/-- The decoder and a reader of its events that does not see how values are divided. -/
def itemized : Incremental (Decoder × Unit) UInt8 Item (Fault DecodeError) :=
  decoding.through fun _ event => (event.items, ())

/-- A decoder the driver asks. -/
def Decoder.Ready (self : Decoder) : Prop := self.state = .fields → self.left ≠ 0

variable {self : Decoder} {held : List UInt8}

theorem itemized_fail {e : Fault DecodeError} (h : self.next held = .error e) :
    itemized.next (self, ()) held = .fail e := by
  simp only [itemized, Incremental.through, decoding, h, Incremental.seen]

theorem itemized_ok {decoded : Decoded} (h : self.next held = .ok decoded) :
    itemized.next (self, ()) held =
      if 0 < decoded.consumed then
        .emit decoded.consumed (decoded.event.toList.flatMap Event.items) (decoded.decoder, ())
      else .wait (decoded.decoder, ()) := by
  have hwithin := (self.next_answers held decoded h).within
  simp only [itemized, Incremental.through, decoding, h, Decoded.answer, hwithin, and_true]
  split
  · simp only [Incremental.seen, Incremental.gather_unit]
  · rfl

theorem itemized_emit {decoded : Decoded} (h : self.next held = .ok decoded)
    (hpos : 0 < decoded.consumed) : itemized.next (self, ()) held =
      .emit decoded.consumed (decoded.event.toList.flatMap Event.items) (decoded.decoder, ()) := by
  rw [itemized_ok h, if_pos hpos]

/-- **Every answer is lawful.** -/
theorem itemized_lawful (hready : self.Ready) (held : List UInt8) :
    itemized.Lawful (fun s _ => s.1.Ready) (self, ()) held := by
  have hevent : ∀ decoded, self.next held = .ok decoded → decoded.event ≠ none →
      0 < decoded.consumed ∧ decoded.decoder.Ready := by
    intro decoded hnext hsome
    obtain ⟨hstate, hzero⟩ := (self.next_answers held decoded hnext).moves hsome
    refine ⟨Nat.pos_of_ne_zero fun h => ?_, fun h => absurd h hstate⟩
    exact hready (hzero h).1 (hzero h).2
  cases self.grows held with
  | fail same => exact .fail fun more => itemized_fail (same more)
  | event decoded event here same =>
    have hnext := same []
    rw [List.append_nil] at hnext
    obtain ⟨hpos, hlater⟩ := hevent decoded hnext (by rw [here]; exact Option.some_ne_none _)
    exact .emit hlater fun more => itemized_emit (same more) hpos
  | paused decoder used settled within here more =>
    by_cases hused : used = 0
    · subst hused
      have hwait : itemized.next (self, ()) held = .wait (decoder, ()) := by
        rw [itemized_ok here]
        rfl
      refine .wait hwait settled.fields fun more' => ?_
      have hmore := more more'
      rw [List.drop_zero] at hmore
      cases hnext : decoder.next (held ++ more') with
      | error e =>
        rw [hnext] at hmore
        rw [itemized_fail hnext, itemized_fail hmore]
      | ok decoded =>
        rw [hnext] at hmore
        rw [itemized_ok hnext, itemized_ok hmore]
        simp only [Decoded.behind, Nat.zero_add]
    · have hpos : 0 < used := Nat.pos_of_ne_zero hused
      refine .pause (itemized_emit here hpos) settled.fields fun more' _ => ?_
      have hmore := more more'
      cases hnext : decoder.next (held.drop used ++ more') with
      | error e =>
        rw [hnext] at hmore
        exact .inr (.inl ⟨e, itemized_fail hnext, itemized_fail hmore⟩)
      | ok decoded =>
        rw [hnext] at hmore
        by_cases hzero : decoded.consumed = 0
        · rw [Decoder.settled_next settled hnext hzero] at hmore
          exact .inr (.inr (itemized_emit hmore hpos))
        · refine .inl ⟨_, _, _, itemized_emit hnext (Nat.pos_of_ne_zero hzero), ?_⟩
          exact itemized_emit hmore (Nat.add_pos_left hpos _)
  | part decoder bytes started here more state =>
    have hpos : 0 < held.length := List.length_pos_of_ne_nil started
    refine .greedy (itemized_emit here hpos) ?_ fun more' hmore => ?_
    · exact fun h => (by cases state.symm.trans h)
    · obtain ⟨count, later, bytes', hcount, -, hnext, hboth⟩ := more more' hmore
      refine ⟨count, _, _, itemized_emit hnext hcount, ?_⟩
      rw [itemized_emit hboth (Nat.add_pos_left hpos _)]
      simp [Event.items]

theorem itemized_splittable : itemized.Splittable fun s _ => s.1.Ready where
  grow h _ := h
  lawful h := itemized_lawful h _

/-- A decoder before its first byte waits. -/
theorem start_wait : itemized.next (({} : Decoder), ()) [] = .wait (({} : Decoder), ()) := by
  have hturn : ({} : Decoder).turn [] = .ok .more := rfl
  rw [itemized_ok (Decoder.next_more hturn)]
  rfl

end Rui.Postgres
