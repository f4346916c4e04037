import Rui.Postgres.DecoderLaws

/-!
# How events lie over the stream

What the decoder has consumed is a sequence of messages, and its events are
theirs in order: a row is followed by its columns, which fill its message, and
the parts of a column have its length. Inside a message the counters say what
of it is still to come.
-/

namespace Rui.Postgres

open Library

/-! ## Messages and their events -/

/-- A message: its type, its length word, and what that word counts. -/
structure Frame (bytes : List UInt8) : Prop where
  opened : 5 ≤ bytes.length
  length : bytes.length = 1 + lengthOf bytes

/-- The events of a column, and its bytes in the message. -/
inductive Column : List Event → Nat → Prop
  | null : Column [.value none] 4
  | whole (bytes : List UInt8) : Column [.value (some bytes)] (4 + bytes.length)
  | parts (parts : List (List UInt8)) (len : Nat) (sum : (parts.map List.length).sum = len) :
    Column (.valueBegin len :: parts.map .valuePart) (4 + len)

inductive Columns : Nat → List Event → Nat → Prop
  | none : Columns 0 [] 0
  | snoc {n size size' : Nat} {columns column : List Event} (before : Columns n columns size)
    (last : Column column size') : Columns (n + 1) (columns ++ column) (size + size')

/-- The number of columns in a row's message. -/
def announced (frame : List UInt8) : Nat := readInt ((frame.drop 5).take 2)

/-- An event that is a message of its own. -/
def Event.Whole : Event → Prop
  | .message m => m.Readable
  | .errorResponse _ => True
  | _ => False

/-- Messages, and their events in order. -/
inductive Messages : List Event → List UInt8 → Prop
  | none : Messages [] []
  | row {events columns : List Event} {bytes frame : List UInt8} (before : Messages events bytes)
    (framed : Frame frame)
    (filled : ∃ size, Columns (announced frame) columns size ∧ frame.length = 7 + size) :
    Messages (events ++ .row (announced frame) :: columns) (bytes ++ frame)
  | single {events : List Event} {bytes frame : List UInt8} {event : Event}
    (before : Messages events bytes) (framed : Frame frame) (whole : event.Whole) :
    Messages (events ++ [event]) (bytes ++ frame)
  | notice {events : List Event} {bytes frame : List UInt8} (before : Messages events bytes)
    (framed : Frame frame) : Messages events (bytes ++ frame)

/-- What was read of a row's message: as many columns as have come, and no more
bytes than theirs. -/
structure Opened (frame : List UInt8) (columns : List Event) (done size left : Nat) : Prop where
  columns : Columns done columns size
  length : frame.length = 7 + size
  total : frame.length + left = 1 + lengthOf frame

/-- Where a decoder stands in the stream, after these events and bytes. -/
inductive Decoder.Reading (decoder : Decoder) : List Event → List UInt8 → Prop
  | header {events : List Event} {bytes : List UInt8} (state : decoder.state = .header)
    (messages : Messages events bytes) : Reading decoder events bytes
  | row {events columns : List Event} {bytes frame : List UInt8} {done size : Nat}
    (state : decoder.state = .row) (messages : Messages events bytes)
    (opened : Opened frame columns done size decoder.left)
    (due : done + decoder.columnsLeft = announced frame) :
    Reading decoder (events ++ .row (announced frame) :: columns) (bytes ++ frame)
  | value {events columns : List Event} {bytes frame part : List UInt8} {done size len : Nat}
    {parts : List (List UInt8)} (state : decoder.state = .value) (messages : Messages events bytes)
    (opened : Opened frame columns done size (4 + len + decoder.left))
    (due : done + 1 + decoder.columnsLeft = announced frame)
    (sum : (parts.map List.length).sum + decoder.valueLeft = len)
    (length : part.length + decoder.valueLeft = 4 + len) :
    Reading decoder
      (events ++ .row (announced frame) :: (columns ++ .valueBegin len :: parts.map .valuePart))
      (bytes ++ (frame ++ part))
  | fields {events : List Event} {bytes frame : List UInt8} (state : decoder.state = .fields)
    (messages : Messages events bytes) (opened : 5 ≤ frame.length)
    (total : frame.length + decoder.left = 1 + lengthOf frame) :
    Reading decoder events (bytes ++ frame)

variable {rest frame : List UInt8} {decoder : Decoder} {decoded : Decoded}

theorem lengthOf_take {count : Nat} (h : 5 ≤ count) (hrest : 5 ≤ rest.length) :
    lengthOf (rest.take count) = lengthOf rest := by
  have hlong : 5 ≤ (rest.take count).length := by
    rw [List.length_take]
    omega
  have happend := lengthOf_append hlong (rest.drop count)
  rw [List.take_append_drop] at happend
  exact happend.symm

theorem announced_append (h : 7 ≤ frame.length) (more : List UInt8) :
    announced (frame ++ more) = announced frame := by
  rw [announced, announced, drop_take_append h]

theorem Opened.snoc {columns events : List Event} {done size total left : Nat}
    (h : Opened frame columns done size total) (column : List UInt8)
    (hcolumn : Column events column.length) (htotal : column.length + left = total) :
    Opened (frame ++ column) (columns ++ events) (done + 1) (size + column.length) left := by
  have hlength := h.length
  refine ⟨h.columns.snoc hcolumn, ?_, ?_⟩
  · rw [List.length_append]
    omega
  · rw [List.length_append, lengthOf_append (by omega)]
    have := h.total
    omega

namespace Decoder

variable {self decoder : Decoder} {rest bytes : List UInt8} {events : List Event}

theorem Reading.of_header (h : self.Reading events bytes) (hstate : self.state = .header) :
    Messages events bytes := by
  cases h with
  | header _ messages => exact messages
  | row state => cases hstate.symm.trans state
  | value state => cases hstate.symm.trans state
  | fields state => cases hstate.symm.trans state

/-- What a turn leaves, behind the bytes it consumed. -/
def Follows (events : List Event) (bytes rest : List UInt8) : Turn → Prop
  | .more => True
  | .on count decoder => decoder.Reading events (bytes ++ rest.take count)
  | .event count event decoder => decoder.Reading (events ++ [event]) (bytes ++ rest.take count)

theorem Reading.column (h : self.Reading events bytes) (hstate : self.state = .row)
    {count left columnsLeft : Nat} {event : Event} (hcount : count ≤ rest.length)
    (hcolumn : Column [event] count) (hleft : count + left = self.left)
    (hcolumns : columnsLeft + 1 = self.columnsLeft) :
    Follows events bytes rest (.event count event { self with left, columnsLeft }) := by
  have hlength : (rest.take count).length = count := List.length_take_of_le hcount
  cases h with
  | @row events columns bytes frame done size _ messages opened due =>
    have hseven : 7 ≤ frame.length := by rw [opened.length]; omega
    have hopened := opened.snoc (rest.take count) (by rw [hlength]; exact hcolumn)
      (by rw [hlength]; exact hleft)
    have hreading : Decoder.Reading { self with left, columnsLeft } _ _ :=
      .row hstate messages hopened (by
        rw [announced_append hseven]
        show done + 1 + columnsLeft = _
        omega)
    rw [announced_append hseven] at hreading
    simpa [Follows] using hreading
  | header state => cases hstate.symm.trans state
  | value state => cases hstate.symm.trans state
  | fields state => cases hstate.symm.trans state

/-- **One turn** leaves the decoder where it stands in the stream. -/
theorem Reading.turn (h : self.Reading events bytes) {answer : Turn}
    (hturned : self.Turned rest (.ok answer)) : Follows events bytes rest answer := by
  cases hturned with
  | more => trivial
  | rowBegin state within length =>
    have hframe : (rest.take 7).length = 7 := List.length_take_of_le within
    have hopened : Opened (rest.take 7) [] 0 0 (lengthOf rest - 4 - 2) := by
      refine ⟨.none, hframe, ?_⟩
      rw [hframe, lengthOf_take (by omega) (by omega)]
      omega
    have hannounced : announced (rest.take 7) = readInt ((rest.drop 5).take 2) := by
      have happend : announced (rest.take 7 ++ rest.drop 7) = announced (rest.take 7) :=
        announced_append (by omega) _
      rw [List.take_append_drop] at happend
      exact happend.symm
    have hreading : Decoder.Reading { self with
        state := .row
        left := lengthOf rest - 4 - 2
        columnsLeft := readInt ((rest.drop 5).take 2) } _ _ :=
      .row rfl (h.of_header state) hopened (by rw [hannounced, Nat.zero_add])
    rwa [hannounced] at hreading
  | diagnosis fields state within length _ =>
    refine .fields rfl (h.of_header state) ?_ ?_
    · rw [List.length_take_of_le within]
    · rw [List.length_take_of_le within, lengthOf_take (Nat.le_refl 5) within]
      show 5 + (lengthOf rest - 4) = _
      omega
  | message message state length within readable =>
    refine .header state (.single (h.of_header state) ⟨?_, ?_⟩ readable)
    · rw [List.length_take_of_le within]
      omega
    · rw [List.length_take_of_le within, lengthOf_take (by omega) (by omega)]
      omega
  | rowEnd state columns left =>
    cases h with
    | @row events columns' bytes frame done size _ messages opened due =>
      have htotal := opened.total
      have hlength := opened.length
      refine .header rfl ?_
      rw [List.take_zero, List.append_nil]
      refine .row messages ⟨by omega, by omega⟩ ⟨size, ?_, hlength⟩
      rw [← due, columns]
      exact opened.columns
    | header state' => cases state.symm.trans state'
    | value state' => cases state.symm.trans state'
    | fields state' => cases state.symm.trans state'
  | null state columns left within =>
    exact h.column state within .null (by omega) (by omega)
  | whole len state columns left within =>
    have hlength : ((rest.drop 4).take len).length = len := by
      rw [List.length_take, List.length_drop]
      omega
    refine h.column state within ?_ (by omega) (by omega)
    have hcolumn := Column.whole ((rest.drop 4).take len)
    rwa [hlength] at hcolumn
  | long len state columns left within =>
    cases h with
    | @row events columns' bytes frame done size _ messages opened due =>
      have hleft : self.left = 4 + len + (self.left - (4 + len)) := by omega
      rw [hleft] at opened
      have hreading : Decoder.Reading { self with
          state := .value
          left := self.left - (4 + len)
          columnsLeft := self.columnsLeft - 1
          valueLeft := len }
          (events ++ .row (announced frame) ::
            (columns' ++ .valueBegin len :: ([] : List (List UInt8)).map .valuePart))
          (bytes ++ (frame ++ rest.take 4)) := by
        refine .value rfl messages opened ?_ (Nat.zero_add len) ?_
        · show done + 1 + (self.columnsLeft - 1) = _
          omega
        · rw [List.length_take_of_le within]
      simpa [Follows] using hreading
    | header state' => cases state.symm.trans state'
    | value state' => cases state.symm.trans state'
    | fields state' => cases state.symm.trans state'
  | valueEnd state left =>
    cases h with
    | @value events columns bytes frame part done size len parts _ messages opened due sum length =>
      have hseven : 7 ≤ frame.length := by rw [opened.length]; omega
      have hpart : part.length = 4 + len := by omega
      have hcolumn : Column (.valueBegin len :: parts.map .valuePart) part.length := by
        rw [hpart]
        exact .parts parts len (by omega)
      have hopened := opened.snoc part hcolumn (show part.length + self.left = _ by rw [hpart])
      have hreading : Decoder.Reading { self with state := .row } _ _ :=
        .row rfl messages hopened (by rw [announced_append hseven]; exact due)
      rw [announced_append hseven] at hreading
      simpa [Follows] using hreading
    | header state' => cases state.symm.trans state'
    | row state' => cases state.symm.trans state'
    | fields state' => cases state.symm.trans state'
  | part state left within =>
    cases h with
    | @value events columns bytes frame part done size len parts _ messages opened due sum length =>
      generalize hcount : min rest.length self.valueLeft = count
      have htake : (rest.take count).length = count := List.length_take_of_le (by omega)
      have hreading : Decoder.Reading { self with valueLeft := self.valueLeft - count }
          (events ++ .row (announced frame) ::
            (columns ++ .valueBegin len :: (parts ++ [rest.take count]).map .valuePart))
          (bytes ++ (frame ++ (part ++ rest.take count))) := by
        refine .value state messages opened due ?_ ?_
        · rw [List.map_append, List.sum_append]
          simp only [List.map_cons, List.map_nil, List.sum_singleton, htake]
          omega
        · rw [List.length_append, htake]
          show part.length + count + (self.valueLeft - count) = _
          omega
      simpa [Follows] using hreading
    | header state' => cases state.symm.trans state'
    | row state' => cases state.symm.trans state'
    | fields state' => cases state.symm.trans state'
  | noticed state left =>
    cases h with
    | fields _ messages opened total =>
      refine .header rfl ?_
      rw [List.take_zero, List.append_nil]
      exact .notice messages ⟨opened, by omega⟩
    | header state' => cases state.symm.trans state'
    | row state' => cases state.symm.trans state'
    | value state' => cases state.symm.trans state'
  | diagnosed state left =>
    cases h with
    | fields _ messages opened total =>
      refine .header rfl ?_
      rw [List.take_zero, List.append_nil]
      exact .single messages ⟨opened, by omega⟩ trivial
    | header state' => cases state.symm.trans state'
    | row state' => cases state.symm.trans state'
    | value state' => cases state.symm.trans state'
  | feed fields state left within =>
    cases h with
    | @fields events bytes frame _ messages opened total =>
      have htake : (rest.take (min rest.length self.left)).length = min rest.length self.left :=
        List.length_take_of_le (Nat.min_le_left _ _)
      have hreading : Decoder.Reading { self with
          fields, left := self.left - min rest.length self.left } events
          (bytes ++ (frame ++ rest.take (min rest.length self.left))) := by
        refine .fields state messages ?_ ?_
        · rw [List.length_append]
          omega
        · rw [List.length_append, lengthOf_append opened, htake]
          show _ + (self.left - _) = _
          omega
      rw [← List.append_assoc] at hreading
      exact hreading
    | header state' => cases state.symm.trans state'
    | row state' => cases state.symm.trans state'
    | value state' => cases state.symm.trans state'

/-- **An answer** leaves the decoder where it stands, by the loop's induction. -/
theorem Reading.next (self : Decoder) (rest : List UInt8) :
    ∀ events bytes decoded, self.Reading events bytes → self.next rest = .ok decoded →
      decoded.decoder.Reading (events ++ decoded.event.toList)
        (bytes ++ rest.take decoded.consumed) := by
  induction self, rest using turn_induction with
  | turn self rest ih =>
    intro events bytes decoded h hnext
    have hturned := self.turn_turned rest
    cases hturn : self.turn rest with
    | error e =>
      rw [next_error hturn] at hnext
      cases hnext
    | ok answer =>
      rw [hturn] at hturned
      have hfollows := h.turn hturned
      cases answer with
      | more =>
        rw [next_more hturn] at hnext
        cases hnext
        simpa using h
      | event count event decoder =>
        rw [next_event hturn] at hnext
        cases hnext
        exact hfollows
      | on count decoder =>
        rw [next_on hturn] at hnext
        cases hlater : decoder.next (rest.drop count) with
        | error e =>
          rw [hlater] at hnext
          cases hnext
        | ok later =>
          rw [hlater] at hnext
          cases hnext
          have hreading := ih count decoder hturn _ _ later hfollows hlater
          rw [List.append_assoc, ← List.take_add] at hreading
          exact hreading

end Decoder

/-! ## Every stream -/

theorem Decoder.Ready.moves (h : decoder.Ready) (hnext : decoder.next rest = .ok decoded)
    (hevent : decoded.event ≠ none) : 0 < decoded.consumed ∧ decoded.decoder.Ready := by
  obtain ⟨hstate, hzero⟩ := (decoder.next_answers rest decoded hnext).moves hevent
  refine ⟨Nat.pos_of_ne_zero fun hconsumed => ?_, fun hfields => absurd hfields hstate⟩
  exact h (hzero hconsumed).1 (hzero hconsumed).2

theorem next_ready (h : decoder.Ready) (hnext : decoder.next rest = .ok decoded) :
    decoded.decoder.Ready := by
  by_cases hevent : decoded.event = none
  · exact ((decoder.next_answers rest decoded hnext).settled hevent).1.fields
  · exact (h.moves hnext hevent).2

theorem decoding_keeps (s : Decoder) (held : List UInt8) (events : List Event) (used : List UInt8)
    (h : s.Reading events used ∧ s.Ready) :
    (∀ s', decoding.next s held = .wait s' →
      (s'.Reading events used ∧ s'.Ready) ∧ held.length < receiveBufferBytes) ∧
    ∀ count out s', decoding.next s held = .emit count out s' →
      s'.Reading (events ++ out) (used ++ held.take count) ∧ s'.Ready := by
  cases hnext : s.next held with
  | error e => simp [decoding, hnext]
  | ok decoded =>
    have hanswers := s.next_answers held decoded hnext
    have hreading := Decoder.Reading.next s held events used decoded h.1 hnext
    have hready := next_ready h.2 hnext
    simp only [decoding, hnext, Decoded.answer]
    by_cases hpos : 0 < decoded.consumed
    · rw [if_pos ⟨hpos, hanswers.within⟩]
      refine ⟨fun s' hwait => (by cases hwait), fun count out s' hemit => ?_⟩
      cases hemit
      exact ⟨hreading, hready⟩
    · rw [if_neg fun h => hpos h.1]
      have hzero : decoded.consumed = 0 := Nat.eq_zero_of_not_pos hpos
      have hnone : decoded.event = none := by
        by_contra hevent
        exact hpos (h.2.moves hnext hevent).1
      refine ⟨fun s' hwait => ?_, fun count out s' hemit => (by cases hemit)⟩
      cases hwait
      rw [hzero, hnone] at hreading
      have hshort := (hanswers.settled hnone).2
      refine ⟨⟨by simpa using hreading, hready⟩, by omega⟩

/-- **The decoder.** However the server's bytes are divided into reads: the
events are those of the whole stream, but for the parts of long values, and so
is the end; they lie over the stream message by message, up to where the
decoder stands; what it keeps never fills the inbox; an event always moves on;
and nothing but a violation of the protocol ends it. -/
theorem decoder_reads (reads : List (List UInt8)) :
    ((decoding.readAll {} reads).1.flatMap Event.items =
        (decoding.drain {} reads.flatten).1.flatMap Event.items ∧
      (decoding.readAll {} reads).2 = (decoding.drain {} reads.flatten).2) ∧
    (∃ decoder used, decoder.Reading (decoding.readAll {} reads).1 used ∧
      used <+: reads.flatten ∧
      (∀ later held, (decoding.readAll {} reads).2 = .waiting later held →
        later = decoder ∧ used ++ held = reads.flatten ∧ held.length < receiveBufferBytes) ∧
      ∀ rest decoded, decoder.next rest = .ok decoded → decoded.consumed ≤ rest.length ∧
        (decoded.event ≠ none → 0 < decoded.consumed)) ∧
    ∀ e, (decoding.readAll {} reads).2 = .failed e → e = .error .protocolViolation := by
  have hready : ({} : Decoder).Ready := fun h => (by cases h)
  refine ⟨?_, ?_, fun e hfailed => ?_⟩
  · have hreads := itemized_splittable.readAll_flatten hready start_wait reads
    simp only [itemized, Incremental.readAll_through, Incremental.drain_through,
      Incremental.gather_unit] at hreads
    obtain ⟨hitems, hstanding⟩ := Prod.mk.inj hreads
    exact ⟨hitems, Standing.beside_inj hstanding⟩
  · obtain ⟨decoder, used, hkept, hprefix, hrest⟩ := Incremental.readAll_keeps
      (m := decoding) (P := fun s events used => s.Reading events used ∧ s.Ready)
      (W := fun held => held.length < receiveBufferBytes)
      (fun s held s' out input h hwait => (decoding_keeps s held out input h).1 s' hwait)
      (fun s held used out' s' out input h hemit =>
        (decoding_keeps s held out input h).2 used out' s' hemit)
      ⟨.header rfl .none, hready⟩ (by show 0 < receiveBufferBytes; decide) reads
    refine ⟨decoder, used, hkept.1, hprefix, hrest, fun rest decoded hnext => ?_⟩
    exact ⟨(decoder.next_answers rest decoded hnext).within, fun h => (hkept.2.moves hnext h).1⟩
  · obtain ⟨s, held, hfail⟩ := Incremental.readAll_failed hfailed
    cases hnext : s.next held with
    | error e' =>
      simp only [decoding, hnext] at hfail
      cases hfail
      exact s.next_violation held e hnext
    | ok decoded =>
      simp only [decoding, hnext, Decoded.answer] at hfail
      split at hfail <;> cases hfail

end Rui.Postgres
