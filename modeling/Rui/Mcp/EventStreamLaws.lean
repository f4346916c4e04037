import Rui.Mcp.EventStream

/-!
# The reader dispatches what the standard dispatches

What the reader keeps in the middle of a line is computed from the line begun
and the data buffer of the standard. Each byte takes that account of the bytes
before it to the account of the bytes with it, so a body read in any pieces
dispatches the events of its lines. What differs is a body that starts with
part of a byte order mark: the reader drops that part.
-/

namespace Rui.Mcp

open Library Library.ServerSentEvents EventStream

/-! ## Pieces -/

/-- A byte given to the reader, the writer emptied when it dispatches. -/
def feedByte (now : Collecting) (byte : UInt8) : Except Error Collecting := do
  let (stream, data, dispatched) ← now.stream.readMark now.data byte
  if dispatched then
    .ok ⟨stream, .fixed data.capacity, now.events ++ [data.buffered]⟩
  else .ok ⟨stream, data, now.events⟩

theorem feed_next (stream : EventStream) (data : Writer) (evs : List (List UInt8))
    (input : List UInt8) :
    input.foldlM feedByte ⟨stream, data, evs⟩ = (do
      let (stream', data', step) ← stream.next data input
      if step.dispatched then
        (input.drop step.used).foldlM feedByte
          ⟨stream', .fixed data'.capacity, evs ++ [data'.buffered]⟩
      else .ok ⟨stream', data', evs⟩) := by
  induction input generalizing stream data with
  | nil => rfl
  | cons byte rest ih =>
    rw [List.foldlM_cons, next, feedByte]
    cases stream.readMark data byte with
    | error e => rfl
    | ok result =>
      obtain ⟨stream₁, data₁, dispatched⟩ := result
      cases dispatched with
      | true => rfl
      | false =>
        simp only [ok_bind, Bool.false_eq_true, if_false]
        rw [ih]
        cases stream₁.next data₁ rest with
        | error e => rfl
        | ok result => rfl

theorem collectRead_eq (now : Collecting) (rest : List UInt8) :
    collectRead now rest = rest.foldlM feedByte now := by
  induction hn : rest.length using Nat.strongRecOn generalizing now rest with
  | ind n ih =>
    rw [collectRead, feed_next]
    split
    · rename_i e h
      rw [h]
      rfl
    · rename_i stream data step h
      rw [h, ok_bind]
      have hused := next_used h
      by_cases hd : step.dispatched = true
      · have := hused.1 hd
        simp only [hd, if_true, dif_pos]
        exact ih _ (by rw [List.length_drop]; omega) _ _ rfl
      · simp only [hd, Bool.false_eq_true, if_false, dif_neg, not_false_eq_true]

/-- **A body is its bytes, however they come.** -/
theorem collect_eq (capacity : Nat) (reads : List (List UInt8)) :
    collect capacity reads = (do
      let now ← reads.flatten.foldlM feedByte ⟨{}, .fixed capacity, []⟩
      .ok now.events) := by
  have hgo : ∀ now : Collecting,
      reads.foldlM collectRead now = reads.flatten.foldlM feedByte now := by
    induction reads with
    | nil => exact fun _ => rfl
    | cons read reads ih =>
      intro now
      rw [List.foldlM_cons, List.flatten_cons, List.foldlM_append, collectRead_eq]
      exact congrArg _ (funext ih)
  rw [collect, hgo]

/-! ## The account of a line begun -/

/-- What the reader keeps, and what it has written, after the bytes of `line` behind a data
buffer. -/
inductive Place (buffer : List UInt8) (stream : EventStream) : List UInt8 → List UInt8 → Prop
  | lineStart (state : stream.state = .lineStart) (has : stream.hasData = !buffer.isEmpty) :
    Place buffer stream [] (dispatched buffer)
  | name {line : List UInt8} (state : stream.state = .name)
    (has : stream.hasData = !buffer.isEmpty) (nonempty : line ≠ []) (colon : ascii ':' ∉ line)
    (length : stream.nameLen = min 255 line.length)
    (kept : stream.name.take line.length = line.take 5) :
    Place buffer stream line (dispatched buffer)
  | valueStart (state : stream.state = .valueStart) (has : stream.hasData = true)
    (isData : stream.dataField = true) :
    Place buffer stream (text "data:") buffer
  | value {rest : List UInt8} (state : stream.state = .value) (has : stream.hasData = true)
    (isData : stream.dataField = true) (nonempty : rest ≠ []) :
    Place buffer stream (text "data:" ++ rest) (buffer ++ withoutSpace rest)
  | skip {line : List UInt8} (state : stream.state = .skip)
    (has : stream.hasData = !buffer.isEmpty)
    (other : line.head? = some (ascii ':') ∨
      ascii ':' ∈ line ∧ (fieldOf line).1 ≠ text "data") :
    Place buffer stream line (dispatched buffer)

/-- The account of a reader past the byte order mark. -/
structure Reading (buffer line : List UInt8) (stream : EventStream) (written : List UInt8) :
    Prop where
  past : stream.bomRead = 3
  room : stream.name.length = 5
  closed : Closed buffer
  place : Place buffer stream line written

variable {stream : EventStream} {line buffer written : List UInt8} {capacity : Nat}

/-- A name of four bytes is all kept. -/
theorem isData_iff (hlength : stream.nameLen = min 255 line.length)
    (hkept : stream.name.take line.length = line.take 5) :
    stream.isData = true ↔ line = text "data" := by
  simp only [isData, Bool.and_eq_true, beq_iff_eq]
  constructor
  · intro h
    have hfour : line.length = 4 := by omega
    rw [hfour, h.2] at hkept
    rw [hkept, List.take_of_length_le (by omega)]
  · rintro rfl
    exact ⟨hlength, hkept⟩

/-- Another byte of a name is kept where the first five are. -/
theorem addName_kept (hroom : stream.name.length = 5)
    (hlength : stream.nameLen = min 255 line.length)
    (hkept : stream.name.take line.length = line.take 5) (byte : UInt8) :
    (stream.addName byte).name.take (line ++ [byte]).length = (line ++ [byte]).take 5 := by
  rw [addName, List.length_append, List.length_singleton]
  by_cases hshort : line.length < 5
  · have hlen : stream.nameLen = line.length := by omega
    have hset : (stream.name.set line.length byte).take (line.length + 1) =
        stream.name.take line.length ++ [byte] := by
      rw [List.take_add_one, List.take_set_of_le (Nat.le_refl _), List.getElem?_set_self (by omega)]
      rfl
    simp only [hlen, if_pos hshort, hset, hkept]
    rw [List.take_of_length_le (by omega), List.take_of_length_le (by simp; omega)]
  · have hlen : ¬stream.nameLen < 5 := by omega
    simp only [if_neg hlen]
    rw [List.take_of_length_le (by omega), List.take_append_of_le_length (by omega), ← hkept,
      List.take_of_length_le (by omega)]

/-- A data field's name closes with the joining LF written. -/
theorem startValue_name (hclosed : Closed buffer) (hhas : stream.hasData = !buffer.isEmpty)
    (hlength : stream.nameLen = min 255 line.length)
    (hkept : stream.name.take line.length = line.take 5)
    (hroom : (dispatched buffer).length < capacity) :
    stream.startValue ⟨capacity, dispatched buffer⟩ =
      .ok (if line = text "data" then
          ({ stream with dataField := true, hasData := true }, ⟨capacity, buffer⟩)
        else ({ stream with dataField := false, state := .skip },
          ⟨capacity, dispatched buffer⟩)) := by
  rw [startValue]
  by_cases hdata : line = text "data"
  · rw [if_pos ((isData_iff hlength hkept).mpr hdata), if_pos hdata]
    rcases hclosed with rfl | ⟨front, rfl⟩
    · rw [if_neg (by rw [hhas]; decide)]
      rfl
    · have htrue : stream.hasData = true := by simp [hhas]
      rw [dispatched_append] at hroom ⊢
      simp only [htrue, if_true, Writer.writeByte, if_pos hroom, ok_bind]
  · rw [if_neg (fun h => hdata ((isData_iff hlength hkept).mp h)), if_neg hdata]

/-- **A byte of a line takes the account of the bytes before it to the account with it.** -/
theorem readField_reading (h : Reading buffer line stream written)
    (hroom : written.length < capacity) {byte : UInt8} :
    ∃ stream' written', stream.readField ⟨capacity, written⟩ byte =
        .ok (stream', ⟨capacity, written'⟩) ∧
      stream'.afterCr = stream.afterCr ∧ Reading buffer (line ++ [byte]) stream' written' ∧
      written'.length ≤ written.length + 1 := by
  obtain ⟨past, room, closed, place⟩ := h
  cases place with
  | lineStart state has =>
    by_cases hcolon : byte = ascii ':'
    · refine ⟨{ stream with state := .skip }, dispatched buffer, ?_, rfl, ?_, Nat.le_succ _⟩
      · simp only [readField, state, if_pos hcolon]
      · exact ⟨past, room, closed, .skip rfl has (.inl (by rw [hcolon]; rfl))⟩
    · refine ⟨addName { stream with state := .name, nameLen := 0 } byte, dispatched buffer, ?_,
        rfl, ?_, Nat.le_succ _⟩
      · simp only [readField, state, if_neg hcolon]
      · obtain ⟨first, kept, hname⟩ := List.exists_cons_of_length_pos
          (show 0 < stream.name.length by omega)
        refine ⟨past, ?_, closed, .name rfl has ?_ ?_ rfl ?_⟩
        · simp only [addName, Nat.zero_lt_succ, if_true, List.length_set, room]
        · exact List.cons_ne_nil _ _
        · simpa using Ne.symm hcolon
        · simp only [addName, Nat.zero_lt_succ, if_true, hname, List.set_cons_zero]
          rfl
  | name state has nonempty colon length kept =>
    by_cases hcolon : byte = ascii ':'
    · have hstart := startValue_name closed has length kept hroom
      subst hcolon
      by_cases hdata : line = text "data"
      · rw [if_pos hdata] at hstart
        subst hdata
        refine ⟨{ stream with dataField := true, hasData := true, state := .valueStart }, buffer,
          ?_, rfl, ⟨past, room, closed, .valueStart rfl rfl rfl⟩, ?_⟩
        · simp only [readField, state, if_true, hstart, ok_bind]
        · rcases closed with rfl | ⟨front, rfl⟩
          · exact Nat.zero_le _
          · rw [dispatched_append, List.length_append, List.length_singleton]
      · rw [if_neg hdata] at hstart
        refine ⟨{ stream with dataField := false, state := .skip }, dispatched buffer, ?_, rfl,
          ⟨past, room, closed, .skip rfl has (.inr ⟨by simp, ?_⟩)⟩, Nat.le_succ _⟩
        · simp only [readField, state, if_true, hstart, ok_bind, Bool.false_eq_true, if_false]
        · rwa [field_colon colon]
    · refine ⟨stream.addName byte, dispatched buffer, ?_, rfl, ?_, Nat.le_succ _⟩
      · simp only [readField, state, if_neg hcolon]
      · have hlen : (line ++ [byte]).length = line.length + 1 := by simp
        refine ⟨past, ?_, closed, .name state has ?_ ?_ ?_ ?_⟩
        · rw [addName]
          split
          · exact List.length_set.trans room
          · exact room
        · simp
        · simpa [colon] using Ne.symm hcolon
        · simp only [addName, hlen, length]
          omega
        · exact addName_kept room length kept byte
  | valueStart state has isData =>
    by_cases hspace : byte = ascii ' '
    · subst hspace
      refine ⟨{ stream with state := .value }, buffer, ?_, rfl, ⟨past, room, closed, ?_⟩,
        Nat.le_succ _⟩
      · simp only [readField, state, if_true]
      · have hplace : Place buffer { stream with state := .value } (text "data:" ++ [ascii ' '])
            (buffer ++ withoutSpace [ascii ' ']) :=
          .value rfl has isData (List.cons_ne_nil _ _)
        rwa [show withoutSpace [ascii ' '] = [] from rfl, List.append_nil] at hplace
    · refine ⟨{ stream with state := .value }, buffer ++ [byte], ?_, rfl,
        ⟨past, room, closed, ?_⟩, by simp⟩
      · simp only [readField, state, if_neg hspace, addValue, isData, if_true, Writer.writeByte,
          if_pos hroom, ok_bind]
      · have hplace : Place buffer { stream with state := .value } (text "data:" ++ [byte])
            (buffer ++ withoutSpace [byte]) := .value rfl has isData (List.cons_ne_nil _ _)
        rwa [withoutSpace_cons hspace] at hplace
  | value state has isData nonempty =>
    rename_i rest
    refine ⟨stream, buffer ++ withoutSpace rest ++ [byte], ?_, rfl, ⟨past, room, closed, ?_⟩,
      by rw [List.length_append, List.length_singleton]⟩
    · simp only [readField, state, addValue, isData, if_true, Writer.writeByte, if_pos hroom,
        ok_bind]
    · rw [List.append_assoc, List.append_assoc, ← withoutSpace_append nonempty]
      exact .value state has isData (by simp)
  | skip state has other =>
    refine ⟨stream, dispatched buffer, ?_, rfl, ⟨past, room, closed, .skip state has ?_⟩,
      Nat.le_succ _⟩
    · simp only [readField, state]
    · rcases other with hhead | ⟨hmem, hname⟩
      · exact .inl (by cases line with
          | nil => cases hhead
          | cons first rest => exact hhead)
      · exact .inr ⟨List.mem_append_left _ hmem, by rwa [field_name_append hmem]⟩

/-- **A line's end puts its data into the buffer.** -/
theorem endLine_reading (h : Reading buffer line stream written) (hline : line ≠ [])
    (hroom : written.length < capacity) : ∃ stream' written', stream.endLine ⟨capacity, written⟩ =
        .ok (stream', ⟨capacity, written'⟩, false) ∧
      stream'.afterCr = stream.afterCr ∧ Reading (processLine buffer line) [] stream' written' ∧
      written'.length ≤ written.length + 1 := by
  obtain ⟨past, room, closed, place⟩ := h
  have hclosed := closed.processLine line
  cases place with
  | lineStart => exact absurd rfl hline
  | name state has nonempty colon length kept =>
    have hstart := startValue_name closed has length kept hroom
    by_cases hdata : line = text "data"
    · subst hdata
      rw [if_pos rfl] at hstart
      rw [processLine_bare] at hclosed ⊢
      refine ⟨{ stream with dataField := false, hasData := true, state := .lineStart }, buffer,
        ?_, rfl, ⟨past, room, hclosed, ?_⟩, ?_⟩
      · simp only [endLine, state, hstart, ok_bind]
      · have hplace : Place (buffer ++ [ascii '\n'])
            { stream with dataField := false, hasData := true, state := .lineStart } []
            (dispatched (buffer ++ [ascii '\n'])) := .lineStart rfl (by simp)
        rwa [dispatched_append] at hplace
      · rcases closed with rfl | ⟨front, rfl⟩
        · exact Nat.zero_le _
        · rw [dispatched_append, List.length_append, List.length_singleton]
    · rw [if_neg hdata] at hstart
      have hbuffer : processLine buffer line = buffer :=
        processLine_other (by rwa [field_of_not_mem colon])
      rw [hbuffer]
      refine ⟨{ stream with dataField := false, state := .lineStart }, dispatched buffer, ?_, rfl,
        ⟨past, room, closed, .lineStart rfl has⟩, Nat.le_succ _⟩
      simp only [endLine, state, hstart, ok_bind]
  | valueStart state has isData =>
    have hbuffer : processLine buffer (text "data:") = buffer ++ [ascii '\n'] := by
      have := processLine_data buffer []
      rwa [List.append_nil, show withoutSpace [] = [] from rfl, List.append_nil] at this
    rw [hbuffer] at hclosed ⊢
    refine ⟨{ stream with dataField := false, state := .lineStart }, buffer, ?_, rfl,
      ⟨past, room, hclosed, ?_⟩, Nat.le_succ _⟩
    · simp only [endLine, state]
    · have hplace : Place (buffer ++ [ascii '\n'])
          { stream with dataField := false, state := .lineStart } []
          (dispatched (buffer ++ [ascii '\n'])) := .lineStart rfl (by simp [has])
      rwa [dispatched_append] at hplace
  | value state has isData nonempty =>
    rename_i rest
    rw [processLine_data] at hclosed ⊢
    refine ⟨{ stream with dataField := false, state := .lineStart }, buffer ++ withoutSpace rest,
      ?_, rfl, ⟨past, room, hclosed, ?_⟩, Nat.le_succ _⟩
    · simp only [endLine, state]
    · have hplace : Place (buffer ++ withoutSpace rest ++ [ascii '\n'])
          { stream with dataField := false, state := .lineStart } []
          (dispatched (buffer ++ withoutSpace rest ++ [ascii '\n'])) :=
        .lineStart rfl (by simp [has])
      rwa [dispatched_append] at hplace
  | skip state has other =>
    have hbuffer : processLine buffer line = buffer := by
      rcases other with hhead | ⟨-, hname⟩
      · exact processLine_comment hhead
      · exact processLine_other hname
    rw [hbuffer]
    refine ⟨{ stream with dataField := false, state := .lineStart }, dispatched buffer, ?_, rfl,
      ⟨past, room, closed, .lineStart rfl has⟩, Nat.le_succ _⟩
    simp only [endLine, state]

/-- A blank line dispatches what was written, where there is data. -/
theorem endLine_blank (capacity : Nat) (h : Reading buffer [] stream written) :
    written = dispatched buffer ∧ ∃ stream', stream.endLine ⟨capacity, written⟩ =
        .ok (stream', ⟨capacity, written⟩, !buffer.isEmpty) ∧
      stream'.afterCr = stream.afterCr ∧ Reading [] [] stream' [] := by
  obtain ⟨past, room, closed, place⟩ := h
  generalize hline : ([] : List UInt8) = line at place
  cases place with
  | lineStart state has =>
    refine ⟨rfl, ?_⟩
    cases hempty : buffer.isEmpty with
    | true =>
      rw [hempty, Bool.not_true] at has
      refine ⟨stream, ?_, rfl, ⟨past, room, .inl rfl, .lineStart state has⟩⟩
      simp only [endLine, state, has, Bool.not_true, Bool.false_eq_true, if_false]
    | false =>
      rw [hempty, Bool.not_false] at has
      refine ⟨{ stream with hasData := false }, ?_, rfl,
        ⟨past, room, .inl rfl, .lineStart state rfl⟩⟩
      simp only [endLine, state, has, Bool.not_false, if_true]
  | name state has nonempty => exact absurd hline.symm nonempty
  | valueStart => cases hline
  | value => cases hline
  | skip state has other =>
    subst hline
    rcases other with hhead | ⟨hmem, -⟩
    · cases hhead
    · cases hmem

/-! ## A body past the mark -/

/-- The reader keeps only state and name of the line when a CR is noted. -/
theorem Reading.withCr (h : Reading buffer line stream written) (cr : Bool) :
    Reading buffer line { stream with afterCr := cr } written := by
  obtain ⟨past, room, closed, place⟩ := h
  refine ⟨past, room, closed, ?_⟩
  cases place with
  | lineStart state has => exact .lineStart state has
  | name state has nonempty colon length kept => exact .name state has nonempty colon length kept
  | valueStart state has isData => exact .valueStart state has isData
  | value state has isData nonempty => exact .value state has isData nonempty
  | skip state has other => exact .skip state has other

theorem feedByte_past (h : stream.bomRead = 3) (data : Writer) (evs : List (List UInt8))
    (byte : UInt8) : feedByte ⟨stream, data, evs⟩ byte = (do
      let (stream, data, dispatched) ← stream.readByte data byte
      if dispatched then .ok ⟨stream, .fixed data.capacity, evs ++ [data.buffered]⟩
      else .ok ⟨stream, data, evs⟩) := by
  simp only [feedByte, readMark, h, ne_eq, not_true_eq_false, if_false]

/-- **The bytes past the mark dispatch the events of their lines.** By induction over the bytes,
each a step of the account. -/
theorem feed_reading (h : Reading buffer line stream written) (evs : List (List UInt8))
    (bytes : List UInt8) (hroom : written.length + bytes.length ≤ capacity) :
    ∃ now, bytes.foldlM feedByte ⟨stream, ⟨capacity, written⟩, evs⟩ = .ok now ∧
      now.events = evs ++ events buffer (lines line (resumed stream.afterCr bytes)) := by
  induction bytes generalizing buffer line written stream evs with
  | nil =>
    refine ⟨_, rfl, ?_⟩
    cases stream.afterCr <;> simp [resumed, lines, events]
  | cons byte rest ih =>
    rw [List.length_cons] at hroom
    rw [List.foldlM_cons, feedByte_past h.past, readByte]
    by_cases hlf : stream.afterCr = true ∧ byte = ascii '\n'
    · obtain ⟨now, hfeed, hnow⟩ := ih (h.withCr false) evs (by omega)
      refine ⟨now, ?_, ?_⟩
      · rw [if_pos hlf]
        exact hfeed
      · rw [hnow, hlf.1, hlf.2]
        rfl
    · rw [if_neg hlf, resumed_other hlf]
      by_cases hend : byte = ascii '\r' ∨ byte = ascii '\n'
      · rw [if_pos hend, lines_end hend, events]
        have hcr := h.withCr (byte == ascii '\r')
        by_cases hline : line = []
        · subst hline
          obtain ⟨rfl, stream', hblank, hafter, hreading⟩ := endLine_blank capacity hcr
          cases buffer with
          | nil =>
            obtain ⟨now, hfeed, hnow⟩ := ih hreading evs (by simp; omega)
            refine ⟨now, ?_, ?_⟩
            · rw [hblank]
              exact hfeed
            · rw [hnow, hafter, if_pos rfl, if_pos rfl]
          | cons first buffer =>
            obtain ⟨now, hfeed, hnow⟩ :=
              ih hreading (evs ++ [dispatched (first :: buffer)]) (by simp; omega)
            refine ⟨now, ?_, ?_⟩
            · rw [hblank]
              exact hfeed
            · rw [hnow, hafter, if_pos rfl, if_neg (List.cons_ne_nil _ _), List.append_assoc]
              rfl
        · obtain ⟨stream', written', hended, hafter, hreading, hlen⟩ :=
            endLine_reading hcr hline (show written.length < capacity by omega)
          obtain ⟨now, hfeed, hnow⟩ := ih hreading evs (by omega)
          refine ⟨now, ?_, ?_⟩
          · rw [hended]
            exact hfeed
          · rw [hnow, hafter, if_neg hline]
      · rw [if_neg hend]
        obtain ⟨hcr, hlf⟩ := not_or.mp hend
        obtain ⟨stream', written', hread, hafter, hreading, hlen⟩ :=
          readField_reading (h.withCr false) (show written.length < capacity by omega)
        obtain ⟨now, hfeed, hnow⟩ := ih hreading evs (by omega)
        refine ⟨now, ?_, ?_⟩
        · rw [hread]
          exact hfeed
        · rw [hnow, hafter, lines_byte hcr hlf]
          rfl

/-! ## The byte order mark -/

/-- How many bytes at the start of a body are the mark's, in the mark's order. -/
def markRead : List UInt8 → List UInt8 → Nat
  | m :: mark, byte :: body => if m = byte then markRead mark body + 1 else 0
  | _, _ => 0

/-- A reader that has seen so much of a mark. -/
theorem reading_start (read : Nat) : Reading [] [] { bomRead := 3 } [] ∧
    ({ bomRead := read } : EventStream).afterCr = false :=
  ⟨⟨rfl, rfl, .inl rfl, .lineStart rfl rfl⟩, rfl⟩

/-- **The reader drops what it takes for a mark**, whole or not. By induction over the bytes of
the mark read so far. -/
theorem feed_mark (mark : List UInt8) (read : Nat) (hmark : bom.drop read = mark)
    (hread : read + mark.length = 3) (capacity : Nat) (body : List UInt8)
    (hroom : body.length ≤ capacity) :
    ∃ now, body.foldlM feedByte ⟨{ bomRead := read }, .fixed capacity, []⟩ = .ok now ∧
      now.events = events [] (lines [] (body.drop (markRead mark body))) := by
  induction mark generalizing read body with
  | nil =>
    obtain rfl : read = 3 := hread
    exact feed_reading (reading_start 3).1 [] body (by rwa [List.length_nil, Nat.zero_add])
  | cons m mark ih =>
    cases body with
    | nil => exact ⟨_, rfl, rfl⟩
    | cons byte rest =>
      have hne : read ≠ 3 := by
        rw [List.length_cons] at hread
        omega
      have hget : bom[read]? = some m := by
        rw [← Nat.add_zero read, ← List.getElem?_drop, hmark]
        rfl
      by_cases hm : m = byte
      · subst hm
        have hdrop : bom.drop (read + 1) = mark := by
          rw [← List.drop_drop, hmark, List.drop_one, List.tail_cons]
        obtain ⟨now, hfeed, hnow⟩ := ih (read + 1) hdrop (by rw [List.length_cons] at hread; omega)
          rest (by rw [List.length_cons] at hroom; omega)
        refine ⟨now, ?_, ?_⟩
        · rw [List.foldlM_cons, feedByte, readMark, if_pos hne, if_pos hget]
          exact hfeed
        · rw [hnow, markRead, if_pos rfl, List.drop_succ_cons]
      · obtain ⟨now, hfeed, hnow⟩ := feed_reading (reading_start 3).1 [] (byte :: rest)
          (show _ ≤ capacity by rwa [List.length_nil, Nat.zero_add])
        refine ⟨now, ?_, ?_⟩
        · rw [← hfeed, List.foldlM_cons, List.foldlM_cons, feedByte, readMark, if_pos hne,
            if_neg (by rw [hget]; exact fun heq => hm (Option.some.inj heq))]
          rfl
        · rw [hnow, markRead, if_neg hm]
          rfl

/-- **What a body read in any pieces dispatches.** -/
theorem collect_events (capacity : Nat) (reads : List (List UInt8))
    (hroom : reads.flatten.length ≤ capacity) :
    collect capacity reads = .ok (events []
      (lines [] (reads.flatten.drop (markRead bom reads.flatten)))) := by
  obtain ⟨now, hfeed, hnow⟩ := feed_mark bom 0 rfl rfl capacity reads.flatten hroom
  rw [collect_eq, hfeed, ok_bind, hnow]

/-! ## Part of a mark -/

/-- The body starts with part of a mark only, and the line behind the part is a data field of an
event that ends. -/
def PartHidesField (body : List UInt8) : Prop :=
  (markRead bom body = 1 ∨ markRead bom body = 2) ∧
    ∃ line rest, lines [] (body.drop (markRead bom body)) = line :: rest ∧
      processLine [] line ≠ [] ∧ [] ∈ rest

/-- A body starts with no part of a mark or a whole one, or the part is of the first line. -/
theorem withoutMark_cases (body : List UInt8) :
    withoutMark body = body.drop (markRead bom body) ∧
      ¬(markRead bom body = 1 ∨ markRead bom body = 2) ∨
    (markRead bom body = 1 ∨ markRead bom body = 2) ∧
      ∃ part, withoutMark body = 0xEF :: part ++ body.drop (markRead bom body) ∧
        (part = [] ∨ part = [0xBB]) := by
  match body with
  | [] => exact .inl ⟨rfl, by decide⟩
  | first :: body =>
    by_cases hfirst : 0xEF = first
    · subst hfirst
      match body with
      | [] => exact .inr ⟨.inl rfl, [], rfl, .inl rfl⟩
      | second :: body =>
        by_cases hsecond : 0xBB = second
        · subst hsecond
          match body with
          | [] => exact .inr ⟨.inr rfl, [0xBB], rfl, .inr rfl⟩
          | third :: body =>
            by_cases hthird : 0xBF = third
            · subst hthird
              exact .inl ⟨rfl, by simp [markRead, bom]⟩
            · have hread : markRead bom (0xEF :: 0xBB :: third :: body) = 2 := by
                simp [markRead, bom, hthird]
              rw [hread]
              refine .inr ⟨.inr rfl, [0xBB], ?_, .inr rfl⟩
              rw [withoutMark]
              · rfl
              · rintro rest ⟨⟩
                exact hthird rfl
        · have hread : markRead bom (0xEF :: second :: body) = 1 := by
            simp [markRead, bom, hsecond]
          rw [hread]
          refine .inr ⟨.inl rfl, [], ?_, .inl rfl⟩
          rw [withoutMark]
          · rfl
          · rintro rest ⟨⟩
            exact hsecond rfl
    · have hread : markRead bom (first :: body) = 0 := by
        simp [markRead, bom, hfirst]
      rw [hread]
      refine .inl ⟨?_, by decide⟩
      rw [withoutMark]
      · rfl
      · rintro rest ⟨⟩
        exact hfirst rfl

/-- A line that starts with a byte of the mark is no data field. -/
theorem processLine_part (part line : List UInt8) : processLine [] (0xEF :: part ++ line) = [] := by
  apply processLine_other
  simp only [fieldOf, List.cons_append]
  rw [List.takeWhile_cons_of_pos (by decide)]
  intro heq
  cases (List.cons.inj heq).1

/-- A part of a mark is dropped without harm unless it hides a field. -/
theorem events_part (body : List UInt8) :
    events [] (lines [] (body.drop (markRead bom body))) = whatwg body ↔ ¬PartHidesField body := by
  rcases withoutMark_cases body with ⟨hwhole, hno⟩ | ⟨hpart, part, hbody, hbytes⟩
  · rw [whatwg, hwhole]
    exact ⟨fun _ h => hno h.1, fun _ => rfl⟩
  · have hline : lines [] (withoutMark body) =
        (lines [] (body.drop (markRead bom body))).modifyHead (0xEF :: part ++ ·) := by
      rw [hbody, lines_prefix, List.nil_append, ← List.append_nil (0xEF :: part), lines_begun,
        List.append_nil]
      rcases hbytes with rfl | rfl <;> simp <;> decide
    rw [whatwg, hline, PartHidesField]
    cases hlines : lines [] (body.drop (markRead bom body)) with
    | nil => simp [events]
    | cons line rest =>
      have hcode : events [] (line :: rest) = events (processLine [] line) rest := by
        rw [events]
        split
        · subst line
          rfl
        · rfl
      have hspec : events [] ((line :: rest).modifyHead (0xEF :: part ++ ·)) = events [] rest := by
        rw [List.modifyHead_cons, events, if_neg (by simp), processLine_part]
      rw [hcode, hspec]
      by_cases hdata : processLine [] line = []
      · rw [hdata]
        refine ⟨?_, fun _ => rfl⟩
        rintro - ⟨-, line', rest', heq, hne, -⟩
        rw [← (List.cons.inj heq).1] at hne
        exact hne hdata
      · have hshow := events_append hdata (.inl rfl) rest
        rw [List.append_nil] at hshow
        rw [hshow]
        constructor
        · rintro hmem ⟨-, line', rest', heq, -, hends⟩
          rw [← (List.cons.inj heq).2] at hends
          exact hmem hends
        · intro h hends
          exact h ⟨hpart, line, rest, rfl, hdata, hends⟩

/-- **The reader dispatches the events of the standard, except where a partial byte order mark
hides a data field.** For every body, every way it is split into reads and a writer with room
for it. -/
theorem collect_eq_whatwg (capacity : Nat) (reads : List (List UInt8))
    (hroom : reads.flatten.length ≤ capacity) :
    collect capacity reads = .ok (whatwg reads.flatten) ↔ ¬PartHidesField reads.flatten := by
  rw [collect_events capacity reads hroom, Except.ok.injEq]
  exact events_part reads.flatten

/-- A body of one event, split inside its mark and its line's end. -/
theorem collect_eq_whatwg_split :
    ([[0xEF, 0xBB], 0xBF :: text "data: x\r", text "\n\n"] : List (List UInt8)).flatten.length ≤ 64 ∧
      (collect 64 [[0xEF, 0xBB], 0xBF :: text "data: x\r", text "\n\n"] =
          .ok (whatwg [[0xEF, 0xBB], 0xBF :: text "data: x\r", text "\n\n"].flatten) ↔
        ¬PartHidesField [[0xEF, 0xBB], 0xBF :: text "data: x\r", text "\n\n"].flatten) :=
  ⟨by decide, collect_eq_whatwg 64 _ (by decide)⟩

/-- The first byte of a mark before a data field: the reader dispatches an event the standard does
not have. -/
theorem part_of_mark_dispatches :
    collect 64 [0xEF :: text "data: x\n\n"] = .ok [text "x"] ∧
      collect 64 [0xEF :: text "data: x\n\n"] ≠ .ok (whatwg (0xEF :: text "data: x\n\n")) := by
  have hcode : collect 64 [0xEF :: text "data: x\n\n"] = .ok [text "x"] := by
    rw [collect_events 64 _ (by decide)]
    decide
  refine ⟨hcode, ?_⟩
  rw [hcode]
  decide

end Rui.Mcp
