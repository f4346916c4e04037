import Rui.Http1.Parser

/-!
# A response does not depend on how its reads were split

The parser is an incremental reader whose answers obey the four laws, so a
response read in any pieces is the response read at once: a pending head
resumes its search where the end could still begin, a bounded line is refused
on the same bytes, and body slices join.
-/

namespace Rui.Http1

open Library

/-! ## Answers that more input leaves as they are -/

theorem crlf_length : crlf.length = 2 := rfl

variable {input : List UInt8} {state : State} {left : Nat}

theorem takeLine_append {result : Except Error (Option Line)} (h : takeLine input = result)
    (hresult : result ≠ .ok none) (more : List UInt8) : takeLine (input ++ more) = result := by
  simp only [takeLine] at h ⊢
  have hwindow : (input ++ more).take (maxLineBytes + 2) =
      input.take (maxLineBytes + 2) ++ more.take (maxLineBytes + 2 - input.length) :=
    List.take_append
  cases hcut : indexOf crlf (input.take (maxLineBytes + 2)) with
  | none =>
    rw [hcut] at h
    by_cases hfull : (input.take (maxLineBytes + 2)).length = maxLineBytes + 2
    · have hlen : maxLineBytes + 2 - input.length = 0 := by
        rw [List.length_take] at hfull
        omega
      rw [hwindow, hlen, List.take_zero, List.append_nil, hcut]
      exact h
    · rw [if_neg hfull] at h
      exact absurd h.symm hresult
  | some cut =>
    have hle := indexOf_le (by decide) hcut
    rw [List.length_take, crlf_length] at hle
    rw [hwindow, indexOf_append_of_some (by decide) _ hcut]
    rw [hcut] at h
    simp only
    rw [List.take_append_of_le_length (by omega)]
    exact h

theorem takeLine_used {line : Line} (h : takeLine input = .ok (some line)) :
    0 < line.used ∧ line.used ≤ input.length := by
  simp only [takeLine] at h
  cases hcut : indexOf crlf (input.take (maxLineBytes + 2)) with
  | none =>
    rw [hcut] at h
    simp only at h
    split at h <;> cases h
  | some cut =>
    have hle := indexOf_le (by decide) hcut
    rw [List.length_take, crlf_length] at hle
    rw [hcut] at h
    cases h
    simp only
    omega

/-! ## The parser as an incremental reader -/

/-- What a caller collects: a head, and the body byte by byte. -/
inductive Output
  | head (head : Head)
  | byte (byte : UInt8)
  deriving DecidableEq, Repr

/-- A step as an answer: `more` with nothing used is a wait. -/
def answer : Except Error (Step × Parser) → Answer Parser Output Error
  | .error e => .fail e
  | .ok (⟨used, .more⟩, parser) => if used = 0 then .wait parser else .emit used [] parser
  | .ok (⟨used, .head head⟩, parser) => .emit used [.head head] parser
  | .ok (⟨used, .body bytes⟩, parser) => .emit used (bytes.map .byte) parser
  | .ok (⟨_, .done⟩, _) => .stop

theorem takeHead_event {bytes : List UInt8} {event : Event}
    (h : takeHead bytes = .ok (event, state)) : event = .more ∨ ∃ head, event = .head head := by
  simp only [takeHead, bind, Except.bind] at h
  cases hhead : parseHead bytes with
  | error e => simp [hhead] at h
  | ok head =>
    simp only [hhead] at h
    split at h
    · cases h
    · split at h
      · cases h
        exact .inl rfl
      · cases hstate : framing head with
        | error e => simp [hstate] at h
        | ok state =>
          simp only [hstate, pure, Except.pure, Except.ok.injEq, Prod.mk.injEq] at h
          exact .inr ⟨head, h.1.symm⟩

theorem answer_takeHead (found : Nat) (bytes : List UInt8) :
    (∃ e, answer ((takeHead bytes).map fun (event, state) =>
      (⟨found + 4, event⟩, ⟨state, 0⟩)) = .fail e) ∨
    ∃ out state, answer ((takeHead bytes).map fun (event, state) =>
      (⟨found + 4, event⟩, ⟨state, 0⟩)) = .emit (found + 4) out ⟨state, 0⟩ := by
  cases h : takeHead bytes with
  | error e => exact .inl ⟨e, rfl⟩
  | ok result =>
    obtain ⟨event, state⟩ := result
    rcases takeHead_event h with rfl | ⟨head, rfl⟩
    · exact .inr ⟨[], state, by simp [Except.map, answer]⟩
    · exact .inr ⟨[.head head], state, rfl⟩

theorem progress {parser parser' : Parser} {used : Nat} {out : List Output}
    (h : answer (parser.next input) = .emit used out parser') : 0 < used ∧ used ≤ input.length := by
  obtain ⟨state, scanned⟩ := parser
  cases state with
  | head =>
    simp only [Parser.next, Parser.nextHead] at h
    cases hfound : indexOfPos (crlf ++ crlf) input (scanned - 3) with
    | none =>
      rw [hfound] at h
      simp only at h
      split at h <;> simp [answer] at h
    | some found =>
      have hle : found + 4 ≤ input.length := indexOfPos_le (by decide) hfound
      rw [hfound] at h
      simp only at h
      split at h
      · simp [answer] at h
      · rcases answer_takeHead found (input.take (found + 4)) with ⟨e, he⟩ | ⟨out, state, he⟩
        · rw [he] at h
          cases h
        · rw [he] at h
          cases h
          omega
  | length left =>
    simp only [Parser.next] at h
    split at h
    · simp [answer] at h
    · split at h
      · simp [answer] at h
      · rename_i hleft hinput
        have := List.length_pos_of_ne_nil hinput
        simp only [answer, Answer.emit.injEq] at h
        omega
  | chunkSize =>
    simp only [Parser.next] at h
    cases hline : takeLine input with
    | error e => simp [hline, answer] at h
    | ok found =>
      cases found with
      | none => simp [hline, answer] at h
      | some line =>
        have hused := takeLine_used hline
        have hne : line.used ≠ 0 := by omega
        cases hsize : chunkSize line.text with
        | error e => simp [hline, hsize, Except.map, answer] at h
        | ok size =>
          simp only [hline, hsize, Except.map, answer, if_neg hne, Answer.emit.injEq] at h
          omega
  | chunkData left pos =>
    simp only [Parser.next] at h
    split at h
    · simp [answer] at h
    · rename_i hinput
      have := List.length_pos_of_ne_nil hinput
      simp only [answer, Answer.emit.injEq] at h
      omega
  | chunkEnd =>
    simp only [Parser.next] at h
    split at h
    · simp [answer] at h
    · split at h
      · simp [answer] at h
      · simp only [answer, Nat.succ_ne_zero, if_false, Answer.emit.injEq] at h
        omega
  | trailers =>
    simp only [Parser.next] at h
    cases hline : takeLine input with
    | error e => simp [hline, answer] at h
    | ok found =>
      cases found with
      | none => simp [hline, answer] at h
      | some line =>
        have hused := takeLine_used hline
        have hne : line.used ≠ 0 := by omega
        simp only [hline] at h
        split at h
        · simp [answer] at h
        · cases hfield : fieldLine line.text with
          | error e => simp [hfield, Except.map, answer] at h
          | ok field =>
            simp only [hfield, Except.map, answer, if_neg hne, Answer.emit.injEq] at h
            omega
  | untilClose =>
    simp only [Parser.next] at h
    split at h
    · simp [answer] at h
    · rename_i hinput
      have := List.length_pos_of_ne_nil hinput
      simp only [answer, Answer.emit.injEq] at h
      omega
  | done => simp [Parser.next, answer] at h

def reader : Incremental Parser UInt8 Output Error where
  next parser input := answer (parser.next input)
  progress := progress

/-! ## The laws, state by state -/

/-- How far a pending head was searched; other states have searched nothing. -/
def Searched (parser : Parser) (input : List UInt8) : Prop :=
  parser.scanned ≤ input.length ∧ (parser.state ≠ .head → parser.scanned = 0)

theorem searched_zero (state : State) (input : List UInt8) : Searched ⟨state, 0⟩ input :=
  ⟨Nat.zero_le _, fun _ => rfl⟩

theorem lawful_of_wait {parser : Parser} (hvalid : Searched parser input)
    (h : reader.next parser input = .wait parser) : reader.Lawful Searched parser input :=
  .wait h hvalid fun _ => rfl

theorem lawful_head {scanned : Nat} (hvalid : scanned ≤ input.length) :
    reader.Lawful Searched ⟨.head, scanned⟩ input := by
  have hcrlf : crlf ++ crlf ≠ [] := by decide
  cases hfound : indexOfPos (crlf ++ crlf) input (scanned - 3) with
  | none =>
    by_cases hlarge : input.length ≥ maxHeadBytes
    · refine .fail (e := .headTooLarge) fun more => ?_
      simp only [reader, Parser.next, Parser.nextHead]
      cases hmore : indexOfPos (crlf ++ crlf) (input ++ more) (scanned - 3) with
      | none =>
        rw [if_pos (by rw [List.length_append]; omega)]
        rfl
      | some found =>
        have : input.length < found + 4 := lt_of_indexOfPos_append hcrlf hfound hmore
        simp only
        rw [if_pos (by omega)]
        rfl
    · have hwait : reader.next ⟨.head, scanned⟩ input = .wait ⟨.head, input.length⟩ := by
        simp only [reader, Parser.next, Parser.nextHead, hfound, if_neg hlarge]
        rfl
      refine .wait hwait ⟨Nat.le_refl _, fun h => absurd rfl h⟩ fun more => ?_
      -- Shorter than the pattern, the search starts over; else it resumes.
      have hsame : indexOfPos (crlf ++ crlf) (input ++ more) (input.length - 3) =
          indexOfPos (crlf ++ crlf) (input ++ more) (scanned - 3) := by
        by_cases hshort : input.length < 3
        · rw [Nat.sub_eq_zero_of_le (by omega), Nat.sub_eq_zero_of_le (by omega)]
        · have hlen : (crlf ++ crlf).length = 4 := rfl
          exact indexOfPos_resume hcrlf more hfound (by omega) (by omega)
      simp only [reader, Parser.next, Parser.nextHead, hsame]
  | some found =>
    have hle : found + 4 ≤ input.length := indexOfPos_le hcrlf hfound
    have hnext : ∀ more, reader.next ⟨.head, scanned⟩ (input ++ more) =
        if found + 4 > maxHeadBytes then .fail .headTooLarge
        else answer ((takeHead (input.take (found + 4))).map fun (event, state) =>
          (⟨found + 4, event⟩, ⟨state, 0⟩)) := by
      intro more
      simp only [reader, Parser.next, Parser.nextHead,
        indexOfPos_append_of_some hcrlf more hfound, List.take_append_of_le_length hle]
      split <;> rfl
    by_cases hlarge : found + 4 > maxHeadBytes
    · exact .fail fun more => by rw [hnext, if_pos hlarge]
    · rcases answer_takeHead found (input.take (found + 4)) with ⟨e, he⟩ | ⟨out, state, he⟩
      · exact .fail fun more => by rw [hnext, if_neg hlarge, he]
      · exact .emit (searched_zero state _) fun more => by rw [hnext, if_neg hlarge, he]

/-- A body slice of at most `left` bytes: the state after it, and its bytes. -/
theorem lawful_slice (left : Nat) (hinput : input ≠ []) (after : Nat → State)
    (hnext : ∀ bytes : List UInt8, bytes ≠ [] → reader.next ⟨state, 0⟩ bytes =
      .emit (min left bytes.length) ((bytes.take (min left bytes.length)).map .byte)
        ⟨after (min left bytes.length), 0⟩)
    (hafter : ∀ taken, taken < left → ∀ bytes : List UInt8, bytes ≠ [] →
      reader.next ⟨after taken, 0⟩ bytes =
        .emit (min (left - taken) bytes.length)
          ((bytes.take (min (left - taken) bytes.length)).map .byte)
          ⟨after (taken + min (left - taken) bytes.length), 0⟩) :
    reader.Lawful Searched ⟨state, 0⟩ input := by
  by_cases hall : left ≤ input.length
  · have hsame : ∀ more, reader.next ⟨state, 0⟩ (input ++ more) =
        .emit left ((input.take left).map .byte) ⟨after left, 0⟩ := by
      intro more
      rw [hnext _ (List.append_ne_nil_of_left_ne_nil hinput more),
        Nat.min_eq_left (by rw [List.length_append]; omega), List.take_append_of_le_length hall]
    exact .emit (searched_zero _ _) hsame
  · have hhere := hnext input hinput
    rw [Nat.min_eq_right (by omega), List.take_length] at hhere
    refine .greedy hhere (searched_zero _ _) fun more hmore => ?_
    refine ⟨_, _, _, hafter _ (by omega) more hmore, ?_⟩
    have hmin : min left (input ++ more).length =
        input.length + min (left - input.length) more.length := by
      rw [List.length_append]
      omega
    rw [hnext _ (List.append_ne_nil_of_left_ne_nil hinput more), hmin,
      List.take_length_add_append, List.map_append]

theorem lawful_length : reader.Lawful Searched ⟨.length left, 0⟩ input := by
  by_cases hleft : left = 0
  · refine .stop fun more => ?_
    simp only [reader, Parser.next, if_pos hleft]
    rfl
  · by_cases hinput : input = []
    · refine lawful_of_wait (searched_zero _ _) ?_
      simp only [reader, Parser.next, if_neg hleft, if_pos hinput]
      rfl
    · refine lawful_slice left hinput (fun taken => .length (left - taken))
        (fun bytes hbytes => ?_) fun taken htaken bytes hbytes => ?_
      · simp only [reader, Parser.next, if_neg hleft, if_neg hbytes]
        rfl
      · simp only [reader, Parser.next, if_neg (Nat.sub_ne_zero_of_lt htaken), if_neg hbytes,
          Nat.sub_add_eq]
        rfl

/-- The state after `taken` bytes of a chunk. -/
def afterData (left taken : Nat) : State :=
  if h : left ≤ taken then .chunkEnd else .chunkData (left - taken) (by omega)

theorem afterData_eq (pos : 0 < left) (hinput : input ≠ []) :
    reader.next ⟨.chunkData left pos, 0⟩ input =
      .emit (min left input.length) ((input.take (min left input.length)).map .byte)
        ⟨afterData left (min left input.length), 0⟩ := by
  have hstate : (if h : min left input.length = left then State.chunkEnd
      else .chunkData (left - min left input.length) (by omega)) =
        afterData left (min left input.length) := by
    by_cases h : min left input.length = left
    · rw [dif_pos h, afterData, dif_pos (by omega)]
    · rw [dif_neg h, afterData, dif_neg (by omega)]
  simp only [reader, Parser.next, if_neg hinput, hstate]
  rfl

theorem lawful_chunkData {pos : 0 < left} :
    reader.Lawful Searched ⟨.chunkData left pos, 0⟩ input := by
  by_cases hinput : input = []
  · refine lawful_of_wait (searched_zero _ _) ?_
    simp only [reader, Parser.next, if_pos hinput]
    rfl
  · refine lawful_slice left hinput (afterData left) (fun bytes hbytes => afterData_eq pos hbytes)
      fun taken htaken bytes hbytes => ?_
    have hstate : afterData left taken = .chunkData (left - taken) (by omega) :=
      dif_neg (by omega)
    have hafter : afterData (left - taken) (min (left - taken) bytes.length) =
        afterData left (taken + min (left - taken) bytes.length) := by
      by_cases h : left - taken ≤ min (left - taken) bytes.length
      · rw [afterData, dif_pos h, afterData, dif_pos (by omega)]
      · rw [afterData, dif_neg h, afterData, dif_neg (by omega)]
        simp only [Nat.sub_sub]
    rw [hstate, afterData_eq _ hbytes, hafter]

theorem lawful_untilClose : reader.Lawful Searched ⟨.untilClose, 0⟩ input := by
  have hnext : ∀ bytes : List UInt8, bytes ≠ [] → reader.next ⟨.untilClose, 0⟩ bytes =
      .emit bytes.length (bytes.map .byte) ⟨.untilClose, 0⟩ := by
    intro bytes hbytes
    simp only [reader, Parser.next, if_neg hbytes]
    rfl
  by_cases hinput : input = []
  · refine lawful_of_wait (searched_zero _ _) ?_
    simp only [reader, Parser.next, if_pos hinput]
    rfl
  · refine .greedy (hnext input hinput) (searched_zero _ _) fun more hmore => ?_
    refine ⟨_, _, _, hnext more hmore, ?_⟩
    rw [hnext _ (List.append_ne_nil_of_left_ne_nil hinput more), List.length_append,
      List.map_append]

theorem lawful_chunkEnd : reader.Lawful Searched ⟨.chunkEnd, 0⟩ input := by
  by_cases hshort : input.length < 2
  · refine lawful_of_wait (searched_zero _ _) ?_
    simp only [reader, Parser.next, if_pos hshort]
    rfl
  · have hnext : ∀ more, reader.next ⟨.chunkEnd, 0⟩ (input ++ more) =
        if input.take 2 ≠ crlf then .fail .invalidChunk else .emit 2 [] ⟨.chunkSize, 0⟩ := by
      intro more
      have hlong : ¬ (input ++ more).length < 2 := by
        rw [List.length_append]
        omega
      simp only [reader, Parser.next, if_neg hlong,
        List.take_append_of_le_length (Nat.le_of_not_lt hshort)]
      split <;> rfl
    by_cases hcrlf : input.take 2 ≠ crlf
    · exact .fail fun more => by rw [hnext, if_pos hcrlf]
    · exact .emit (searched_zero _ _) fun more => by rw [hnext, if_neg hcrlf]

/-- A state that reads one bounded line, whatever the line then means. -/
theorem lawful_line (meaning : Line → Except Error (Step × Parser))
    (hnext : ∀ bytes, Parser.next ⟨state, 0⟩ bytes =
      match takeLine bytes with
      | .error e => .error e
      | .ok none => .ok (⟨0, .more⟩, ⟨state, 0⟩)
      | .ok (some line) => meaning line)
    (hmeaning : ∀ line, 0 < line.used → answer (meaning line) = .stop ∨
      (∃ e, answer (meaning line) = .fail e) ∨
      ∃ state', answer (meaning line) = .emit line.used [] ⟨state', 0⟩) :
    reader.Lawful Searched ⟨state, 0⟩ input := by
  cases hline : takeLine input with
  | error e =>
    refine .fail (e := e) fun more => ?_
    simp only [reader, hnext, takeLine_append hline (by simp)]
    rfl
  | ok found =>
    cases found with
    | none =>
      refine lawful_of_wait (searched_zero _ _) ?_
      simp only [reader, hnext, hline]
      rfl
    | some line =>
      have hsame : ∀ more, reader.next ⟨state, 0⟩ (input ++ more) = answer (meaning line) := by
        intro more
        simp only [reader, hnext, takeLine_append hline (by simp)]
      rcases hmeaning line (takeLine_used hline).1 with hstop | ⟨e, hfail⟩ | ⟨state', hemit⟩
      · exact .stop fun more => (hsame more).trans hstop
      · exact .fail fun more => (hsame more).trans hfail
      · exact .emit (searched_zero state' _) fun more => (hsame more).trans hemit

theorem lawful_chunkSize : reader.Lawful Searched ⟨.chunkSize, 0⟩ input := by
  refine lawful_line _ (fun bytes => rfl) fun line hused => .inr ?_
  cases hsize : chunkSize line.text with
  | error e => exact .inl ⟨e, rfl⟩
  | ok size => exact .inr ⟨_, if_neg (Nat.ne_of_gt hused)⟩

theorem lawful_trailers : reader.Lawful Searched ⟨.trailers, 0⟩ input := by
  refine lawful_line _ (fun bytes => rfl) fun line hused => ?_
  by_cases hempty : line.text = []
  · exact .inl (by rw [if_pos hempty]; rfl)
  · rw [if_neg hempty]
    refine .inr ?_
    cases hfield : fieldLine line.text with
    | error e => exact .inl ⟨e, rfl⟩
    | ok field => exact .inr ⟨_, if_neg (Nat.ne_of_gt hused)⟩

/-- **Every answer of the parser is lawful.** -/
theorem reader_splittable : reader.Splittable Searched where
  grow := fun ⟨hle, hstate⟩ more => ⟨by rw [List.length_append]; omega, hstate⟩
  lawful {parser input} hvalid := by
    obtain ⟨state, scanned⟩ := parser
    obtain ⟨hle, hstate⟩ := hvalid
    cases state with
    | head => exact lawful_head hle
    | length left => obtain rfl : scanned = 0 := hstate (by simp); exact lawful_length
    | chunkSize => obtain rfl : scanned = 0 := hstate (by simp); exact lawful_chunkSize
    | chunkData left pos => obtain rfl : scanned = 0 := hstate (by simp); exact lawful_chunkData
    | chunkEnd => obtain rfl : scanned = 0 := hstate (by simp); exact lawful_chunkEnd
    | trailers => obtain rfl : scanned = 0 := hstate (by simp); exact lawful_trailers
    | untilClose => obtain rfl : scanned = 0 := hstate (by simp); exact lawful_untilClose
    | done => exact .stop fun more => rfl

/-! ## Responses -/

/-- What a response comes to: its final head, its body, and its completion or
its error. -/
structure Response where
  head : Option Head
  body : List UInt8
  completion : Except Error Unit
  deriving Repr

/-- A response driven as the contract of `next` says: each read is passed
behind the bytes not yet used, `next` is asked until it waits with nothing
used, and `finish` is called when the connection has ended. -/
def respond (reads : List (List UInt8)) : Response :=
  let reading := reader.readAll {} reads
  { head := (reading.1.filterMap fun | .head head => some head | .byte _ => none).getLast?
    body := reading.1.filterMap fun | .head _ => none | .byte byte => some byte
    completion :=
      match reading.2 with
      | .waiting parser _ => (parser.finish).map fun _ => ()
      | .stopped => .ok ()
      | .failed e => .error e }

/-- **Split independence.** However its bytes were split into reads, a response
is the one they make at once. -/
theorem respond_flatten (reads : List (List UInt8)) : respond reads = respond [reads.flatten] := by
  have hstart : reader.next {} [] = .wait {} := rfl
  have hreads := reader_splittable.readAll_flatten (searched_zero .head []) hstart
  simp only [respond, hreads, List.flatten_singleton]

end Rui.Http1
