import Rui.Library.ServerSentEvents

/-!
# The event stream of a response

`read` of `output_decode.zig`: a capture is read line by line, and the data of
each event is written to the event data and passed to the grammar as a slice of
it. It is compared with the events that the standard has in the capture.
-/

namespace Rui.Answers

open Library Library.ServerSentEvents

/-! ## Event data -/

inductive Reject (ε : Type)
  | emptySseData
  | incompleteSseEvent
  | eventDataScratchExhausted
  | grammar (e : ε)
  deriving DecidableEq, Repr

/-- The event data written so far, and the allocations its budget will grant. -/
structure EventData where
  bytes : List UInt8 := []
  allocate : Nat → Nat → Bool

variable {γ ε : Type}

/-- `append`: a newline and bytes, in one write. A write the file fails (`EventDataWriteFailed`)
is left out. -/
def EventData.append (self : EventData) (newline : Bool) (bytes : List UInt8) :
    Except (Reject ε) EventData :=
  let written := (if newline then [ascii '\n'] else []) ++ bytes
  if self.allocate self.bytes.length written.length then
    .ok { self with bytes := self.bytes ++ written }
  else .error .eventDataScratchExhausted

/-! ## Reading -/

/-- A payload passed to the grammar, with the place it begins at. -/
structure Passed where
  start : Nat
  payload : List UInt8
  deriving DecidableEq, Repr

/-- What `read` keeps between lines; the open event's data begins at `data`. -/
structure Scan (γ : Type) where
  eventData : EventData
  data : Option Nat := none
  grammar : γ
  passed : List Passed := []

/-- Where the reading stands, and why it was rejected, if it was. -/
abbrev Outcome (γ ε : Type) := Scan γ × Option (Reject ε)

/-- The grammar's answer to an event. -/
abbrev Judge (γ ε : Type) := γ → List UInt8 → Except ε γ

/-- An empty line. -/
def Scan.dispatch (judge : Judge γ ε) (self : Scan γ) : Outcome γ ε :=
  match self.data with
  | none => (self, none)
  | some start =>
    if self.eventData.bytes.length = start then (self, some .emptySseData)
    else
      let payload := self.eventData.bytes.drop start
      let passed := self.passed ++ [⟨start, payload⟩]
      match judge self.grammar payload with
      | .error e => ({ self with passed }, some (.grammar e))
      | .ok grammar => ({ self with data := none, grammar, passed }, none)

/-- The bytes of a data line before its value. -/
def skipOf (line : List UInt8) : Nat :=
  let head := min line.length (text "data:").length
  if (line.drop head).head? = some (ascii ' ') then head + 1 else head

/-- Writes to the open event, whose data begins at `data`. -/
def Scan.write (self : Scan γ) (data : Option Nat) (continued : Bool) (bytes : List UInt8) :
    Outcome γ ε :=
  match self.eventData.append continued bytes with
  | .error e => ({ self with data }, some e)
  | .ok eventData => ({ self with eventData, data }, none)

/-- A data line. -/
def Scan.dataLine (self : Scan γ) (line : List UInt8) : Outcome γ ε :=
  let head := skipOf line
  let continued := self.data.isSome
  let data := if continued then self.data else some self.eventData.bytes.length
  if continued ∨ head < line.length then self.write data continued (line.drop head)
  else ({ self with data }, none)

def Scan.line (judge : Judge γ ε) (self : Scan γ) (line : List UInt8) : Outcome γ ε :=
  if line = [] then self.dispatch judge
  else if line = text "data" ∨ (text "data:").isPrefixOf line then self.dataLine line
  else (self, none)

def isEnd (byte : UInt8) : Bool := byte == ascii '\r' || byte == ascii '\n'

/-- What is behind a line's end: one byte, or a carriage return and its line feed. -/
def behindEnd : List UInt8 → List UInt8
  | [] => []
  | [_] => []
  | byte :: next :: rest =>
    if byte = ascii '\r' ∧ next = ascii '\n' then rest else next :: rest

theorem behindEnd_length (byte : UInt8) (rest : List UInt8) :
    (behindEnd (byte :: rest)).length < (byte :: rest).length := by
  cases rest with
  | nil => exact Nat.zero_lt_one
  | cons next rest =>
    rw [behindEnd]
    split <;> simp

/-- `read`'s loop, on what is left of the capture. -/
def Scan.lines (judge : Judge γ ε) (self : Scan γ) (capture : List UInt8) :
    Outcome γ ε :=
  match capture with
  | [] => (self, none)
  | byte :: rest =>
    let line := (byte :: rest).takeWhile fun byte => !isEnd byte
    match self.line judge line with
    | (next, some e) => (next, some e)
    | (next, none) => lines judge next (behindEnd ((byte :: rest).dropWhile fun byte => !isEnd byte))
termination_by capture.length
decreasing_by
  have hlength := (List.dropWhile_sublist (l := byte :: rest) fun byte => !isEnd byte).length_le
  cases hdrop : (byte :: rest).dropWhile fun byte => !isEnd byte with
  | nil => exact Nat.succ_pos _
  | cons byte' rest' =>
    rw [hdrop] at hlength
    exact Nat.lt_of_lt_of_le (behindEnd_length byte' rest') hlength

def byteOrderMark : List UInt8 := [0xef, 0xbb, 0xbf]

/-- One leading byte order mark is dropped. -/
def withoutMark (capture : List UInt8) : List UInt8 :=
  if byteOrderMark.isPrefixOf capture then capture.drop 3 else capture

/-- `read`, up to the codec's own check of its stream's end. -/
def read (judge : Judge γ ε) (allocate : Nat → Nat → Bool) (grammar : γ) (capture : List UInt8) :
    Outcome γ ε :=
  match ({ eventData := { allocate }, grammar : Scan γ }).lines judge (withoutMark capture) with
  | (self, some e) => (self, some e)
  | (self, none) => (self, if self.data.isSome then some .incompleteSseEvent else none)

/-! ## Lines -/

variable {judge : Judge γ ε}

/-- The reading of lines, one after another. -/
def Scan.run (judge : Judge γ ε) (self : Scan γ) : List (List UInt8) → Outcome γ ε
  | [] => (self, none)
  | line :: rest =>
    match self.line judge line with
    | (next, some e) => (next, some e)
    | (next, none) => next.run judge rest

theorem isEnd_iff (byte : UInt8) :
    isEnd byte = true ↔ byte = ascii '\r' ∨ byte = ascii '\n' := by
  simp [isEnd]

theorem behindEnd_cons (byte : UInt8) (rest : List UInt8) :
    behindEnd (byte :: rest) = resumed (byte == ascii '\r') rest := by
  cases rest with
  | nil => cases byte == ascii '\r' <;> rfl
  | cons next rest =>
    rw [behindEnd]
    split
    · rename_i hpair
      rw [hpair.1, hpair.2]
      rfl
    · rename_i hother
      exact (resumed_other (by simpa using hother) rest).symm

theorem allLines_first (byte : UInt8) (rest : List UInt8) :
    allLines (byte :: rest) = (byte :: rest).takeWhile (fun byte => !isEnd byte) ::
      allLines (behindEnd ((byte :: rest).dropWhile fun byte => !isEnd byte)) := by
  have hjoin := List.takeWhile_append_dropWhile (l := byte :: rest) (p := fun byte => !isEnd byte)
  have hline : ∀ b ∈ (byte :: rest).takeWhile (fun byte => !isEnd byte),
      b ≠ ascii '\r' ∧ b ≠ ascii '\n' := by
    intro b hb
    have hopen := List.mem_takeWhile_imp hb
    rwa [Bool.not_eq_true', ← Bool.not_eq_true, isEnd_iff, not_or] at hopen
  generalize (byte :: rest).takeWhile (fun byte => !isEnd byte) = line at hjoin hline ⊢
  cases hdrop : (byte :: rest).dropWhile fun byte => !isEnd byte with
  | nil =>
    rw [hdrop, List.append_nil] at hjoin
    subst hjoin
    exact allLines_open hline (List.cons_ne_nil _ _)
  | cons first after =>
    have hfirst := List.head?_dropWhile_not (p := fun byte => !isEnd byte) (l := byte :: rest)
    simp only [hdrop, List.head?_cons, Bool.not_eq_false'] at hfirst
    rw [hdrop] at hjoin
    rw [← hjoin, allLines_end hline ((isEnd_iff first).mp hfirst), behindEnd_cons]

theorem lines_eq (self : Scan γ) (capture : List UInt8) :
    self.lines judge capture = self.run judge (allLines capture) := by
  fun_induction Scan.lines judge self capture with
  | case1 self => rfl
  | case2 self byte rest line next e h =>
    rw [allLines_first, Scan.run]
    simp only [line, h]
  | case3 self byte rest line next h ih =>
    rw [allLines_first, Scan.run]
    simp only [line, h, ih]

theorem withoutMark_eq (capture : List UInt8) :
    withoutMark capture = ServerSentEvents.withoutMark capture := by
  rw [withoutMark, ServerSentEvents.withoutMark.eq_def]
  split
  · rename_i hmark
    obtain ⟨rest, rfl⟩ := List.isPrefixOf_iff_prefix.mp hmark
    rfl
  · rename_i hmark
    split
    · exact absurd rfl hmark
    · rfl

theorem drop_skipOf (value : List UInt8) :
    (text "data:" ++ value).drop (skipOf (text "data:" ++ value)) = withoutSpace value := by
  have hskip : skipOf (text "data:" ++ value) =
      if value.head? = some (ascii ' ') then 6 else 5 := by
    have hlength : (text "data:" ++ value).length = 5 + value.length := List.length_append
    rw [skipOf, hlength, show (text "data:").length = 5 from rfl, Nat.min_eq_right (by omega)]
    rfl
  rw [hskip, withoutSpace]
  split
  · exact List.drop_one
  · rfl

/-- A data line is one whose field is `data`, and its value is what is behind
the bytes skipped. -/
theorem processLine_eq (buffer line : List UInt8) :
    processLine buffer line =
      if line = text "data" ∨ (text "data:").isPrefixOf line then
        buffer ++ line.drop (skipOf line) ++ [ascii '\n']
      else buffer := by
  split
  · rename_i h
    rcases h with rfl | h
    · rw [processLine_bare, show (text "data").drop (skipOf (text "data")) = [] by decide,
        List.append_nil]
    · obtain ⟨value, rfl⟩ := List.isPrefixOf_iff_prefix.mp h
      rw [processLine_data, drop_skipOf]
  · rename_i h
    refine processLine_other fun hfield => h ?_
    rcases field_name hfield with rfl | ⟨value, rfl⟩
    · exact .inl rfl
    · exact .inr (List.isPrefixOf_iff_prefix.mpr ⟨value, rfl⟩)

/-! ## The two readings -/

/-- Payloads that lie one behind another in the event data, up to `stop`. -/
inductive Slices (bytes : List UInt8) : List Passed → Nat → Prop
  | nil : Slices bytes [] 0
  | snoc {passed : List Passed} {stop : Nat} {payload : List UInt8}
    (before : Slices bytes passed stop) (within : stop + payload.length ≤ bytes.length)
    (slice : (bytes.drop stop).take payload.length = payload) :
    Slices bytes (passed ++ [⟨stop, payload⟩]) (stop + payload.length)

variable {bytes buffer : List UInt8} {scan : Scan γ} {events : List (List UInt8)} {e : Reject ε}

theorem Slices.append {passed : List Passed} {stop : Nat} (h : Slices bytes passed stop)
    (more : List UInt8) : Slices (bytes ++ more) passed stop := by
  induction h with
  | nil => exact .nil
  | snoc before within slice ih =>
    refine .snoc ih (by rw [List.length_append]; omega) ?_
    rw [List.drop_append_of_le_length (by omega),
      List.take_append_of_le_length (by rw [List.length_drop]; omega), slice]

def payloads (passed : List Passed) : List (List UInt8) := passed.map Passed.payload

variable {grammar : γ} {allocate : Nat → Nat → Bool}

/-- How a reading ends against the events of a stream and the data of one left open: with what
it passed, all but the last of it accepted by the grammar. -/
inductive Ends (judge : Judge γ ε) (grammar : γ) (allocate : Nat → Nat → Bool)
    (passed events : List (List UInt8)) (pending : List UInt8) : Option (Reject ε) → Prop
  | accepted {last : γ} (all : passed = events) (nonempty : [] ∉ passed)
    (closed : pending = []) (judged : passed.foldlM judge grammar = .ok last) :
    Ends judge grammar allocate passed events pending none
  | incomplete {last : γ} (all : passed = events) (nonempty : [] ∉ passed)
    (unclosed : pending ≠ []) (judged : passed.foldlM judge grammar = .ok last) :
    Ends judge grammar allocate passed events pending (some .incompleteSseEvent)
  | empty {last : γ} (nonempty : [] ∉ passed) (next : passed ++ [[]] <+: events)
    (judged : passed.foldlM judge grammar = .ok last) :
    Ends judge grammar allocate passed events pending (some .emptySseData)
  | exhausted {last : γ} (nonempty : [] ∉ passed) (before : passed <+: events)
    (judged : passed.foldlM judge grammar = .ok last)
    (refused : ∃ length total, allocate length total = false) :
    Ends judge grammar allocate passed events pending (some .eventDataScratchExhausted)
  | grammar {earlier : List (List UInt8)} {payload : List UInt8} {last : γ} {e : ε}
    (split : passed = earlier ++ [payload]) (nonempty : [] ∉ passed)
    (before : passed <+: events) (judged : earlier.foldlM judge grammar = .ok last)
    (rejected : judge last payload = .error e) :
    Ends judge grammar allocate passed events pending (some (.grammar e))

/-- The two readings, line by line. -/
structure Agrees (judge : Judge γ ε) (grammar : γ) (allocate : Nat → Nat → Bool)
    (scan : Scan γ) (events : List (List UInt8)) (buffer : List UInt8) : Prop where
  allocate : scan.eventData.allocate = allocate
  slices : ∃ stop, Slices scan.eventData.bytes scan.passed stop ∧
    scan.data.getD scan.eventData.bytes.length = stop ∧ stop ≤ scan.eventData.bytes.length
  dispatched : payloads scan.passed = events
  nonempty : [] ∉ payloads scan.passed
  open_data : buffer =
    scan.data.elim [] fun start => scan.eventData.bytes.drop start ++ [ascii '\n']
  judged : (payloads scan.passed).foldlM judge grammar = .ok scan.grammar

/-- What a line leaves: readings that agree, or a rejection. -/
def Follows (judge : Judge γ ε) (grammar : γ) (allocate : Nat → Nat → Bool)
    (events : List (List UInt8)) (buffer : List UInt8) : Outcome γ ε → Prop
  | (next, none) => Agrees judge grammar allocate next events buffer
  | (next, some e) => Ends judge grammar allocate (payloads next.passed) events buffer (some e) ∧
      ∃ stop, Slices next.eventData.bytes next.passed stop

theorem payloads_snoc (passed : List Passed) (start : Nat) (payload : List UInt8) :
    payloads (passed ++ [⟨start, payload⟩]) = payloads passed ++ [payload] := by
  simp [payloads]

theorem foldlM_snoc {judge : Judge γ ε} {grammar last : γ} {earlier : List (List UInt8)}
    (h : earlier.foldlM judge grammar = .ok last) (payload : List UInt8) :
    (earlier ++ [payload]).foldlM judge grammar = judge last payload := by
  rw [List.foldlM_append, h]
  cases hlast : judge last payload <;> simp [hlast, bind, Except.bind, pure, Except.pure]

theorem dispatch_follows (h : Agrees judge grammar allocate scan events buffer) :
    Follows judge grammar allocate
      (events ++ if buffer = [] then [] else [dispatched buffer]) [] (scan.dispatch judge) := by
  obtain ⟨stop, hslices, hstop, hwithin⟩ := h.slices
  have hbuffer := h.open_data
  cases hdata : scan.data with
  | none =>
    rw [hdata] at hbuffer
    have hnone : buffer = [] := hbuffer
    subst hnone
    simp only [Scan.dispatch, hdata, if_true, List.append_nil]
    exact h
  | some start =>
    rw [hdata] at hbuffer hstop
    have hstart : start = stop := hstop
    subst hstart
    rw [Option.elim_some] at hbuffer
    rw [hbuffer, if_neg (by simp), dispatched_append]
    simp only [Scan.dispatch, hdata]
    by_cases hempty : scan.eventData.bytes.length = start
    · rw [if_pos hempty]
      refine ⟨.empty h.nonempty ?_ h.judged, start, hslices⟩
      rw [h.dispatched, ← hempty, List.drop_length]
    · rw [if_neg hempty]
      generalize hpayload : scan.eventData.bytes.drop start = payload
      have hlength : start + payload.length = scan.eventData.bytes.length := by
        rw [← hpayload, List.length_drop]
        omega
      have hslices' : Slices scan.eventData.bytes (scan.passed ++ [⟨start, payload⟩])
          (start + payload.length) :=
        .snoc hslices (by omega) (by rw [hpayload, List.take_length])
      have hnonempty : [] ∉ payloads (scan.passed ++ [⟨start, payload⟩]) := by
        rw [payloads_snoc, List.mem_append, not_or, List.mem_singleton]
        refine ⟨h.nonempty, fun hnil => hempty ?_⟩
        rw [← hnil] at hlength
        exact hlength.symm
      cases hjudge : judge scan.grammar payload with
      | error e =>
        dsimp only
        refine ⟨.grammar (payloads_snoc _ _ _) hnonempty ?_ h.judged hjudge, _, hslices'⟩
        rw [payloads_snoc, h.dispatched]
      | ok next =>
        dsimp only
        refine ⟨h.allocate, ⟨_, hslices', hlength.symm, Nat.le_of_eq hlength⟩, ?_, hnonempty, rfl, ?_⟩
        · rw [payloads_snoc, h.dispatched]
        · rw [payloads_snoc, foldlM_snoc h.judged, hjudge]

theorem append_error {self : EventData} {newline : Bool} (h : self.append newline bytes = .error e) :
    e = .eventDataScratchExhausted ∧ ∃ total, self.allocate self.bytes.length total = false := by
  unfold EventData.append at h
  dsimp only at h
  generalize (if newline then [ascii '\n'] else []) ++ bytes = written at h
  split at h
  · cases h
  · rename_i hrefused
    cases h
    exact ⟨rfl, _, Bool.eq_false_iff.mpr hrefused⟩

theorem append_ok {self eventData : EventData} {newline : Bool}
    (h : (self.append newline bytes : Except (Reject ε) EventData) = .ok eventData) :
    { self with bytes := self.bytes ++ ((if newline then [ascii '\n'] else []) ++ bytes) } =
      eventData := by
  unfold EventData.append at h
  dsimp only at h
  generalize (if newline then [ascii '\n'] else []) ++ bytes = written at h ⊢
  split at h
  · exact Except.ok.inj h
  · cases h

section

variable (h : Agrees judge grammar allocate scan events buffer)

include h

/-- What a write to the event data leaves, behind what is read of the open event. -/
theorem append_follows (newline : Bool)
    (bytes : List UInt8) (start : Nat) (hstart : scan.data.getD scan.eventData.bytes.length = start)
    (hnewline : newline = scan.data.isSome) :
    Follows judge grammar allocate events (buffer ++ bytes ++ [ascii '\n'])
      (scan.write (some start) newline bytes) := by
  obtain ⟨stop, hslices, hstop, hwithin⟩ := h.slices
  rw [hstart] at hstop
  subst hstop
  unfold Scan.write
  cases happend : (scan.eventData.append newline bytes : Except (Reject ε) EventData) with
  | error e =>
    obtain ⟨rfl, total, hrefused⟩ := append_error happend
    refine ⟨.exhausted h.nonempty (by rw [h.dispatched]) h.judged ⟨scan.eventData.bytes.length, total, ?_⟩,
      _, hslices⟩
    rw [← h.allocate]
    exact hrefused
  | ok eventData =>
      obtain rfl := append_ok happend
      refine ⟨h.allocate, ⟨start, hslices.append _, rfl, ?_⟩, h.dispatched, h.nonempty, ?_, h.judged⟩
      · rw [List.length_append]
        omega
      · have hbuffer := h.open_data
        rw [Option.elim_some, List.drop_append_of_le_length hwithin, hbuffer]
        cases hdata : scan.data with
        | none =>
          rw [hdata] at hstart hnewline
          rw [hnewline, ← hstart]
          simp
        | some start' =>
          rw [hdata] at hstart hnewline
          have hsame : start' = start := hstart
          rw [hnewline, hsame]
          simp

theorem data_follows (line : List UInt8) :
    Follows judge grammar allocate events (buffer ++ line.drop (skipOf line) ++ [ascii '\n'])
      (scan.dataLine line) := by
  have hdata : (if scan.data.isSome then scan.data else some scan.eventData.bytes.length) =
      some (scan.data.getD scan.eventData.bytes.length) := by
    cases scan.data <;> rfl
  rw [Scan.dataLine, hdata]
  split
  · exact append_follows h _ _ _ rfl rfl
  · rename_i hnothing
    obtain ⟨hnone, hempty⟩ := not_or.mp hnothing
    have hvalue : line.drop (skipOf line) = [] := List.drop_eq_nil_of_le (Nat.le_of_not_lt hempty)
    rw [Option.not_isSome_iff_eq_none] at hnone
    obtain ⟨stop, hslices, hstop, hwithin⟩ := h.slices
    have hbuffer := h.open_data
    rw [hnone] at hstop hbuffer
    rw [hvalue, hnone, hbuffer]
    refine ⟨h.allocate, ⟨stop, hslices, hstop, hwithin⟩, h.dispatched, h.nonempty, ?_, h.judged⟩
    simp

/-- **One line** is read as the standard reads it. -/
theorem line_follows {line : List UInt8}
    (hline : line ≠ []) :
    Follows judge grammar allocate events (processLine buffer line) (scan.line judge line) := by
  rw [Scan.line, if_neg hline, processLine_eq]
  by_cases hdata : line = text "data" ∨ (text "data:").isPrefixOf line
  · rw [if_pos hdata, if_pos hdata]
    exact data_follows h line
  · rw [if_neg hdata, if_neg hdata]
    exact h

end

/-! ## Whole captures -/

/-- A rejection within the stream is one of the whole stream. -/
theorem Ends.later {passed : List (List UInt8)}
    (h : Ends judge grammar allocate passed events buffer (some e))
    (hopen : e ≠ .incompleteSseEvent) (more : List (List UInt8)) (pending : List UInt8) :
    Ends judge grammar allocate passed (events ++ more) pending (some e) := by
  have hextends : events <+: events ++ more := List.prefix_append _ _
  cases h with
  | incomplete => exact absurd rfl hopen
  | empty nonempty next judged => exact .empty nonempty (next.trans hextends) judged
  | exhausted nonempty before judged refused =>
    exact .exhausted nonempty (before.trans hextends) judged refused
  | grammar split nonempty before judged rejected =>
    exact .grammar split nonempty (before.trans hextends) judged rejected

theorem line_complete {next : Scan γ} {line : List UInt8}
    (h : scan.line judge line = (next, some e)) : e ≠ .incompleteSseEvent := by
  rintro rfl
  unfold Scan.line Scan.dispatch Scan.dataLine Scan.write at h
  split at h
  · split at h
    · cases h
    · split at h
      · cases h
      · dsimp only at h
        split at h <;> cases h
  · split at h
    · dsimp only at h
      split at h
      · split at h
        · rename_i happend
          cases h
          cases (append_error happend).1
        · cases h
      · cases h
    · cases h

/-- **Lines one after another**, by induction on them. -/
theorem run_follows (h : Agrees judge grammar allocate scan events buffer)
    (lines : List (List UInt8)) :
    Follows judge grammar allocate (events ++ ServerSentEvents.events buffer lines)
      (buffered buffer lines) (scan.run judge lines) := by
  induction lines generalizing scan events buffer with
  | nil =>
    rw [ServerSentEvents.events, List.append_nil]
    exact h
  | cons line lines ih =>
    rw [Scan.run, buffered]
    by_cases hline : line = []
    · subst hline
      have hstep := dispatch_follows h
      rw [events_blank, ← List.append_assoc, if_pos rfl, Scan.line, if_pos rfl]
      cases hnext : scan.dispatch judge with
      | mk next rejected =>
        rw [hnext] at hstep
        cases rejected with
        | none => exact ih hstep
        | some e =>
          have hcomplete : e ≠ .incompleteSseEvent :=
            line_complete (show scan.line judge [] = (next, some e) from hnext)
          exact ⟨hstep.1.later hcomplete _ _, hstep.2⟩
    · have hstep := line_follows h hline
      rw [ServerSentEvents.events, if_neg hline, if_neg hline]
      cases hnext : scan.line judge line with
      | mk next rejected =>
        rw [hnext] at hstep
        cases rejected with
        | none => exact ih hstep
        | some e => exact ⟨hstep.1.later (line_complete hnext) _ _, hstep.2⟩

/-- **The event stream.** What is passed to the grammar are the events that the standard has in
the capture, up to the first rejection, each payload a slice of the event data behind the one
before; and apart from the grammar and the budget only an empty payload and an event left open
are rejected. -/
theorem read_stream (judge : Judge γ ε) (allocate : Nat → Nat → Bool) (grammar : γ)
    (capture : List UInt8) :
    Ends judge grammar allocate (payloads (read judge allocate grammar capture).1.passed)
        (whatwg capture) (pending capture) (read judge allocate grammar capture).2 ∧
      ∃ stop, Slices (read judge allocate grammar capture).1.eventData.bytes
        (read judge allocate grammar capture).1.passed stop := by
  have hstart : Agrees judge grammar allocate
      ({ eventData := { allocate }, grammar : Scan γ }) [] [] :=
    ⟨rfl, ⟨0, .nil, rfl, Nat.le_refl 0⟩, rfl, List.not_mem_nil, rfl, rfl⟩
  have hrun := run_follows hstart (allLines (ServerSentEvents.withoutMark capture))
  rw [← lines_eq, List.nil_append, events_allLines, ← whatwg, ← pending_eq, ← withoutMark_eq]
    at hrun
  rw [read]
  cases hlines : ({ eventData := { allocate }, grammar : Scan γ }).lines judge
      (withoutMark capture) with
  | mk scan rejected =>
    rw [hlines] at hrun
    cases rejected with
    | some e => exact hrun
    | none =>
      obtain ⟨stop, hslices, -, -⟩ := hrun.slices
      refine ⟨?_, stop, hslices⟩
      have hbuffer := hrun.open_data
      dsimp only
      cases hdata : scan.data with
      | none =>
        rw [hdata] at hbuffer
        exact .accepted hrun.dispatched hrun.nonempty hbuffer hrun.judged
      | some start =>
        rw [hdata] at hbuffer
        exact .incomplete hrun.dispatched hrun.nonempty (by rw [hbuffer]; simp) hrun.judged

end Rui.Answers
