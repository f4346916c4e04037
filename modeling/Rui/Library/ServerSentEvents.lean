import Rui.Library.Ascii

/-!
# Server-sent events

What the standard says of the body of an event stream: its lines, the field of
each, and the events they dispatch.
-/

namespace Library.ServerSentEvents

/-! ## The interpretation of a stream -/

/-- One leading byte order mark is not part of the stream. -/
def withoutMark : List UInt8 → List UInt8
  | 0xEF :: 0xBB :: 0xBF :: rest => rest
  | body => body

/-- The lines that are ended, by CRLF, CR or LF; `line` is the one begun. -/
def lines (line : List UInt8) : List UInt8 → List (List UInt8)
  | [] => []
  | 13 :: 10 :: rest => line :: lines [] rest
  | 13 :: rest => line :: lines [] rest
  | 10 :: rest => line :: lines [] rest
  | byte :: rest => lines (line ++ [byte]) rest

/-- One space after the colon is not part of the value. -/
def withoutSpace (value : List UInt8) : List UInt8 :=
  if value.head? = some (ascii ' ') then value.tail else value

/-- The field of a line: its name and its value, empty where it has no colon. -/
def fieldOf (line : List UInt8) : List UInt8 × List UInt8 :=
  (line.takeWhile (· ≠ ascii ':'), withoutSpace (line.dropWhile (· ≠ ascii ':')).tail)

/-- A data field adds its value and an LF to the data buffer; every other field, and a comment,
leaves it. -/
def processLine (buffer line : List UInt8) : List UInt8 :=
  if line.head? = some (ascii ':') then buffer
  else if (fieldOf line).1 = text "data" then buffer ++ (fieldOf line).2 ++ [ascii '\n']
  else buffer

/-- The data of the event a blank line dispatches. -/
def dispatched (buffer : List UInt8) : List UInt8 :=
  if buffer.getLast? = some (ascii '\n') then buffer.dropLast else buffer

/-- The events of the lines after a data buffer; one still open at the end is dropped. -/
def events (buffer : List UInt8) : List (List UInt8) → List (List UInt8)
  | [] => []
  | line :: rest =>
    if line = [] then
      if buffer = [] then events [] rest else dispatched buffer :: events [] rest
    else events (processLine buffer line) rest

/-- The events of a body. -/
def whatwg (body : List UInt8) : List (List UInt8) := events [] (lines [] (withoutMark body))

/-- The data buffer behind lines. -/
def buffered (buffer : List UInt8) : List (List UInt8) → List UInt8
  | [] => buffer
  | line :: rest => buffered (if line = [] then [] else processLine buffer line) rest

/-- What is behind the last line that is ended. -/
def lastLine (body : List UInt8) : List UInt8 :=
  body.rtakeWhile fun byte => byte ≠ ascii '\r' ∧ byte ≠ ascii '\n'

/-- The data of the event that is open where a body ends, the last line read whether it is ended
or not. -/
def pending (body : List UInt8) : List UInt8 :=
  processLine (buffered [] (lines [] (withoutMark body))) (lastLine (withoutMark body))

/-! ## Lines -/

/-- What follows a CR: an LF right after it belongs to it. -/
def resumed : Bool → List UInt8 → List UInt8
  | true, 10 :: rest => rest
  | _, bytes => bytes

theorem lines_cr (line rest : List UInt8) :
    lines line (ascii '\r' :: rest) = line :: lines [] (resumed true rest) := by
  show lines line (13 :: rest) = _
  match rest with
  | [] => rfl
  | byte :: rest =>
    by_cases h : byte = 10
    · subst h
      rfl
    · rw [lines]
      · rw [resumed]
        rintro more - ⟨⟩
        exact h rfl
      · rintro more ⟨⟩
        exact h rfl

theorem lines_lf (line rest : List UInt8) :
    lines line (ascii '\n' :: rest) = line :: lines [] rest := rfl

variable {byte : UInt8} {buffer line : List UInt8}

theorem resumed_other {cr : Bool} (h : ¬(cr = true ∧ byte = ascii '\n')) (rest : List UInt8) :
    resumed cr (byte :: rest) = byte :: rest := by
  rw [resumed]
  rintro more hcr ⟨⟩
  exact h ⟨hcr, rfl⟩

theorem lines_end (h : byte = ascii '\r' ∨ byte = ascii '\n') (line rest : List UInt8) :
    lines line (byte :: rest) = line :: lines [] (resumed (byte == ascii '\r') rest) := by
  rcases h with rfl | rfl
  · exact lines_cr line rest
  · exact lines_lf line rest

theorem lines_byte (hcr : byte ≠ ascii '\r') (hlf : byte ≠ ascii '\n') (line rest : List UInt8) :
    lines line (byte :: rest) = lines (line ++ [byte]) rest := by
  rw [lines]
  · rintro more rfl
    exact absurd rfl hcr
  · rintro rfl
    exact absurd rfl hcr
  · rintro rfl
    exact absurd rfl hlf

theorem lines_prefix {part : List UInt8} (h : ∀ b ∈ part, b ≠ ascii '\r' ∧ b ≠ ascii '\n')
    (line rest : List UInt8) : lines line (part ++ rest) = lines (line ++ part) rest := by
  induction part generalizing line with
  | nil => rw [List.append_nil, List.nil_append]
  | cons byte part ih =>
    have hbyte := h byte List.mem_cons_self
    rw [List.cons_append, lines_byte hbyte.1 hbyte.2,
      ih (fun b hb => h b (List.mem_cons_of_mem _ hb)), List.append_assoc, List.singleton_append]

/-- What a line begins with stays at its head. -/
theorem lines_begun (part line rest : List UInt8) :
    lines (part ++ line) rest = (lines line rest).modifyHead (part ++ ·) := by
  induction hn : rest.length using Nat.strongRecOn generalizing line rest with
  | ind n ih =>
    cases rest with
    | nil => rfl
    | cons byte rest =>
      by_cases hend : byte = ascii '\r' ∨ byte = ascii '\n'
      · rw [lines_end hend, lines_end hend, List.modifyHead_cons]
      · obtain ⟨hcr, hlf⟩ := not_or.mp hend
        rw [lines_byte hcr hlf, lines_byte hcr hlf, List.append_assoc]
        exact ih _ (by rw [← hn, List.length_cons]; omega) _ _ rfl

/-! ## Fields -/

theorem processLine_comment (h : line.head? = some (ascii ':')) :
    processLine buffer line = buffer := by
  rw [processLine, if_pos h]

theorem processLine_other (h : (fieldOf line).1 ≠ text "data") :
    processLine buffer line = buffer := by
  rw [processLine, if_neg h, ite_self]

/-- A line adds to the data buffer what it would put into an empty one. -/
theorem processLine_append (buffer line : List UInt8) :
    processLine buffer line = buffer ++ processLine [] line := by
  simp only [processLine]
  split
  · exact (List.append_nil _).symm
  · split
    · simp only [List.nil_append, List.append_assoc]
    · exact (List.append_nil _).symm

theorem field_of_not_mem (h : ascii ':' ∉ line) : fieldOf line = (line, []) := by
  have hall : ∀ b ∈ line, decide (b ≠ ascii ':') = true := by
    intro b hb
    exact decide_eq_true fun heq => h (heq ▸ hb)
  simp only [fieldOf, List.takeWhile_eq_self_iff.mpr hall, List.dropWhile_eq_nil_iff.mpr hall]
  rfl

theorem field_colon {name : List UInt8} (h : ascii ':' ∉ name) (value : List UInt8) :
    fieldOf (name ++ ascii ':' :: value) = (name, withoutSpace value) := by
  have hall : ∀ b ∈ name, decide (b ≠ ascii ':') = true := by
    intro b hb
    exact decide_eq_true fun heq => h (heq ▸ hb)
  simp only [fieldOf, List.takeWhile_append_of_pos hall, List.dropWhile_append_of_pos hall]
  simp

/-- A name that has its colon is complete. -/
theorem field_name_append (h : ascii ':' ∈ line) (more : List UInt8) :
    (fieldOf (line ++ more)).1 = (fieldOf line).1 := by
  obtain ⟨name, value, rfl, hname⟩ := List.eq_append_cons_of_mem h
  rw [List.append_assoc, List.cons_append, field_colon hname, field_colon hname]

theorem processLine_data (buffer value : List UInt8) :
    processLine buffer (text "data:" ++ value) = buffer ++ withoutSpace value ++ [ascii '\n'] := by
  have hfield := field_colon (show ascii ':' ∉ text "data" by decide) value
  have hhead : ¬(text "data:" ++ value).head? = some (ascii ':') := by
    intro h
    exact absurd (Option.some.inj h) (by decide)
  rw [processLine, if_neg hhead,
    show text "data:" ++ value = text "data" ++ ascii ':' :: value from rfl, hfield, if_pos rfl]

theorem processLine_bare (buffer : List UInt8) :
    processLine buffer (text "data") = buffer ++ [ascii '\n'] := by
  rw [processLine, if_neg (by decide), field_of_not_mem (by decide), if_pos rfl, List.append_nil]

theorem field_name {name : List UInt8} (h : (fieldOf line).1 = name) :
    line = name ∨ ∃ value, line = name ++ ascii ':' :: value := by
  by_cases hcolon : ascii ':' ∈ line
  · obtain ⟨front, value, rfl, hfront⟩ := List.eq_append_cons_of_mem hcolon
    rw [field_colon hfront] at h
    exact .inr ⟨value, by rw [← h]⟩
  · rw [field_of_not_mem hcolon] at h
    exact .inl h

theorem withoutSpace_cons (h : byte ≠ ascii ' ') (value : List UInt8) :
    withoutSpace (byte :: value) = byte :: value :=
  if_neg fun heq => h (Option.some.inj heq)

theorem withoutSpace_append {value : List UInt8} (h : value ≠ []) (more : List UInt8) :
    withoutSpace (value ++ more) = withoutSpace value ++ more := by
  cases value with
  | nil => exact absurd rfl h
  | cons byte value =>
    by_cases hspace : byte = ascii ' '
    · subst hspace
      rfl
    · rw [List.cons_append, withoutSpace_cons hspace, withoutSpace_cons hspace, List.cons_append]

/-! ## The data buffer -/

/-- A data buffer is empty or ends with the LF of its last line. -/
def Closed (buffer : List UInt8) : Prop := buffer = [] ∨ ∃ front, buffer = front ++ [ascii '\n']

theorem dispatched_append (front : List UInt8) : dispatched (front ++ [ascii '\n']) = front := by
  rw [dispatched, if_pos List.getLast?_concat, List.dropLast_concat]

theorem Closed.processLine (h : Closed buffer) (line : List UInt8) :
    Closed (processLine buffer line) := by
  simp only [ServerSentEvents.processLine]
  split
  · exact h
  · split
    · exact .inr ⟨_, rfl⟩
    · exact h

theorem events_blank (buffer : List UInt8) (rest : List (List UInt8)) :
    events buffer ([] :: rest) =
      (if buffer = [] then [] else [dispatched buffer]) ++ events [] rest := by
  rw [events, if_pos rfl]
  split <;> rfl

/-- Data in the buffer shows as soon as an event ends. -/
theorem events_append {data : List UInt8} (hdata : data ≠ []) (hclosed : Closed buffer)
    (rest : List (List UInt8)) : events (data ++ buffer) rest = events buffer rest ↔ [] ∉ rest := by
  induction rest generalizing buffer with
  | nil => simp [events]
  | cons line rest ih =>
    by_cases hline : line = []
    · subst hline
      simp only [events, if_true, List.append_eq_nil_iff, hdata, false_and, if_false,
        List.mem_cons, true_or, not_true, iff_false]
      rcases hclosed with rfl | ⟨front, rfl⟩
      · rw [if_pos rfl]
        intro heq
        have := congrArg List.length heq
        simp at this
      · rw [if_neg (by simp), ← List.append_assoc, dispatched_append, dispatched_append]
        intro heq
        exact hdata (by simpa using (List.cons.inj heq).1)
    · rw [events, if_neg hline, events, if_neg hline, processLine_append, List.append_assoc,
        ← processLine_append, ih (hclosed.processLine line), List.mem_cons, not_or]
      exact ⟨fun h => ⟨Ne.symm hline, h⟩, And.right⟩

/-! ## The last line -/

/-- The lines of a body, the last of them ended or not. -/
def allLines (body : List UInt8) : List (List UInt8) :=
  lines [] body ++ if lastLine body = [] then [] else [lastLine body]

theorem lastLine_end (h : byte = ascii '\r' ∨ byte = ascii '\n') (front rest : List UInt8) :
    lastLine (front ++ byte :: rest) = lastLine rest := by
  unfold lastLine
  induction rest using List.reverseRecOn with
  | nil =>
    rw [List.rtakeWhile_concat_neg, List.rtakeWhile_nil]
    rcases h with rfl | rfl <;> decide
  | append_singleton rest last ih =>
    rw [← List.cons_append, ← List.append_assoc, List.rtakeWhile_concat, List.rtakeWhile_concat, ih]

theorem lastLine_resumed (cr : Bool) (rest : List UInt8) :
    lastLine (resumed cr rest) = lastLine rest := by
  rw [resumed.eq_def]
  split
  · exact (lastLine_end (.inr rfl) [] _).symm
  · rfl

section

variable (h : ∀ b ∈ line, b ≠ ascii '\r' ∧ b ≠ ascii '\n')

include h

theorem lastLine_open : lastLine line = line := by
  rw [lastLine, List.rtakeWhile_eq_self_iff]
  exact fun b hb => decide_eq_true (h b hb)

theorem allLines_end
    (hend : byte = ascii '\r' ∨ byte = ascii '\n') (rest : List UInt8) :
    allLines (line ++ byte :: rest) = line :: allLines (resumed (byte == ascii '\r') rest) := by
  rw [allLines, lines_prefix h, List.nil_append, lines_end hend, lastLine_end hend, allLines,
    lastLine_resumed, List.cons_append]

theorem allLines_open (hline : line ≠ []) :
    allLines line = [line] := by
  have hlines := lines_prefix h [] []
  rw [List.append_nil, List.nil_append] at hlines
  rw [allLines, hlines, lastLine_open h, if_neg hline]
  rfl

end

theorem buffered_append (buffer : List UInt8) (before after : List (List UInt8)) :
    buffered buffer (before ++ after) = buffered (buffered buffer before) after := by
  induction before generalizing buffer with
  | nil => rfl
  | cons line before ih => exact ih _

/-- What is open at the end is what all the lines leave. -/
theorem pending_eq (body : List UInt8) :
    pending body = buffered [] (allLines (withoutMark body)) := by
  rw [pending, allLines, buffered_append]
  split
  · rename_i hnone
    rw [hnone]
    exact processLine_other (by decide)
  · rename_i hsome
    rw [buffered, if_neg hsome, buffered]

theorem events_concat (buffer : List UInt8) (before : List (List UInt8)) (h : line ≠ []) :
    events buffer (before ++ [line]) = events buffer before := by
  induction before generalizing buffer with
  | nil => simp only [List.nil_append, events, if_neg h]
  | cons first before ih => simp only [List.cons_append, events, ih]

/-- A line that nothing ends dispatches nothing. -/
theorem events_allLines (body : List UInt8) :
    events [] (allLines body) = events [] (lines [] body) := by
  rw [allLines]
  split
  · rw [List.append_nil]
  · rename_i hsome
    exact events_concat _ _ hsome

end Library.ServerSentEvents
