import Rui.Requests.JsonCursor

/-!
# What a drained JSON cursor has written

Between two calls, what was written and what is pending is the escaping of the
content behind the offset, and every unit of allowance paid for one byte read
or one byte written. A call that does not finish spends its whole allowance,
so calls finish.
-/

namespace Rui.Requests

open Rui.Json Library

/-- The escaping a cursor presents its content in. -/
def escaping (nested : Bool) (content : List UInt8) : List UInt8 :=
  if nested then encodeJsonStringChars (encodeJsonStringChars content)
  else encodeJsonStringChars content

theorem escaping_append (nested : Bool) (content more : List UInt8) :
    escaping nested (content ++ more) = escaping nested content ++ escaping nested more := by
  cases nested <;> simp [escaping]

variable {content emitted : List UInt8} {cursor : JsonCursor} {bytesLeft : Nat} {source : Source}

theorem escaping_of_plain (nested : Bool) (h : ∀ byte ∈ content, plain byte = true) :
    escaping nested content = content := by
  cases nested <;> simp [escaping, encodeJsonStringChars_of_plain h]

/-! ## The invariant of a cursor -/

/-- A cursor over `content` that has written `emitted`. -/
structure Tracks (content : List UInt8) (cursor : JsonCursor) (emitted : List UInt8) : Prop where
  offset_le : cursor.offset ≤ content.length
  window : cursor.buffer <+: content.drop cursor.bufferStart
  output : emitted ++ cursor.encoded =
    escaping cursor.nestedString (content.take cursor.offset)

theorem tracks_start (content : List UInt8) (nested : Bool) :
    Tracks content { nestedString := nested } [] where
  offset_le := Nat.zero_le _
  window := List.nil_prefix
  output := by cases nested <;> rfl

/-- The content read and written so far, each byte a unit of allowance. -/
def JsonCursor.spent (cursor : JsonCursor) (emitted : List UInt8) : Nat :=
  cursor.offset + emitted.length

/-- What a cursor tracking `content` may have spent in all. -/
def total (nested : Bool) (content : List UInt8) : Nat :=
  content.length + (escaping nested content).length

theorem Tracks.spent_le (h : Tracks content cursor emitted) :
    cursor.spent emitted ≤ total cursor.nestedString content := by
  have hsplit := escaping_append cursor.nestedString (content.take cursor.offset)
    (content.drop cursor.offset)
  rw [List.take_append_drop, ← h.output] at hsplit
  have hlength := congrArg List.length hsplit
  simp only [List.length_append] at hlength
  have := h.offset_le
  simp only [JsonCursor.spent, total]
  omega

/-- A move of the cursor under an allowance, from `bytesLeft` to `left`. -/
structure Moved (content : List UInt8) (cursor : JsonCursor) (emitted : List UInt8)
    (bytesLeft : Nat) (next : JsonCursor) (written : List UInt8) (left : Nat) : Prop where
  tracks : Tracks content next (emitted ++ written)
  nested : next.nestedString = cursor.nestedString
  paid : bytesLeft + cursor.spent emitted = left + next.spent (emitted ++ written)

theorem Moved.trans {written more : List UInt8} {next last : JsonCursor} {left rest : Nat}
    (h : Moved content cursor emitted bytesLeft next written left)
    (h' : Moved content next (emitted ++ written) left last more rest) :
    Moved content cursor emitted bytesLeft last (written ++ more) rest where
  tracks := List.append_assoc .. ▸ h'.tracks
  nested := h'.nested.trans h.nested
  paid := by rw [h.paid, h'.paid, List.append_assoc]

/-! ## One round -/

section

variable (h : Tracks content cursor emitted)

include h

theorem Tracks.flush (bytesLeft : Nat) :
    ∃ next written left, cursor.flush bytesLeft = .again next written left ∧
      Moved content cursor emitted bytesLeft next written left := by
  refine ⟨_, _, _, rfl, ⟨h.offset_le, h.window, ?_⟩, rfl, ?_⟩
  · rw [List.append_assoc, List.take_append_drop]
    exact h.output
  · simp only [JsonCursor.spent, List.length_append, List.length_take]
    omega

/-- A refill leaves the window over the offset. -/
theorem Tracks.refill (serves : source.Serves content)
    (hleft : 0 < bytesLeft) (hoffset : cursor.offset < content.length) :
    ∃ next, cursor.refill source source.contentLength bytesLeft = .ok (some next) ∧
      Tracks content next emitted ∧ next.offset = cursor.offset ∧
      next.encoded = cursor.encoded ∧ next.nestedString = cursor.nestedString ∧
      next.bufferStart ≤ next.offset ∧ next.offset < next.bufferStart + next.buffer.length := by
  by_cases hin : cursor.offset < cursor.bufferStart ∨
      cursor.offset ≥ cursor.bufferStart + cursor.buffer.length
  · have hwanted : 0 < min (source.contentLength - cursor.offset) (min windowBytes bytesLeft) := by
      have : 0 < windowBytes := by decide
      have := serves.length
      omega
    obtain ⟨hpos, hle⟩ := serves.clip cursor.offset _ hwanted
    simp only [JsonCursor.refill, if_pos hin]
    generalize source.maxWindow cursor.offset
      (min (source.contentLength - cursor.offset) (min windowBytes bytesLeft)) = wanted at hpos hle
    have hfit : cursor.offset + wanted ≤ content.length := by
      have := serves.length
      omega
    have hlength : ((content.drop cursor.offset).take wanted).length = wanted := by
      rw [List.length_take, List.length_drop]
      omega
    refine ⟨{ cursor with
        bufferStart := cursor.offset, buffer := (content.drop cursor.offset).take wanted },
      ?_, ⟨h.offset_le, List.take_prefix _ _, h.output⟩, rfl, rfl, rfl, Nat.le_refl _, ?_⟩
    · rw [if_neg (Nat.ne_of_gt hpos), serves.read _ _ hfit]
      simp only [bind, Except.bind, pure, Except.pure]
      rw [if_neg (not_not.mpr hlength)]
    · simp only [hlength]
      omega
  · refine ⟨cursor, by rw [JsonCursor.refill, if_neg hin], h, rfl, rfl, rfl, ?_, ?_⟩ <;> omega

/-- A scan of a window over the offset goes on. -/
theorem Tracks.scan (hencoded : cursor.encoded = [])
    (hleft : 0 < bytesLeft) (hstart : cursor.bufferStart ≤ cursor.offset)
    (hend : cursor.offset < cursor.bufferStart + cursor.buffer.length) :
    ∃ next written left, cursor.scan bytesLeft = .ok (.again next written left) ∧
      Moved content cursor emitted bytesLeft next written left := by
  have houtput := h.output
  rw [hencoded, List.append_nil] at houtput
  have hwindow : cursor.buffer.drop (cursor.offset - cursor.bufferStart) <+:
      content.drop cursor.offset := by
    obtain ⟨rest, hrest⟩ := h.window
    refine ⟨rest, ?_⟩
    rw [← List.drop_append_of_le_length (by omega), hrest, List.drop_drop,
      Nat.add_sub_cancel' hstart]
  have hnonempty : cursor.buffer.drop (cursor.offset - cursor.bufferStart) ≠ [] := by
    rw [Ne, List.drop_eq_nil_iff]
    omega
  simp only [JsonCursor.scan]
  generalize cursor.buffer.drop (cursor.offset - cursor.bufferStart) = available at *
  generalize hrun : writePlainJsonRun available bytesLeft = run
  obtain ⟨hfront, hplain, hspent⟩ := writePlainJsonRun_spec hrun
  -- Content taken past the offset, whether a run or one byte.
  have htake : ∀ taken : List UInt8, taken <+: available →
      content.take (cursor.offset + taken.length) = content.take cursor.offset ++ taken ∧
        cursor.offset + taken.length ≤ content.length := by
    intro taken htaken
    obtain ⟨rest, hrest⟩ := htaken.trans hwindow
    have hlength := congrArg List.length hrest
    rw [List.length_append, List.length_drop] at hlength
    refine ⟨?_, by have := h.offset_le; omega⟩
    rw [List.take_add, ← hrest, List.take_left]
  by_cases hzero : run.1.length ≠ 0
  · obtain ⟨hcontent, hfit⟩ := htake run.1 hfront
    refine ⟨_, _, _, if_pos hzero, ⟨hfit, h.window, ?_⟩, rfl, ?_⟩
    · show emitted ++ run.1 ++ cursor.encoded =
        escaping cursor.nestedString (content.take (cursor.offset + run.1.length))
      rw [hencoded, List.append_nil, houtput, hcontent, escaping_append,
        escaping_of_plain _ hplain]
    · simp only [JsonCursor.spent, List.length_append]
      omega
  · rw [if_neg hzero]
    cases available with
    | nil => exact absurd rfl hnonempty
    | cons byte rest =>
      obtain ⟨hcontent, hfit⟩ := htake [byte] ⟨rest, rfl⟩
      refine ⟨_, _, _, rfl, ⟨hfit, h.window, ?_⟩, rfl, ?_⟩
      · simp only [JsonCursor.takeByte, List.append_nil]
        rw [houtput, show cursor.offset + 1 = cursor.offset + [byte].length from rfl, hcontent,
          escaping_append]
        simp only [escaping, encodeByte_eq, encodeJsonStringChars_singleton]
      · simp only [JsonCursor.spent, JsonCursor.takeByte, List.append_nil]
        omega

/-- **The round rule.** A round finishes with everything written, or moves on. -/
theorem Tracks.round (serves : source.Serves content)
    (hleft : 0 < bytesLeft) :
    (cursor.round source bytesLeft = .ok (.finished true cursor) ∧ cursor.encoded = [] ∧
      cursor.offset = content.length) ∨
    ∃ next written left, cursor.round source bytesLeft = .ok (.again next written left) ∧
      Moved content cursor emitted bytesLeft next written left := by
  simp only [JsonCursor.round]
  by_cases hencoded : cursor.encoded = []
  · rw [if_neg (not_not.mpr hencoded)]
    by_cases hdone : cursor.offset = source.contentLength
    · rw [if_pos hdone]
      exact .inl ⟨rfl, hencoded, hdone.trans serves.length⟩
    · have hoffset : cursor.offset < content.length :=
        Nat.lt_of_le_of_ne h.offset_le fun heq => hdone (heq.trans serves.length.symm)
      obtain ⟨filled, hfill, htracks, hoff, henc, hnested, hstart, hend⟩ :=
        h.refill serves hleft hoffset
      obtain ⟨next, written, left, hscan, hmoved⟩ :=
        htracks.scan (henc.trans hencoded) hleft hstart hend
      refine .inr ⟨next, written, left, ?_, hmoved.tracks, hmoved.nested.trans hnested, ?_⟩
      · rw [if_neg hdone, hfill]
        exact hscan
      · have := hmoved.paid
        simp only [JsonCursor.spent] at this ⊢
        omega
  · obtain ⟨next, written, left, hflush, hmoved⟩ := h.flush bytesLeft
    rw [if_pos hencoded, hflush]
    exact .inr ⟨next, written, left, rfl, hmoved⟩

end

/-! ## Whole calls -/

/-- What a call under an allowance leaves. -/
structure Advanced (content : List UInt8) (cursor : JsonCursor) (emitted : List UInt8)
    (bytesLeft : Nat) (call : JsonCursor.Advance) : Prop where
  moved : Moved content cursor emitted bytesLeft call.cursor call.written call.bytesLeft
  within : call.bytesLeft ≤ bytesLeft
  finished : call.done = true → call.cursor.encoded = [] ∧ call.cursor.offset = content.length
  exhausted : call.done = false → call.bytesLeft = 0

/-- **The call rule**, by induction on the allowance. -/
theorem Tracks.advance (h : Tracks content cursor emitted) (serves : source.Serves content)
    (bytesLeft : Nat) : ∃ call, cursor.advance source bytesLeft = .ok call ∧
      Advanced content cursor emitted bytesLeft call := by
  induction bytesLeft using Nat.strong_induction_on generalizing cursor emitted with
  | _ bytesLeft ih =>
    have hstay : Moved content cursor emitted bytesLeft cursor [] bytesLeft :=
      ⟨by rwa [List.append_nil], rfl, by rw [List.append_nil]⟩
    rw [JsonCursor.advance.eq_def]
    by_cases hzero : bytesLeft = 0
    · rw [dif_pos hzero]
      exact ⟨_, rfl, hstay, Nat.le_refl _, fun hdone => absurd hdone Bool.false_ne_true,
        fun _ => hzero⟩
    · rw [dif_neg hzero]
      rcases h.round serves (Nat.pos_of_ne_zero hzero) with
        ⟨hround, hend⟩ | ⟨next, written, left, hround, hmoved⟩
      · split
        · simp_all
        · rename_i done last heq
          rw [hround] at heq
          cases heq
          exact ⟨_, rfl, hstay, Nat.le_refl _, fun _ => hend, fun hdone => by simp at hdone⟩
        · simp_all
      · have hlt := JsonCursor.round_lt hzero hround
        obtain ⟨rest, hrest, hadvanced⟩ := ih left hlt hmoved.tracks
        split
        · simp_all
        · simp_all
        · rename_i next' written' left' heq
          rw [hround] at heq
          cases heq
          simp only [hrest, bind, Except.bind, pure, Except.pure]
          exact ⟨_, rfl, hmoved.trans hadvanced.moved, Nat.le_trans hadvanced.within hlt.le,
            hadvanced.finished, hadvanced.exhausted⟩

/-! ## Repeated calls -/

/-- What a caller sees of one call: whether it finished, what it wrote and the
allowance it used. -/
structure Reply where
  done : Bool
  written : List UInt8
  spent : Nat
  deriving DecidableEq, Repr

/-- A cursor called with one allowance after another. -/
def calls (source : Source) : Machine JsonCursor Nat (Except CursorError Reply) where
  call cursor allowance :=
    match cursor.advance source allowance with
    | .error e => (cursor, .error e)
    | .ok call => (call.cursor, .ok ⟨call.done, call.written, allowance - call.bytesLeft⟩)

/-- A run of calls that all answered, the last alone reporting completion,
each within its allowance and each but the last using some of it. -/
structure Completes (steps : List (Machine.Step JsonCursor Nat (Except CursorError Reply)))
    (replies : List Reply) : Prop where
  answered : steps.map (fun step => step.reply) = replies.map .ok
  last : ∃ front reply, replies = front ++ [reply] ∧ reply.done = true ∧
    ∀ reply ∈ front, reply.done = false
  within : ∀ step ∈ steps, ∀ reply, step.reply = .ok reply →
    reply.spent ≤ step.op ∧ (reply.done = false → 1 ≤ reply.spent)

theorem Completes.cons {step : Machine.Step JsonCursor Nat (Except CursorError Reply)}
    {steps : List (Machine.Step JsonCursor Nat (Except CursorError Reply))} {reply : Reply}
    {replies : List Reply} (h : Completes steps replies) (hreply : step.reply = .ok reply)
    (hdone : reply.done = false) (hspent : reply.spent ≤ step.op ∧ 1 ≤ reply.spent) :
    Completes (step :: steps) (reply :: replies) where
  answered := by rw [List.map_cons, List.map_cons, h.answered, hreply]
  last := by
    obtain ⟨front, last, rfl, hlast, hfront⟩ := h.last
    exact ⟨reply :: front, last, rfl, hlast, List.forall_mem_cons.mpr ⟨hdone, hfront⟩⟩
  within := List.forall_mem_cons.mpr ⟨fun reply' h' => by
    obtain rfl : reply = reply' := Except.ok.inj (hreply.symm.trans h')
    exact ⟨hspent.1, fun _ => hspent.2⟩, h.within⟩

/-- Calls finish, by induction on what is still to be spent. -/
theorem Tracks.completes (h : Tracks content cursor emitted) (serves : source.Serves content)
    {allowances : Nat → Nat} (positive : ∀ k, 0 < allowances k) (first : Nat) :
    ∃ n replies, Completes ((calls source).history cursor
        ((List.range' first (n + 1)).map allowances)) replies ∧
      emitted ++ replies.flatMap Reply.written = escaping cursor.nestedString content ∧
      cursor.spent emitted + (replies.map Reply.spent).sum = total cursor.nestedString content := by
  obtain ⟨rest, hrest⟩ : ∃ rest, total cursor.nestedString content = cursor.spent emitted + rest :=
    ⟨_, (Nat.add_sub_of_le h.spent_le).symm⟩
  induction rest using Nat.strong_induction_on generalizing cursor emitted first with
  | _ rest ih =>
    obtain ⟨call, hcall, hadvanced⟩ := h.advance serves (allowances first)
    have hstep : (calls source).call cursor (allowances first) =
        (call.cursor, .ok ⟨call.done, call.written, allowances first - call.bytesLeft⟩) := by
      simp only [calls, hcall]
    have hpaid := hadvanced.moved.paid
    have hwithin := hadvanced.within
    cases hdone : call.done with
    | true =>
      obtain ⟨hencoded, hoffset⟩ := hadvanced.finished hdone
      have houtput := hadvanced.moved.tracks.output
      rw [hencoded, List.append_nil, hoffset, List.take_length, hadvanced.moved.nested] at houtput
      refine ⟨0, [⟨true, call.written, allowances first - call.bytesLeft⟩], ⟨?_, ?_, ?_⟩, ?_, ?_⟩
      · simp [Machine.history, Machine.stepFrom, hstep, hdone]
      · exact ⟨[], _, rfl, rfl, by simp⟩
      · simp [Machine.history, Machine.stepFrom, hstep, hdone]
      · simpa using houtput
      · simp only [List.map_cons, List.map_nil, List.sum_cons, List.sum_nil, total, ← houtput]
        simp only [JsonCursor.spent] at hpaid ⊢
        omega
    | false =>
      have hzero := hadvanced.exhausted hdone
      have hpos := positive first
      have htotal := hadvanced.moved.tracks.spent_le
      rw [hadvanced.moved.nested] at htotal
      obtain ⟨n, replies, hcompletes, houtput, hsum⟩ :=
        ih (rest - allowances first) (by omega) hadvanced.moved.tracks (first + 1)
          (by rw [hadvanced.moved.nested]; omega)
      rw [hadvanced.moved.nested] at houtput hsum
      refine ⟨n + 1, ⟨false, call.written, allowances first⟩ :: replies, ?_, ?_, ?_⟩
      · rw [List.range'_succ, List.map_cons, Machine.history, hstep]
        refine hcompletes.cons ?_ rfl ⟨Nat.le_refl _, hpos⟩
        simp [Machine.stepFrom, hstep, hdone, hzero]
      · rw [List.flatMap_cons, ← List.append_assoc]
        exact houtput
      · simp only [List.map_cons, List.sum_cons]
        omega

/-- **A drained cursor has written the escaping.** Under any positive
allowances the calls finish, having written exactly the escaped content for one
unit of allowance each byte read and each byte written. -/
theorem advance_escapes {source : Source} {content : List UInt8} (serves : source.Serves content)
    (nested : Bool) {allowances : Nat → Nat} (positive : ∀ k, 0 < allowances k) :
    ∃ n replies, Completes ((calls source).history { nestedString := nested }
        ((List.range (n + 1)).map allowances)) replies ∧
      replies.flatMap Reply.written = escaping nested content ∧
      (replies.map Reply.spent).sum = content.length + (escaping nested content).length := by
  obtain ⟨n, replies, hcompletes, houtput, hsum⟩ :=
    (tracks_start content nested).completes serves positive 0
  rw [← List.range_eq_range'] at hcompletes
  exact ⟨n, replies, hcompletes, by simpa using houtput, by simpa [JsonCursor.spent, total] using hsum⟩

/-- A quote and a newline behind one-byte windows, one unit at a time. -/
theorem advance_escapes_bytewise :
    ∃ n replies, Completes
        ((calls (Source.partitioned [0x22, 0x0a] [1, 2])).history { nestedString := true }
          ((List.range (n + 1)).map fun _ => 1)) replies ∧
      replies.flatMap Reply.written = escaping true [0x22, 0x0a] ∧
      (replies.map Reply.spent).sum =
        [(0x22 : UInt8), 0x0a].length + (escaping true [0x22, 0x0a]).length :=
  advance_escapes (Source.partitioned_serves [0x22, 0x0a] [1, 2]) true fun _ => Nat.one_pos

end Rui.Requests
