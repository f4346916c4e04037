import Rui.Http1.Splits
import Rui.Mcp.EventStreamLaws

/-!
# The reply to an MCP request

`mcp/Request.zig` over `http1/Exchange.zig`: what a connection delivers goes through the
response parser, and the body is read into the one message that answers the request.
How a JSON-RPC message is read is a parameter. Sending is left out, and with it
`ConnectFailed`, which a first send that fails answers before anything is read.
-/

namespace Rui.Mcp.Replies

open Library Library.ServerSentEvents

/-! ## The reader -/

inductive Body
  | json | eventStream
  deriving DecidableEq, Repr

inductive Reading
  | head
  | body (body : Body)
  | failed (status : Nat)
  deriving DecidableEq, Repr

/-- The media type, ignoring parameters and case. -/
def bodyOf (contentType : Option (List UInt8)) : Option Body :=
  contentType.bind fun value =>
    let media := trim (value.takeWhile (· ≠ ascii ';'))
    if eqlIgnoreCase media (text "application/json") then some .json
    else if eqlIgnoreCase media (text "text/event-stream") then some .eventStream
    else none

def readingOf (status : Nat) (contentType : Option (List UInt8)) : Reading :=
  let body := bodyOf contentType
  if status = 200 then body.elim (.failed status) .body
  else if 400 ≤ status ∧ body = some .json then .body .json
  else .failed status

/-- A notification, or what answers the request: a result or an error. -/
inductive Message (ρ : Type)
  | notification
  | answer (message : ρ)

inductive RequestError (ε : Type)
  | response (e : Http1.Error)
  | message (e : ε)
  | answerTooLarge
  | noAnswer
  | connectionLost
  | reachedUnreachable

inductive Outcome (ρ : Type)
  | answered (message : ρ)
  | failed (status : Nat) (body : List UInt8)

/-- What ends a request. -/
abbrev Result (ε ρ : Type) := Except (RequestError ε) (Outcome ρ)

/-- What a request keeps of its reply. -/
structure Reply where
  reading : Reading := .head
  stream : EventStream := {}
  answer : Writer

structure Request where
  parser : Http1.Parser := {}
  held : List UInt8 := []
  reply : Reply

/-- Where a request stands. -/
inductive Turn (ε ρ : Type)
  | waiting (self : Request)
  | done (result : Result ε ρ)

variable {ε ρ : Type} (readMessage : List UInt8 → Except ε (Message ρ))

/-- The loop over a slice of an event stream. -/
def takeEvents (stream : EventStream) (answer : Writer) (rest : List UInt8) :
    Except (Result ε ρ) (EventStream × Writer) :=
  match _h : stream.next answer rest with
  | .error _ => .error (.error .answerTooLarge)
  | .ok (stream, answer, step) =>
    if _hd : step.dispatched then
      match readMessage answer.buffered with
      | .error e => .error (.error (.message e))
      | .ok (.answer message) => .error (.ok (.answered message))
      | .ok .notification => takeEvents stream (.fixed answer.capacity) (rest.drop step.used)
    else .ok (stream, answer)
termination_by rest.length
decreasing_by
  have hused := EventStream.next_used _h
  have := hused.1 _hd
  rw [List.length_drop]
  omega

namespace Reply

def head (self : Reply) (head : Http1.Head) : Except (Result ε ρ) Reply :=
  match head.field (text "Content-Type") with
  | .error e => .error (.error (.response e))
  | .ok contentType => .ok { self with reading := readingOf head.status contentType }

/-- Reads body bytes; an error is the outcome they complete. -/
def take (self : Reply) (bytes : List UInt8) : Except (Result ε ρ) Reply :=
  match self.reading with
  | .head => .error (.error .reachedUnreachable)
  | .failed _ =>
    let room := self.answer.capacity - self.answer.buffered.length
    .ok { self with answer := ⟨self.answer.capacity, self.answer.buffered ++ bytes.take room⟩ }
  | .body .json =>
    if self.answer.buffered.length + bytes.length ≤ self.answer.capacity then
      .ok { self with answer := ⟨self.answer.capacity, self.answer.buffered ++ bytes⟩ }
    else .error (.error .answerTooLarge)
  | .body .eventStream =>
    (takeEvents readMessage self.stream self.answer bytes).map fun (stream, answer) =>
      { self with stream, answer }

def ended (self : Reply) : Result ε ρ :=
  match self.reading with
  | .head => .error .reachedUnreachable
  | .failed status => .ok (.failed status self.answer.buffered)
  | .body .json =>
    match readMessage self.answer.buffered with
    | .error e => .error (.message e)
    | .ok .notification => .error .noAnswer
    | .ok (.answer message) => .ok (.answered message)
  | .body .eventStream => .error .noAnswer

end Reply

namespace Request

theorem next_shorter {parser next : Http1.Parser} {held : List UInt8} {step : Http1.Step}
    (h : parser.next held = .ok (step, next)) (hevent : step.event ≠ .done)
    (hused : step.event = .more → step.used ≠ 0) : (held.drop step.used).length < held.length := by
  obtain ⟨used, event⟩ := step
  have hprogress := fun {out} (hout : Http1.answer (.ok (⟨used, event⟩, next)) = .emit used out next) =>
    Http1.progress (h ▸ hout : Http1.answer (parser.next held) = .emit used out next)
  have hboth : 0 < used ∧ used ≤ held.length := by
    cases event with
    | more => exact hprogress (if_neg (hused rfl))
    | head head => exact hprogress rfl
    | body bytes => exact hprogress rfl
    | done => exact absurd rfl hevent
  rw [List.length_drop]
  dsimp only
  omega

/-- What `advance` does with the bytes it holds, until the parser waits for more. -/
def pump (self : Request) : Turn ε ρ :=
  match _h : self.parser.next self.held with
  | .error e => .done (.error (.response e))
  | .ok (⟨used, event⟩, parser) =>
    let rest : Request := { self with parser, held := self.held.drop used }
    match _he : event with
    | .more => if _hu : used ≠ 0 then rest.pump else .waiting rest
    | .head head =>
      match self.reply.head head with
      | .error result => .done result
      | .ok reply => { rest with reply }.pump
    | .body bytes =>
      match self.reply.take readMessage bytes with
      | .error result => .done result
      | .ok reply => { rest with reply }.pump
    | .done => .done (self.reply.ended readMessage)
termination_by self.held.length
decreasing_by
  · exact next_shorter _h (by nofun) fun _ => _hu
  · exact next_shorter _h (by nofun) (by nofun)
  · exact next_shorter _h (by nofun) (by nofun)

/-- What a read of the socket gives. -/
inductive Received
  | bytes (bytes : List UInt8)
  | closed
  | none
  | lost

def receive (self : Request) : Received → Turn ε ρ
  | .bytes bytes => { self with held := self.held ++ bytes }.pump readMessage
  | .none => .waiting self
  | .lost => .done (.error .connectionLost)
  | .closed =>
    match self.parser.finish with
    | .error e => .done (.error (.response e))
    | .ok _ => .done (self.reply.ended readMessage)

/-- Reads one after another, up to the one that ends the request. -/
def run (turn : Turn ε ρ) (socket : List Received) : Turn ε ρ :=
  socket.foldl (fun turn received => match turn with
    | .waiting self => self.receive readMessage received
    | .done result => .done result) turn

end Request

/-! ## Byte by byte -/

/-- A byte of an event stream, and what its event answers. -/
def eventByte (now : EventStream × Writer) (byte : UInt8) :
    Except (Result ε ρ) (EventStream × Writer) :=
  match now.1.readMark now.2 byte with
  | .error _ => .error (.error .answerTooLarge)
  | .ok (stream, answer, false) => .ok (stream, answer)
  | .ok (stream, answer, true) =>
    match readMessage answer.buffered with
    | .error e => .error (.error (.message e))
    | .ok (.answer message) => .error (.ok (.answered message))
    | .ok .notification => .ok (stream, .fixed answer.capacity)

theorem takeEvents_next (stream : EventStream) (answer : Writer) (rest : List UInt8) :
    takeEvents readMessage stream answer rest =
      match stream.next answer rest with
      | .error _ => .error (.error .answerTooLarge)
      | .ok (stream, answer, step) =>
        if step.dispatched then
          match readMessage answer.buffered with
          | .error e => .error (.error (.message e))
          | .ok (.answer message) => .error (.ok (.answered message))
          | .ok .notification =>
            takeEvents readMessage stream (.fixed answer.capacity) (rest.drop step.used)
        else .ok (stream, answer) := by
  rw [takeEvents]
  split
  · rename_i h
    rw [h]
  · rename_i h
    rw [h]
    rfl

theorem takeEvents_eq (stream : EventStream) (answer : Writer) (rest : List UInt8) :
    takeEvents readMessage stream answer rest = rest.foldlM (eventByte readMessage) (stream, answer) := by
  induction rest generalizing stream answer with
  | nil =>
    rw [takeEvents_next]
    rfl
  | cons byte rest ih =>
    rw [List.foldlM_cons, eventByte, takeEvents_next, EventStream.next]
    cases stream.readMark answer byte with
    | error e => rfl
    | ok result =>
      obtain ⟨stream₁, answer₁, dispatched⟩ := result
      cases dispatched with
      | true =>
        simp only [ok_bind, if_true]
        cases readMessage answer₁.buffered with
        | error e => rfl
        | ok message =>
          cases message with
          | notification => exact ih _ _
          | answer message => rfl
      | false =>
        show _ = rest.foldlM (eventByte readMessage) (stream₁, answer₁)
        rw [← ih, takeEvents_next]
        cases hnext : stream₁.next answer₁ rest <;>
          simp only [ok_bind, Bool.false_eq_true, if_false, hnext] <;> rfl

theorem take_append (self : Reply) (bytes more : List UInt8) :
    self.take readMessage (bytes ++ more) =
      (if bytes = [] then .ok self else self.take readMessage bytes) >>= (·.take readMessage more) := by
  by_cases hbytes : bytes = []
  · rw [if_pos hbytes, hbytes]
    rfl
  rw [if_neg hbytes]
  obtain ⟨reading, stream, answer⟩ := self
  cases reading with
  | head => rfl
  | failed status =>
    simp only [Reply.take, ok_bind, List.take_append, List.length_append, List.length_take,
      List.append_assoc]
    rw [show answer.capacity - (answer.buffered.length +
      min (answer.capacity - answer.buffered.length) bytes.length) =
        answer.capacity - answer.buffered.length - bytes.length by omega]
  | body body =>
    cases body with
    | json =>
      simp only [Reply.take, List.length_append]
      by_cases hfits : answer.buffered.length + bytes.length ≤ answer.capacity
      · simp only [if_pos hfits, ok_bind, List.length_append, List.append_assoc, Nat.add_assoc]
      · rw [if_neg hfits, if_neg (by omega)]
        rfl
    | eventStream =>
      simp only [Reply.take, takeEvents_eq, List.foldlM_append]
      cases bytes.foldlM (eventByte readMessage) (stream, answer) <;> rfl

/-- What a request makes of one output of the parser. -/
def takeOutput (self : Reply) : Http1.Output → Except (Result ε ρ) Reply
  | .head head => self.head head
  | .byte byte => self.take readMessage [byte]

variable {bytes held : List UInt8} {parser next : Http1.Parser}

theorem take_eq (self : Reply) (h : bytes ≠ []) :
    self.take readMessage bytes = (bytes.map Http1.Output.byte).foldlM (takeOutput readMessage) self := by
  induction bytes generalizing self with
  | nil => exact absurd rfl h
  | cons byte rest ih =>
    rw [List.map_cons, List.foldlM_cons, takeOutput]
    by_cases hrest : rest = []
    · rw [hrest]
      cases self.take readMessage [byte] <;> rfl
    · rw [← List.singleton_append, take_append readMessage self [byte], if_neg (List.cons_ne_nil _ _)]
      exact bind_congr fun next => ih next hrest

/-! ## The connection -/

/-- Where a reading of the parser leaves a request. -/
def settle (reply : Reply) : Standing Http1.Parser UInt8 Http1.Error → Turn ε ρ
  | .waiting parser held => .waiting ⟨parser, held, reply⟩
  | .stopped => .done (reply.ended readMessage)
  | .failed e => .done (.error (.response e))

def settled (reply : Reply)
    (reading : List Http1.Output × Standing Http1.Parser UInt8 Http1.Error) : Turn ε ρ :=
  match reading.1.foldlM (takeOutput readMessage) reply with
  | .error result => .done result
  | .ok reply => settle readMessage reply reading.2

/-- A slice of the body holds something, and the parser waits only for a head, a line or a
line's end that has room to come. -/
theorem next_room {step : Http1.Step} (h : parser.next held = .ok (step, next)) :
    (∀ bytes, step.event = .body bytes → bytes ≠ []) ∧
      (step.used = 0 → step.event = .more → held.length < Http1.maxHeadBytes) := by
  have hpos : 0 < Http1.maxHeadBytes := by decide
  have hslice : ∀ {left : Nat}, left ≠ 0 → held ≠ [] → ∀ bytes,
      Http1.Event.body (held.take (min left held.length)) = .body bytes → bytes ≠ [] := by
    rintro left hleft hheld _ ⟨⟩
    have := List.length_pos_iff.mpr hheld
    exact List.ne_nil_of_length_pos (by rw [List.length_take]; omega)
  have hline : Http1.takeLine held = .ok none → held.length < Http1.maxHeadBytes := by
    intro hnone
    by_contra hlong
    simp only [Http1.takeLine] at hnone
    split at hnone
    · rw [List.length_take, if_pos (Nat.min_eq_left (le_trans (by decide) (Nat.le_of_not_lt hlong)))] at hnone
      cases hnone
    · cases hnone
  obtain ⟨state, scanned⟩ := parser
  cases state <;> simp only [Http1.Parser.next, Http1.Parser.nextHead] at h
  case head =>
    split at h <;> split at h
    · cases h
    · rename_i hshort
      cases h
      exact ⟨by simp, fun _ _ => Nat.lt_of_not_le hshort⟩
    · cases h
    · rename_i found _ _
      cases htake : Http1.takeHead (held.take (found + 4)) with
      | error e => simp [htake, Except.map] at h
      | ok result =>
        obtain ⟨event, state⟩ := result
        rw [htake] at h
        cases h
        refine ⟨?_, by simp⟩
        rcases Http1.takeHead_event htake with rfl | ⟨head, rfl⟩ <;> simp
  case length left =>
    split_ifs at h with hleft hheld <;> cases h
    · exact ⟨by simp, by simp⟩
    · exact ⟨by simp, fun _ _ => hheld ▸ hpos⟩
    · exact ⟨hslice hleft hheld, by simp⟩
  case chunkData left pos =>
    split_ifs at h with hheld <;> cases h
    · exact ⟨by simp, fun _ _ => hheld ▸ hpos⟩
    · exact ⟨hslice (Nat.pos_iff_ne_zero.mp pos) hheld, by simp⟩
    · exact ⟨hslice (Nat.pos_iff_ne_zero.mp pos) hheld, by simp⟩
  case untilClose =>
    split_ifs at h with hheld <;> cases h
    · exact ⟨by simp, fun _ _ => hheld ▸ hpos⟩
    · exact ⟨by rintro _ ⟨⟩; exact hheld, by simp⟩
  case chunkEnd =>
    split_ifs at h with hshort <;> cases h
    · exact ⟨by simp, fun _ _ => hshort.trans (by decide)⟩
    · exact ⟨by simp, by simp⟩
  case done =>
    cases h
    exact ⟨by simp, by simp⟩
  case chunkSize =>
    cases htake : Http1.takeLine held with
    | error e => simp [htake] at h
    | ok line =>
      rw [htake] at h
      cases line with
      | none =>
        cases h
        exact ⟨by simp, fun _ _ => hline htake⟩
      | some line =>
        have hused := (Http1.takeLine_used htake).1
        cases hsize : Http1.chunkSize line.text <;> simp only [hsize, Except.map] at h <;> cases h
        exact ⟨by simp, fun hzero => absurd hzero (Nat.ne_of_gt hused)⟩
  case trailers =>
    cases htake : Http1.takeLine held with
    | error e => simp [htake] at h
    | ok line =>
      rw [htake] at h
      cases line with
      | none =>
        cases h
        exact ⟨by simp, fun _ _ => hline htake⟩
      | some line =>
        have hused := (Http1.takeLine_used htake).1
        simp only at h
        split at h
        · cases h
          exact ⟨by simp, by simp⟩
        · cases hfield : Http1.fieldLine line.text <;> simp only [hfield, Except.map] at h <;> cases h
          exact ⟨by simp, fun hzero => absurd hzero (Nat.ne_of_gt hused)⟩

theorem settled_emit (reply : Reply) {used : Nat} {out : List Http1.Output}
    (h : Http1.reader.next parser held = .emit used out next) :
    settled readMessage reply (Http1.reader.drain parser held) =
      match out.foldlM (takeOutput readMessage) reply with
      | .error result => .done result
      | .ok reply => settled readMessage reply (Http1.reader.drain next (held.drop used)) := by
  rw [Incremental.drain_emit h, settled, List.foldlM_append]
  cases out.foldlM (takeOutput readMessage) reply <;> rfl

/-- **The loop is the parser's reading**, with its output taken as it comes. -/
theorem pump_eq (self : Request) :
    self.pump readMessage = settled readMessage self.reply (Http1.reader.drain self.parser self.held) := by
  obtain ⟨parser, held, reply⟩ := self
  induction hn : held.length using Nat.strongRecOn generalizing parser held reply with
  | ind n ih =>
    have hlater := fun {step next} (h : parser.next held = .ok (step, next)) hevent hused reply =>
      ih _ (hn ▸ Request.next_shorter h hevent hused) next (held.drop step.used) reply rfl
    have hreader := fun {result} (h : parser.next held = result) =>
      (congrArg Http1.answer h : Http1.reader.next parser held = Http1.answer result)
    rw [Request.pump]
    split
    case h_1 e hnext =>
      rw [Incremental.drain_fail (hreader hnext)]
      rfl
    case h_2 used event next hnext =>
      cases event with
      | more =>
        by_cases hused : used = 0
        · subst hused
          rw [Incremental.drain_wait (hreader hnext)]
          rfl
        · rw [settled_emit readMessage reply ((hreader hnext).trans (if_neg hused))]
          dsimp only
          rw [dif_pos hused]
          exact hlater hnext (by nofun) (fun _ => hused) reply
      | head head =>
        rw [settled_emit readMessage reply (hreader hnext)]
        simp only [List.foldlM_cons, List.foldlM_nil, takeOutput, bind_pure]
        cases reply.head head with
        | error result => rfl
        | ok reply => exact hlater hnext (by nofun) (by nofun) reply
      | body bytes =>
        rw [settled_emit readMessage reply (hreader hnext),
          ← take_eq readMessage reply ((next_room hnext).1 _ rfl)]
        dsimp only
        cases reply.take readMessage bytes with
        | error result => rfl
        | ok reply => exact hlater hnext (by nofun) (by nofun) reply
      | done =>
        rw [Incremental.drain_stop (hreader hnext)]
        rfl

/-! ## Reads -/

/-- Before anything has arrived. -/
def start (capacity : Nat) : Request := { reply := { answer := .fixed capacity } }

open Request

/-- The bytes that arrive before the connection ends, and its end. -/
def arrived : List Received → List UInt8 × List Received
  | [] => ([], [])
  | .bytes bytes :: socket => (bytes ++ (arrived socket).1, (arrived socket).2)
  | .none :: socket => arrived socket
  | .closed :: _ => ([], [.closed])
  | .lost :: _ => ([], [.lost])

theorem run_done (result : Result ε ρ) (socket : List Received) :
    run readMessage (.done result) socket = .done result := by
  induction socket with
  | nil => rfl
  | cons received socket ih => exact ih

theorem run_cons (turn : Turn ε ρ) (received : Received) (socket : List Received) :
    run readMessage turn (received :: socket) = run readMessage (run readMessage turn [received]) socket := rfl

/-- Nothing comes behind the end. -/
theorem run_ending (turn : Turn ε ρ) {ending : Received} (h : ending = .closed ∨ ending = .lost)
    (socket : List Received) : run readMessage turn (ending :: socket) = run readMessage turn [ending] := by
  have hdone : ∃ result, run readMessage turn [ending] = .done result := by
    cases turn with
    | done result => exact ⟨result, rfl⟩
    | waiting self =>
      rcases h with rfl | rfl
      · show ∃ result, self.receive readMessage .closed = .done result
        rw [Request.receive]
        cases self.parser.finish <;> exact ⟨_, rfl⟩
      · exact ⟨_, rfl⟩
  obtain ⟨result, hresult⟩ := hdone
  rw [run_cons, hresult, run_done]

theorem receive_bytes (reply : Reply) (reads : List (List UInt8)) (bytes : List UInt8) :
    run readMessage (settled readMessage reply (Http1.reader.readAll {} reads)) [.bytes bytes] =
      settled readMessage reply (Http1.reader.readAll {} (reads ++ [bytes])) := by
  rw [Incremental.readAll, Incremental.readAll, List.foldl_append, List.foldl_cons, List.foldl_nil]
  obtain ⟨out, standing⟩ := reads.foldl Http1.reader.resume ([], .waiting {} [])
  simp only [settled]
  cases hout : out.foldlM (takeOutput readMessage) reply with
  | error result =>
    cases standing <;> simp only [Incremental.resume, List.foldlM_append, hout] <;> rfl
  | ok later =>
    cases standing with
    | waiting parser held =>
      simp only [Incremental.resume, List.foldlM_append, hout]
      exact pump_eq readMessage ⟨parser, held ++ bytes, later⟩
    | stopped => simp only [Incremental.resume, hout]; rfl
    | failed e => simp only [Incremental.resume, hout]; rfl

theorem run_arrived (reply : Reply) (reads : List (List UInt8)) (socket : List Received) :
    run readMessage (settled readMessage reply (Http1.reader.readAll {} reads)) socket =
      run readMessage (settled readMessage reply
        (Http1.reader.readAll {} (reads ++ [(arrived socket).1]))) (arrived socket).2 := by
  have hflat := fun reads => Http1.reader_splittable.readAll_flatten
    (Http1.searched_zero .head []) (show Http1.reader.next {} [] = .wait {} from rfl) reads
  induction socket generalizing reads with
  | nil => rw [hflat, hflat, arrived, List.flatten_append]; simp
  | cons received socket ih =>
    cases received with
    | bytes bytes =>
      rw [run_cons, receive_bytes, ih, hflat, hflat, arrived]
      simp
    | none =>
      refine Eq.trans ?_ (ih reads)
      cases settled readMessage reply (Http1.reader.readAll {} reads) <;> rfl
    | closed =>
      rw [run_ending readMessage _ (.inl rfl), hflat, hflat, arrived]
      simp
    | lost =>
      rw [run_ending readMessage _ (.inr rfl), hflat, hflat, arrived]
      simp

/-- **What answers a request that was sent depends on the bytes alone**: however they were
cut into reads, and however often the socket had nothing, it is what they make at once. -/
theorem run_at_once (capacity : Nat) (socket : List Received) :
    run readMessage (.waiting (start capacity)) socket =
      run readMessage (.waiting (start capacity)) (.bytes (arrived socket).1 :: (arrived socket).2) := by
  have hstart : settled readMessage (start capacity).reply (Http1.reader.readAll {} []) =
      (.waiting (start capacity) : Turn ε ρ) := rfl
  rw [← hstart, run_arrived, run_cons, receive_bytes]

/-- What a request keeps while it waits leaves room in the buffer. -/
def Room : Turn ε ρ → Prop
  | .waiting self => self.held.length < Http1.maxHeadBytes
  | .done _ => True

theorem pump_room (self : Request) : Room (self.pump readMessage) := by
  have hwaits : ∀ parser held parser', Http1.reader.next parser held = .wait parser' →
      held.length < Http1.maxHeadBytes := by
    intro parser held parser' hwait
    simp only [Http1.reader] at hwait
    cases hnext : parser.next held with
    | error e => simp [hnext, Http1.answer] at hwait
    | ok result =>
      obtain ⟨⟨used, event⟩, next⟩ := result
      rw [hnext] at hwait
      cases event with
      | more =>
        rw [Http1.answer] at hwait
        split at hwait
        · rename_i hzero
          exact (next_room hnext).2 hzero rfl
        · cases hwait
      | _ => cases hwait
  obtain ⟨_, _, -, -, hrest⟩ := @Incremental.drain_keeps _ _ _ _ Http1.reader
    (fun _ _ _ => True) (·.length < Http1.maxHeadBytes)
    (fun _ _ _ _ _ _ hwait => ⟨trivial, hwaits _ _ _ hwait⟩) (fun _ _ _ _ _ _ _ _ _ => trivial)
    self.parser self.held [] [] trivial
  rw [pump_eq, settled]
  split
  · trivial
  · cases hstanding : (Http1.reader.drain self.parser self.held).2 with
    | waiting parser held => exact (hrest parser held hstanding).2.2
    | _ => trivial

/-- **There is room for the next read**, as is asserted before each. -/
theorem run_room (capacity : Nat) (socket : List Received) :
    Room (run readMessage (.waiting (start capacity)) socket) := by
  have hstep : ∀ turn, Room turn → Room (run readMessage turn socket) := by
    induction socket with
    | nil => exact fun _ h => h
    | cons received socket ih =>
      refine fun turn h => ih _ ?_
      cases turn with
      | done result => trivial
      | waiting self =>
        cases received with
        | bytes bytes => exact pump_room readMessage _
        | none => exact h
        | lost => trivial
        | closed =>
          show Room (self.receive readMessage .closed)
          rw [Request.receive]
          cases self.parser.finish <;> trivial
  exact hstep _ (show 0 < Http1.maxHeadBytes by decide)

/-! ## The answer of an event stream -/

/-- The first event that is no notification. -/
def firstAnswer : List (List UInt8) → Option (Result ε ρ)
  | [] => none
  | event :: events =>
    match readMessage event with
    | .error e => some (.error (.message e))
    | .ok (.answer message) => some (.ok (.answered message))
    | .ok .notification => firstAnswer events

theorem foldlM_eventByte {now later : Collecting} (h : bytes.foldlM feedByte now = .ok later) :
    ∃ events, later.events = now.events ++ events ∧
      bytes.foldlM (eventByte readMessage) (now.stream, now.data) =
        (firstAnswer readMessage events).elim (.ok (later.stream, later.data)) .error := by
  induction bytes generalizing now with
  | nil =>
    cases h
    exact ⟨[], (List.append_nil _).symm, rfl⟩
  | cons byte rest ih =>
    rw [List.foldlM_cons, feedByte] at h
    rw [List.foldlM_cons, eventByte]
    cases hread : now.stream.readMark now.data byte with
    | error e => simp [hread, bind, Except.bind] at h
    | ok result =>
      obtain ⟨stream, data, dispatched⟩ := result
      rw [hread] at h
      cases dispatched with
      | false => exact ih h
      | true =>
        obtain ⟨events, hevents, hrun⟩ := ih h
        refine ⟨data.buffered :: events, by rw [hevents, List.append_assoc]; rfl, ?_⟩
        simp only [firstAnswer]
        cases readMessage data.buffered with
        | error e => rfl
        | ok message =>
          cases message with
          | notification => exact hrun
          | answer message => rfl

/-- **The answer** is the first event of the standard that is no notification. -/
theorem take_stream (capacity : Nat) (body : List UInt8) (hroom : body.length ≤ capacity)
    (hmark : ¬PartHidesField body) :
    let reply : Reply := { reading := .body .eventStream, answer := .fixed capacity }
    (firstAnswer readMessage (whatwg body)).elim
      (∃ later, reply.take readMessage body = .ok later ∧ later.ended readMessage = .error .noAnswer)
      fun result => reply.take readMessage body = .error result := by
  have hevents := collect_events capacity [body] (by simpa using hroom)
  rw [collect_eq, List.flatten_singleton, (events_part body).mpr hmark] at hevents
  obtain ⟨later, hfeed, hlater⟩ := bind_eq_ok.mp hevents
  obtain ⟨events, hnew, hrun⟩ := foldlM_eventByte readMessage hfeed
  rw [Except.ok.inj hlater, List.nil_append] at hnew
  simp only [Reply.take, takeEvents_eq, hnew]
  rw [hrun]
  cases firstAnswer readMessage events with
  | none => exact ⟨_, rfl, rfl⟩
  | some result => rfl

/-- A notification, then the answer. -/
theorem take_stream_second :
    (⟨.body .eventStream, {}, .fixed 64⟩ : Reply).take (ε := Unit)
        (fun data => .ok (if data = text "-" then .notification else .answer data))
        (text "data: -\n\ndata: x\n\n") = .error (.ok (.answered (text "x"))) := by
  have hwhatwg : whatwg (text "data: -\n\ndata: x\n\n") = [text "-", text "x"] := by decide
  have h := take_stream (ε := Unit)
    (fun data => .ok (if data = text "-" then .notification else .answer data)) 64
    (text "data: -\n\ndata: x\n\n") (by decide) fun h => absurd h.1 (by decide)
  rw [hwhatwg] at h
  exact h

end Rui.Mcp.Replies
