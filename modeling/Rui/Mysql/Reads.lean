import Rui.Library.Calm
import Rui.Mysql.ClientLaws

/-!
# What one read does

In a sound state a read waits, or answers what it would also answer with more
bytes behind, or fails so; no counter goes below zero and no `unreachable` is
reached. Only the bytes of a value are given as they come.
-/

namespace Rui.Mysql

open Library

/-! ## Sound states -/

/-- The bounds that `init` puts on its options. -/
structure Bounded (options : Options) : Prop where
  user : options.user.length ≤ maxUserBytes
  database : options.database.length ≤ maxDatabaseBytes
  password : options.password.length ≤ maxPasswordBytes

variable {client : Client} {room : Nat} {input : List UInt8} {row : Row}

theorem init_bounded {options : Options} (h : Client.init options = some client) :
    client = { options } ∧ Bounded options := by
  rw [Client.init] at h
  split at h
  · cases h
  · rename_i hbounds
    split at h
    · cases h
    · cases h
      exact ⟨rfl, by omega, by omega, by omega⟩

/-- Columns are left while some are due, and a row's counters say what its packet still holds. -/
def State.Sound (columnCount : Nat) : State → Prop
  | .columns left => 0 < left ∧ left ≤ columnCount
  | .rows => 0 < columnCount
  | .row left => 0 < columnCount ∧ left.valueLeft ≤ left.packetLeft ∧
      (0 < left.columnsLeft ∨ 0 < left.valueLeft)
  | _ => True

structure Sound (client : Client) : Prop where
  options : Bounded client.options
  state : client.state.Sound client.columnCount

theorem Sound.sent (h : Sound client) : Sound client.sent := ⟨h.options, h.state⟩

/-! ## Parsing -/

theorem take_calm (n : Nat) (rest : List UInt8) : Calm (fun _ => True) (take n rest) := by
  rw [take]
  exact .ite (fun _ => .error _) fun _ => .ok trivial

theorem int_calm (n : Nat) (rest : List UInt8) : Calm (fun _ => True) (int n rest) := by
  rw [int]
  exact (take_calm n rest).bind fun _ _ => .ok trivial

theorem lenenc_calm (rest : List UInt8) : Calm (fun _ => True) (lenenc rest) := by
  rw [lenenc]
  refine (int_calm 1 rest).bind fun _ _ => ?_
  refine .ite (fun _ => int_calm _ _) fun _ => .ite (fun _ => int_calm _ _) fun _ => ?_
  exact .ite (fun _ => int_calm _ _) fun _ => .ite (fun _ => .error _) fun _ => .ok trivial

theorem lenencString_calm (rest : List UInt8) : Calm (fun _ => True) (lenencString rest) := by
  rw [lenencString]
  exact (lenenc_calm rest).bind fun _ _ => take_calm _ _

theorem nulString_calm (rest : List UInt8) : Calm (fun _ => True) (nulString rest) := by
  rw [nulString]
  split
  · exact .error _
  · exact .ok trivial

theorem parseOk_calm (payload : List UInt8) : Calm (fun _ => True) (parseOk payload) := by
  rw [parseOk]
  refine (lenenc_calm _).bind fun _ _ => (lenenc_calm _).bind fun _ _ => ?_
  exact (int_calm _ _).bind fun _ _ => (int_calm _ _).bind fun _ _ => .ok trivial

theorem parseErr_calm (payload : List UInt8) : Calm (fun _ => True) (parseErr payload) := by
  rw [parseErr]
  refine (int_calm _ _).bind fun _ _ => .ite (fun _ => ?_) fun _ => .ok trivial
  exact (take_calm _ _).bind fun _ _ => .ok trivial

theorem checkVersion_calm (version : List UInt8) : Calm (fun _ => True) (checkVersion version) := by
  rw [checkVersion]
  refine .ite (fun _ => .error _) fun _ => ?_
  split
  · split
    · exact .ite (fun _ => .error _) fun _ => .ok trivial
    · exact .error _
  · exact .error _

theorem parseColumn_calm (payload : List UInt8) : Calm (fun _ => True) (Client.parseColumn payload) := by
  rw [Client.parseColumn]
  refine (lenencString_calm _).bind fun _ _ => (lenencString_calm _).bind fun _ _ => ?_
  refine (lenencString_calm _).bind fun _ _ => (lenencString_calm _).bind fun _ _ => ?_
  refine (lenencString_calm _).bind fun _ _ => (lenencString_calm _).bind fun _ _ => ?_
  refine (lenenc_calm _).bind fun _ _ => .ite (fun _ => .error _) fun _ => ?_
  refine (int_calm _ _).bind fun _ _ => (int_calm _ _).bind fun _ _ => ?_
  refine (int_calm _ _).bind fun _ _ => (int_calm _ _).bind fun _ _ => ?_
  exact (take_calm _ _).bind fun _ _ => .ite (fun _ => .error _) fun _ => .ok trivial

theorem parseGreeting_calm (payload : List UInt8) :
    Calm (fun _ => True) (Client.parseGreeting payload) := by
  rw [Client.parseGreeting]
  refine (int_calm _ _).bind fun _ _ => .ite (fun _ => .error _) fun _ => ?_
  refine (nulString_calm _).bind fun _ _ => (checkVersion_calm _).bind fun _ _ => ?_
  refine (int_calm _ _).bind fun _ _ => (take_calm _ _).bind fun _ _ => ?_
  refine (int_calm _ _).bind fun _ _ => (int_calm _ _).bind fun _ _ => ?_
  refine (int_calm _ _).bind fun _ _ => (int_calm _ _).bind fun _ _ => ?_
  refine (int_calm _ _).bind fun _ _ => (int_calm _ _).bind fun _ _ => ?_
  refine (take_calm _ _).bind fun _ _ => .ite (fun _ => .error _) fun _ => ?_
  refine .ite (fun _ => .error _) fun _ => (take_calm _ _).bind fun _ _ => ?_
  exact .ite (fun _ => .error _) fun _ => (nulString_calm _).bind fun _ _ => .ok trivial

/-! ## Writing -/

theorem response_length (sha256 : Sha256) {options : Options} (h : Bounded options)
    (nonce : List UInt8) : (response sha256 options nonce).length ≤ 473 := by
  obtain ⟨huser, hdatabase, -⟩ := h
  simp only [maxUserBytes, maxDatabaseBytes] at huser hdatabase
  simp only [response, List.length_append, loginPrefix_length, List.length_singleton,
    plugin_length]
  split
  · rw [writeInt_length]
    omega
  · rw [List.length_append, writeInt_length, scramble_length]
    omega

theorem finish_calm (hroom : sendBufferMin ≤ room) (sequence : UInt8) {payload : List UInt8}
    (h : payload.length ≤ 1025) : Calm (fun _ => True) (finish room sequence payload) := by
  rw [finish, if_pos]
  · exact .ok trivial
  · rw [sendBufferMin] at hroom
    rw [headerLen]
    omega

/-! ## The login -/

section Login

variable (sha256 : Sha256) {client : Client} (h : Sound client) {room : Nat}
  (hroom : sendBufferMin ≤ room)

include h hroom

theorem writeResponse_calm :
    Calm (fun r => Sound r.2 ∧ r.2.state = .auth .scrambleSent)
      (client.writeResponse sha256 room) := by
  rw [Client.writeResponse]
  have hlength := response_length sha256 h.options client.nonce
  refine (finish_calm hroom _ (by omega)).bind fun _ _ => .ok ?_
  exact ⟨⟨h.options, trivial⟩, rfl⟩

theorem handleGreeting_calm (payload : List UInt8) :
    Calm (fun r => Sound r.2) (client.handleGreeting sha256 payload room) := by
  rw [Client.handleGreeting]
  refine .ite (fun _ => ?_) fun _ => ?_
  · exact (parseErr_calm _).bind fun _ _ => .ok ⟨h.options, trivial⟩
  · refine (parseGreeting_calm _).bind fun ⟨capabilities, nonce, connectionId⟩ _ => ?_
    refine .ite (fun _ => ?_) fun _ => .ite (fun _ => .error _) fun _ => ?_
    · have hnonce : Sound { client with nonce, connectionId } := ⟨h.options, h.state⟩
      exact (writeResponse_calm sha256 hnonce hroom).bind fun _ hsound => .ok hsound.1
    · refine (finish_calm hroom _ ?_).bind fun _ _ => .ok ⟨h.options, trivial⟩
      rw [loginPrefix_length]
      decide

theorem authMoreData_calm (auth : Auth) (payload : List UInt8) :
    Calm (fun r => Sound r.2) (client.authMoreData auth payload room) := by
  rw [Client.authMoreData.eq_def]
  split
  · refine .ite (fun _ => .ite (fun _ => .error _) fun _ => .ok h) fun _ => ?_
    refine .ite (fun _ => ?_) fun _ => .error _
    refine .ite (fun _ => .error _) fun _ => .ite (fun _ => .error _) fun _ => ?_
    refine (finish_calm hroom _ ?_).bind fun _ _ => .ok ⟨h.options, trivial⟩
    have hpassword := h.options.password
    rw [maxPasswordBytes] at hpassword
    rw [List.length_append, List.length_singleton]
    omega
  · exact .error _

theorem authSwitch_calm (auth : Auth) (payload : List UInt8) :
    Calm (fun r => Sound r.2) (client.authSwitch sha256 auth payload room) := by
  rw [Client.authSwitch]
  refine .ite (fun _ => .error _) fun _ => (nulString_calm _).bind fun _ _ => ?_
  refine .ite (fun _ => .error _) fun _ => .ite (fun _ => .error _) fun _ => ?_
  refine (finish_calm hroom _ ?_).bind fun _ _ => .ok ⟨h.options, trivial⟩
  split
  · rw [scramble_length]
    decide
  · decide

theorem handleAuth_calm (auth : Auth) {payload : List UInt8} (hpayload : payload ≠ []) :
    Calm (fun r => Sound r.2) (client.handleAuth sha256 auth payload room) := by
  rw [Client.handleAuth]
  cases payload with
  | nil => exact absurd rfl hpayload
  | cons first rest =>
    refine .ite (fun _ => ?_) fun _ => .ite (fun _ => ?_) fun _ => ?_
    · refine (parseOk_calm _).bind fun _ _ => .ok ⟨⟨h.options.user, h.options.database, ?_⟩, trivial⟩
      exact Nat.zero_le _
    · exact (parseErr_calm _).bind fun _ _ => .ok ⟨h.options, trivial⟩
    · refine .ite (fun _ => authMoreData_calm h hroom _ _) fun _ => ?_
      exact .ite (fun _ => authSwitch_calm sha256 h hroom _ _) fun _ => .error _

end Login

/-! ## Results -/

section Results

variable {client : Client} (h : Sound client)

include h

theorem handleResult_calm {payload : List UInt8} (hpayload : payload ≠ []) :
    Calm (fun r => Sound r.2) (client.handleResult payload) := by
  rw [Client.handleResult]
  cases payload with
  | nil => exact absurd rfl hpayload
  | cons first rest =>
    refine .ite (fun _ => ?_) fun _ => .ite (fun _ => ?_) fun _ => .ite (fun _ => .error _) ?_
    · refine (parseOk_calm _).bind fun ok _ => .ok ?_
      split
      · exact h
      · exact ⟨h.options, trivial⟩
    · exact (parseErr_calm _).bind fun _ _ => .ok ⟨h.options, trivial⟩
    · intro _
      refine (lenenc_calm _).bind fun ⟨count, rest⟩ _ => .ite (fun _ => .error _) fun hcount => ?_
      exact .ok ⟨h.options, by omega, Nat.le_refl count⟩

theorem handleColumn_calm {left : Nat} (hstate : client.state = .columns left)
    (payload : List UInt8) : Calm (fun r => Sound r.2) (client.handleColumn left payload) := by
  have hleft := h.state
  rw [hstate] at hleft
  obtain ⟨hpos, hcount⟩ := hleft
  rw [Client.handleColumn, sub, if_pos (show 1 ≤ left from hpos)]
  refine (parseColumn_calm _).bind fun _ _ => .ok ⟨h.options, ?_⟩
  show State.Sound client.columnCount (if left - 1 = 0 then .rows else .columns (left - 1))
  split
  · exact Nat.lt_of_lt_of_le hpos hcount
  · exact ⟨by omega, by omega⟩

theorem handleRowsEnd_calm (payload : List UInt8) :
    Calm (fun r => Sound r.2) (client.handleRowsEnd payload) := by
  rw [Client.handleRowsEnd]
  refine (parseOk_calm _).bind fun ok _ => .ok ⟨h.options, ?_⟩
  show State.Sound client.columnCount (if ok.status.moreResults then .result else .ready)
  split
  · trivial
  · trivial

theorem handleRowsErr_calm (payload : List UInt8) :
    Calm (fun r => Sound r.2) (client.handleRowsErr payload) := by
  rw [Client.handleRowsErr]
  exact (parseErr_calm _).bind fun _ _ => .ok ⟨h.options, trivial⟩

theorem advanceRow_calm {row : Row} (hcount : 0 < client.columnCount)
    (hrow : row.valueLeft ≤ row.packetLeft) :
    Calm Sound (client.advanceRow row) := by
  rw [Client.advanceRow]
  refine .ite (fun _ => .ite (fun _ => .error _) fun _ => ?_) fun hleft => ?_
  · exact .ok ⟨h.options, hcount⟩
  · exact .ok ⟨h.options, hcount, hrow, by omega⟩

end Results

/-! ## What a read answers -/

/-- A read waits, or answers what it would answer with more bytes behind. -/
inductive Outcome (client : Client) (read : List UInt8 → Attempt (Step × Client))
    (input : List UInt8) : Prop
  | wait (here : read input = .ok (.more, client))
  | answer (step : Step) (later : Client) (consumed : 0 < step.consumed)
    (within : step.consumed ≤ input.length) (sound : Sound later)
    (same : ∀ more, read (input ++ more) = .ok (step, later))
  | fail (e : Error) (same : ∀ more, read (input ++ more) = .error (.error e))

theorem Outcome.congr {read read' : List UInt8 → Attempt (Step × Client)}
    (h : Outcome client read' input) (hsame : ∀ more, read (input ++ more) = read' (input ++ more)) :
    Outcome client read input := by
  have here := hsame []
  rw [List.append_nil] at here
  cases h with
  | wait hwait => exact .wait (here.trans hwait)
  | answer step later consumed within sound same =>
    exact .answer step later consumed within sound fun more => (hsame more).trans (same more)
  | fail e same => exact .fail e fun more => (hsame more).trans (same more)

theorem payloadLen_calm (h : 3 ≤ input.length) : Calm (fun _ => True) (payloadLen input) := by
  match input, h with
  | low :: mid :: high :: rest, _ =>
    rw [payloadLen]
    exact .ite (fun _ => .error _) fun _ => .ok trivial

theorem header_calm (client : Client) (h : 4 ≤ input.length) :
    Calm (fun _ => True) (client.header input) := by
  rw [Client.header]
  refine (payloadLen_calm (by omega)).bind fun len _ => ?_
  cases hdrop : input.drop 3 with
  | nil =>
    have hlength := congrArg List.length hdrop
    rw [List.length_drop, List.length_nil] at hlength
    omega
  | cons sequence rest => exact .ite (fun _ => .error _) fun _ => .ok trivial

theorem packet_calm (client : Client) (input : List UInt8) :
    Calm (fun _ => True) (client.packet input) := by
  rw [Client.packet]
  refine .ite (fun _ => .ok trivial) fun hlength => ?_
  rw [headerLen] at hlength
  refine (payloadLen_calm (by omega)).bind fun len _ => .ite (fun _ => .error _) fun _ => ?_
  refine .ite (fun _ => .ok trivial) fun _ => ?_
  exact (header_calm client (by omega)).bind fun _ _ => .ok trivial

theorem withPacket_outcome (handle : Client → List UInt8 → Attempt (Option Event × Client))
    (hhandle : ∀ payload, payload ≠ [] → Calm (fun r => Sound r.2) (handle client.sent payload))
    (input : List UInt8) : Outcome client (client.withPacket · handle) input := by
  have hsame : client.packet input ≠ .ok none → ∀ more,
      client.withPacket (input ++ more) handle = client.withPacket input handle := by
    intro hsome more
    rw [Client.withPacket, Client.withPacket, packet_append hsome]
  cases hpacket : client.packet input with
  | error e =>
    have hcalm := packet_calm client input
    rw [hpacket] at hcalm
    have here : client.withPacket input handle = .error e := by
      rw [Client.withPacket, hpacket]
      rfl
    cases e with
    | panic => exact absurd rfl hcalm
    | error e =>
      exact .fail e fun more =>
        (hsame (by rw [hpacket]; exact fun h => by cases h) more).trans here
  | ok found =>
    cases found with
    | none =>
      apply Outcome.wait
      rw [Client.withPacket, hpacket]
      rfl
    | some found =>
      obtain ⟨payload, sent⟩ := found
      obtain ⟨rfl, hnil, -, rest, rfl⟩ := packet_some hpacket
      have hsame' := hsame (by rw [hpacket]; exact fun h => by cases h)
      rcases (hhandle payload hnil).cases with ⟨⟨event, later⟩, hok, hsound⟩ | ⟨e, herror⟩
      · refine .answer ⟨headerLen + payload.length, event⟩ later (Nat.lt_add_right _ (by decide)) ?_
          hsound fun more => ?_
        · show headerLen + payload.length ≤ _
          rw [List.length_append, frame_length]
          omega
        · rw [hsame', Client.withPacket, hpacket, ok_bind]
          show (handle client.sent payload >>= _) = _
          rw [hok]
          rfl
      · refine .fail e fun more => ?_
        rw [hsame', Client.withPacket, hpacket, ok_bind]
        show (handle client.sent payload >>= _) = _
        rw [herror]
        rfl

/-- A row starts once its first byte is there. -/
theorem readRowStart_outcome (h : Sound client) (hstate : client.state = .rows) (input : List UInt8) :
    Outcome client client.readRowStart input := by
  have hcount := h.state
  rw [hstate] at hcount
  cases hdrop : input.drop headerLen with
  | nil =>
    apply Outcome.wait
    rw [Client.readRowStart, hdrop]
  | cons first rest =>
    have hlength := congrArg List.length hdrop
    rw [List.length_drop, List.length_cons, headerLen] at hlength
    have hdrop' : ∀ more, (input ++ more).drop headerLen = first :: (rest ++ more) := by
      intro more
      rw [List.drop_append_of_le_length (by rw [headerLen]; omega), hdrop, List.cons_append]
    rcases (payloadLen_calm (show 3 ≤ input.length by omega)).cases with
      ⟨len, hlen, -⟩ | ⟨e, herror⟩
    · have hlen' : ∀ more, payloadLen (input ++ more) = .ok len := by
        intro more
        rw [payloadLen_append (by omega), hlen]
      by_cases hend : first = 0xFE
      · refine (withPacket_outcome _ (fun payload _ => handleRowsEnd_calm h.sent payload) input).congr
          fun more => ?_
        rw [Client.readRowStart, hdrop', hlen' more, hend]
        rfl
      · by_cases herr : first = 0xFF
        · refine (withPacket_outcome _
          (fun payload _ => handleRowsErr_calm h.sent payload) input).congr fun more => ?_
          rw [Client.readRowStart, hdrop', hlen' more, herr]
          rfl
        · have hread : ∀ more, client.readRowStart (input ++ more) =
              (client.header input).bind fun found => .ok (⟨headerLen, some .row⟩,
                { found.2 with state := .row ⟨found.2.columnCount, found.1, 0⟩ }) := by
            intro more
            rw [Client.readRowStart, hdrop', hlen' more, header_append (by omega)]
            show (if first = 0xFE then _ else if first = 0xFF then _ else _) = _
            rw [if_neg hend, if_neg herr]
            rfl
          rcases (header_calm client (show 4 ≤ input.length by omega)).cases with
            ⟨⟨len', sent⟩, hheader, -⟩ | ⟨e, herror⟩
          · obtain ⟨-, rfl, -⟩ := header_ok hheader
            refine .answer ⟨headerLen, some .row⟩
              { client.sent with state := .row ⟨client.columnCount, len', 0⟩ } (by decide)
              (by show 4 ≤ input.length; omega) ?_ fun more => ?_
            · exact ⟨h.options, hcount, Nat.zero_le _, .inl hcount⟩
            · rw [hread, hheader]
              rfl
          · exact .fail e fun more => by rw [hread, herror]; rfl
    · refine .fail e fun more => ?_
      rw [Client.readRowStart, hdrop', payloadLen_append (by omega), herror]
      rfl

/-! ## Rows -/

theorem advanceRow_outcome {client : Client} (h : Sound client) (hcount : 0 < client.columnCount)
    {row : Row} (hrow : row.valueLeft ≤ row.packetLeft)
    {read : List UInt8 → Attempt (Step × Client)} {input : List UInt8} {step : Step}
    (hconsumed : 0 < step.consumed) (hwithin : step.consumed ≤ input.length)
    (hread : ∀ more, read (input ++ more) = (do
      let later ← client.advanceRow row
      .ok (step, later))) : Outcome client read input := by
  rcases (advanceRow_calm h hcount hrow).cases with ⟨later, hadvance, hsound⟩ | ⟨e, herror⟩
  · exact .answer step later hconsumed hwithin hsound fun more => by rw [hread, hadvance]; rfl
  · exact .fail e fun more => by rw [hread, herror]; rfl

theorem readLength_outcome (h : Sound client) (hcount : 0 < client.columnCount)
    (hcolumns : 0 < row.columnsLeft) {prefixLen : Nat} (hlead : 0 < prefixLen) (input : List UInt8) :
    Outcome client (client.readLength row · prefixLen) input := by
  by_cases hpacket : prefixLen > row.packetLeft
  · refine .fail .protocolViolation fun more => ?_
    rw [Client.readLength, if_pos hpacket]
    rfl
  · by_cases hshort : input.length < prefixLen
    · apply Outcome.wait
      rw [Client.readLength, if_neg hpacket, if_pos hshort]
    · have hvalue : ∀ more, Client.valueLen prefixLen (input ++ more) = Client.valueLen prefixLen input := by
        intro more
        rw [Client.valueLen, Client.valueLen, List.take_append_of_le_length (by omega),
          List.take_append_of_le_length (by omega)]
      have hread : ∀ more, client.readLength row (input ++ more) prefixLen =
          if Client.valueLen prefixLen input > row.packetLeft - prefixLen then violation
          else (do
            let later ← client.advanceRow
              ⟨row.columnsLeft - 1, row.packetLeft - prefixLen, Client.valueLen prefixLen input⟩
            .ok (⟨prefixLen, some (.value (some (Client.valueLen prefixLen input)))⟩, later)) := by
        intro more
        rw [Client.readLength, if_neg hpacket, if_neg (by rw [List.length_append]; omega), sub,
          if_pos (by omega), sub, if_pos (show 1 ≤ row.columnsLeft from hcolumns), hvalue]
        rfl
      by_cases hlong : Client.valueLen prefixLen input > row.packetLeft - prefixLen
      · exact .fail .protocolViolation fun more => by rw [hread, if_pos hlong]; rfl
      · exact advanceRow_outcome h hcount (Nat.not_lt.mp hlong) hlead (Nat.not_lt.mp hshort)
          fun more => by rw [hread, if_neg hlong]

theorem readNull_outcome (h : Sound client) (hcount : 0 < client.columnCount)
    (hcolumns : 0 < row.columnsLeft) (hrow : row.valueLeft = 0) (input : List UInt8)
    (hinput : input ≠ []) : Outcome client (fun _ => client.readNull row) input := by
  by_cases hpacket : row.packetLeft < 1
  · refine .fail .protocolViolation fun more => ?_
    rw [Client.readNull, if_pos hpacket]
    rfl
  · have hread : client.readNull row = (do
        let later ← client.advanceRow
          { row with columnsLeft := row.columnsLeft - 1, packetLeft := row.packetLeft - 1 }
        .ok (⟨1, some (.value none)⟩, later)) := by
      rw [Client.readNull, if_neg hpacket, sub, if_pos (show 1 ≤ row.columnsLeft from hcolumns)]
      rfl
    have hvalue : row.valueLeft ≤ row.packetLeft - 1 := by
      rw [hrow]
      exact Nat.zero_le _
    exact @advanceRow_outcome client h hcount _ hvalue _ input ⟨1, some (.value none)⟩ Nat.one_pos
      (List.length_pos_of_ne_nil hinput) fun _ => hread

/-- Between two values a row waits for a whole length. -/
theorem readRow_outcome (h : Sound client) (hstate : client.state = .row row)
    (hvalue : row.valueLeft = 0) (input : List UInt8) :
    Outcome client (client.readRow row) input := by
  have hsound := h.state
  rw [hstate] at hsound
  obtain ⟨hcount, -, hleft⟩ := hsound
  have hcolumns : 0 < row.columnsLeft := by omega
  cases input with
  | nil =>
    apply Outcome.wait
    rw [Client.readRow.eq_def, if_neg (by omega)]
  | cons first rest =>
    have hread : ∀ more, client.readRow row (first :: rest ++ more) =
        if first = 0xFB then client.readNull row
        else if first = 0xFC then client.readLength row (first :: rest ++ more) 3
        else if first = 0xFD then client.readLength row (first :: rest ++ more) 4
        else if first = 0xFE ∨ first = 0xFF then violation
        else client.readLength row (first :: rest ++ more) 1 := by
      intro more
      rw [Client.readRow.eq_def, if_neg (by omega)]
      rfl
    have hlength : ∀ prefixLen, 0 < prefixLen →
        Outcome client (client.readLength row · prefixLen) (first :: rest) :=
      fun prefixLen hlead => readLength_outcome h hcount hcolumns hlead _
    by_cases hnull : first = 0xFB
    · refine (readNull_outcome h hcount hcolumns hvalue (first :: rest)
        (List.cons_ne_nil first rest)).congr fun more => ?_
      rw [hread, if_pos hnull]
    · by_cases htwo : first = 0xFC
      · refine (hlength 3 (by decide)).congr fun more => ?_
        rw [hread, if_neg hnull, if_pos htwo]
      · by_cases hthree : first = 0xFD
        · refine (hlength 4 (by decide)).congr
            fun more => ?_
          rw [hread, if_neg hnull, if_neg htwo, if_pos hthree]
        · by_cases hnever : first = 0xFE ∨ first = 0xFF
          · refine .fail .protocolViolation fun more => ?_
            rw [hread, if_neg hnull, if_neg htwo, if_neg hthree, if_pos hnever]
            rfl
          · refine (hlength 1 (by decide)).congr
              fun more => ?_
            rw [hread, if_neg hnull, if_neg htwo, if_neg hthree, if_neg hnever]

/-- The bytes of a value are given as they come; the row goes on, or ends, behind them. -/
theorem readBytes_eq (hpacket : row.valueLeft ≤ row.packetLeft) (hinput : input ≠ [])
    (hvalue : 0 < row.valueLeft) : client.readRow row input = (do
      let later ← client.advanceRow { row with
        valueLeft := row.valueLeft - min input.length row.valueLeft
        packetLeft := row.packetLeft - min input.length row.valueLeft }
      .ok (⟨min input.length row.valueLeft,
        some (.bytes (input.take (min input.length row.valueLeft)))⟩, later)) := by
  have hpos := List.length_pos_of_ne_nil hinput
  rw [Client.readRow.eq_def, if_pos hvalue, Client.readBytes]
  rw [if_neg (by omega), sub, if_pos (by omega), sub, if_pos (by omega)]
  rfl

/-- **What a read in a sound state answers**, between the bytes of a value. -/
theorem read_outcome (sha256 : Sha256) (h : Sound client) (hroom : sendBufferMin ≤ room)
    (htls : client.state ≠ .tls) (hready : client.state ≠ .ready) (hclosed : client.state ≠ .closed)
    (hvalue : ∀ row, client.state = .row row → row.valueLeft = 0) (input : List UInt8) :
    Outcome client (client.read sha256 · room) input := by
  have hroom' : ¬ room < sendBufferMin := Nat.not_lt.mpr hroom
  cases hstate : client.state with
  | greeting =>
    refine (withPacket_outcome (fun self payload => self.handleGreeting sha256 payload room)
      (fun payload _ => handleGreeting_calm sha256 h.sent hroom payload) input).congr fun more => ?_
    rw [Client.read, if_neg hroom', hstate]
    rfl
  | tls => exact absurd hstate htls
  | auth auth =>
    refine (withPacket_outcome (fun self payload => self.handleAuth sha256 auth payload room)
      (fun payload hpayload => handleAuth_calm sha256 h.sent hroom auth hpayload) input).congr
      fun more => ?_
    rw [Client.read, if_neg hroom', hstate]
    rfl
  | ready => exact absurd hstate hready
  | result =>
    refine (withPacket_outcome Client.handleResult
      (fun payload hpayload => handleResult_calm h.sent hpayload) input).congr fun more => ?_
    rw [Client.read, if_neg hroom', hstate]
    rfl
  | columns left =>
    refine (withPacket_outcome (fun self payload => self.handleColumn left payload)
      (fun payload _ => handleColumn_calm h.sent hstate payload) input).congr fun more => ?_
    rw [Client.read, if_neg hroom', hstate]
    rfl
  | rows =>
    refine (readRowStart_outcome h hstate input).congr fun more => ?_
    rw [Client.read, if_neg hroom', hstate]
  | row row =>
    refine (readRow_outcome h hstate (hvalue row hstate) input).congr fun more => ?_
    rw [Client.read, if_neg hroom', hstate]
  | closed => exact absurd hstate hclosed

theorem Outcome.calm {read : List UInt8 → Attempt (Step × Client)} (h : Outcome client read input)
    (hsound : Sound client) : Calm (fun r => Sound r.2) (read input) := by
  cases h with
  | wait here =>
    rw [here]
    exact hsound
  | answer step later _ _ hlater same =>
    have here := same []
    rw [List.append_nil] at here
    rw [here]
    exact hlater
  | fail e same =>
    have here := same []
    rw [List.append_nil] at here
    rw [here]
    exact .error e

/-- **No read fails a check**, in a sound state that the driver reads in. -/
theorem read_calm (sha256 : Sha256) (h : Sound client) (hroom : sendBufferMin ≤ room)
    (hready : client.state ≠ .ready) (hclosed : client.state ≠ .closed) (input : List UInt8) :
    Calm (fun r => Sound r.2) (client.read sha256 input room) := by
  by_cases htls : client.state = .tls
  · rw [Client.read, if_neg (Nat.not_lt.mpr hroom), htls]
    exact (writeResponse_calm sha256 h hroom).bind fun _ hlater => .ok hlater.1
  · by_cases hvalue : ∀ row, client.state = .row row → row.valueLeft = 0
    · exact (read_outcome sha256 h hroom htls hready hclosed hvalue input).calm h
    · push Not at hvalue
      obtain ⟨row, hstate, hleft⟩ := hvalue
      have hsound := h.state
      rw [hstate] at hsound
      obtain ⟨hcount, hpacket, -⟩ := hsound
      rw [Client.read, if_neg (Nat.not_lt.mpr hroom), hstate]
      show Calm (fun r => Sound r.2) (client.readRow row input)
      by_cases hinput : input = []
      · rw [hinput, Client.readRow.eq_def, if_pos (Nat.pos_of_ne_zero hleft), Client.readBytes,
          if_pos (by rw [List.length_nil, Nat.zero_min])]
        exact h
      · rw [readBytes_eq hpacket hinput (Nat.pos_of_ne_zero hleft)]
        exact (advanceRow_calm h hcount (by show _ - _ ≤ _ - _; omega)).bind
          fun _ hlater => .ok hlater

end Rui.Mysql
