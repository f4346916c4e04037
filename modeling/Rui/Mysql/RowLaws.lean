import Rui.Mysql.LoginRuns
import Rui.Mysql.Splits

/-!
# Rows

Between the header of a row and its end the client gives as many values as
columns were announced, each with as many bytes as its length says, and the
values with their lengths are the packet's bytes.
-/

namespace Rui.Mysql

open Library

/-! ## Values on the wire -/

/-- How many bytes a length takes, by its first one. -/
def leadLen (first : UInt8) : Option Nat :=
  if first = 0xFB then none
  else if first = 0xFC then some 3
  else if first = 0xFD then some 4
  else if first = 0xFE ∨ first = 0xFF then none
  else some 1

/-- These bytes say a length. -/
def Leads (lead : List UInt8) (len : Nat) : Prop :=
  ∃ first rest, lead = first :: rest ∧ leadLen first = some lead.length ∧
    Client.valueLen lead.length lead = len

/-- A value of a row: NULL, or a length and the pieces its bytes were given in. -/
inductive Value
  | null
  | text (lead : List UInt8) (pieces : List (List UInt8))

/-- What a value takes of its packet. -/
def Value.wire : Value → List UInt8
  | .null => [0xFB]
  | .text lead pieces => lead ++ pieces.flatten

def Value.events : Value → List Event
  | .null => [.value none]
  | .text _ pieces => .value (some pieces.flatten.length) :: pieces.map .bytes

/-- The length of a value is the number of its bytes. -/
def Value.Framed : Value → Prop
  | .null => True
  | .text lead pieces => Leads lead pieces.flatten.length

/-! ## One read of a row -/

/-- What a read in a row does to its counters. -/
inductive RowRead (row : Row) (input : List UInt8) : Step → Row → Prop
  | wait : RowRead row input .more row
  | bytes (n : Nat) (pos : 0 < n) (here : n ≤ input.length) (value : n ≤ row.valueLeft)
    (packet : n ≤ row.packetLeft) :
    RowRead row input ⟨n, some (.bytes (input.take n))⟩
      { row with valueLeft := row.valueLeft - n, packetLeft := row.packetLeft - n }
  | null (between : row.valueLeft = 0) (here : input.take 1 = [0xFB])
    (packet : 1 ≤ row.packetLeft) (column : 1 ≤ row.columnsLeft) :
    RowRead row input ⟨1, some (.value none)⟩
      { row with columnsLeft := row.columnsLeft - 1, packetLeft := row.packetLeft - 1 }
  | length (lead : List UInt8) (len : Nat) (between : row.valueLeft = 0)
    (here : input.take lead.length = lead) (leads : Leads lead len)
    (packet : lead.length ≤ row.packetLeft) (column : 1 ≤ row.columnsLeft) :
    RowRead row input ⟨lead.length, some (.value (some len))⟩
      ⟨row.columnsLeft - 1, row.packetLeft - lead.length, len⟩

theorem sub_ok {a b c : Nat} (h : sub a b = .ok c) : b ≤ a ∧ c = a - b := by
  rw [sub] at h
  split at h
  · exact ⟨‹_›, (Except.ok.inj h).symm⟩
  · cases h

variable {first : UInt8} {client later : Client} {row row' : Row} {step : Step}
  {input payload bytes : List UInt8} {sha256 : Sha256} {room columns total : Nat}
  {seen : List Event} {history rest : List DriverEvent} {now : Driver} {options : Options}

theorem leadLen_pos {n : Nat} (h : leadLen first = some n) : 0 < n := by
  unfold leadLen at h
  split at h
  · cases h
  · split at h
    · cases h
      decide
    · split at h
      · cases h
        decide
      · split at h
        · cases h
        · cases h
          decide

theorem readLength_read {rest : List UInt8} {prefixLen : Nat}
    (hlead : leadLen first = some prefixLen) (hbetween : row.valueLeft = 0)
    (h : client.readLength row (first :: rest) prefixLen = .ok (step, later)) :
    ∃ row', RowRead row (first :: rest) step row' ∧
      (step = .more ∧ later = client ∨ client.advanceRow row' = .ok later) := by
  rw [Client.readLength] at h
  split at h
  · cases h
  · split at h
    · cases h
      exact ⟨row, .wait, .inl ⟨rfl, rfl⟩⟩
    · rename_i hpacket hlength
      obtain ⟨packetLeft, hsub, h⟩ := bind_eq_ok.mp h
      obtain ⟨-, rfl⟩ := sub_ok hsub
      split at h
      · cases h
      · obtain ⟨columnsLeft, hsub', h⟩ := bind_eq_ok.mp h
        obtain ⟨hcolumns, rfl⟩ := sub_ok hsub'
        obtain ⟨later, hadvance, h⟩ := bind_eq_ok.mp h
        cases h
        have htake : ((first :: rest).take prefixLen).length = prefixLen := by
          rw [List.length_take]
          omega
        have hleads : Leads ((first :: rest).take prefixLen)
            (Client.valueLen prefixLen (first :: rest)) := by
          obtain ⟨more, hmore⟩ := Nat.exists_eq_add_of_lt (leadLen_pos hlead)
          refine ⟨first, rest.take more, ?_, hlead.trans (congrArg some htake.symm), ?_⟩
          · rw [hmore, Nat.zero_add]
            rfl
          · rw [htake, Client.valueLen, Client.valueLen]
            split
            · rename_i hone
              rw [hone, List.take_take, Nat.min_self]
            · rw [List.take_take, Nat.min_self]
        have hread := RowRead.length _ _ hbetween (by rw [htake]) hleads (by rw [htake]; omega)
          hcolumns
        rw [htake] at hread
        exact ⟨_, hread, .inr hadvance⟩

theorem readRow_read (h : client.readRow row input = .ok (step, later)) :
    ∃ row', RowRead row input step row' ∧
      (step = .more ∧ later = client ∨ client.advanceRow row' = .ok later) := by
  rw [Client.readRow.eq_def] at h
  split at h
  · rw [Client.readBytes] at h
    split at h
    · cases h
      exact ⟨row, .wait, .inl ⟨rfl, rfl⟩⟩
    · rename_i hn
      obtain ⟨valueLeft, hsub, h⟩ := bind_eq_ok.mp h
      obtain ⟨hvalue, rfl⟩ := sub_ok hsub
      obtain ⟨packetLeft, hsub', h⟩ := bind_eq_ok.mp h
      obtain ⟨hpacket, rfl⟩ := sub_ok hsub'
      obtain ⟨later, hadvance, h⟩ := bind_eq_ok.mp h
      cases h
      exact ⟨_, .bytes _ (Nat.pos_of_ne_zero hn) (Nat.min_le_left _ _) hvalue hpacket,
        .inr hadvance⟩
  · rename_i hbetween
    have hzero : row.valueLeft = 0 := by omega
    split at h
    · cases h
      exact ⟨row, .wait, .inl ⟨rfl, rfl⟩⟩
    · rename_i first rest
      split at h
      · rename_i hnull
        rw [Client.readNull] at h
        split at h
        · cases h
        · obtain ⟨columnsLeft, hsub, h⟩ := bind_eq_ok.mp h
          obtain ⟨hcolumns, rfl⟩ := sub_ok hsub
          obtain ⟨later, hadvance, h⟩ := bind_eq_ok.mp h
          cases h
          exact ⟨_, .null hzero (hnull ▸ rfl) (by omega) hcolumns, .inr hadvance⟩
      · rename_i hnull
        split at h
        · rename_i htwo
          refine readLength_read ?_ hzero h
          rw [leadLen, if_neg hnull, if_pos htwo]
        · rename_i htwo
          split at h
          · rename_i hthree
            refine readLength_read ?_ hzero h
            rw [leadLen, if_neg hnull, if_neg htwo, if_pos hthree]
          · rename_i hthree
            split at h
            · cases h
            · rename_i hnever
              refine readLength_read ?_ hzero h
              rw [leadLen, if_neg hnull, if_neg htwo, if_neg hthree, if_neg hnever]

/-! ## One read outside the login -/

/-- What one read does to a client past its login. -/
inductive Serves (client : Client) (input : List UInt8) (step : Step) (later : Client) : Prop
  | wait (more : step = .more) (same : later = client)
  | ended (event : (∃ ok, step.event = some (.ok ok)) ∨ (∃ err, step.event = some (.err err)) ∨
      ∃ status, step.event = some (.rowsEnd status))
    (state : later.state = .ready ∨ later.state = .result)
  | columns (event : step.event = some (.columns later.columnCount))
    (state : later.state = .columns later.columnCount)
  | column (counting : ∃ left, client.state = .columns left)
    (event : ∃ column, step.event = some (.column column))
    (count : later.columnCount = client.columnCount)
    (state : later.state = .rows ∨ ∃ left, later.state = .columns left)
  | row (len : Nat) (standing : client.state = .rows) (is_row : step = ⟨headerLen, some .row⟩)
    (header : input.take headerLen = writeInt 3 len ++ [client.sequence])
    (bound : 0 < len ∧ len ≤ maxPayload)
    (next : later = { client.sent with state := .row ⟨client.columnCount, len, 0⟩ })
  | value (row row' : Row) (standing : client.state = .row row) (read : RowRead row input step row')
    (next : step = .more ∧ later = client ∨ client.advanceRow row' = .ok later)

theorem handleResult_serves (hstate : client.state = .result)
    (h : client.sent.handleResult payload = .ok (step.event, later)) :
    Serves client input step later := by
  rw [Client.handleResult] at h
  split at h
  · cases h
  · split at h
    · obtain ⟨ok, -, h⟩ := bind_eq_ok.mp h
      obtain ⟨hevent, hlater⟩ := Prod.mk.inj (Except.ok.inj h)
      refine .ended (.inl ⟨ok, hevent.symm⟩) ?_
      rw [← hlater]
      split
      · exact .inr hstate
      · exact .inl rfl
    · split at h
      · obtain ⟨err, -, h⟩ := bind_eq_ok.mp h
        obtain ⟨hevent, hlater⟩ := Prod.mk.inj (Except.ok.inj h)
        exact .ended (.inr (.inl ⟨err, hevent.symm⟩)) (hlater ▸ .inl rfl)
      · split at h
        · cases h
        · obtain ⟨⟨count, rest⟩, -, h⟩ := bind_eq_ok.mp h
          simp only at h
          split at h
          · cases h
          · obtain ⟨hevent, hlater⟩ := Prod.mk.inj (Except.ok.inj h)
            subst hlater
            exact .columns hevent.symm rfl

theorem handleColumn_serves {left : Nat} (hstate : client.state = .columns left)
    (h : client.sent.handleColumn left payload = .ok (step.event, later)) :
    Serves client input step later := by
  rw [Client.handleColumn] at h
  obtain ⟨column, -, h⟩ := bind_eq_ok.mp h
  obtain ⟨left', -, h⟩ := bind_eq_ok.mp h
  obtain ⟨hevent, hlater⟩ := Prod.mk.inj (Except.ok.inj h)
  subst hlater
  refine .column ⟨left, hstate⟩ ⟨column, hevent.symm⟩ rfl ?_
  by_cases hzero : left' = 0
  · exact .inl (if_pos hzero)
  · exact .inr ⟨left', if_neg hzero⟩

theorem readRowStart_serves (hstate : client.state = .rows)
    (h : client.readRowStart input = .ok (step, later)) : Serves client input step later := by
  rw [Client.readRowStart] at h
  split at h
  · cases h
    exact .wait rfl rfl
  · obtain ⟨len, hlen, h⟩ := bind_eq_ok.mp h
    split at h
    · rcases withPacket_ok h with ⟨rfl, rfl⟩ | ⟨payload, event, -, rfl, hhandled, -⟩
      · exact .wait rfl rfl
      · obtain ⟨ok, -, hhandled⟩ := bind_eq_ok.mp hhandled
        cases hhandled
        refine .ended (.inr (.inr ⟨_, rfl⟩)) ?_
        show (if ok.status.moreResults then State.result else .ready) = .ready ∨
          (if ok.status.moreResults then State.result else .ready) = .result
        split
        · exact .inr rfl
        · exact .inl rfl
    · split at h
      · rcases withPacket_ok h with ⟨rfl, rfl⟩ | ⟨payload, event, -, rfl, hhandled, -⟩
        · exact .wait rfl rfl
        · obtain ⟨err, -, hhandled⟩ := bind_eq_ok.mp hhandled
          cases hhandled
          exact .ended (.inr (.inl ⟨_, rfl⟩)) (.inl rfl)
      · obtain ⟨⟨len', sent⟩, hheader, h⟩ := bind_eq_ok.mp h
        obtain ⟨hlen', rfl, htake⟩ := header_ok hheader
        cases h
        exact .row len' hstate rfl htake (payloadLen_ok hlen').2 rfl

/-- **One read past the login.** One case for each state. -/
theorem read_serves (hstate : client.state.inLogin = false)
    (h : client.read sha256 input room = .ok (step, later)) : Serves client input step later := by
  rw [Client.read] at h
  split at h
  · cases h
  · cases hnow : client.state with
    | greeting => rw [hnow] at hstate; cases hstate
    | tls => rw [hnow] at hstate; cases hstate
    | auth _ => rw [hnow] at hstate; cases hstate
    | ready => rw [hnow] at h; cases h
    | closed => rw [hnow] at h; cases h
    | result =>
      rw [hnow] at h
      rcases withPacket_ok h with ⟨rfl, rfl⟩ | ⟨payload, event, -, rfl, hhandled, -⟩
      · exact .wait rfl rfl
      · exact handleResult_serves hnow hhandled
    | columns left =>
      rw [hnow] at h
      rcases withPacket_ok h with ⟨rfl, rfl⟩ | ⟨payload, event, -, rfl, hhandled, -⟩
      · exact .wait rfl rfl
      · exact handleColumn_serves hnow hhandled
    | rows =>
      rw [hnow] at h
      exact readRowStart_serves hnow h
    | row row =>
      rw [hnow] at h
      obtain ⟨row', hread, hnext⟩ := readRow_read h
      exact .value row row' hnow hread hnext

/-! ## A row so far -/

abbrev eventOf (e : DriverEvent) : Option Event :=
  match e.label with
  | .read step => step.event
  | _ => none

/-- The bytes a step consumed. -/
def usedOf (e : DriverEvent) : List UInt8 :=
  match e.label with
  | .read step => e.before.input.take step.consumed
  | _ => []

def events (history : List DriverEvent) : List Event := history.filterMap eventOf

def used (history : List DriverEvent) : List UInt8 := history.flatMap usedOf

/-- Whole values, one for each column, that fill the packet. -/
def RowDone (columns total : Nat) (mid : List DriverEvent) : Prop :=
  ∃ values : List Value, values.length = columns ∧ (∀ value ∈ values, value.Framed) ∧
    events mid = values.flatMap Value.events ∧ used mid = values.flatMap Value.wire ∧
    (used mid).length = total

/-- The values of a row so far. -/
structure Values (values : List Value) (seen : List Event) (bytes : List UInt8) : Prop where
  framed : ∀ value ∈ values, value.Framed
  events : seen = values.flatMap Value.events
  wire : bytes = values.flatMap Value.wire

/-- A row that is not over: whole values, and the pieces so far of the one its bytes stop in. -/
inductive RowSoFar (columns total : Nat) (seen : List Event) (bytes : List UInt8) (row : Row) :
    Prop
  | between (values : List Value) (zero : row.valueLeft = 0)
    (count : values.length + row.columnsLeft = columns) (whole : Values values seen bytes)
    (packet : bytes.length + row.packetLeft = total)
  | within (values : List Value) (lead : List UInt8) (pieces : List (List UInt8)) {seen'}
    {bytes' : List UInt8} (pos : 0 < row.valueLeft)
    (count : values.length + 1 + row.columnsLeft = columns) (whole : Values values seen' bytes')
    (leads : Leads lead (pieces.flatten.length + row.valueLeft))
    (events : seen = seen' ++
      .value (some (pieces.flatten.length + row.valueLeft)) :: pieces.map .bytes)
    (wire : bytes = bytes' ++ lead ++ pieces.flatten)
    (packet : bytes.length + row.packetLeft = total)

theorem Values.snoc {values : List Value} (h : Values values seen bytes) {value : Value}
    (hframed : value.Framed) :
    Values (values ++ [value]) (seen ++ value.events) (bytes ++ value.wire) where
  framed other hother := by
    rcases List.mem_append.mp hother with hold | hnew
    · exact h.framed other hold
    · rw [List.mem_singleton.mp hnew]
      exact hframed
  events := by rw [h.events, List.flatMap_append, List.flatMap_singleton]
  wire := by rw [h.wire, List.flatMap_append, List.flatMap_singleton]

theorem RowSoFar.read (h : RowSoFar columns total seen bytes row)
    (hread : RowRead row input step row') :
    RowSoFar columns total (seen ++ step.event.toList) (bytes ++ input.take step.consumed) row' := by
  cases hread with
  | wait =>
    rw [show (Step.more.event.toList : List Event) = [] from rfl,
      show input.take Step.more.consumed = [] from rfl, List.append_nil, List.append_nil]
    exact h
  | bytes n pos here value packet =>
    have hlength : (input.take n).length = n := by
      rw [List.length_take]
      omega
    cases h with
    | between values zero => omega
    | within values lead pieces pos' count whole leads events wire hpacket =>
      rename_i seen' bytes'
      have hflatten : (pieces ++ [input.take n]).flatten.length = pieces.flatten.length + n := by
        rw [List.flatten_append, List.length_append, List.flatten_singleton, hlength]
      have hbytes : bytes ++ input.take n = bytes' ++ lead ++ (pieces ++ [input.take n]).flatten := by
        rw [wire, List.flatten_append, List.flatten_singleton, List.append_assoc]
      have hpacket' : (bytes ++ input.take n).length + (row.packetLeft - n) = total := by
        rw [List.length_append, hlength]
        omega
      have hseen : ∀ len, len = pieces.flatten.length + row.valueLeft →
          seen ++ [Event.bytes (input.take n)] =
            seen' ++ .value (some len) :: (pieces ++ [input.take n]).map .bytes := by
        rintro _ rfl
        rw [events, List.map_append, List.append_assoc]
        rfl
      by_cases hend : n = row.valueLeft
      · have hframed : Value.Framed (.text lead (pieces ++ [input.take n])) := by
          rw [Value.Framed, hflatten, hend]
          exact leads
        have hwhole := whole.snoc hframed
        refine .between (values ++ [.text lead (pieces ++ [input.take n])])
          (by show _ - n = 0; omega) (by rw [List.length_append]; exact count) ?_ hpacket'
        rw [Option.toList_some, hseen (pieces ++ [input.take n]).flatten.length (by omega), hbytes,
          List.append_assoc]
        exact hwhole
      · refine .within values lead (pieces ++ [input.take n]) (by show 0 < _ - n; omega) count whole
          ?_ (hseen _ ?_) hbytes hpacket'
        · show Leads lead (_ + (row.valueLeft - n))
          rw [hflatten, show pieces.flatten.length + n + (row.valueLeft - n) =
            pieces.flatten.length + row.valueLeft by omega]
          exact leads
        · show _ + (row.valueLeft - n) = _
          omega
  | null between here packet column =>
    cases h with
    | within values lead pieces pos => omega
    | between values zero count whole hpacket =>
      have hwhole := whole.snoc (show Value.Framed .null from trivial)
      refine .between (values ++ [.null]) zero
        (by rw [List.length_append]; show _ + 1 + (_ - 1) = _; omega) ?_ ?_
      · show Values _ _ (bytes ++ input.take 1)
        rw [here]
        exact hwhole
      · show (bytes ++ input.take 1).length + (row.packetLeft - 1) = total
        rw [here, List.length_append, List.length_singleton]
        omega
  | length lead len between here leads packet column =>
    cases h with
    | within values lead pieces pos => omega
    | between values zero count whole hpacket =>
      have hpacket' : (bytes ++ input.take lead.length).length + (row.packetLeft - lead.length) =
          total := by
        rw [here, List.length_append]
        omega
      by_cases hempty : len = 0
      · subst hempty
        have hwhole := whole.snoc (show Value.Framed (.text lead []) from leads)
        refine .between (values ++ [.text lead []]) rfl
          (by rw [List.length_append]; show _ + 1 + (_ - 1) = _; omega) ?_ hpacket'
        show Values _ _ (bytes ++ input.take lead.length)
        rw [here]
        rw [show Value.wire (.text lead []) = lead from List.append_nil lead] at hwhole
        exact hwhole
      · refine .within values lead [] (Nat.pos_of_ne_zero hempty) (by show _ + 1 + (_ - 1) = _; omega)
          whole ?_ ?_ ?_ hpacket'
        · show Leads lead (0 + len)
          rw [Nat.zero_add]
          exact leads
        · show seen ++ [Event.value (some len)] = seen ++ [Event.value (some (0 + len))]
          rw [Nat.zero_add]
        · show bytes ++ input.take lead.length = bytes ++ lead ++ []
          rw [here, List.append_nil]

/-! ## Every step -/

/-- The column count that the last result set announced. -/
def announced (seen : List Event) : Option Nat :=
  seen.reverse.findSome? fun
    | .columns count => some count
    | _ => none

/-- A state of a result set behind its first packet. -/
def State.inResults : State → Bool
  | .columns _ => true
  | .rows => true
  | .row _ => true
  | _ => false

theorem announced_append (seen : List Event) (event : Event) :
    announced (seen ++ [event]) = match event with
      | .columns count => some count
      | _ => announced seen := by
  rw [announced, List.reverse_append, List.reverse_singleton, List.singleton_append,
    List.findSome?_cons]
  cases event <;> rfl

theorem events_append (history : List DriverEvent) (e : DriverEvent) :
    events (history ++ [e]) = events history ++ (eventOf e).toList := by
  rw [events, events, List.filterMap_append]
  cases h : eventOf e <;> simp [h]

theorem used_append (history : List DriverEvent) (e : DriverEvent) :
    used (history ++ [e]) = used history ++ usedOf e := by
  rw [used, used, List.flatMap_append, List.flatMap_singleton]

/-- A login leads into no result set, and shows no row. -/
theorem Moves.in_login {event : Option Event} (h : Moves sha256 client input event later)
    (hin : client.state.inLogin = true) : later.state.inResults = false ∧ event ≠ some .row := by
  cases h with
  | stay silent _ state =>
    rw [state, silent]
    refine ⟨?_, nofun⟩
    cases hstate : client.state with
    | columns _ => rw [hstate] at hin; cases hin
    | rows => rw [hstate] at hin; cases hin
    | row _ => rw [hstate] at hin; cases hin
    | _ => rfl
  | ended _ _ _ _ _ ended =>
    obtain ⟨hevent, hstate⟩ := ended hin
    constructor
    · rcases hstate with hstate | hstate <;> rw [hstate] <;> rfl
    · rcases hevent with hevent | ⟨err, hevent⟩ <;> rw [hevent] <;> exact nofun
  | startTls _ _ sent _ state => exact ⟨by rw [state]; rfl, by rw [sent]; exact nofun⟩
  | respond _ _ sent _ state => exact ⟨by rw [state]; rfl, by rw [sent]; exact nofun⟩
  | switch _ _ _ sent _ state => exact ⟨by rw [state]; rfl, by rw [sent]; exact nofun⟩
  | password _ _ _ _ _ sent _ state => exact ⟨by rw [state]; rfl, by rw [sent]; exact nofun⟩

theorem RowRead.quiet (h : RowRead row input step row') :
    ∀ count, step.event ≠ some (.columns count) := by
  intro count hevent
  cases h <;> cases hevent

theorem RowRead.no_row (h : RowRead row input step row') : step.event ≠ some .row := by
  intro hevent
  cases h <;> cases hevent

theorem read_announced (h : client.read sha256 input room = .ok (step, later))
    (hseen : client.state.inResults = true → announced seen = some client.columnCount)
    (hlater : later.state.inResults = true) :
    announced (seen ++ step.event.toList) = some later.columnCount := by
  have hquiet : ∀ event : Option Event, (∀ count, event ≠ some (.columns count)) →
      announced (seen ++ event.toList) = announced seen := by
    intro event hnot
    cases event with
    | none => rw [Option.toList_none, List.append_nil]
    | some event =>
      rw [Option.toList_some, announced_append]
      cases event with
      | columns count => exact absurd rfl (hnot count)
      | _ => rfl
  by_cases hin : client.state.inLogin = true
  · exact nomatch hlater.symm.trans ((read_moves sha256 h).in_login hin).1
  · cases read_serves (eq_false_of_ne_true hin) h with
    | wait more same =>
      subst same
      rw [more, show Step.more.event = none from rfl, hquiet none (by rintro _ ⟨⟩)]
      exact hseen hlater
    | ended event state =>
      rcases state with hstate | hstate
      all_goals
        rw [hstate] at hlater
        cases hlater
    | columns event state => rw [event, Option.toList_some, announced_append]
    | column counting event count state =>
      obtain ⟨left, hcounting⟩ := counting
      obtain ⟨column, hevent⟩ := event
      rw [hevent, hquiet (some (.column column)) (by rintro _ ⟨⟩), count]
      exact hseen (by rw [hcounting]; rfl)
    | row len standing is_row header bound next =>
      rw [is_row, hquiet (some .row) (by rintro _ ⟨⟩), next]
      exact hseen (by rw [standing]; rfl)
    | value row row' standing read next =>
      have hcount : later.columnCount = client.columnCount := by
        rcases next with ⟨-, rfl⟩ | hadvance
        · rfl
        · rcases advanceRow_ok hadvance with ⟨-, -, -, rfl⟩ | ⟨-, rfl⟩
          · rfl
          · rfl
      rw [hquiet _ read.quiet, hcount]
      exact hseen (by rw [standing]; rfl)

theorem read_open (h : client.read sha256 input room = .ok (step, later)) :
    client.state ≠ .ready ∧ client.state ≠ .closed := by
  rw [Client.read] at h
  split at h
  · cases h
  · constructor
    · intro hstate
      rw [hstate] at h
      cases h
    · intro hstate
      rw [hstate] at h
      cases h

/-- What holds after every step: sound states, and the count of the last announcement. -/
structure RowInv (history : List DriverEvent) (now : Driver) : Prop where
  sound : Sound now.client
  announced : now.client.state.inResults = true →
    announced (events history) = some now.client.columnCount

theorem RowInv.next (hroom : sendBufferMin ≤ room) {later : Driver} {step : DriverStep}
    (h : RowInv history now) (hnext : NextDriver sha256 room now step later) :
    RowInv (history ++ [⟨now, step, later⟩]) later := by
  have hsame : ∀ e : DriverEvent, eventOf e = none → events (history ++ [e]) = events history := by
    intro e hnone
    rw [events_append, hnone, Option.toList_none, List.append_nil]
  cases hnext with
  | arrive bytes =>
    refine ⟨h.sound, fun hin => ?_⟩
    rw [hsame _ rfl]
    exact h.announced hin
  | tlsDone starting =>
    refine ⟨h.sound, fun hin => ?_⟩
    rw [hsame _ rfl]
    exact h.announced hin
  | query hquery =>
    obtain ⟨-, rfl⟩ := query_ok hquery
    exact ⟨⟨h.sound.options, trivial⟩, nofun⟩
  | read free shows hread =>
    refine ⟨?_, fun hin => ?_⟩
    · have hopen := read_open hread
      rename_i shown read client
      have hcalm := read_calm sha256 h.sound hroom hopen.1 hopen.2 shown
      rw [hread] at hcalm
      exact hcalm
    · rw [events_append]
      exact read_announced hread h.announced hin

theorem row_inv (hroom : sendBufferMin ≤ room) (hbounded : Bounded options)
    (h : Run (NextDriver sha256 room) (.start { options }) history now) : RowInv history now := by
  induction h with
  | start => exact ⟨⟨hbounded, trivial⟩, nofun⟩
  | step _ hnext ih => exact ih.next hroom hnext

/-! ## A row's run -/

/-- A row is still read, or it was given whole. -/
inductive RowRun (columns total : Nat) (rest : List DriverEvent) (now : Driver) : Prop
  | going (row : Row) (standing : now.client.state = .row row)
    (count : now.client.columnCount = columns)
    (so_far : RowSoFar columns total (events rest) (used rest) row)
  | done (mid future : List DriverEvent) (split : rest = mid ++ future)
    (whole : RowDone columns total mid)

theorem read_row (hstate : client.state = .row row)
    (h : client.read sha256 input room = .ok (step, later)) :
    client.readRow row input = .ok (step, later) := by
  rw [Client.read] at h
  split at h
  · cases h
  · rw [hstate] at h
    exact h

theorem RowRead.consumed_le (h : RowRead row input step row') : step.consumed ≤ input.length := by
  have htake : ∀ lead : List UInt8, input.take lead.length = lead → lead.length ≤ input.length := by
    intro lead hlead
    have hlength := congrArg List.length hlead
    rw [List.length_take] at hlength
    omega
  cases h with
  | wait => exact Nat.zero_le _
  | bytes n _ here => exact here
  | null _ here => exact htake [0xFB] here
  | length lead _ _ here => exact htake lead here

theorem RowRead.more (h : RowRead row input .more row') : row' = row := by
  generalize hstep : Step.more = step at h
  have hevent : step.event = none := by rw [← hstep]; rfl
  cases h with
  | wait => rfl
  | bytes => cases hevent
  | null => cases hevent
  | length => cases hevent

theorem RowSoFar.done (h : RowSoFar columns total (events rest) (used rest) row)
    (hcolumns : row.columnsLeft = 0) (hvalue : row.valueLeft = 0) (hpacket : row.packetLeft = 0) :
    RowDone columns total rest := by
  cases h with
  | between values zero count whole packet =>
    exact ⟨values, by omega, whole.framed, whole.events, whole.wire, by omega⟩
  | within values lead pieces pos => omega

theorem RowRun.next {later : Driver} {step : DriverStep} (h : RowRun columns total rest now)
    (hnext : NextDriver sha256 room now step later) :
    RowRun columns total (rest ++ [⟨now, step, later⟩]) later := by
  cases h with
  | done mid future split whole =>
    exact .done mid (future ++ [_]) (by rw [split, List.append_assoc]) whole
  | going row standing count so_far =>
    have hquiet : ∀ e : DriverEvent, eventOf e = none → usedOf e = [] →
        RowSoFar columns total (events (rest ++ [e])) (used (rest ++ [e])) row := by
      intro e hevent hused
      rw [events_append, used_append, hevent, hused, Option.toList_none, List.append_nil,
        List.append_nil]
      exact so_far
    cases hnext with
    | arrive bytes => exact .going row standing count (hquiet _ rfl rfl)
    | tlsDone starting => exact .going row standing count (hquiet _ rfl rfl)
    | query hquery => exact nomatch standing.symm.trans (query_ok hquery).1
    | read free shows hread =>
      rename_i shown read client
      obtain ⟨row', hrow, hlater⟩ := readRow_read (read_row standing hread)
      have hso_far := so_far.read hrow
      have hused : shown.take read.consumed = now.input.take read.consumed := by
        obtain ⟨behind, hbehind⟩ := shows
        rw [← hbehind, List.take_append_of_le_length hrow.consumed_le]
      rw [hused] at hso_far
      generalize hlast : (⟨now, .read read, _⟩ : DriverEvent) = last
      have hboth : RowSoFar columns total (events (rest ++ [last])) (used (rest ++ [last])) row' := by
        rw [events_append, used_append, ← hlast]
        exact hso_far
      rcases hlater with ⟨rfl, rfl⟩ | hadvance
      · exact .going row' (hrow.more ▸ standing) count hboth
      · rcases advanceRow_ok hadvance with ⟨hcolumns, hvalue, hpacket, rfl⟩ | ⟨-, rfl⟩
        · exact .done _ [] (List.append_nil _).symm (hboth.done hcolumns hvalue hpacket)
        · exact .going row' rfl count hboth

theorem row_run {mid : Driver} (h : Run (NextDriver sha256 room) mid rest now)
    (hstart : RowRun columns total [] mid) : RowRun columns total rest now := by
  induction h with
  | start => exact hstart
  | step _ hnext ih => exact ih.next hnext

/-! ## The laws -/

/-- What holds of every run of a connection. -/
structure RowLaws (sha256 : Sha256) (room : Nat) (history : List DriverEvent) (now : Driver) :
    Prop where
  /-- Behind a row's header come its values: as many as columns were announced, each with as many
  bytes as it said, and with their lengths exactly the packet's bytes. -/
  rows : ∀ past e rest, history = past ++ e :: rest → eventOf e = some .row →
    ∃ columns total sequence, announced (events past) = some columns ∧
      usedOf e = writeInt 3 total ++ [sequence] ∧ total ≤ maxPayload ∧
      RowRun columns total rest now
  /-- No counter goes below zero and no `unreachable` is reached by the next read. -/
  calm : ∀ input, now.client.state ≠ .ready → now.client.state ≠ .closed →
    now.client.read sha256 input room ≠ .error .panic

theorem row_laws (hroom : sendBufferMin ≤ room) (hinit : Client.init options = some client)
    (h : Run (NextDriver sha256 room) (.start client) history now) :
    RowLaws sha256 room history now := by
  obtain ⟨rfl, hbounded⟩ := init_bounded hinit
  constructor
  case rows =>
    rintro past ⟨before, label, after⟩ rest rfl hevent
    obtain ⟨hpast, (hnext : NextDriver sha256 room before label after), hrest⟩ := h.split_step
    have hinv : RowInv past before := row_inv hroom hbounded hpast
    cases hnext with
    | arrive bytes => cases hevent
    | tlsDone starting => cases hevent
    | query hquery => cases hevent
    | read free shows hread =>
      rename_i shown read client
      replace hevent : read.event = some .row := hevent
      by_cases hin : before.client.state.inLogin = true
      · exact absurd hevent ((read_moves sha256 hread).in_login hin).2
      · cases read_serves (eq_false_of_ne_true hin) hread with
        | row len standing is_row header bound next =>
          refine ⟨before.client.columnCount, len, before.client.sequence,
            hinv.announced (by rw [standing]; rfl), ?_, bound.2, row_run hrest ?_⟩
          · show before.input.take read.consumed = _
            obtain ⟨behind, hbehind⟩ := shows
            rw [is_row, ← hbehind, ← header]
            refine List.take_append_of_le_length ?_
            have hlength := congrArg List.length header
            rw [List.length_take, List.length_append, writeInt_length, List.length_singleton]
              at hlength
            show 4 ≤ _
            omega
          · refine .going ⟨before.client.columnCount, len, 0⟩ (by rw [next]) (by rw [next]; rfl) ?_
            exact .between [] rfl (Nat.zero_add _) ⟨nofun, rfl, rfl⟩ (Nat.zero_add _)
        | wait more => rw [more] at hevent; cases hevent
        | ended event =>
          rcases event with ⟨_, event⟩ | ⟨_, event⟩ | ⟨_, event⟩
          all_goals
            rw [event] at hevent
            cases hevent
        | columns event => rw [event] at hevent; cases hevent
        | column _ event =>
          obtain ⟨column, event⟩ := event
          rw [event] at hevent
          cases hevent
        | value row row' _ read => exact absurd hevent read.no_row
  case calm =>
    intro input hready hclosed hpanic
    have hcalm := read_calm sha256 (row_inv hroom hbounded h).sound hroom hready hclosed input
    rw [hpanic] at hcalm
    exact hcalm rfl

/-! ## Splits and rows -/

/-- What holds of a connection, however its stream is read. -/
structure ConnectionLaws (sha256 : Sha256) (room : Nat) (options : Options) (client : Client) :
    Prop where
  /-- Every splitting of every stream reads as the whole stream does. -/
  splits : ∀ script reads, Agree ((connection sha256 room).readAll (.start options script) reads)
    ((connection sha256 room).drain (.start options script) reads.flatten)
  rows : ∀ history now, Run (NextDriver sha256 room) (.start client) history now →
    RowLaws sha256 room history now

/-- **A connection's events do not depend on its reads, and its rows are whole.** -/
theorem connection_laws {sha256 : Sha256} {room : Nat} (hroom : sendBufferMin ≤ room)
    {options : Options} {client : Client} (hinit : Client.init options = some client) :
    ConnectionLaws sha256 room options client where
  splits := reads_agree hroom hinit
  rows _ _ := row_laws hroom hinit

/-- A login without TLS and with an empty password. -/
theorem connection_laws_plain : ∃ (sha256 : Sha256) (client : Client),
    Client.init ⟨text "rui", [], text "rui", .tcp⟩ = some client ∧
      ConnectionLaws sha256 sendBufferMin ⟨text "rui", [], text "rui", .tcp⟩ client := by
  have hinit : Client.init ⟨text "rui", [], text "rui", .tcp⟩ =
      some { options := ⟨text "rui", [], text "rui", .tcp⟩ } := by decide
  exact ⟨⟨fun _ => List.replicate 32 0, fun _ => rfl⟩, _, hinit, connection_laws le_rfl hinit⟩

/-- A login, a result set of one column, and a row whose value of two bytes leaves one over. -/
def overfull : List UInt8 :=
  [0x4a, 0, 0, 0, 0x0a, 0x38, 0x2e, 0x34, 0x2e, 0x31, 0x33, 0, 9, 0, 0, 0, 0x5d, 0x74, 0x14, 0x2c,
    0x16, 0x23, 0x2c, 0x76, 0, 0xff, 0xff, 0xff, 2, 0, 0xff, 0xdf, 0x15, 0, 0, 0, 0, 0, 0, 0, 0, 0,
    0, 0x0b, 0x6d, 0x43, 0x31, 0x65, 0x3e, 0x13, 0x77, 0x43, 0x20, 0x5a, 1, 0, 0x63, 0x61, 0x63,
    0x68, 0x69, 0x6e, 0x67, 0x5f, 0x73, 0x68, 0x61, 0x32, 0x5f, 0x70, 0x61, 0x73, 0x73, 0x77, 0x6f,
    0x72, 0x64, 0] ++
  [7, 0, 0, 2, 0, 0, 0, 2, 0, 0, 0] ++
  [1, 0, 0, 1, 1] ++
  [19, 0, 0, 2, 0, 0, 0, 0, 0, 0, 0x0c, 45, 0, 0, 0, 0, 0, 253, 0, 0, 0, 0, 0] ++
  [4, 0, 0, 3, 2]

set_option maxRecDepth 20000 in
/-- Whole, the value and the byte behind it are refused together; split inside the value, its first
byte was given before. -/
theorem overfull_split :
    ∃ (sha256 : Sha256) (options : Options), Client.init options = some { options } ∧
      merged ((connection sha256 2048).readAll (.start options [1]) [overfull ++ [97], [98, 99]]).1 ≠
        merged ((connection sha256 2048).drain (.start options [1])
          [overfull ++ [97], [98, 99]].flatten).1 := by
  refine ⟨⟨fun _ => List.replicate 32 0, fun _ => rfl⟩, ⟨text "rui", [], text "rui", .tcp⟩,
    by decide, ?_⟩
  generalize hsha : (⟨fun _ => List.replicate 32 0, fun _ => rfl⟩ : Sha256) = sha256
  generalize hstart : Talk.start ⟨text "rui", [], text "rui", .tcp⟩ [1] = start
  obtain ⟨out, talk, hfirst, hlast, hmerged⟩ : ∃ out talk,
      (connection sha256 2048).drainWithin 200 start (overfull ++ [97]) = (out, .waiting talk []) ∧
      ((connection sha256 2048).drainWithin 200 talk [98, 99]).1 = [] ∧
      merged out ≠ merged
        ((connection sha256 2048).drainWithin 200 start (overfull ++ [97, 98, 99])).1 := by
    subst hsha hstart
    exact ⟨_, _, rfl, by decide +kernel, by decide +kernel⟩
  rw [Incremental.drainWithin_eq 200 (by decide)] at hfirst hlast hmerged
  have hread : ((connection sha256 2048).readAll start [overfull ++ [97], [98, 99]]).1 = out := by
    rw [Incremental.readAll, List.foldl_cons, List.foldl_cons, List.foldl_nil]
    have hresume : (connection sha256 2048).resume ([], .waiting start []) (overfull ++ [97]) =
        (out, .waiting talk []) := by
      show ([] ++ ((connection sha256 2048).drain start ([] ++ (overfull ++ [97]))).1, _) = _
      rw [List.nil_append, List.nil_append, hfirst]
    rw [hresume]
    show out ++ ((connection sha256 2048).drain talk [98, 99]).1 = out
    rw [hlast, List.append_nil]
  rw [hread]
  exact hmerged

end Rui.Mysql
