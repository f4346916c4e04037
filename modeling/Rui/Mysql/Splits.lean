import Rui.Library.Incremental
import Rui.Mysql.Reads

/-!
# A connection does not depend on how its reads were split

The driver presents what it has, with what came behind it, and asks the client
until it wants more. Values are given in as many pieces as their bytes came in;
but for these pieces the events are those of the whole stream, and so is the
error that ends it.
-/

namespace Rui.Mysql

open Library

/-- A client and the lengths of the queries its driver will send, one each time it is ready. -/
structure Talk where
  client : Client
  script : List Nat
  deriving DecidableEq, Repr

variable (sha256 : Sha256) (room : Nat)

/-- What comes without another byte: the handshake response once TLS stands, and the next query
that is not too large once the client is ready. -/
def Talk.settle (client : Client) : List Nat → Attempt (List Event × Talk)
  | [] =>
    if client.state = .tls then do
      let (step, client) ← client.read sha256 [] room
      .ok (step.event.toList, ⟨client, []⟩)
    else .ok ([], ⟨client, []⟩)
  | textLen :: script =>
    if client.state = .tls then do
      let (step, client) ← client.read sha256 [] room
      .ok (step.event.toList, ⟨client, textLen :: script⟩)
    else if client.state = .ready then do
      match ← client.query textLen with
      | none => settle client script
      | some (_, client) => .ok ([], ⟨client, script⟩)
    else .ok ([], ⟨client, textLen :: script⟩)

/-- The driver's answer to what it holds. -/
def Talk.next (self : Talk) (held : List UInt8) : Answer Talk Event (Fault Error) :=
  if self.client.state = .ready ∨ self.client.state = .closed then .wait self
  else
    match self.client.read sha256 held room with
    | .error e => .fail e
    | .ok (step, client) =>
      -- no read consumes more than it is shown
      if step.consumed = 0 ∨ held.length < step.consumed then .wait { self with client }
      else
        match settle sha256 room client self.script with
        | .error e => .fail e
        | .ok (events, talk) => .emit step.consumed (step.event.toList ++ events) talk

/-- The connection as a reader of what its server sends. -/
def connection : Incremental Talk UInt8 Event (Fault Error) where
  next := Talk.next sha256 room
  progress {talk held used out talk'} h := by
    rw [Talk.next] at h
    split at h
    · cases h
    · split at h
      · cases h
      · split at h
        · cases h
        · split at h
          · cases h
          · cases h
            omega

/-! ## Merged events -/

/-- Joins the pieces of a value as they come. -/
def merge : List UInt8 → Event → List Event × List UInt8
  | pending, .bytes bytes => ([], pending ++ bytes)
  | pending, event => ((if pending = [] then [] else [.bytes pending]) ++ [event], [])

/-- Events with the bytes of each value joined, and the bytes behind the last of them. -/
def merged (events : List Event) : List Event × List UInt8 := Incremental.gather merge [] events

/-! ## Every answer is lawful -/

/-- Where the driver asks a client. -/
structure Asked (talk : Talk) : Prop where
  sound : Sound talk.client
  settled : talk.client.state ≠ .tls

variable {sha256 room} {client later : Client} {row : Row}

theorem settle_calm (hroom : sendBufferMin ≤ room) (h : Sound client) (script : List Nat) :
    Calm (fun r => Asked r.2) (Talk.settle sha256 room client script) := by
  have htls : ∀ script, client.state = .tls → Calm (fun r => Asked r.2) (do
      let (step, client) ← client.read sha256 [] room
      .ok (step.event.toList, (⟨client, script⟩ : Talk))) := by
    intro script hstate
    have hread : client.read sha256 [] room =
        (client.writeResponse sha256 room).bind fun r => .ok (⟨0, some r.1⟩, r.2) := by
      rw [Client.read, if_neg (Nat.not_lt.mpr hroom), hstate]
      rfl
    rw [hread]
    have hwritten := writeResponse_calm sha256 h hroom
    cases hwrite : client.writeResponse sha256 room with
    | error e =>
      rw [hwrite] at hwritten
      exact hwritten
    | ok written =>
      rw [hwrite] at hwritten
      refine ⟨hwritten.1, ?_⟩
      show written.2.state ≠ .tls
      rw [hwritten.2]
      intro h
      cases h
  induction script generalizing client with
  | nil =>
    rw [Talk.settle]
    exact .ite (htls []) fun hstate => .ok ⟨h, hstate⟩
  | cons textLen script ih =>
    rw [Talk.settle]
    refine .ite (htls _) fun hstate => .ite (fun hready => ?_) fun _ => .ok ⟨h, hstate⟩
    rw [Client.query, if_neg (not_not_intro hready)]
    by_cases hlarge : textLen + 1 > maxPayload
    · rw [if_pos hlarge]
      exact ih h htls
    · rw [if_neg hlarge]
      exact ⟨⟨h.options, trivial⟩, fun h => (by cases h)⟩

variable {talk : Talk} {held : List UInt8}

theorem next_answer (hready : talk.client.state ≠ .ready) (hclosed : talk.client.state ≠ .closed)
    {step : Step} (hconsumed : 0 < step.consumed) (hwithin : step.consumed ≤ held.length)
    (hread : talk.client.read sha256 held room = .ok (step, later)) :
    talk.next sha256 room held = match Talk.settle sha256 room later talk.script with
      | .error e => .fail e
      | .ok (events, talk) => .emit step.consumed (step.event.toList ++ events) talk := by
  rw [Talk.next, if_neg (not_or.mpr ⟨hready, hclosed⟩), hread]
  simp only
  rw [if_neg (by omega)]

theorem next_fail (hready : talk.client.state ≠ .ready) (hclosed : talk.client.state ≠ .closed)
    {e : Fault Error} (hread : talk.client.read sha256 held room = .error e) :
    talk.next sha256 room held = .fail e := by
  rw [Talk.next, if_neg (not_or.mpr ⟨hready, hclosed⟩), hread]

theorem next_more (hready : talk.client.state ≠ .ready) (hclosed : talk.client.state ≠ .closed)
    (hread : talk.client.read sha256 held room = .ok (.more, talk.client)) :
    talk.next sha256 room held = .wait talk := by
  rw [Talk.next, if_neg (not_or.mpr ⟨hready, hclosed⟩), hread]
  rfl

theorem next_done (h : talk.client.state = .ready ∨ talk.client.state = .closed) :
    talk.next sha256 room held = .wait talk := by
  rw [Talk.next, if_pos h]

/-- The connection with the pieces of its values joined. -/
def joined (sha256 : Sha256) (room : Nat) : Incremental (Talk × List UInt8) UInt8 Event (Fault Error) :=
  (connection sha256 room).through merge

abbrev AskedJoined (talk : Talk × List UInt8) (_held : List UInt8) : Prop := Asked talk.1

theorem joined_next (talk : Talk) (pending held : List UInt8) :
    (joined sha256 room).next (talk, pending) held =
      Incremental.seen merge pending (talk.next sha256 room held) := rfl

theorem lawful_answer (hroom : sendBufferMin ≤ room) (pending : List UInt8)
    (hready : talk.client.state ≠ .ready) (hclosed : talk.client.state ≠ .closed) {step : Step}
    (hconsumed : 0 < step.consumed) (hwithin : step.consumed ≤ held.length) (hsound : Sound later)
    (hread : ∀ more, talk.client.read sha256 (held ++ more) room = .ok (step, later)) :
    (joined sha256 room).Lawful AskedJoined (talk, pending) held := by
  have hnext : ∀ more, talk.next sha256 room (held ++ more) =
      match Talk.settle sha256 room later talk.script with
      | .error e => .fail e
      | .ok (events, talk) => .emit step.consumed (step.event.toList ++ events) talk :=
    fun more => next_answer hready hclosed hconsumed (by rw [List.length_append]; omega)
      (hread more)
  have hcalm : Calm (fun r => Asked r.2) (Talk.settle sha256 room later talk.script) :=
    settle_calm hroom hsound talk.script
  rcases hcalm.cases with ⟨⟨events, talk'⟩, hsettle, hasked⟩ | ⟨e, herror⟩
  · simp only [hsettle] at hnext
    exact .emit hasked fun more => by rw [joined_next, hnext]; rfl
  · simp only [herror] at hnext
    exact .fail fun more => by rw [joined_next, hnext]; rfl

theorem lawful_fail (pending : List UInt8) (hready : talk.client.state ≠ .ready)
    (hclosed : talk.client.state ≠ .closed) {e : Fault Error}
    (hread : ∀ more, talk.client.read sha256 (held ++ more) room = .error e) :
    (joined sha256 room).Lawful AskedJoined (talk, pending) held := by
  apply Incremental.Lawful.fail
  intro more
  rw [joined_next, next_fail hready hclosed (hread more)]
  rfl

theorem lawful_wait (hasked : Asked talk) (pending : List UInt8)
    (hnext : talk.next sha256 room held = .wait talk) :
    (joined sha256 room).Lawful AskedJoined (talk, pending) held := by
  refine .wait ?_ hasked fun more => rfl
  rw [joined_next, hnext]
  rfl

theorem settle_none (htls : client.state ≠ .tls) (hready : client.state ≠ .ready)
    (script : List Nat) : Talk.settle sha256 room client script = .ok ([], ⟨client, script⟩) := by
  cases script with
  | nil => rw [Talk.settle, if_neg htls]
  | cons textLen script => rw [Talk.settle, if_neg htls, if_neg hready]

theorem asked_advance (h : client.advanceRow row = .ok later) (hsound : Sound later)
    (script : List Nat) : Asked ⟨later, script⟩ := by
  refine ⟨hsound, ?_⟩
  rcases advanceRow_ok h with ⟨-, -, -, rfl⟩ | ⟨-, rfl⟩
  · exact nofun
  · exact nofun

section

variable (hroom : sendBufferMin ≤ room)

include hroom

theorem next_bytes (hstate : talk.client.state = .row row)
    (hpacket : row.valueLeft ≤ row.packetLeft) (hvalue : 0 < row.valueLeft) (hheld : held ≠ [])
    {count : Nat} (hcount : count = min held.length row.valueLeft) (pending : List UInt8) :
    (joined sha256 room).next (talk, pending) held =
      match talk.client.advanceRow { row with
        valueLeft := row.valueLeft - count, packetLeft := row.packetLeft - count } with
      | .error e => .fail e
      | .ok later => .emit count [] (⟨later, talk.script⟩, pending ++ held.take count) := by
  subst hcount
  have hready : talk.client.state ≠ .ready := by rw [hstate]; exact fun h => (by cases h)
  have hclosed : talk.client.state ≠ .closed := by rw [hstate]; exact fun h => (by cases h)
  have hread : talk.client.read sha256 held room = talk.client.readRow row held := by
    rw [Client.read, if_neg (Nat.not_lt.mpr hroom), hstate]
  rw [readBytes_eq hpacket hheld hvalue] at hread
  cases hadvance : talk.client.advanceRow { row with
      valueLeft := row.valueLeft - min held.length row.valueLeft
      packetLeft := row.packetLeft - min held.length row.valueLeft } with
  | error e =>
    rw [hadvance] at hread
    rw [joined_next, next_fail hready hclosed hread]
    rfl
  | ok later =>
    rw [hadvance] at hread
    have hpos := List.length_pos_of_ne_nil hheld
    have hlater : later.state ≠ .tls ∧ later.state ≠ .ready := by
      rcases advanceRow_ok hadvance with ⟨-, -, -, rfl⟩ | ⟨-, rfl⟩
      · exact ⟨fun h => (by cases h), fun h => (by cases h)⟩
      · exact ⟨fun h => (by cases h), fun h => (by cases h)⟩
    rw [joined_next, next_answer hready hclosed (show 0 < min held.length row.valueLeft by omega)
      (Nat.min_le_left _ _) hread, settle_none hlater.1 hlater.2]
    rfl

/-- **The bytes of a value**: what is there is taken, and more is taken as if it had come with
it; the error behind a value's last byte comes with that byte. -/
theorem lawful_bytes (hasked : Asked talk) (pending : List UInt8)
    (hstate : talk.client.state = .row row) (hvalue : 0 < row.valueLeft) :
    (joined sha256 room).Lawful AskedJoined (talk, pending) held := by
  have hsound := hasked.sound.state
  rw [hstate] at hsound
  obtain ⟨hcolumns, hpacket, -⟩ := hsound
  have hready : talk.client.state ≠ .ready := hstate ▸ nofun
  have hclosed : talk.client.state ≠ .closed := hstate ▸ nofun
  by_cases hheld : held = []
  · apply lawful_wait hasked
    apply next_more hready hclosed
    rw [Client.read, if_neg (Nat.not_lt.mpr hroom), hstate]
    show talk.client.readRow row held = _
    rw [hheld, Client.readRow.eq_def, if_pos hvalue, Client.readBytes,
      if_pos (by rw [List.length_nil, Nat.zero_min])]
  · have hpos := List.length_pos_of_ne_nil hheld
    have hnext : ∀ more count, count = min (held ++ more).length row.valueLeft →
        (joined sha256 room).next (talk, pending) (held ++ more) =
          match talk.client.advanceRow { row with
            valueLeft := row.valueLeft - count, packetLeft := row.packetLeft - count } with
          | .error e => .fail e
          | .ok later => .emit count [] (⟨later, talk.script⟩, pending ++ (held ++ more).take count) :=
      fun more count hcount => next_bytes hroom hstate hpacket hvalue
        (List.append_ne_nil_of_left_ne_nil hheld more) hcount pending
    have hadvance : ∀ count, Calm Sound (talk.client.advanceRow { row with
        valueLeft := row.valueLeft - count, packetLeft := row.packetLeft - count }) := by
      intro count
      exact advanceRow_calm hasked.sound hcolumns (by show _ - _ ≤ _ - _; omega)
    by_cases hwhole : row.valueLeft ≤ held.length
    · -- the value ends here, whatever comes behind it
      have hcount : ∀ more, row.valueLeft = min (held ++ more).length row.valueLeft := by
        intro more
        rw [List.length_append]
        omega
      rcases (hadvance row.valueLeft).cases with ⟨later, hlater, hsound⟩ | ⟨e, herror⟩
      · have hsame : ∀ more, (joined sha256 room).next (talk, pending) (held ++ more) =
            .emit row.valueLeft [] (⟨later, talk.script⟩, pending ++ held.take row.valueLeft) := by
          intro more
          rw [hnext more _ (hcount more), hlater, List.take_append_of_le_length hwhole]
        exact .emit (asked_advance hlater hsound talk.script) hsame
      · exact .fail fun more => by rw [hnext more _ (hcount more), herror]
    · -- the value goes on: its bytes so far wait for the rest of it
      have hmiddle : talk.client.advanceRow { row with
          valueLeft := row.valueLeft - held.length
          packetLeft := row.packetLeft - held.length } =
          .ok { talk.client with state := .row { row with
            valueLeft := row.valueLeft - held.length
            packetLeft := row.packetLeft - held.length } } := by
        rw [Client.advanceRow, if_neg (by show ¬ (_ ∧ _ - _ = 0); omega)]
      generalize hmid : ({ talk.client with state := .row { row with
        valueLeft := row.valueLeft - held.length
        packetLeft := row.packetLeft - held.length } } : Client) = mid at hmiddle
      have hmidSound : Sound mid := by
        have := hadvance held.length
        rw [hmiddle] at this
        exact this
      have hhere : (joined sha256 room).next (talk, pending) held =
          .emit held.length [] (⟨mid, talk.script⟩, pending ++ held) := by
        have := hnext [] held.length (by rw [List.append_nil]; omega)
        rwa [List.append_nil, hmiddle, List.take_length] at this
      refine .pause hhere (asked_advance hmiddle hmidSound talk.script) fun more hmore => ?_
      rw [List.drop_length, List.nil_append]
      generalize hcount : min more.length (row.valueLeft - held.length) = count
      have hstate' : mid.state = .row { row with
          valueLeft := row.valueLeft - held.length
          packetLeft := row.packetLeft - held.length } := by
        rw [← hmid]
      have hthen : (joined sha256 room).next (⟨mid, talk.script⟩, pending ++ held) more =
          match talk.client.advanceRow { row with
            valueLeft := row.valueLeft - (held.length + count)
            packetLeft := row.packetLeft - (held.length + count) } with
          | .error e => .fail e
          | .ok later =>
            .emit count [] (⟨later, talk.script⟩, pending ++ held ++ more.take count) := by
        rw [next_bytes hroom (show (⟨mid, talk.script⟩ : Talk).client.state = _ from hstate')
          (by show _ - _ ≤ _ - _; omega) (by show 0 < _ - _; omega) hmore hcount.symm]
        simp only [Nat.sub_sub, ← hmid]
        rfl
      have hboth := hnext more (held.length + count) (by rw [List.length_append]; omega)
      rcases (hadvance (held.length + count)).cases with ⟨later, hlater, -⟩ | ⟨e, herror⟩
      · rw [hlater] at hthen hboth
        refine .inl ⟨count, [], _, hthen, hboth.trans ?_⟩
        rw [List.take_length_add_append, List.append_assoc]
      · rw [herror] at hthen hboth
        exact .inr (.inl ⟨.error e, hthen, hboth⟩)

theorem joined_lawful {talk : Talk × List UInt8}
    (hasked : Asked talk.1) (held : List UInt8) :
    (joined sha256 room).Lawful AskedJoined talk held := by
  obtain ⟨talk, pending⟩ := talk
  by_cases hdone : talk.client.state = .ready ∨ talk.client.state = .closed
  · exact lawful_wait hasked pending (next_done hdone)
  · obtain ⟨hready, hclosed⟩ := not_or.mp hdone
    by_cases hvalue : ∀ row, talk.client.state = .row row → row.valueLeft = 0
    · cases read_outcome sha256 hasked.sound hroom hasked.settled hready hclosed hvalue held with
      | wait here => exact lawful_wait hasked pending (next_more hready hclosed here)
      | answer step later hconsumed hwithin hsound same =>
        exact lawful_answer hroom pending hready hclosed hconsumed hwithin hsound same
      | fail e same => exact lawful_fail pending hready hclosed same
    · push Not at hvalue
      obtain ⟨row, hstate, hleft⟩ := hvalue
      exact lawful_bytes hroom hasked pending hstate (Nat.pos_of_ne_zero hleft)

theorem joined_splittable :
    (joined sha256 room).Splittable AskedJoined where
  grow h _ := h
  lawful h := joined_lawful hroom h _

end

/-- A connection before its first byte. -/
def Talk.start (options : Options) (script : List Nat) : Talk := ⟨{ options }, script⟩

theorem start_next (hroom : sendBufferMin ≤ room) (options : Options) (script : List Nat) :
    (Talk.start options script).next sha256 room [] = .wait (Talk.start options script) := by
  have hgreeting : (Talk.start options script).client.state = .greeting := rfl
  apply next_more (hgreeting ▸ nofun) (hgreeting ▸ nofun)
  rw [Client.read, if_neg (Nat.not_lt.mpr hroom)]
  rfl

/-- Two readings of one stream. -/
structure Agree (split whole : List Event × Standing Talk UInt8 (Fault Error)) : Prop where
  /-- The same events, but for the pieces in which values are given. -/
  events : (merged split.1).1 = (merged whole.1).1
  /-- The same error, or the same client with the same bytes not consumed. -/
  standing : split.2 = whole.2
  /-- Where no error ended the stream, the same bytes of the value it stopped in. -/
  pending : ∀ talk held, split.2 = .waiting talk held → merged split.1 = merged whole.1

/-- **Split independence.** -/
theorem reads_agree (hroom : sendBufferMin ≤ room) {options : Options}
    (hinit : Client.init options = some client) (script : List Nat) (reads : List (List UInt8)) :
    Agree ((connection sha256 room).readAll (.start options script) reads)
      ((connection sha256 room).drain (.start options script) reads.flatten) := by
  obtain ⟨rfl, hbounded⟩ := init_bounded hinit
  have hasked : Asked (Talk.start options script) := ⟨⟨hbounded, trivial⟩, nofun⟩
  have hlaws : (joined sha256 room).Splittable AskedJoined := joined_splittable hroom
  have hwait : (joined sha256 room).next (Talk.start options script, []) [] =
      .wait (Talk.start options script, []) := by
    rw [joined_next, start_next hroom]
    rfl
  have hjoined := hlaws.readAll_flatten hasked hwait reads
  rw [joined, Incremental.readAll_through, Incremental.drain_through] at hjoined
  generalize (connection sha256 room).readAll (.start options script) reads = split at hjoined ⊢
  generalize (connection sha256 room).drain (.start options script) reads.flatten = whole
    at hjoined ⊢
  obtain ⟨hevents, hstanding⟩ := Prod.mk.inj hjoined
  obtain ⟨splitEvents, splitEnd⟩ := split
  obtain ⟨wholeEvents, wholeEnd⟩ := whole
  cases splitEnd with
  | waiting talk held =>
    cases wholeEnd with
    | waiting talk' held' =>
      obtain ⟨htalk, rfl⟩ := Standing.waiting.inj hstanding
      obtain ⟨rfl, hpending⟩ := Prod.mk.inj htalk
      exact ⟨hevents, rfl, fun _ _ _ => Prod.ext hevents hpending⟩
    | _ => cases hstanding
  | stopped =>
    cases wholeEnd with
    | stopped => exact ⟨hevents, rfl, nofun⟩
    | _ => cases hstanding
  | failed e =>
    cases wholeEnd with
    | failed e' =>
      cases hstanding
      exact ⟨hevents, rfl, nofun⟩
    | _ => cases hstanding

end Rui.Mysql
