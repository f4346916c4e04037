import Rui.Connects.RaceLaws

/-!
# Every run of a connection keeps the rules of the race
-/

namespace Rui.Connects

open Library

variable {α : Type} {addresses : List α}

namespace Connection

/-- **The addresses left**, none having connected, and when the next of them is due. -/
structure Listed (addresses : List α) (held : Connection α) : Prop where
  listed : tried held.log ++ held.untried = addresses
  due : ∀ start, newest held.log = some start → held.nextAttemptNs =
    if held.untried.isEmpty then 0 else saturating start attemptDelayNs
  unwon : ¬Won held.log

/-- What each state of a connection adds. -/
def Phase (addresses : List α) (self : Connection α) : Prop :=
  match self.state with
  | .free => self.socket = none
  | .resolving => self.socket = none ∧ self.log = []
  | .connecting => self.Listed addresses ∧ self.socket ≠ none
  | _ => self.earlier = none ∧ ∃ socket, self.socket = some socket ∧ .connected socket ∈ self.log

/-- **What holds of a connection between two happenings.** -/
structure Kept (addresses : List α) (held : Connection α) : Prop where
  custody : held.Custody addresses
  phase : held.Phase addresses

variable {self : Connection α}

/-! ## Dropping a socket -/

section Drops

variable (self)

@[simp] theorem dropEarlier_earlier : self.dropEarlier.earlier = none := by
  cases h : self.earlier <;> simp [dropEarlier, h]

@[simp] theorem dropEarlier_socket : self.dropEarlier.socket = self.socket := by
  cases h : self.earlier <;> simp [dropEarlier, closeSocket, note, h]

@[simp] theorem dropEarlier_state : self.dropEarlier.state = self.state := by
  cases h : self.earlier <;> simp [dropEarlier, closeSocket, note, h]

@[simp] theorem dropEarlier_untried : self.dropEarlier.untried = self.untried := by
  cases h : self.earlier <;> simp [dropEarlier, closeSocket, note, h]

@[simp] theorem dropNewest_earlier : self.dropNewest.earlier = none := by
  cases h : self.socket <;> simp [dropNewest, h]

@[simp] theorem dropNewest_socket : self.dropNewest.socket = self.earlier := by
  cases h : self.socket <;> simp [dropNewest, h]

@[simp] theorem dropNewest_state : self.dropNewest.state = self.state := by
  cases h : self.socket <;> simp [dropNewest, closeSocket, note, h]

@[simp] theorem dropNewest_untried : self.dropNewest.untried = self.untried := by
  cases h : self.socket <;> simp [dropNewest, closeSocket, note, h]

theorem failedSince_dropEarlier : failedSince self.dropEarlier.log = failedSince self.log := by
  cases h : self.earlier <;> simp [dropEarlier, closeSocket, note, failedSince, h]

theorem failedSince_dropNewest : failedSince self.dropNewest.log = failedSince self.log := by
  cases h : self.socket <;> simp [dropNewest, closeSocket, note, failedSince, h]

end Drops

namespace Listed

theorem dropEarlier (h : self.Listed addresses) : self.dropEarlier.Listed addresses := by
  cases hearlier : self.earlier with
  | none =>
    rw [Connection.dropEarlier, hearlier]
    exact h
  | some older =>
    rw [Connection.dropEarlier, hearlier]
    exact ⟨h.listed, h.due, by simpa [Won, closeSocket, note] using h.unwon⟩

theorem dropNewest (h : self.Listed addresses) : self.dropNewest.Listed addresses := by
  cases hsocket : self.socket with
  | none =>
    rw [Connection.dropNewest, hsocket]
    exact ⟨h.listed, h.due, h.unwon⟩
  | some newer =>
    rw [Connection.dropNewest, hsocket]
    exact ⟨h.listed, h.due, by simpa [Won, closeSocket, note] using h.unwon⟩

theorem refused (h : self.Listed addresses) (socket : Nat) :
    (self.note (.refused socket)).Listed addresses :=
  ⟨h.listed, h.due, by simpa [Won] using h.unwon⟩

theorem closable (h : self.Listed addresses) (hc : self.Custody addresses)
    (hmore : self.untried ≠ []) (older : Nat) (hearlier : self.earlier = some older) :
    Closable addresses self.log older := by
  obtain ⟨newer, hnewer, _⟩ := hc.ordered older hearlier
  refine .inr (.inr (.inr ⟨⟨newer, ?_⟩, fun hall => hmore ?_, h.unwon⟩))
  · rw [hc.flight, hearlier, hnewer]
    rfl
  · have hlisted := h.listed
    rw [← hall] at hlisted
    simpa using hlisted

end Listed

/-! ## One attempt -/

/-- When the next address may be tried. -/
def Ready (self : Connection α) (time : Nat) : Prop :=
  inFlight self.log = [] ∨ failedSince self.log = true ∨
    ∃ start, newest self.log = some start ∧ saturating start attemptDelayNs ≤ time

theorem Custody.room (h : self.Custody addresses) (hearlier : self.earlier = none) :
    (inFlight self.log).length < maxAttempts := by
  rw [h.flight, hearlier]
  cases self.socket <;> simp [maxAttempts]

variable {address : α} {rest : List α} {time : Nat}

theorem Custody.take (h : self.Custody addresses) (hl : self.Listed addresses)
    (huntried : self.untried = address :: rest) (hearlier : self.earlier = none)
    (hready : self.Ready time) : (self.take address rest time).Custody addresses := by
  have hstart : tried self.log ++ [address] <+: addresses := by
    refine ⟨rest, ?_⟩
    rw [← hl.listed, huntried, List.append_assoc]
    rfl
  have hnoted : (self.note (.started address time)).Custody addresses :=
    h.note rfl rfl ⟨hstart, h.room hearlier, hready⟩
  exact ⟨hnoted.sound, hnoted.flight, hnoted.serial, hnoted.ordered⟩

theorem Listed.take (hl : self.Listed addresses) (huntried : self.untried = address :: rest) :
    (self.take address rest time).Listed addresses where
  listed := by
    rw [← hl.listed, huntried]
    simp [Connection.take, note, tried]
  due := by
    intro start hstart
    obtain rfl : time = start := Option.some.inj hstart
    rfl
  unwon := by simpa [Won, Connection.take] using hl.unwon

theorem Custody.hold (h : self.Custody addresses) (hearlier : self.earlier = none)
    (hstarted : newest self.log ≠ none) : self.hold.Custody addresses where
  sound := by
    have hnew : self.sockets ∉ opened self.log := fun hopened =>
      Nat.lt_irrefl _ (h.serial _ hopened)
    exact ⟨⟨hnew, h.room hearlier, hstarted⟩, h.sound⟩
  flight := by
    have hflight := h.flight
    rw [hearlier] at hflight
    show inFlight (.opened self.sockets :: self.log) = self.socket.toList ++ [self.sockets]
    rw [inFlight_opened, hflight]
    rfl
  serial := by
    intro socket hsocket
    rcases List.mem_cons.mp hsocket with rfl | hbefore
    · exact Nat.lt_succ_self _
    · exact Nat.lt_succ_of_lt (h.serial socket hbefore)
  ordered := by
    intro older holder
    have hopen : older ∈ opened self.log :=
      (inFlight_perm h.sound).subset (List.mem_append_left _ (h.socket_mem holder))
    exact ⟨self.sockets, rfl, h.serial older hopen⟩

/-- **One attempt**: the next address, tried as the rules allow. -/
theorem attempt_keeps (h : self.Custody addresses) (hl : self.Listed addresses)
    (huntried : self.untried = address :: rest) (hearlier : self.earlier = none)
    (hready : self.Ready time) (kernel : Kernel) :
    ∃ result next, self.attempt address rest time kernel = some (result, next) ∧
      next.Custody addresses ∧ (result ≠ .connected → next.Listed addresses) ∧
      next.untried = rest ∧ next.state = self.state ∧
      (result = .refused → next.earlier = none ∧ failedSince next.log = true) ∧
      (result = .inFlight → next.socket ≠ none) ∧
      (result = .connected → ∃ socket, next.socket = some socket ∧ .connected socket ∈ next.log) := by
  have hc := h.take hl huntried hearlier hready
  have ht : (self.take address rest time).Listed addresses := hl.take huntried
  have hhold : (self.take address rest time).hold.Custody addresses :=
    hc.hold hearlier (by simp [Connection.take, note, newest])
  have hheld : (self.take address rest time).hold.Listed addresses :=
    ⟨ht.listed, ht.due, by simpa [Won, Connection.hold] using ht.unwon⟩
  unfold attempt
  rw [hearlier]
  cases kernel with
  | noSocket =>
    exact ⟨_, _, rfl, hc, fun _ => ht, rfl, rfl, fun hno => (by cases hno), fun hno => (by cases hno),
      fun hno => (by cases hno)⟩
  | unconfigured =>
    exact ⟨_, _, rfl, hhold, fun _ => hheld, rfl, rfl, fun hno => (by cases hno),
      fun hno => (by cases hno), fun hno => (by cases hno)⟩
  | connected =>
    have hnoted : ((self.take address rest time).hold.note
        (.connected (self.take address rest time).sockets)).Custody addresses :=
      hhold.note rfl rfl ⟨hhold.socket_mem rfl, hheld.unwon⟩
    exact ⟨_, _, rfl, hnoted, fun hno => absurd rfl hno, rfl, rfl, fun hno => (by cases hno),
      fun hno => (by cases hno), fun _ => ⟨_, rfl, List.mem_cons_self⟩⟩
  | inProgress =>
    exact ⟨_, _, rfl, hhold, fun _ => hheld, rfl, rfl, fun hno => (by cases hno),
      fun _ hno => (by cases hno), fun hno => (by cases hno)⟩
  | refused =>
    have hnoted : ((self.take address rest time).hold.note
        (.refused (self.take address rest time).sockets)).Custody addresses :=
      hhold.note rfl rfl (hhold.socket_mem rfl)
    refine ⟨_, _, rfl, hnoted.dropNewest ?_, fun _ => (hheld.refused _).dropNewest, ?_, ?_,
      fun _ => ⟨?_, ?_⟩, fun hno => (by cases hno), fun hno => (by cases hno)⟩
    · rintro newer ⟨⟩
      exact .inr (.inl List.mem_cons_self)
    · rw [dropNewest_untried]
      rfl
    · rw [dropNewest_state]
      rfl
    · exact dropNewest_earlier _
    · rw [failedSince_dropNewest]
      rfl

/-! ## Failing and connecting -/

theorem Custody.setupFailed (h : self.Custody addresses) {cause : Cause}
    (hallowed : Allowed addresses self.log (.failed cause)) :
    (self.setupFailed cause).Kept addresses :=
  ⟨(h.note rfl rfl hallowed).close (.inr ⟨cause, List.mem_cons_self⟩), rfl⟩

theorem Custody.failed (h : self.Custody addresses) {cause : Cause}
    (hcause : cause ≠ .connectFailed) : (self.setupFailed cause).Kept addresses :=
  h.setupFailed fun hno => absurd hno hcause

theorem Custody.over (h : self.Custody addresses) (hearlier : self.earlier = none) {socket : Nat}
    (hsocket : self.socket = some socket) (hmem : .connected socket ∈ self.log) {state : State}
    (hstate : past state = true) (nextAttemptNs : Nat) (usesLookup : Bool) :
    { self with state, nextAttemptNs, usesLookup }.Kept addresses := by
  refine ⟨⟨h.sound, h.flight, h.serial, h.ordered⟩, ?_⟩
  cases state with
  | free => cases hstate
  | resolving => cases hstate
  | connecting => cases hstate
  | _ => exact ⟨hearlier, socket, hsocket, hmem⟩

theorem past_connected (origin : Origin) :
    past (if origin.http then .awaitingSettings else if origin.tunneled then .tunneling
      else .handshaking) = true := by
  rcases origin with ⟨_ | _, _ | _⟩ <;> rfl

/-- **On success exactly the connected socket is kept.** -/
theorem Custody.connected (h : self.Custody addresses) {socket : Nat}
    (hsocket : self.socket = some socket) (hmem : .connected socket ∈ self.log) :
    self.connected.Kept addresses := by
  have hdropped : self.dropEarlier.Custody addresses := by
    refine h.dropEarlier fun older hearlier => .inr (.inr (.inl ⟨socket, ?_, hmem⟩))
    obtain ⟨newer, hnewer, hlt⟩ := h.ordered older hearlier
    obtain rfl : socket = newer := Option.some.inj (hsocket.symm.trans hnewer)
    exact Nat.ne_of_gt hlt
  refine hdropped.over (dropEarlier_earlier _) ((dropEarlier_socket _).trans hsocket) ?_
    (past_connected _) _ _
  rw [Connection.dropEarlier]
  split
  · exact List.mem_cons_of_mem _ hmem
  · exact hmem

/-- Where the earlier attempt won, the newest one gives way to it. -/
theorem Custody.swapped (h : self.Custody addresses) (hl : self.Listed addresses) {older : Nat}
    (hearlier : self.earlier = some older) :
    { self.note (.connected older) with
      socket := some older, earlier := self.socket }.connected.Kept addresses := by
  obtain ⟨newer, hnewer, hlt⟩ := h.ordered older hearlier
  have hnoted : (self.note (.connected older)).Custody addresses :=
    h.note rfl rfl ⟨h.earlier_mem hearlier, hl.unwon⟩
  have hdropped : (self.note (.connected older)).dropNewest.Custody addresses := by
    refine hnoted.dropNewest fun other hother => .inr (.inr (.inl ⟨older, ?_, List.mem_cons_self⟩))
    obtain rfl : newer = other := Option.some.inj (hnewer.symm.trans hother)
    exact Nat.ne_of_lt hlt
  have hlog : (self.note (.connected older)).dropNewest.log =
      .closed newer :: .connected older :: self.log := by
    simp [Connection.dropNewest, Connection.closeSocket, hnewer]
  have hkept := hdropped.over (dropNewest_earlier _)
    ((dropNewest_socket (self.note (.connected older))).trans hearlier)
    (by rw [hlog]; exact List.mem_cons_of_mem _ List.mem_cons_self) (past_connected self.origin)
    0 false
  simp only [Connection.dropNewest, note_socket, note_earlier, hnewer, hearlier] at hkept
  simp only [Connection.connected, Connection.dropEarlier, hnewer]
  exact hkept

/-! ## The loop -/

/-- What `decided` may say. -/
inductive Decision (self : Connection α) (untried : List α) (failed : Bool) (time : Nat) :
    NextAttempt → Prop
  | wait (hsocket : self.socket ≠ none)
    (hdue : untried ≠ [] → self.nextAttemptNs ≠ 0 → time < self.nextAttemptNs) :
    Decision self untried failed time .wait
  | fail (hnone : untried = []) (hsocket : self.socket = none) :
    Decision self untried failed time .fail
  | start (hmore : untried ≠ []) (hearlier : self.earlier = none ∨ failed = true)
    (hready : self.socket = none ∨ failed = true ∨
      (self.nextAttemptNs ≠ 0 ∧ self.nextAttemptNs ≤ time)) :
    Decision self untried failed time .start
  | replaceOldest (hmore : untried ≠ [])
    (hready : self.nextAttemptNs ≠ 0 ∧ self.nextAttemptNs ≤ time) :
    Decision self untried failed time .replaceOldest

theorem Custody.decided (h : self.Custody addresses) (untried : List α) (failed : Bool)
    (time : Nat) : ∃ step, self.decided untried failed time = some step ∧
      self.Decision untried failed time step := by
  have hlone : self.socket = none → self.earlier = none := h.alone
  cases hsocket : self.socket with
  | none =>
    have hearlier := hlone hsocket
    cases untried with
    | nil => exact ⟨.fail, by simp [Connection.decided, nextAttempt, hsocket, hearlier, maxAttempts],
        .fail rfl hsocket⟩
    | cons address rest =>
      exact ⟨.start, by simp [Connection.decided, nextAttempt, hsocket, hearlier, maxAttempts],
        .start (by simp) (.inl hearlier) (.inl hsocket)⟩
  | some newer =>
    have hbusy : self.socket ≠ none := by simp [hsocket]
    cases untried with
    | nil =>
      refine ⟨.wait, ?_, .wait hbusy fun hno => absurd rfl hno⟩
      cases hearlier : self.earlier <;>
        simp [Connection.decided, nextAttempt, hsocket, hearlier, maxAttempts]
    | cons address rest =>
      by_cases hfailed : failed = true
      · refine ⟨.start, ?_, .start (by simp) (.inr hfailed) (.inr (.inl hfailed))⟩
        cases hearlier : self.earlier <;>
          simp [Connection.decided, nextAttempt, hsocket, hearlier, maxAttempts, hfailed]
      · by_cases hpassed : self.nextAttemptNs ≠ 0 ∧ self.nextAttemptNs ≤ time
        · cases hearlier : self.earlier with
          | none =>
            exact ⟨.start, by simp [Connection.decided, nextAttempt, hsocket, hearlier, maxAttempts,
              hfailed, hpassed], .start (by simp) (.inl hearlier) (.inr (.inr hpassed))⟩
          | some older =>
            exact ⟨.replaceOldest, by simp [Connection.decided, nextAttempt, hsocket, hearlier,
              maxAttempts, hfailed, hpassed], .replaceOldest (by simp) hpassed⟩
        · refine ⟨.wait, ?_, .wait hbusy fun _ hset => ?_⟩
          · cases hearlier : self.earlier <;>
              simp [Connection.decided, nextAttempt, hsocket, hearlier, maxAttempts, hfailed,
                hpassed]
          · exact Nat.lt_of_not_le fun hle => hpassed ⟨hset, hle⟩

/-- A due time that passed is the rule's delay after the newest attempt's start. -/
theorem Custody.ready (h : self.Custody addresses) (hl : self.Listed addresses)
    (hready : self.socket = none ∨ failedSince self.log = true ∨
      (self.nextAttemptNs ≠ 0 ∧ self.nextAttemptNs ≤ time)) : self.Ready time := by
  by_cases hsocket : self.socket = none
  · refine .inl ?_
    rw [h.flight, hsocket, h.alone hsocket]
    rfl
  · rcases hready with hno | hfailed | ⟨hset, hpassed⟩
    · exact absurd hno hsocket
    · exact .inr (.inl hfailed)
    · obtain ⟨socket, hsome⟩ := Option.ne_none_iff_exists'.mp hsocket
      have hstarted := newest_of_inFlight h.sound (List.ne_nil_of_mem (h.socket_mem hsome))
      obtain ⟨start, hstart⟩ := Option.ne_none_iff_exists'.mp hstarted
      have hdue := hl.due start hstart
      split at hdue
      · exact absurd hdue hset
      · exact .inr (.inr ⟨start, hstart, hdue ▸ hpassed⟩)

/-- **The loop of `advanceAttempts`** never fails an assertion, and keeps the rules. -/
theorem attempts_keeps (kernel : Nat → Kernel) (time : Nat) (untried : List α) (failed : Bool)
    (self : Connection α) (h : self.Custody addresses) (hl : self.Listed addresses)
    (huntried : self.untried = untried) (hstate : self.state = .connecting)
    (hfailed : failed = true → self.earlier = none ∧ failedSince self.log = true) :
    ∃ next, attempts kernel time untried failed self = some next ∧ next.Kept addresses := by
  induction untried generalizing failed self with
  | nil =>
    obtain ⟨step, hstep, hdecision⟩ := h.decided [] failed time
    unfold attempts
    rw [hstep]
    cases hdecision with
    | wait hsocket hdue =>
      refine ⟨_, rfl, h, ?_⟩
      rw [Phase, hstate]
      exact ⟨hl, hsocket⟩
    | fail hnone hsocket =>
      refine ⟨_, rfl, h.setupFailed fun _ => .inr ⟨?_, ?_⟩⟩
      · have hlisted := hl.listed
        rwa [huntried, List.append_nil] at hlisted
      · rw [h.flight, hsocket, h.alone hsocket]
        rfl
    | start hmore _ _ => exact absurd rfl hmore
    | replaceOldest hmore _ => exact absurd rfl hmore
  | cons address rest ih =>
    obtain ⟨step, hstep, hdecision⟩ := h.decided (address :: rest) failed time
    -- Whichever attempt made room, the next one is tried and the loop goes on from it.
    have hgo : ∀ room : Connection α, room.Custody addresses → room.Listed addresses →
        room.untried = address :: rest → room.state = .connecting → room.earlier = none →
        room.Ready time → ∃ last, ((room.attempt address rest time (kernel rest.length)).bind
          fun outcome => outcome.2.settle (attempts kernel time rest true) outcome.1) = some last ∧
          last.Kept addresses := by
      intro room hc hlist hu hs he hr
      obtain ⟨result, next, hattempt, hnext, hnextList, hnextUntried, hnextState, hrefused, hbusy,
        hwon⟩ := attempt_keeps hc hlist hu he hr (kernel rest.length)
      rw [hattempt, Option.bind_some]
      cases result with
      | connected =>
        obtain ⟨socket, hsocket, hmem⟩ := hwon rfl
        exact ⟨_, rfl, hnext.connected hsocket hmem⟩
      | inFlight =>
        refine ⟨_, rfl, hnext, ?_⟩
        rw [Phase, hnextState, hs]
        exact ⟨hnextList (by decide), hbusy rfl⟩
      | refused =>
        exact ih true next hnext (hnextList (by decide)) hnextUntried (hnextState.trans hs)
          fun _ => hrefused rfl
      | localFailure => exact ⟨_, rfl, hnext.failed (by decide)⟩
    unfold attempts
    rw [hstep]
    cases hdecision with
    | wait hsocket hdue =>
      refine ⟨_, rfl, h, ?_⟩
      rw [Phase, hstate]
      exact ⟨hl, hsocket⟩
    | fail hnone _ => cases hnone
    | start hmore hearlier hready =>
      have hnone : self.earlier = none := by
        rcases hearlier with hnone | hyes
        · exact hnone
        · exact (hfailed hyes).1
      have hnow : self.Ready time := by
        refine h.ready hl ?_
        rcases hready with hempty | hyes | hpassed
        · exact .inl hempty
        · exact .inr (.inl (hfailed hyes).2)
        · exact .inr (.inr hpassed)
      exact hgo self h hl huntried hstate hnone hnow
    | replaceOldest hmore hready =>
      have hroom := h.dropEarlier (hl.closable h (huntried ▸ hmore))
      have hnow : self.dropEarlier.Ready time := by
        refine hroom.ready hl.dropEarlier (.inr (.inr ?_))
        have hsame : self.dropEarlier.nextAttemptNs = self.nextAttemptNs := by
          rw [Connection.dropEarlier]
          split <;> rfl
        rw [hsame]
        exact hready
      exact hgo self.dropEarlier hroom hl.dropEarlier
        ((dropEarlier_untried _).trans huntried) ((dropEarlier_state _).trans hstate)
        (dropEarlier_earlier _) hnow

end Connection

end Rui.Connects
