import Rui.Connects.RaceRuns

/-!
# The race of a connection's addresses

From `open` to `close`, whatever the kernel answers and whenever the clock is read.
-/

namespace Rui.Connects

open Library

variable {α : Type} {addresses : List α}

namespace Connection

variable {self : Connection α}

/-! ## Every happening keeps the rules -/

theorem advanceAttempts_keeps (h : self.Custody addresses) (hl : self.Listed addresses)
    (kernel : Nat → Kernel) (failed : Bool) (time : Nat)
    (hfailed : failed = true → self.earlier = none ∧ failedSince self.log = true) :
    ∃ next, self.advanceAttempts kernel failed time = some next ∧ next.Kept addresses :=
  attempts_keeps kernel time self.untried failed { self with state := .connecting }
    ⟨h.sound, h.flight, h.serial, h.ordered⟩ ⟨hl.listed, hl.due, hl.unwon⟩ rfl rfl hfailed

theorem begins_keeps (h : self.Custody addresses) (hlog : self.log = []) (kernel : Nat → Kernel)
    (time : Nat) : ∃ next, { self with untried := addresses }.advanceAttempts kernel false time =
      some next ∧ next.Kept addresses := by
  have hheld : { self with untried := addresses }.Custody addresses :=
    ⟨h.sound, h.flight, h.serial, h.ordered⟩
  refine advanceAttempts_keeps hheld ⟨?_, ?_, ?_⟩ kernel false time fun hno => (by cases hno)
  · simp [hlog, tried]
  · intro start hstart
    simp [hlog, newest] at hstart
  · simp [hlog, Won]

/-- **The earlier attempt's answer.** -/
theorem answerEarlier_keeps (h : self.Custody addresses) (hl : self.Listed addresses)
    (polled : Polled) :
    ((self.answerEarlier polled).1 = .succeeded → (self.answerEarlier polled).2.connected.Kept
      addresses) ∧
    ((self.answerEarlier polled).1 ≠ .succeeded → (self.answerEarlier polled).2.Custody addresses ∧
      (self.answerEarlier polled).2.Listed addresses ∧
      ((self.answerEarlier polled).1 = .failed → (self.answerEarlier polled).2.earlier = none ∧
        failedSince (self.answerEarlier polled).2.log = true)) := by
  unfold answerEarlier
  cases hearlier : self.earlier with
  | none => exact ⟨fun hno => (by cases hno), fun _ => ⟨h, hl, fun hno => (by cases hno)⟩⟩
  | some older =>
    cases polled with
    | pending => exact ⟨fun hno => (by cases hno), fun _ => ⟨h, hl, fun hno => (by cases hno)⟩⟩
    | failed =>
      have hnoted : (self.note (.refused older)).Custody addresses :=
        h.note rfl rfl (h.earlier_mem hearlier)
      refine ⟨fun hno => (by cases hno), fun _ =>
        ⟨hnoted.dropEarlier ?_, (hl.refused older).dropEarlier, fun _ => ⟨dropEarlier_earlier _, ?_⟩⟩⟩
      · rintro other hother
        obtain rfl : older = other := Option.some.inj (hearlier.symm.trans hother)
        exact .inr (.inl List.mem_cons_self)
      · rw [failedSince_dropEarlier]
        rfl
    | succeeded =>
      exact ⟨fun _ => h.swapped hl hearlier, fun hno => absurd rfl hno⟩

/-- **The newest attempt's answer.** -/
theorem answerNewest_keeps (h : self.Custody addresses) (hl : self.Listed addresses)
    (polled : Polled) :
    ((self.answerNewest polled).1 = .succeeded → (self.answerNewest polled).2.connected.Kept
      addresses) ∧
    ((self.answerNewest polled).1 ≠ .succeeded → (self.answerNewest polled).2.Custody addresses ∧
      (self.answerNewest polled).2.Listed addresses ∧
      ((self.answerNewest polled).1 = .failed → (self.answerNewest polled).2.earlier = none ∧
        failedSince (self.answerNewest polled).2.log = true) ∧
      ((self.answerNewest polled).1 = .pending → (self.answerNewest polled).2 = self)) := by
  unfold answerNewest
  cases hsocket : self.socket with
  | none =>
    exact ⟨fun hno => (by cases hno), fun _ => ⟨h, hl, fun hno => (by cases hno), fun _ => rfl⟩⟩
  | some newer =>
    cases polled with
    | pending =>
      exact ⟨fun hno => (by cases hno), fun _ => ⟨h, hl, fun hno => (by cases hno), fun _ => rfl⟩⟩
    | failed =>
      have hnoted : (self.note (.refused newer)).Custody addresses :=
        h.note rfl rfl (h.socket_mem hsocket)
      refine ⟨fun hno => (by cases hno), fun _ => ⟨hnoted.dropNewest ?_,
        (hl.refused newer).dropNewest, fun _ => ⟨dropNewest_earlier _, ?_⟩, fun hno =>
        (by cases hno)⟩⟩
      · rintro other hother
        obtain rfl : newer = other := Option.some.inj (hsocket.symm.trans hother)
        exact .inr (.inl List.mem_cons_self)
      · rw [failedSince_dropNewest]
        rfl
    | succeeded =>
      have hnoted : (self.note (.connected newer)).Custody addresses :=
        h.note rfl rfl ⟨h.socket_mem hsocket, hl.unwon⟩
      exact ⟨fun _ => hnoted.connected hsocket List.mem_cons_self, fun hno => absurd rfl hno⟩

/-- **A pass over a connecting connection.** -/
theorem advanceConnect_keeps (h : self.Custody addresses) (hl : self.Listed addresses)
    (time : Nat) (earlier newest : Polled) (kernel : Nat → Kernel) :
    ∃ next, self.advanceConnect time earlier newest kernel = some next ∧ next.Kept addresses := by
  obtain ⟨hwon, hwent⟩ := answerEarlier_keeps h hl earlier
  unfold advanceConnect
  by_cases hfirst : (self.answerEarlier earlier).1 = .succeeded
  · exact ⟨_, if_pos hfirst, hwon hfirst⟩
  · obtain ⟨hnext, hnextList, hnextFailed⟩ := hwent hfirst
    obtain ⟨hwonToo, hwentToo⟩ := answerNewest_keeps hnext hnextList newest
    by_cases hsecond : ((self.answerEarlier earlier).2.answerNewest newest).1 = .succeeded
    · exact ⟨_, (if_neg hfirst).trans (if_pos hsecond), hwonToo hsecond⟩
    · obtain ⟨hlast, hlastList, hlastFailed, hsame⟩ := hwentToo hsecond
      simp only [hfirst, hsecond, if_false]
      refine advanceAttempts_keeps hlast hlastList kernel _ time fun hfailed => ?_
      rcases of_decide_eq_true hfailed with hone | htwo
      · -- A second answer of the newest attempt only adds a failure.
        cases hpolled : ((self.answerEarlier earlier).2.answerNewest newest).1 with
        | pending =>
          rw [hsame hpolled]
          exact hnextFailed hone
        | succeeded => exact absurd hpolled hsecond
        | failed => exact hlastFailed hpolled
      · exact hlastFailed htwo

/-! ## A turn -/

theorem finishLookup_keeps (h : self.Custody addresses) (hlog : self.log = [])
    (resolved : Bool) (now : Nat) (kernel : Nat → Kernel) (hkept : self.Kept addresses) :
    ∃ next, self.finishLookup addresses resolved now kernel = some next ∧
      next.Kept addresses := by
  cases resolved with
  | false => exact ⟨self, rfl, hkept⟩
  | true =>
    unfold finishLookup
    by_cases hempty : addresses.isEmpty = true
    · exact ⟨self.setupFailed .resolveFailed, by simp [hempty], h.failed (by decide)⟩
    · obtain ⟨next, hnext, hnextKept⟩ := begins_keeps h hlog kernel now
      exact ⟨next, by simp [hempty, hnext], hnextKept⟩

theorem advance_keeps (h : self.Kept addresses) (time : Nat) (resolved : Bool) (now : Nat)
    (earlier newest : Polled) (kernel : Nat → Kernel) :
    ∃ next, self.advance addresses time resolved now earlier newest kernel = some next ∧
      next.Kept addresses := by
  have hphase := h.phase
  unfold advance
  cases hstate : self.state with
  | resolving =>
    rw [Phase, hstate] at hphase
    exact finishLookup_keeps h.custody hphase.2 resolved now kernel h
  | connecting =>
    rw [Phase, hstate] at hphase
    exact advanceConnect_keeps h.custody hphase.1 time earlier newest kernel
  | _ => exact ⟨self, rfl, h⟩

/-- **Past its deadline no setup goes on.** -/
theorem timedOut_keeps (h : self.Kept addresses) (time : Nat) :
    (self.timedOut time).Kept addresses ∧
      ((self.timedOut time).settingUp = true → time < (self.timedOut time).setupDeadlineNs) := by
  unfold timedOut
  by_cases hlate : (self.settingUp && decide (self.setupDeadlineNs ≤ time)) = true
  · rw [if_pos hlate]
    exact ⟨h.custody.failed (by decide), fun hno => (by cases hno)⟩
  · rw [if_neg hlate]
    refine ⟨h, fun hsetting => ?_⟩
    rw [hsetting, Bool.true_and, decide_eq_true_eq] at hlate
    exact Nat.lt_of_not_le hlate

theorem advanceSetup_keeps (h : self.Kept addresses) (time : Nat) (resolved : Bool) (now : Nat)
    (earlier newest : Polled) (kernel : Nat → Kernel) :
    ∃ next, self.advanceSetup addresses time resolved now earlier newest kernel = some next ∧
      next.Kept addresses ∧ (next.settingUp = true → time < next.setupDeadlineNs) := by
  obtain ⟨next, hnext, hkept⟩ := advance_keeps h time resolved now earlier newest kernel
  refine ⟨next.timedOut time, ?_, timedOut_keeps hkept time⟩
  rw [advanceSetup, hnext]
  rfl

theorem opens_keeps (h : self.Custody addresses) (hlog : self.log = [])
    (hsocket : self.socket = none) (literal started : Bool) (now connectTimeout later : Nat)
    (kernel : Nat → Kernel) :
    ∃ next, self.opens addresses literal started now connectTimeout later kernel = some next ∧
      next.Kept addresses := by
  have hsetup : { self with setupDeadlineNs := saturating now connectTimeout }.Custody addresses :=
    ⟨h.sound, h.flight, h.serial, h.ordered⟩
  unfold opens
  cases literal with
  | true => exact begins_keeps hsetup hlog kernel later
  | false =>
    cases started with
    | true => exact ⟨_, rfl, ⟨h.sound, h.flight, h.serial, h.ordered⟩, hsocket, hlog⟩
    | false =>
      have hresolving : { self with
          setupDeadlineNs := saturating now connectTimeout, state := .resolving }.Custody
          addresses := ⟨h.sound, h.flight, h.serial, h.ordered⟩
      exact ⟨_, rfl, hresolving.failed (by decide)⟩

theorem Kept.past (h : self.Kept addresses) (hpast : past self.state = true) :
    self.earlier = none ∧ ∃ socket, self.socket = some socket ∧ .connected socket ∈ self.log := by
  have hphase := h.phase
  rw [Phase] at hphase
  cases hstate : self.state <;> rw [hstate] at hpast hphase <;> first | exact hphase | cases hpast

/-- **One happening.** -/
theorem happens_keeps (h : self.Kept addresses) (happening : Happening) :
    ∃ next, self.happens addresses happening = some next ∧ next.Kept addresses := by
  cases happening with
  | opens literal started now connectTimeout later kernel =>
    unfold happens
    by_cases hfresh : self.state = .free ∧ self.log = []
    · have hsocket := h.phase
      rw [Phase, hfresh.1] at hsocket
      obtain ⟨next, hnext, hkept⟩ := opens_keeps h.custody hfresh.2 hsocket literal started now
        connectTimeout later kernel
      exact ⟨next, (if_pos hfresh).trans hnext, hkept⟩
    · exact ⟨self, if_neg hfresh, h⟩
  | turn time resolved now earlier newest kernel =>
    obtain ⟨next, hnext, hkept, _⟩ :=
      advanceSetup_keeps h time resolved now earlier newest kernel
    exact ⟨next, hnext, hkept⟩
  | proceeds state =>
    refine ⟨_, rfl, ?_⟩
    by_cases hboth : (Connection.past self.state && Connection.past state) = true
    · rw [if_pos hboth]
      rw [Bool.and_eq_true] at hboth
      obtain ⟨hearlier, socket, hsocket, hmem⟩ := h.past hboth.1
      exact h.custody.over hearlier hsocket hmem hboth.2 _ _
    · rw [if_neg hboth]
      exact h
  | fails cause =>
    refine ⟨_, rfl, ?_⟩
    by_cases hpast : Connection.past self.state = true
    · rw [if_pos hpast]
      obtain ⟨_, socket, _, hmem⟩ := h.past hpast
      exact h.custody.setupFailed fun _ => .inl ⟨socket, hmem⟩
    · rw [if_neg hpast]
      exact h
  | closes =>
    refine ⟨_, rfl, ?_⟩
    split
    · exact h
    · have hended : (self.note .ended).Custody addresses := h.custody.note rfl rfl trivial
      exact ⟨hended.close (.inl List.mem_cons_self), rfl⟩

end Connection

/-- **Every run keeps the rules**, and fails no assertion. -/
theorem lived_keeps (addresses : List α) (origin : Origin) (life : List Happening) :
    ∃ self, lived addresses origin life = some self ∧ self.Kept addresses := by
  induction life with
  | nil => exact ⟨_, rfl, .of_new, rfl⟩
  | cons happening before ih =>
    obtain ⟨self, hself, hkept⟩ := ih
    obtain ⟨next, hnext, hnextKept⟩ := Connection.happens_keeps hkept happening
    refine ⟨next, ?_, hnextKept⟩
    rw [lived, hself]
    exact hnext

/-- The attempt a look finds connected, the earlier one first. -/
def Connection.answered (self : Connection α) (earlier newest : Connection.Polled) : Option Nat :=
  (if earlier = .succeeded then self.earlier else none).or
    (if newest = .succeeded then self.socket else none)

/-- **The race as it stands after a run**: what was done kept to the rules, and the fields say what
is still open. -/
structure Raced (addresses : List α) (self : Connection α) : Prop where
  rules : Sound (Allowed addresses) self.log
  inOrder : tried self.log <+: addresses
  fields : inFlight self.log = self.earlier.toList ++ self.socket.toList
  newer : ∀ older, self.earlier = some older → ∃ newer, self.socket = some newer ∧ older < newer
  two : (inFlight self.log).length ≤ maxAttempts
  won : Connection.past self.state = true → ∃ socket, self.socket = some socket ∧
    inFlight self.log = [socket] ∧ .connected socket ∈ self.log
  wins : self.state = .connecting → ¬Won self.log ∧ ∀ time earlier newest kernel socket,
    self.answered earlier newest = some socket → ∃ next,
      self.advanceConnect time earlier newest kernel = some next ∧
        Connection.past next.state = true ∧ next.socket = some socket
  freed : self.state = .free → (closed self.log).Nodup ∧ (closed self.log).Perm (opened self.log)
  waits : self.state = .connecting → ∀ failed time,
    self.decided self.untried failed time = some .wait → self.untried ≠ [] →
      time < self.nextAttemptNs ∧
        self.setupDeadline = min self.nextAttemptNs self.setupDeadlineNs
  timed : ∀ time resolved now earlier newest kernel, ∃ next,
    self.advanceSetup addresses time resolved now earlier newest kernel = some next ∧
      (next.settingUp = true → time < next.setupDeadlineNs)

namespace Connection

variable {self : Connection α}

section

variable (h : self.Kept addresses)

include h

/-- Waiting with an address left is waiting for its time. -/
theorem Kept.waits (hstate : self.state = .connecting) {failed : Bool}
    {time : Nat} (hwait : self.decided self.untried failed time = some .wait)
    (hmore : self.untried ≠ []) : time < self.nextAttemptNs ∧
      self.setupDeadline = min self.nextAttemptNs self.setupDeadlineNs := by
  have hphase := h.phase
  rw [Phase, hstate] at hphase
  obtain ⟨hl, hsocket⟩ := hphase
  obtain ⟨step, hstep, hdecision⟩ := h.custody.decided self.untried failed time
  obtain rfl : step = .wait := Option.some.inj (hstep.symm.trans hwait)
  obtain ⟨socket, hsome⟩ := Option.ne_none_iff_exists'.mp hsocket
  have hstarted := newest_of_inFlight h.custody.sound
    (List.ne_nil_of_mem (h.custody.socket_mem hsome))
  obtain ⟨start, hstart⟩ := Option.ne_none_iff_exists'.mp hstarted
  have hset : self.nextAttemptNs ≠ 0 := by
    rw [hl.due start hstart, if_neg (by simpa using hmore)]
    simp only [saturating, attemptDelayNs, maxTime]
    omega
  cases hdecision with
  | wait _ hdue => exact ⟨hdue hmore hset, if_neg hset⟩

theorem Kept.freed (hstate : self.state = .free) :
    (closed self.log).Nodup ∧ (closed self.log).Perm (opened self.log) := by
  have hphase := h.phase
  rw [Phase, hstate] at hphase
  have hperm := inFlight_perm h.custody.sound
  have hnone : inFlight self.log = [] := by
    rw [h.custody.flight, hphase, h.custody.alone hphase]
    rfl
  rw [hnone, List.nil_append] at hperm
  exact ⟨hperm.nodup_iff.mpr (opened_nodup h.custody.sound), hperm⟩

theorem Kept.won (hpast : Connection.past self.state = true) :
    ∃ socket, self.socket = some socket ∧ inFlight self.log = [socket] ∧
      .connected socket ∈ self.log := by
  obtain ⟨hearlier, socket, hsocket, hmem⟩ := h.past hpast
  refine ⟨socket, hsocket, ?_, hmem⟩
  rw [h.custody.flight, hearlier, hsocket]
  rfl

theorem Kept.unwon (hstate : self.state = .connecting) :
    ¬Won self.log := by
  have hphase := h.phase
  rw [Phase, hstate] at hphase
  exact hphase.1.unwon

/-- **Whichever attempt a look finds connected is the one kept.** -/
theorem Kept.wins (hstate : self.state = .connecting) (time : Nat)
    {earlier newest : Polled} (kernel : Nat → Kernel) {socket : Nat}
    (hanswered : self.answered earlier newest = some socket) :
    ∃ next, self.advanceConnect time earlier newest kernel = some next ∧
      Connection.past next.state = true ∧ next.socket = some socket := by
  have hphase := h.phase
  rw [Phase, hstate] at hphase
  obtain ⟨newer, hnewer⟩ := Option.ne_none_iff_exists'.mp hphase.2
  cases hearlier : self.earlier with
  | none =>
    cases newest <;> simp [answered, hearlier] at hanswered
    refine ⟨_, by simp [advanceConnect, answerEarlier, answerNewest, hearlier, hnewer]; rfl,
      past_connected _, ?_⟩
    simpa [connected] using hanswered
  | some older =>
    cases earlier with
    | succeeded =>
      refine ⟨_, by simp [advanceConnect, answerEarlier, hearlier]; rfl, past_connected _, ?_⟩
      simpa [answered, hearlier, connected] using hanswered
    | pending | failed =>
      cases newest <;> simp [answered] at hanswered
      refine ⟨_, by simp [advanceConnect, answerEarlier, answerNewest, hearlier, hnewer]; rfl,
        past_connected _, ?_⟩
      simpa [connected] using hanswered

end

end Connection

/-- **The connect race**: over any addresses, whatever the kernel answers and the clock reads, a
connection's run fails no assertion and keeps the rules, closing every socket it opened once. -/
theorem connect_race (addresses : List α) (origin : Origin) (life : List Happening) :
    ∃ self, lived addresses origin life = some self ∧ Raced addresses self := by
  obtain ⟨self, hself, h⟩ := lived_keeps addresses origin life
  refine ⟨self, hself, ?_⟩
  exact {
    rules := h.custody.sound
    inOrder := tried_prefix h.custody.sound
    fields := h.custody.flight
    newer := h.custody.ordered
    two := inFlight_length h.custody.sound
    won := h.won
    wins := fun hstate => ⟨h.unwon hstate, fun time _ _ kernel _ => h.wins hstate time kernel⟩
    freed := h.freed
    waits := fun hstate _ _ hwait hmore => h.waits hstate hwait hmore
    timed := by
      intro time resolved now earlier newest kernel
      obtain ⟨next, hnext, _, htimed⟩ :=
        Connection.advanceSetup_keeps h time resolved now earlier newest kernel
      exact ⟨next, hnext, htimed⟩ }

/-- A wait with an address left past the setup's deadline, and an attempt one tick after the one
before it, at the last reading of the clock. -/
theorem connect_race_late :
    (∃ self, lived [0, 1] ⟨false, false⟩
        [.turn 0 true 0 .pending .pending fun _ => .inProgress,
          .opens false true 0 100000000 0 fun _ => .inProgress] = some self ∧
      self.advanceConnect 150000000 .pending .pending (fun _ => .inProgress) = some self ∧
      self.decided self.untried false 150000000 = some .wait ∧ self.untried = [1] ∧
      self.setupDeadline = 100000000) ∧
    (lived [0, 1] ⟨false, false⟩
      [.turn (2 ^ 64 - 1) true 0 .pending .pending fun _ => .inProgress,
        .turn (2 ^ 64 - 2) true (2 ^ 64 - 2) .pending .pending fun _ => .inProgress,
        .opens false true (2 ^ 64 - 2) 100000000 0 fun _ => .inProgress]).map (·.log) =
      some [.closed 0, .closed 1, .failed .connectTimeout, .opened 1, .started 1 (2 ^ 64 - 1),
        .opened 0, .started 0 (2 ^ 64 - 2)] := by
  exact ⟨⟨_, rfl, rfl, rfl, rfl, rfl⟩, rfl⟩

end Rui.Connects
