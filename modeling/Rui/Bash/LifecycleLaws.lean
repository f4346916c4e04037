import Rui.Bash.Lifecycle

/-!
# What a lifecycle keeps

What one operation does to the process, the pipes, the stop reason and the
capture failure, and from it what every run does: the phases in their order,
the signals once, and a resolution that the history decides.
-/

namespace Rui.Bash

open Library

/-- An operation that its assertions allow, and its answer. -/
def Next (self : Lifecycle) (label : Op × Reply) (next : Lifecycle) : Prop :=
  self.apply label.1 = some (next, label.2)

abbrev Event := Step Lifecycle (Op × Reply)

/-! ## What an operation says -/

/-- The signals that the owner then sends. -/
def Reply.signals : Reply → List Signal
  | .signal sent => sent.toList
  | .expiry expired => (expired.map Expiry.signal).toList
  | _ => []

namespace Op

/-- The status of an observed child. -/
def observation : Op → Option Term
  | .observeLeader term _ => some term
  | _ => none

/-- The status of a child, observed or reaped. -/
def status : Op → Option Term
  | .observeLeader term _ => some term
  | .reaped term => some term
  | _ => none

/-- The bytes that an operation reads from a stream. -/
def bytesFrom (stream : Stream) : Op → Nat
  | .observePipe other (.bytes count) _ => if other = stream then count else 0
  | _ => 0

end Op

/-- Why an operation asks for termination, if it does. -/
def stopAsked (self : Lifecycle) : Op → Reply → StopReason
  | .requestTermination reason _, _ => reason
  | .expireDeadline _, .expiry (some _) => .timedOut
  | .observePipe stream (.failed _) _, _ =>
    if self.pipes stream = .reading then .captureFailed else .none
  | _, _ => .none

/-- Whether an operation loses output. -/
def losesOutput (self : Lifecycle) : Op → Bool
  | .beginTail _ none => true
  | .observePipe _ (.failed _) _ => true
  | .observePipe stream .eof _ =>
    match self.pipes stream with
    | .tail owed => owed ≠ 0
    | _ => false
  | .recordSealFailure => true
  | _ => false

/-! ## The process -/

/-- What a kill names. -/
def killFor (observed : Option Term) : Signal :=
  if observed.isNone then .killGroupAndLeader else .killGroup

/-- What an operation does to the process. -/
inductive ProcessMove : Process → Op → Reply → Process → Prop
  | stay {process op reply} (hobserved : op.observation = none) (hstatus : op.status = none)
    (hsignals : reply.signals = []) : ProcessMove process op reply process
  | terminate {op reply deadline observed killAt cleanupDeadline}
    (hobserved : op.observation = none) (hstatus : op.status = none)
    (hsignals : reply.signals = [.terminateGroup]) :
    ProcessMove (.running deadline observed) op reply (.grace killAt cleanupDeadline observed)
  | exit {reply deadline term now killAt cleanupDeadline}
    (hsignals : reply.signals = [.terminateGroup]) :
    ProcessMove (.running deadline none) (.observeLeader term now) reply
      (.grace killAt cleanupDeadline (some term))
  | observe {reply term now killAt cleanupDeadline} (hsignals : reply.signals = []) :
    ProcessMove (.grace killAt cleanupDeadline none) (.observeLeader term now) reply
      (.grace killAt cleanupDeadline (some term))
  | kill {op reply killAt cleanupDeadline observed} (hobserved : op.observation = none)
    (hstatus : op.status = none) (hsignals : reply.signals = [killFor observed]) :
    ProcessMove (.grace killAt cleanupDeadline observed) op reply
      (.reaping cleanupDeadline observed)
  | reap {reply cleanupDeadline observed term} (hsignals : reply.signals = []) :
    ProcessMove (.reaping cleanupDeadline observed) (.reaped term) reply
      (.checkingGroup (observed.getD term) cleanupDeadline)
  | vanish {op reply term cleanupDeadline} (hobserved : op.observation = none)
    (hstatus : op.status = none) (hsignals : reply.signals = []) :
    ProcessMove (.checkingGroup term cleanupDeadline) op reply (.gone term)

/-! ## The pipes -/

/-- What an operation does to the pipe of a stream. -/
inductive PipeMove (stream : Stream) : Pipe → Op → Pipe → Prop
  | live {op} : PipeMove stream .reading op .reading
  | stay {pipe op} (hbytes : op.bytesFrom stream = 0) : PipeMove stream pipe op pipe
  | snapshot {bytes} : PipeMove stream .reading (.beginTail stream (some bytes)) (.tail bytes)
  | close {op reason} : PipeMove stream .reading op (.closed reason)
  | drain {owed count now} (howed : count ≤ owed) :
    PipeMove stream (.tail owed) (.observePipe stream (.bytes count) now) (.tail (owed - count))
  | finish {owed op reason} (howed : reason = .eof → owed = 0 ∧ op.bytesFrom stream = 0) :
    PipeMove stream (.tail owed) op (.closed reason)

/-! ## One operation -/

/-- All that one operation does. -/
structure Moves (now : Lifecycle) (op : Op) (reply : Reply) (next : Lifecycle) : Prop where
  process : ProcessMove now.process op reply next.process
  pipes : ∀ stream, PipeMove stream (now.pipes stream) op (next.pipes stream)
  stopReason : next.stopReason =
    if now.stopReason = .none then stopAsked now op reply else now.stopReason
  captureFailure : next.captureFailure ≠ .none ↔
    now.captureFailure ≠ .none ∨ losesOutput now op = true

namespace Lifecycle

@[simp] theorem setPipe_self (self : Lifecycle) (stream : Stream) (pipe : Pipe) :
    (self.setPipe stream pipe).pipes stream = pipe := by
  simp [setPipe]

variable {stream : Stream} {self next : Lifecycle} {now : Timestamp} {signal : Option Signal}
  {op : Op}

theorem setPipe_other (self : Lifecycle) {other : Stream} (h : other ≠ stream) (pipe : Pipe) :
    (self.setPipe stream pipe).pipes other = self.pipes other := by
  simp [setPipe, h]

theorem beginGrace_cases (self : Lifecycle) (now : Timestamp) :
    (∃ deadline observed, self.process = .running deadline observed ∧
      self.beginGrace now = ({ self with
        process := .grace (after now terminationGraceMs) (after now cleanupObservationMs)
          observed }, some .terminateGroup)) ∨
      self.beginGrace now = (self, none) := by
  cases hprocess : self.process with
  | running deadline observed => exact .inl ⟨deadline, observed, rfl, by rw [beginGrace, hprocess]⟩
  | _ => exact .inr (by rw [beginGrace, hprocess])

variable {reason : StopReason} {reply : Reply} {term : Term} {pipe : Pipe} {read : PipeRead}

/-- Asking for termination enters grace and gives the reason. -/
theorem requestTermination_moves (h : self.requestTermination reason now = some (next, signal))
    (op : Op) (hobserved : op.observation = none) (hstatus : op.status = none) :
    ProcessMove self.process op (.signal signal) next.process ∧ next.pipes = self.pipes ∧
      next.stopReason = (if self.stopReason = .none then reason else self.stopReason) ∧
      next.captureFailure = self.captureFailure := by
  rw [requestTermination] at h
  split at h
  · cases h
  · rcases (self.stopFor reason).beginGrace_cases now with
      ⟨deadline, observed, hprocess, hgrace⟩ | hgrace
    · rw [hgrace] at h
      cases h
      have hprocess : self.process = .running deadline observed := hprocess
      refine ⟨?_, rfl, rfl, rfl⟩
      rw [hprocess]
      exact .terminate hobserved hstatus rfl
    · rw [hgrace] at h
      cases h
      exact ⟨.stay hobserved hstatus rfl, rfl, rfl, rfl⟩

theorem moves_requestTermination (h : self.requestTermination reason now = some (next, signal)) :
    Moves self (.requestTermination reason now) (.signal signal) next := by
  obtain ⟨hprocess, hpipes, hreason, hcapture⟩ :=
    requestTermination_moves h (.requestTermination reason now) rfl rfl
  refine ⟨hprocess, fun stream => ?_, hreason, by simp [hcapture, losesOutput]⟩
  rw [hpipes]
  exact .stay rfl

/-- An operation that leaves the whole lifecycle as it was. -/
theorem moves_nothing (hobserved : op.observation = none) (hstatus : op.status = none)
    (hsignals : reply.signals = []) (hbytes : ∀ stream, op.bytesFrom stream = 0)
    (hreason : stopAsked self op reply = .none) (hcapture : losesOutput self op = false) :
    Moves self op reply self where
  process := .stay hobserved hstatus hsignals
  pipes stream := .stay (hbytes stream)
  stopReason := by
    rw [hreason]
    split
    · assumption
    · rfl
  captureFailure := by simp [hcapture]

theorem moves_expireDeadline {expiry : Option Expiry}
    (h : self.expireDeadline now = some (next, expiry)) :
    Moves self (.expireDeadline now) (.expiry expiry) next := by
  rw [expireDeadline] at h
  split at h
  · rename_i deadline observed hprocess
    split at h
    · cases h
      exact moves_nothing rfl rfl rfl (fun _ => rfl) rfl rfl
    · rcases (self.stopFor .timedOut).beginGrace_cases now with
        ⟨deadline', observed', hprocess', hgrace⟩ | hgrace
      · rw [hgrace] at h
        cases h
        have hprocess' : self.process = .running deadline' observed' := hprocess'
        refine ⟨?_, fun _ => .stay rfl, rfl, by simp [losesOutput, stopFor]⟩
        rw [hprocess']
        exact .terminate rfl rfl rfl
      · rw [hgrace] at h
        cases h
  · cases h
    exact moves_nothing rfl rfl rfl (fun _ => rfl) rfl rfl

theorem moves_observeLeader (h : self.observeLeader term now = some (next, signal)) :
    Moves self (.observeLeader term now) (.signal signal) next := by
  rw [observeLeader] at h
  split at h
  · cases h
  · rename_i hawaits
    cases hprocess : self.process with
    | running deadline observed =>
      obtain rfl : observed = none := by simpa [awaitsLeader, hprocess] using hawaits
      simp only [hprocess, beginGrace, Option.some.injEq, Prod.mk.injEq] at h
      obtain ⟨rfl, rfl⟩ := h
      refine ⟨?_, fun _ => .stay rfl, by simp [stopAsked], by simp [losesOutput]⟩
      rw [hprocess]
      exact .exit rfl
    | grace killAt cleanupDeadline observed =>
      obtain rfl : observed = none := by simpa [awaitsLeader, hprocess] using hawaits
      simp only [hprocess, beginGrace, Option.some.injEq, Prod.mk.injEq] at h
      obtain ⟨rfl, rfl⟩ := h
      refine ⟨?_, fun _ => .stay rfl, by simp [stopAsked], by simp [losesOutput]⟩
      rw [hprocess]
      exact .observe rfl
    | _ => simp [hprocess] at h

theorem moves_expireGrace (self : Lifecycle) (now : Timestamp) :
    Moves self (.expireGrace now) (.signal (self.expireGrace now).2) (self.expireGrace now).1 := by
  rw [expireGrace]
  split
  · rename_i killAt cleanupDeadline observed hprocess
    split
    · exact moves_nothing rfl rfl rfl (fun _ => rfl) rfl rfl
    · refine ⟨?_, fun _ => .stay rfl, by simp [stopAsked], by simp [losesOutput]⟩
      rw [hprocess]
      exact .kill rfl rfl rfl
  · exact moves_nothing rfl rfl rfl (fun _ => rfl) rfl rfl

theorem moves_recordSignal (self : Lifecycle) (result : SignalResult) :
    Moves self (.recordSignal result) .nothing (self.recordSignal result) := by
  cases result with
  | delivered => exact moves_nothing rfl rfl rfl (fun _ => rfl) rfl rfl
  | _ =>
    exact ⟨.stay rfl rfl rfl, fun _ => .stay rfl, by simp [stopAsked, recordSignal],
      by simp [losesOutput, recordSignal]⟩

theorem moves_reaped {result : Except ReapError Unit} (h : self.reaped term = some (next, result)) :
    Moves self (.reaped term) (.reap result) next := by
  rw [reaped] at h
  split at h
  · rename_i cleanupDeadline observed hprocess
    cases h
    refine ⟨?_, fun _ => .stay rfl, by simp [stopAsked], by simp [losesOutput]⟩
    rw [hprocess]
    exact .reap rfl
  · cases h

theorem moves_groupAbsent (h : self.groupAbsent = some next) :
    Moves self .groupAbsent .nothing next := by
  rw [groupAbsent] at h
  split at h
  · rename_i term cleanupDeadline hprocess
    cases h
    refine ⟨?_, fun _ => .stay rfl, by simp [stopAsked], by simp [losesOutput]⟩
    rw [hprocess]
    exact .vanish rfl rfl rfl
  · cases h

theorem pipes_setPipe (hmove : PipeMove stream (self.pipes stream) op pipe)
    (hother : ∀ other, other ≠ stream → op.bytesFrom other = 0) (other : Stream) :
    PipeMove other (self.pipes other) op ((self.setPipe stream pipe).pipes other) := by
  by_cases hsame : other = stream
  · rw [hsame, setPipe_self]
    exact hmove
  · rw [setPipe_other self hsame]
    exact .stay (hother other hsame)

theorem moves_beginTail {queued : Option Nat} (h : self.beginTail stream queued = some next) :
    Moves self (.beginTail stream queued) .nothing next := by
  unfold beginTail at h
  split at h
  · cases h
  · rename_i hreading
    have hreading : self.pipes stream = .reading := not_not.mp hreading
    cases queued with
    | some bytes =>
      cases h
      refine ⟨.stay rfl rfl rfl, pipes_setPipe ?_ fun _ _ => rfl, by simp [stopAsked, setPipe],
        by simp [losesOutput, setPipe]⟩
      rw [hreading]
      exact .snapshot
    | none =>
      cases h
      refine ⟨.stay rfl rfl rfl, pipes_setPipe ?_ fun _ _ => rfl, by simp [stopAsked, setPipe],
        by simp [losesOutput]⟩
      rw [hreading]
      exact .close

theorem failPipe_eq_some {failure : CaptureFailure} :
    self.failPipe stream failure = some next ↔ failure ≠ .none ∧
      { self.setPipe stream (.closed .failed) with captureFailure := failure } = next := by
  rw [failPipe]
  split <;> simp_all

/-- A read that neither fails nor stops leaves one pipe changed. -/
theorem moves_setPipe
    (hmove : PipeMove stream (self.pipes stream) (.observePipe stream read now) pipe)
    (hread : ∀ failure, read ≠ .failed failure)
    (hcapture : losesOutput self (.observePipe stream read now) = false) :
    Moves self (.observePipe stream read now) (.signal none) (self.setPipe stream pipe) := by
  have hother : ∀ other, other ≠ stream →
      (Op.observePipe stream read now).bytesFrom other = 0 := by
    intro other hne
    cases read <;> simp [Op.bytesFrom, hne.symm]
  refine ⟨.stay rfl rfl rfl, pipes_setPipe hmove hother, ?_, by simp [hcapture, setPipe]⟩
  cases read with
  | failed failure => exact absurd rfl (hread failure)
  | _ => simp [stopAsked, setPipe]

theorem moves_observePipe (h : self.observePipe stream read now = some (next, signal)) :
    Moves self (.observePipe stream read now) (.signal signal) next := by
  cases hpipe : self.pipes stream with
  | closed reason => simp [observePipe, hpipe] at h
  | reading =>
    cases read with
    | empty =>
      simp only [observePipe, hpipe, Option.some.injEq, Prod.mk.injEq] at h
      obtain ⟨rfl, rfl⟩ := h
      exact moves_nothing rfl rfl rfl (fun _ => rfl) rfl rfl
    | bytes count =>
      simp only [observePipe, hpipe, Option.some.injEq, Prod.mk.injEq] at h
      obtain ⟨rfl, rfl⟩ := h
      refine ⟨.stay rfl rfl rfl, fun other => ?_, by simp [stopAsked], by simp [losesOutput]⟩
      by_cases hsame : other = stream
      · rw [hsame, hpipe]
        exact .live
      · exact .stay (by simp [Op.bytesFrom, Ne.symm hsame])
    | eof =>
      simp only [observePipe, hpipe, Option.some.injEq, Prod.mk.injEq] at h
      obtain ⟨rfl, rfl⟩ := h
      exact moves_setPipe (by rw [hpipe]; exact .close) nofun (by simp [losesOutput, hpipe])
    | failed failure =>
      simp only [observePipe, hpipe, Option.bind_eq_some_iff, failPipe_eq_some] at h
      obtain ⟨failed, ⟨hfailure, rfl⟩, h⟩ := h
      obtain ⟨hprocess, hpipes, hreason, hcapture⟩ :=
        requestTermination_moves h (.observePipe stream (.failed failure) now) rfl rfl
      refine ⟨hprocess, ?_, ?_, ?_⟩
      · rw [hpipes]
        exact pipes_setPipe (by rw [hpipe]; exact .close) fun _ _ => rfl
      · rw [hreason, stopAsked, if_pos hpipe]
        rfl
      · rw [hcapture]
        simp [losesOutput, hfailure]
  | tail owed =>
    cases read with
    | empty =>
      simp only [observePipe, hpipe, Option.some.injEq, Prod.mk.injEq] at h
      obtain ⟨rfl, rfl⟩ := h
      split
      · exact moves_setPipe (by rw [hpipe]; exact .finish nofun) nofun (by simp [losesOutput])
      · exact moves_nothing rfl rfl rfl (fun _ => rfl) rfl rfl
    | bytes count =>
      simp only [observePipe, hpipe] at h
      split at h
      · cases h
        exact moves_setPipe (by rw [hpipe]; exact .finish nofun) nofun (by simp [losesOutput])
      · split at h
        · rename_i hcount
          cases h
          exact moves_setPipe (by rw [hpipe]; exact .drain hcount.2) nofun (by simp [losesOutput])
        · cases h
    | eof =>
      simp only [observePipe, hpipe] at h
      split at h
      · rename_i howed
        cases h
        exact moves_setPipe (by rw [hpipe]; exact .finish fun _ => ⟨howed, rfl⟩) nofun
          (by simp [losesOutput, hpipe, howed])
      · rename_i howed
        simp only [Option.map_eq_some_iff, failPipe_eq_some, Prod.mk.injEq] at h
        obtain ⟨_, ⟨_, rfl⟩, rfl, rfl⟩ := h
        refine ⟨.stay rfl rfl rfl, pipes_setPipe (by rw [hpipe]; exact .finish nofun)
          (fun _ _ => rfl), by simp [stopAsked, setPipe], by simp [losesOutput, hpipe, howed]⟩
    | failed failure =>
      simp only [observePipe, hpipe, Option.map_eq_some_iff, failPipe_eq_some, Prod.mk.injEq] at h
      obtain ⟨_, ⟨hfailure, rfl⟩, rfl, rfl⟩ := h
      refine ⟨.stay rfl rfl rfl, pipes_setPipe (by rw [hpipe]; exact .finish nofun)
        (fun _ _ => rfl), by simp [stopAsked, hpipe, setPipe], by simp [losesOutput, hfailure]⟩

/-- **One operation.** -/
theorem moves (h : self.apply op = some (next, reply)) : Moves self op reply next := by
  cases op with
  | requestTermination reason now =>
    obtain ⟨⟨next', signal⟩, hresult, heq⟩ := Option.map_eq_some_iff.mp h
    cases heq
    exact moves_requestTermination hresult
  | expireDeadline now =>
    obtain ⟨⟨next', expiry⟩, hresult, heq⟩ := Option.map_eq_some_iff.mp h
    cases heq
    exact moves_expireDeadline hresult
  | observeLeader term now =>
    obtain ⟨⟨next', signal⟩, hresult, heq⟩ := Option.map_eq_some_iff.mp h
    cases heq
    exact moves_observeLeader hresult
  | expireGrace now =>
    cases h
    exact moves_expireGrace self now
  | recordSignal result =>
    cases h
    exact moves_recordSignal self result
  | reapPending now =>
    obtain ⟨result, _, heq⟩ := Option.map_eq_some_iff.mp h
    cases heq
    exact moves_nothing rfl rfl rfl (fun _ => rfl) rfl rfl
  | reaped term =>
    obtain ⟨⟨next', result⟩, hresult, heq⟩ := Option.map_eq_some_iff.mp h
    cases heq
    exact moves_reaped hresult
  | groupAbsent =>
    obtain ⟨next', hresult, heq⟩ := Option.map_eq_some_iff.mp h
    cases heq
    exact moves_groupAbsent hresult
  | cutoff now =>
    cases h
    exact moves_nothing rfl rfl rfl (fun _ => rfl) rfl rfl
  | beginTail stream queued =>
    obtain ⟨next', hresult, heq⟩ := Option.map_eq_some_iff.mp h
    cases heq
    exact moves_beginTail hresult
  | observePipe stream read now =>
    obtain ⟨⟨next', signal⟩, hresult, heq⟩ := Option.map_eq_some_iff.mp h
    cases heq
    exact moves_observePipe hresult
  | recordSealFailure =>
    cases h
    exact ⟨.stay rfl rfl rfl, fun _ => .stay rfl, by simp [stopAsked, recordSealFailure],
      by simp [losesOutput, recordSealFailure]⟩

end Lifecycle

/-! ## Histories -/

/-- The signals that a history sent. -/
def signals (history : List Event) : List Signal := history.flatMap fun e => e.label.2.signals

/-- The statuses of the child that were observed before it was reaped. -/
def observations (history : List Event) : List Term :=
  history.filterMap fun e => e.label.1.observation

/-- The statuses of the child, the reaped one last. -/
def statuses (history : List Event) : List Term := history.filterMap fun e => e.label.1.status

/-- The first reason that a history gave to stop. -/
def firstStop : List Event → StopReason
  | [] => .none
  | e :: history =>
    if stopAsked e.before e.label.1 e.label.2 = .none then firstStop history
    else stopAsked e.before e.label.1 e.label.2

/-- Whether a history lost output. -/
def outputLost (history : List Event) : Bool :=
  history.any fun e => losesOutput e.before e.label.1

/-- The bytes that a history read from a stream. -/
def bytesFrom (stream : Stream) (history : List Event) : Nat :=
  (history.map fun e => e.label.1.bytesFrom stream).sum

/-- What a command came to: the first stop reason decides, then a capture
failure, then the first status. -/
def resolutionOf (stop : StopReason) (lost : Bool) (status : Term) : Resolution :=
  match stop, lost, status with
  | .stopped, _, _ => .cancelled
  | .timedOut, _, _ => .timedOut
  | .infrastructureShutdown, _, _ => .infrastructureShutdown
  | .captureFailed, _, _ => .storageFailed
  | .none, true, _ => .storageFailed
  | .none, false, .exited code => if code = 0 then .succeeded else .failed
  | .none, false, _ => .failed

/-! ## What a state keeps -/

namespace Process

/-- Where a phase stands among the phases. -/
def rank : Process → Nat
  | running .. => 0
  | grace .. => 1
  | reaping .. => 2
  | checkingGroup .. => 3
  | gone .. => 4

def killAt : Process → Option Timestamp
  | grace killAt _ _ => some killAt
  | _ => none

def cleanupDeadline : Process → Option Timestamp
  | grace _ cleanupDeadline _ => some cleanupDeadline
  | reaping cleanupDeadline _ => some cleanupDeadline
  | checkingGroup _ cleanupDeadline => some cleanupDeadline
  | _ => none

end Process

/-- What stays of a state in every later one. -/
structure Keeps (earlier later : Lifecycle) : Prop where
  phase : earlier.process.rank ≤ later.process.rank
  stopReason : earlier.stopReason ≠ .none → later.stopReason = earlier.stopReason
  killAt : ∀ time, earlier.process.killAt = some time →
    later.process.killAt = some time ∨ 2 ≤ later.process.rank
  cleanupDeadline : ∀ time, earlier.process.cleanupDeadline = some time →
    later.process.cleanupDeadline = some time ∨ 4 ≤ later.process.rank
  closed : ∀ stream reason, earlier.pipes stream = .closed reason →
    later.pipes stream = .closed reason
  tail : ∀ stream owed, earlier.pipes stream = .tail owed →
    (∃ less ≤ owed, later.pipes stream = .tail less) ∨ ∃ reason, later.pipes stream = .closed reason

theorem Keeps.refl (earlier : Lifecycle) : Keeps earlier earlier where
  phase := Nat.le_refl _
  stopReason _ := rfl
  killAt _ h := .inl h
  cleanupDeadline _ h := .inl h
  closed _ _ h := h
  tail _ owed h := .inl ⟨owed, Nat.le_refl _, h⟩

theorem Keeps.trans {earlier mid later : Lifecycle} (h : Keeps earlier mid) (h' : Keeps mid later) :
    Keeps earlier later where
  phase := Nat.le_trans h.phase h'.phase
  stopReason hreason := by
    have hmid := h.stopReason hreason
    rw [h'.stopReason (by rw [hmid]; exact hreason), hmid]
  killAt time htime := by
    rcases h.killAt time htime with hmid | hmid
    · exact h'.killAt time hmid
    · exact .inr (Nat.le_trans hmid h'.phase)
  cleanupDeadline time htime := by
    rcases h.cleanupDeadline time htime with hmid | hmid
    · exact h'.cleanupDeadline time hmid
    · exact .inr (Nat.le_trans hmid h'.phase)
  closed stream reason hclosed := h'.closed stream reason (h.closed stream reason hclosed)
  tail stream owed htail := by
    rcases h.tail stream owed htail with ⟨less, hless, hmid⟩ | ⟨reason, hmid⟩
    · rcases h'.tail stream less hmid with ⟨least, hleast, hlater⟩ | hlater
      · exact .inl ⟨least, Nat.le_trans hleast hless, hlater⟩
      · exact .inr hlater
    · exact .inr ⟨reason, h'.closed stream reason hmid⟩

variable {op : Op} {reply : Reply} {deadline : Timestamp} {stream : Stream}

theorem ProcessMove.rank {before after : Process} (h : ProcessMove before op reply after) :
    after.rank = before.rank ∨ after.rank = before.rank + 1 := by
  cases h <;> simp [Process.rank]

variable {self now : Lifecycle} {history : List Event}

theorem Moves.keeps {next : Lifecycle} (h : Moves self op reply next) : Keeps self next where
  phase := by
    have hrank := h.process.rank
    omega
  stopReason hreason := by rw [h.stopReason, if_neg hreason]
  killAt time htime := by
    have hprocess := h.process
    revert htime
    generalize self.process = before at hprocess ⊢
    generalize next.process = after at hprocess ⊢
    intro htime
    cases hprocess with
    | stay => exact .inl htime
    | _ => simp_all [Process.killAt, Process.rank]
  cleanupDeadline time htime := by
    have hprocess := h.process
    revert htime
    generalize self.process = before at hprocess ⊢
    generalize next.process = after at hprocess ⊢
    intro htime
    cases hprocess with
    | stay => exact .inl htime
    | _ => simp_all [Process.cleanupDeadline, Process.rank]
  closed stream reason hclosed := by
    have hpipe := h.pipes stream
    rw [hclosed] at hpipe
    generalize next.pipes stream = after at hpipe
    cases hpipe with
    | stay => rfl
  tail stream owed htail := by
    have hpipe := h.pipes stream
    rw [htail] at hpipe
    generalize next.pipes stream = after at hpipe
    cases hpipe with
    | stay => exact .inl ⟨owed, Nat.le_refl _, rfl⟩
    | drain _ => exact .inl ⟨_, Nat.sub_le _ _, rfl⟩
    | finish _ => exact .inr ⟨_, rfl⟩

theorem keeps_run (h : Run Next self history now) : Keeps self now :=
  h.invariant (.refl self) fun _ _ _ hkeeps hnext => hkeeps.trans (Lifecycle.moves hnext).keeps

/-! ## What a history decides -/

/-- The signals, observations and statuses that a history has, by the phase
that it leaves. -/
def Accounts (history : List Event) : Process → Prop
  | .running _ observed => observed = none ∧ signals history = [] ∧ observations history = [] ∧
    statuses history = []
  | .grace _ _ observed => signals history = [.terminateGroup] ∧
    observations history = observed.toList ∧ statuses history = observed.toList
  | .reaping _ observed => signals history = [.terminateGroup, killFor observed] ∧
    observations history = observed.toList ∧ statuses history = observed.toList
  | .checkingGroup term _ | .gone term => ∃ observed : Option Term,
    signals history = [.terminateGroup, killFor observed] ∧
      observations history = observed.toList ∧ (statuses history).head? = some term

theorem accounts (h : Run Next self history now) (hstart : self.process = .running deadline none) :
    Accounts history now.process := by
  induction h with
  | start =>
    rw [hstart]
    exact ⟨rfl, rfl, rfl, rfl⟩
  | @step past now next label hrun hnext ih =>
    have hmove := (Lifecycle.moves hnext).process
    have hsignals : signals (past ++ [⟨now, label, next⟩]) = signals past ++ label.2.signals := by
      simp [signals]
    have hobserved : observations (past ++ [⟨now, label, next⟩]) =
        observations past ++ label.1.observation.toList := by
      simp only [observations, List.filterMap_append, List.filterMap_cons, List.filterMap_nil]
      cases label.1.observation <;> rfl
    have hstatuses : statuses (past ++ [⟨now, label, next⟩]) =
        statuses past ++ label.1.status.toList := by
      simp only [statuses, List.filterMap_append, List.filterMap_cons, List.filterMap_nil]
      cases label.1.status <;> rfl
    obtain ⟨op, reply⟩ := label
    simp only at hmove hsignals hobserved hstatuses
    generalize now.process = before at hmove ih
    generalize next.process = after at hmove
    cases hmove with
    | stay hop hst hsig =>
      rw [hop] at hobserved
      rw [hst] at hstatuses
      rw [hsig] at hsignals
      cases before <;> simp_all [Accounts]
    | terminate hop hst hsig => simp_all [Accounts]
    | exit hsig => simp_all [Accounts, Op.observation, Op.status]
    | observe hsig => simp_all [Accounts, Op.observation, Op.status]
    | kill hop hst hsig => simp_all [Accounts]
    | @reap _ _ observed _ hsig =>
      refine ⟨observed, ?_⟩
      cases observed <;> simp_all [Accounts, Op.observation, Op.status]
    | vanish hop hst hsig => simp_all [Accounts]

theorem firstStop_snoc (past : List Event) (e : Event) : firstStop (past ++ [e]) =
    if firstStop past = .none then stopAsked e.before e.label.1 e.label.2 else firstStop past := by
  induction past with
  | nil =>
    simp only [List.nil_append, firstStop, if_true]
    split
    · exact Eq.symm ‹_›
    · rfl
  | cons first past ih =>
    simp only [List.cons_append, firstStop, ih]
    by_cases hasked : stopAsked first.before first.label.1 first.label.2 = .none <;> simp [hasked]

/-- The first reason to stop is the one that stands. -/
theorem stopReason_eq (h : Run Next self history now) (hstart : self.stopReason = .none) :
    now.stopReason = firstStop history := by
  induction h with
  | start => exact hstart
  | step hrun hnext ih => rw [(Lifecycle.moves hnext).stopReason, ih, firstStop_snoc]

theorem captureFailure_iff (h : Run Next self history now) (hstart : self.captureFailure = .none) :
    now.captureFailure ≠ .none ↔ outputLost history = true := by
  induction h with
  | start => simp [hstart, outputLost]
  | @step past now next label hrun hnext ih =>
    rw [(Lifecycle.moves hnext).captureFailure, ih]
    simp [outputLost]

theorem tail_drains {owed less : Nat} (h : Run Next self history now)
    (hself : self.pipes stream = .tail owed) (hnow : now.pipes stream = .tail less) :
    bytesFrom stream history + less = owed := by
  induction h generalizing less with
  | start =>
    rw [hself] at hnow
    cases hnow
    simp [bytesFrom]
  | @step past now next label hrun hnext ih =>
    have hbytes : bytesFrom stream (past ++ [⟨now, label, next⟩]) =
        bytesFrom stream past + label.1.bytesFrom stream := by
      simp [bytesFrom]
    have hpipe := (Lifecycle.moves hnext).pipes stream
    rw [hnow] at hpipe
    obtain ⟨op, reply⟩ := label
    simp only at hbytes hpipe
    generalize hbefore : now.pipes stream = before at hpipe
    cases hpipe with
    | stay hstay =>
      have hpast := ih hbefore
      omega
    | snapshot =>
      -- A tail is never snapshotted twice.
      rcases (keeps_run hrun).tail stream owed hself with ⟨_, _, hkept⟩ | ⟨_, hkept⟩ <;>
        simp [hkept] at hbefore
    | @drain left count _ hcount =>
      have hpast := ih hbefore
      have hread : (Op.observePipe stream (.bytes count) ‹_›).bytesFrom stream = count := by
        simp [Op.bytesFrom]
      omega

theorem tail_closes {past mid future : List Event} {e e' : Event} {bytes : Nat}
    (h : Run Next self (past ++ e :: mid ++ e' :: future) now)
    (htail : e.label.1 = .beginTail stream (some bytes))
    (hopen : e'.before.pipes stream ≠ .closed .eof) (hclosed : e'.after.pipes stream = .closed .eof) :
    bytesFrom stream mid = bytes := by
  obtain ⟨hbefore, hnext', _⟩ := h.split_step
  obtain ⟨_, hnext, hmid⟩ := hbefore.split_step
  have hbegun : e.after.pipes stream = .tail bytes := by
    have happly := hnext
    rw [Next, htail] at happly
    obtain ⟨next, hbegin, heq⟩ := Option.map_eq_some_iff.mp happly
    simp only [Prod.mk.injEq] at heq
    rw [← heq.1]
    unfold Lifecycle.beginTail at hbegin
    split at hbegin
    · cases hbegin
    · cases hbegin
      exact Lifecycle.setPipe_self _ _ _
  rcases (keeps_run hmid).tail stream bytes hbegun with ⟨less, _, hless⟩ | ⟨reason, hreason⟩
  · have hdrained := tail_drains hmid hbegun hless
    have hpipe := (Lifecycle.moves hnext').pipes stream
    rw [hless, hclosed] at hpipe
    generalize e'.label.1 = op at hpipe
    cases hpipe with
    | finish howed =>
      obtain ⟨rfl, _⟩ := howed rfl
      exact hdrained
  · have hkept := (Lifecycle.moves hnext').keeps.closed stream reason hreason
    rw [hclosed] at hkept
    cases hkept
    exact absurd hreason hopen

/-- A retired command's resolution is that of its history. -/
theorem resolution_eq (h : Run Next self history now)
    (hprocess : self.process = .running deadline none) (hreason : self.stopReason = .none)
    (hcapture : self.captureFailure = .none) (hretired : now.retired = true) :
    ∃ status, (statuses history).head? = some status ∧
      now.resolution =
        some (resolutionOf (firstStop history) (outputLost history) status) := by
  have haccounts := accounts h hprocess
  have hlost := captureFailure_iff h hcapture
  have hgone : ∃ term, now.process = .gone term := by
    cases hnow : now.process with
    | gone term => exact ⟨term, rfl⟩
    | _ => simp [Lifecycle.retired, hnow] at hretired
  obtain ⟨term, hgone⟩ := hgone
  rw [hgone] at haccounts
  obtain ⟨_, _, _, hstatus⟩ := haccounts
  refine ⟨term, hstatus, ?_⟩
  simp only [Lifecycle.resolution, hretired, Bool.not_true, Bool.false_eq_true, if_false, hgone,
    ← stopReason_eq h hreason]
  cases now.stopReason with
  | none =>
    cases hlostNow : outputLost history with
    | true =>
      rw [if_pos (hlost.mpr hlostNow)]
      rfl
    | false =>
      rw [if_neg (by rw [hlost, hlostNow]; simp)]
      cases term <;> rfl
  | _ => rfl

/-- **The lifecycle.** In every run of a started command, the phases follow one
another, one terminate signal and then one kill are sent, which names the leader
exactly when its exit was never observed, and what is set stays: the first stop
reason, the kill time, the cleanup deadline and a closed pipe. A tail shrinks,
and its pipe ends complete only once all of it is read. The resolution is that
of the first stop reason, else of a capture failure, else of the first
status. -/
theorem lifecycle_laws {started : Timestamp} {timeoutMs : Nat} {history : List Event}
    {now : Lifecycle} (h : Run Next (.start started timeoutMs) history now) :
    (∀ e ∈ history, e.after.process.rank = e.before.process.rank ∨
      e.after.process.rank = e.before.process.rank + 1) ∧
    (signals history = [] ∨ signals history = [.terminateGroup] ∨
      ∃ kill, signals history = [.terminateGroup, kill] ∧
        (kill = .killGroup ∨ kill = .killGroupAndLeader) ∧
        (kill = .killGroupAndLeader ↔ observations history = [])) ∧
    (∀ past e future, history = past ++ e :: future →
      Keeps e.before e.after ∧ ∀ e' ∈ future, Keeps e.after e'.after) ∧
    now.stopReason = firstStop history ∧
    (∀ past e mid e' future stream bytes, history = past ++ e :: mid ++ e' :: future →
      e.label.1 = .beginTail stream (some bytes) → e'.before.pipes stream ≠ .closed .eof →
      e'.after.pipes stream = .closed .eof → bytesFrom stream mid = bytes) ∧
    (now.retired = true → ∃ status, (statuses history).head? = some status ∧
      now.resolution =
        some (resolutionOf (firstStop history) (outputLost history) status)) := by
  refine ⟨?_, ?_, ?_, stopReason_eq h rfl, ?_, resolution_eq h rfl rfl rfl⟩
  · intro e he
    obtain ⟨past, future, rfl⟩ := List.append_of_mem he
    obtain ⟨_, hnext, _⟩ := h.split_step
    exact (Lifecycle.moves hnext).process.rank
  · have haccounts := accounts h rfl
    have hkill : ∀ observed : Option Term,
        signals history = [.terminateGroup, killFor observed] →
        observations history = observed.toList →
        ∃ kill, signals history = [.terminateGroup, kill] ∧
          (kill = .killGroup ∨ kill = .killGroupAndLeader) ∧
          (kill = .killGroupAndLeader ↔ observations history = []) := by
      intro observed hsignals hobserved
      refine ⟨_, hsignals, ?_, ?_⟩
      · cases observed <;> simp [killFor]
      · rw [hobserved]
        cases observed <;> simp [killFor]
    cases hprocess : now.process with
    | running _ _ =>
      rw [hprocess] at haccounts
      exact .inl haccounts.2.1
    | grace _ _ _ =>
      rw [hprocess] at haccounts
      exact .inr (.inl haccounts.1)
    | reaping _ observed =>
      rw [hprocess] at haccounts
      exact .inr (.inr (hkill observed haccounts.1 haccounts.2.1))
    | checkingGroup _ _ =>
      rw [hprocess] at haccounts
      obtain ⟨observed, hsignals, hobserved, _⟩ := haccounts
      exact .inr (.inr (hkill observed hsignals hobserved))
    | gone _ =>
      rw [hprocess] at haccounts
      obtain ⟨observed, hsignals, hobserved, _⟩ := haccounts
      exact .inr (.inr (hkill observed hsignals hobserved))
  · rintro past e future rfl
    obtain ⟨_, hnext, hfuture⟩ := h.split_step
    refine ⟨(Lifecycle.moves hnext).keeps, ?_⟩
    intro e' he'
    obtain ⟨before, after, rfl⟩ := List.append_of_mem he'
    obtain ⟨hbefore, hnext', _⟩ := hfuture.split_step
    exact (keeps_run hbefore).trans (Lifecycle.moves hnext').keeps
  · rintro past e mid e' future stream bytes rfl htail hopen hclosed
    exact tail_closes h htail hopen hclosed

/-- A command that exits on its own, and whose pipes then end. -/
theorem lifecycle_laws_natural_exit : ∃ history now,
    Run Next (.start 0 1000) history now ∧ now.retired = true ∧ signals history ≠ [] ∧
      ∃ status, (statuses history).head? = some status ∧
        now.resolution =
          some (resolutionOf (firstStop history) (outputLost history) status) := by
  have hexit := Run.step .start (show Next (.start 0 1000)
    (.observeLeader (.exited 0) 0, .signal (some .terminateGroup)) _ from rfl)
  have hkill := hexit.step (show Next _
    (.expireGrace 100000000, .signal (some .killGroup)) _ from rfl)
  have hreap := hkill.step (show Next _ (.reaped (.exited 0), .reap (.ok ())) _ from rfl)
  have hgone := hreap.step (show Next _ (.groupAbsent, .nothing) _ from rfl)
  have hstdout := hgone.step (show Next _ (.observePipe .stdout .eof 0, .signal none) _ from rfl)
  have hstderr := hstdout.step (show Next _ (.observePipe .stderr .eof 0, .signal none) _ from rfl)
  exact ⟨_, _, hstderr, rfl, nofun, (lifecycle_laws hstderr).2.2.2.2.2 rfl⟩

end Rui.Bash
