import Rui.SessionWork.Work

/-!
# Readers agree on what a session is doing

The clock enters the derived state in one place, a waiting retry. A state read earlier and
aged is therefore the state read now, and its parts agree with the facts it comes from.
-/

namespace Rui.SessionWork

open Library

/-! ## Time -/

def Work.asOf (work : Work) (nowMs : Nat) : Work := { work with state := work.state.asOf nowMs }

variable {later nowMs since : Nat} {inputs : Inputs} {state : WorkState} {latest : Turn}
  {actions : Actions} {work : Work} {terminal : Option Terminal}

theorem asOf_asOf (state : WorkState) (h : nowMs ≤ later) :
    (state.asOf nowMs).asOf later = state.asOf later := by
  cases state with
  | retrying since dueAtMs cause attempt =>
    by_cases hdue : dueAtMs ≤ nowMs
    · simp only [WorkState.asOf, if_pos hdue, if_pos (hdue.trans h)]
    · simp only [WorkState.asOf, if_neg hdue]
  | idle _ | pending _ | working _ | bash _ _ _ _ _ | approval _ | stopping _ | finished _
  | failed _ _ _ | stopped _ _ => rfl

/-- A state that no clock changes. -/
def WorkState.Timeless (state : WorkState) : Prop := ∀ nowMs, state.asOf nowMs = state

theorem settled_cases (h : settled inputs terminal = some state) :
    (∃ since, state = .pending since) ∨ ∃ since, state = .stopped since .stop := by
  rw [settled] at h
  cases hpending : inputs.oldestPending with
  | some pending =>
    rw [hpending] at h
    cases terminal <;> cases h <;> exact .inl ⟨_, rfl⟩
  | none =>
    rw [hpending] at h
    cases hexcluded : inputs.excluded with
    | none =>
      rw [hexcluded] at h
      cases h
    | some excluded =>
      rw [hexcluded] at h
      simp only at h
      split_ifs at h
      cases h
      exact .inr ⟨_, rfl⟩

theorem settled_timeless (h : settled inputs terminal = some state) : state.Timeless := by
  rcases settled_cases h with ⟨since, rfl⟩ | ⟨since, rfl⟩ <;> exact fun _ => rfl

theorem outcome_timeless {terminal : Terminal} (h : latest.outcome terminal = .ok state) :
    state.Timeless := by
  rw [Turn.outcome] at h
  cases hkind : terminal.outcome with
  | completed =>
    rw [hkind] at h
    cases h
    exact fun _ => rfl
  | cancelled =>
    rw [hkind] at h
    cases h
    exact fun _ => rfl
  | failed =>
    rw [hkind] at h
    cases hcode : bounded maxCodeBytes terminal.code with
    | error failure =>
      rw [hcode] at h
      cases h
    | ok code =>
      rw [hcode] at h
      cases h
      exact fun _ => rfl

/-- What a group of proposals comes to: running commands, or all of it waiting for
permission, or neither. -/
theorem actions_state (h : actions.state since = .ok state) :
    (∃ at' call description, state = .bash at' call description actions.running actions.awaiting ∧
      actions.oldestRunning ≠ none) ∨
    (∃ at', state = .approval at' ∧ actions.unresolved ≠ 0 ∧
      actions.awaiting = actions.unresolved ∧ actions.oldestRunning = none) ∨
    ∃ at', state = .pending at' := by
  rw [Actions.state] at h
  cases hrunning : actions.oldestRunning with
  | some running =>
    rw [hrunning] at h
    cases htext : running.description with
    | none =>
      simp only [htext] at h
      cases h
      exact .inl ⟨_, _, _, rfl, fun hnone => (by cases hnone)⟩
    | some text =>
      simp only [htext] at h
      cases hbounded : bounded maxDescriptionBytes text with
      | error failure =>
        rw [hbounded] at h
        cases h
      | ok description =>
        rw [hbounded] at h
        cases h
        exact .inl ⟨_, _, _, rfl, fun hnone => (by cases hnone)⟩
  | none =>
    rw [hrunning] at h
    simp only at h
    by_cases hall : actions.unresolved ≠ 0 ∧ actions.awaiting = actions.unresolved
    · rw [if_pos hall] at h
      cases h
      exact .inr (.inl ⟨_, rfl, hall.1, hall.2, rfl⟩)
    · rw [if_neg hall] at h
      cases h
      exact .inr (.inr ⟨_, rfl⟩)

theorem actions_timeless (h : actions.state since = .ok state) : state.Timeless := by
  rcases actions_state h with ⟨_, _, _, rfl, -⟩ | ⟨_, rfl, -⟩ | ⟨_, rfl⟩ <;> exact fun _ => rfl

/-- A result whose state no clock changes is the same at every time. -/
theorem map_asOf_of_timeless {result : Except Failure WorkState}
    (h : ∀ state, result = .ok state → state.Timeless) (later : Nat) :
    result.map (·.asOf later) = result := by
  cases result with
  | error failure => rfl
  | ok state => exact congrArg Except.ok (h state rfl later)

/-- Aging what an operation did is reading it later. -/
theorem operationState_asOf (latest : Turn) (h : nowMs ≤ later) :
    (latest.operationState nowMs).map (·.asOf later) = latest.operationState later := by
  rw [Turn.operationState, Turn.operationState]
  cases hop : latest.op with
  | inFlight attemptAt => rfl
  | waiting scheduledAt dueAtMs cause attempt =>
    simp only
    by_cases hattempt : attempt = 0 ∨ maxRetriedAttempt < attempt
    · rw [if_pos hattempt, if_pos hattempt]
      rfl
    · rw [if_neg hattempt, if_neg hattempt]
      cases bounded maxCodeBytes cause with
      | error failure => rfl
      | ok cause => exact congrArg Except.ok (asOf_asOf _ h)
  | resolved resolution since =>
    cases resolution with
    | none => rfl
    | some resolution =>
      cases resolution with
      | toolProposals => exact map_asOf_of_timeless (fun state => actions_timeless) later
      | answer | compacted | interrupted | contextOverflow => rfl

/-- The facts, read at another time. -/
def Inputs.at (inputs : Inputs) (nowMs : Nat) : Inputs := { inputs with nowMs }

theorem settled_at (inputs : Inputs) (nowMs : Nat) (terminal : Option Terminal) :
    settled (inputs.at nowMs) terminal = settled inputs terminal := rfl

theorem state_asOf (inputs : Inputs) (latest : Turn) (h : inputs.nowMs ≤ later) :
    (latest.state inputs).map (·.asOf later) = latest.state (inputs.at later) := by
  rw [Turn.state, Turn.state]
  cases hterminal : latest.terminal with
  | some terminal =>
    simp only [settled_at]
    by_cases hop : latest.op.isResolved = false
    · rw [if_pos hop]
      rfl
    · rw [if_neg hop]
      cases hsettled : settled inputs (some terminal) with
      | some state => exact congrArg Except.ok (settled_timeless hsettled later)
      | none => exact map_asOf_of_timeless (fun state => outcome_timeless) later
  | none =>
    cases hstopped : latest.stoppedAt with
    | some since => rfl
    | none => exact operationState_asOf latest h

theorem derive_none (h : inputs.latest = none) : derive inputs =
    .ok ⟨(settled inputs none).getD (.idle inputs.createdAt), none, none, none⟩ := by
  rw [derive, h]

theorem derive_corrupt {failure : Failure} (h : inputs.latest = some latest)
    (hfailure : latest.contradiction = some failure) : derive inputs = .error failure := by
  rw [derive, h]
  simp only [hfailure]

theorem derive_some (h : inputs.latest = some latest) (hsound : latest.contradiction = none) :
    derive inputs =
      (latest.state inputs).map fun state =>
        ⟨state, some latest.turnId, some latest.operationId, latest.actions.firstAwaiting⟩ := by
  rw [derive, h]
  simp only [hsound]

/-- **One state for every reader.** Aging what was read is reading it again. -/
theorem derive_asOf (inputs : Inputs) (h : inputs.nowMs ≤ later) :
    (derive inputs).map (·.asOf later) = derive (inputs.at later) := by
  cases hlatest : inputs.latest with
  | none =>
    have hlater : (inputs.at later).latest = none := hlatest
    rw [derive_none hlatest, derive_none hlater]
    refine congrArg Except.ok ?_
    cases hsettled : settled inputs none with
    | none => simp only [Work.asOf, settled_at, hsettled, Option.getD_none]; rfl
    | some state =>
      simp only [Work.asOf, settled_at, hsettled, Option.getD_some]
      rw [settled_timeless hsettled later]
  | some latest =>
    have hlater : (inputs.at later).latest = some latest := hlatest
    cases hsound : latest.contradiction with
    | some failure =>
      rw [derive_corrupt hlatest hsound, derive_corrupt hlater hsound]
      rfl
    | none =>
      rw [derive_some hlatest hsound, derive_some hlater hsound, ← state_asOf inputs latest h]
      cases latest.state inputs <;> rfl

theorem derive_fails (inputs : Inputs) (nowMs : Nat) :
    (∃ failure, derive (inputs.at nowMs) = .error failure) ↔
      ∃ failure, derive inputs = .error failure := by
  have hmap : ∀ {early : Inputs} {later : Nat}, early.nowMs ≤ later →
      ((∃ failure, derive (early.at later) = .error failure) ↔
        ∃ failure, derive early = .error failure) := by
    intro early later h
    rw [← derive_asOf early h]
    cases derive early with
    | error failure => exact Iff.rfl
    | ok work => exact ⟨fun hsome => (by cases hsome with | intro _ h => cases h),
        fun hsome => (by cases hsome with | intro _ h => cases h)⟩
  rcases Nat.le_total inputs.nowMs nowMs with hle | hle
  · exact hmap hle
  · exact (@hmap (inputs.at nowMs) inputs.nowMs hle).symm

/-! ## Agreement -/

/-- What no contradiction says of the counts. -/
structure Actions.Sound (actions : Actions) : Prop where
  unresolved_le : actions.unresolved ≤ actions.total
  waiting_le : actions.awaiting + actions.running ≤ actions.unresolved
  awaiting : actions.awaiting = 0 ↔ actions.firstAwaiting = none
  running : actions.running = 0 ↔ actions.oldestRunning = none

theorem Actions.sound (h : actions.contradiction = none) : actions.Sound := by
  rw [Actions.contradiction] at h
  split_ifs at h with htotal hsum hcounts
  simp only [not_or, Nat.not_lt] at htotal hcounts
  obtain ⟨hwaiting, hawaiting, hrunning, -⟩ := hcounts
  refine ⟨htotal, hwaiting, ?_, ?_⟩
  · by_cases hfirst : actions.firstAwaiting = none
    · exact iff_of_true (by tauto) hfirst
    · exact iff_of_false (by tauto) hfirst
  · by_cases holdest : actions.oldestRunning = none
    · exact iff_of_true (by tauto) holdest
    · exact iff_of_false (by tauto) holdest

theorem Turn.sound (h : latest.contradiction = none) : latest.actions.Sound ∧
    (latest.terminal ≠ none → latest.actions.total = 0) := by
  rw [Turn.contradiction, Option.or_eq_none_iff] at h
  obtain ⟨hcounts, howner⟩ := h
  refine ⟨Actions.sound hcounts, fun hterminal => ?_⟩
  by_contra htotal
  rw [if_pos ⟨htotal, .inl (Option.isSome_iff_ne_none.mpr hterminal)⟩] at howner
  cases howner

/-- The parts of a derived state say the same of the actions. -/
structure Agrees (inputs : Inputs) (work : Work) : Prop where
  approval : ∀ since, work.state = .approval since → ∃ latest, inputs.latest = some latest ∧
    latest.actions.unresolved ≠ 0 ∧ latest.actions.awaiting = latest.actions.unresolved ∧
      work.firstAction ≠ none
  bash : ∀ since call description running approvals,
    work.state = .bash since call description running approvals →
      1 ≤ running ∧ (work.firstAction ≠ none ↔ 1 ≤ approvals) ∧
      ∃ latest, inputs.latest = some latest ∧ latest.actions.running = running ∧
        latest.actions.awaiting = approvals
  quiet : (∀ latest, inputs.latest = some latest → latest.terminal ≠ none) →
    work.firstAction = none

/-- Only a group of proposals waits for permission or runs commands. -/
theorem state_actions (h : latest.state inputs = .ok state) :
    (∃ since, latest.actions.state since = .ok state) ∨
      (∀ since, state ≠ .approval since) ∧
        ∀ since call description running approvals,
          state ≠ .bash since call description running approvals := by
  rw [Turn.state] at h
  cases hterminal : latest.terminal with
  | some terminal =>
    rw [hterminal] at h
    simp only at h
    split_ifs at h
    refine .inr ?_
    cases hsettled : settled inputs (some terminal) with
    | some state' =>
      rw [hsettled] at h
      cases h
      rcases settled_cases hsettled with ⟨since, rfl⟩ | ⟨since, rfl⟩ <;>
        exact ⟨fun _ hstate => (by cases hstate), fun _ _ _ _ _ hstate => (by cases hstate)⟩
    | none =>
      rw [hsettled] at h
      simp only [Turn.outcome] at h
      cases hkind : terminal.outcome <;> rw [hkind] at h
      · cases h
        exact ⟨fun _ hstate => (by cases hstate), fun _ _ _ _ _ hstate => (by cases hstate)⟩
      · cases h
        exact ⟨fun _ hstate => (by cases hstate), fun _ _ _ _ _ hstate => (by cases hstate)⟩
      · cases hcode : bounded maxCodeBytes terminal.code <;> rw [hcode] at h <;> cases h
        exact ⟨fun _ hstate => (by cases hstate), fun _ _ _ _ _ hstate => (by cases hstate)⟩
  | none =>
    rw [hterminal] at h
    cases hstopped : latest.stoppedAt with
    | some since =>
      simp only [hstopped] at h
      cases h
      exact .inr ⟨fun _ hstate => (by cases hstate), fun _ _ _ _ _ hstate => (by cases hstate)⟩
    | none =>
      simp only [hstopped, Turn.operationState] at h
      cases hop : latest.op with
      | inFlight attemptAt =>
        rw [hop] at h
        cases h
        exact .inr ⟨fun _ hstate => (by cases hstate), fun _ _ _ _ _ hstate => (by cases hstate)⟩
      | waiting scheduledAt dueAtMs cause attempt =>
        rw [hop] at h
        simp only at h
        split_ifs at h
        cases hcause : bounded maxCodeBytes cause <;> rw [hcause] at h <;> cases h
        simp only [WorkState.asOf]
        split_ifs <;>
          exact .inr ⟨fun _ hstate => (by cases hstate),
            fun _ _ _ _ _ hstate => (by cases hstate)⟩
      | resolved resolution since =>
        rw [hop] at h
        cases resolution with
        | none => cases h
        | some resolution =>
          cases resolution with
          | toolProposals => exact .inl ⟨since, h⟩
          | answer | compacted | interrupted | contextOverflow =>
            cases h
            exact .inr ⟨fun _ hstate => (by cases hstate),
              fun _ _ _ _ _ hstate => (by cases hstate)⟩

theorem derive_agrees (h : derive inputs = .ok work) : Agrees inputs work := by
  cases hlatest : inputs.latest with
  | none =>
    rw [derive_none hlatest] at h
    cases h
    refine ⟨fun since hstate => ?_, fun since call description running approvals hstate => ?_,
      fun _ => rfl⟩
    all_goals
      cases hsettled : settled inputs none with
      | none =>
        simp only [hsettled, Option.getD_none] at hstate
        cases hstate
      | some state =>
        simp only [hsettled, Option.getD_some] at hstate
        subst hstate
        rcases settled_cases hsettled with ⟨since', heq⟩ | ⟨since', heq⟩ <;> cases heq
  | some latest =>
    cases hcontradiction : latest.contradiction with
    | some failure =>
      rw [derive_corrupt hlatest hcontradiction] at h
      cases h
    | none =>
      obtain ⟨hsound, hended⟩ := Turn.sound hcontradiction
      rw [derive_some hlatest hcontradiction] at h
      cases hstate : latest.state inputs with
      | error failure =>
        rw [hstate] at h
        cases h
      | ok state =>
        rw [hstate] at h
        cases h
        have hwaiting := hsound.waiting_le
        refine ⟨?_, ?_, ?_⟩
        · rintro since rfl
          rcases state_actions hstate with ⟨since', hactions⟩ | ⟨hnot, -⟩
          · rcases actions_state hactions with ⟨_, _, _, heq, -⟩ | ⟨_, -, hall, hequal, -⟩ |
              ⟨_, heq⟩
            · cases heq
            · refine ⟨latest, hlatest, hall, hequal, fun hnone => ?_⟩
              have hzero := hsound.awaiting.mpr hnone
              omega
            · cases heq
          · exact absurd rfl (hnot since)
        · rintro since call description running approvals rfl
          rcases state_actions hstate with ⟨since', hactions⟩ | ⟨-, hnot⟩
          · rcases actions_state hactions with ⟨_, _, _, heq, hsome⟩ | ⟨_, heq, -⟩ | ⟨_, heq⟩
            · cases heq
              have hrunning := mt hsound.running.mp hsome
              have hawaiting := not_congr hsound.awaiting
              refine ⟨by omega, hawaiting.symm.trans ?_, latest, hlatest, rfl, rfl⟩
              omega
            · cases heq
            · cases heq
          · exact absurd rfl (hnot _ _ _ _ _)
        · intro hterminal
          have htotal := hended (hterminal latest hlatest)
          have hle := hsound.unresolved_le
          exact hsound.awaiting.mp (by omega)

/-! ## Precedence -/

theorem settled_pending {pending : Pending} (terminal : Option Terminal)
    (h : inputs.oldestPending = some pending) :
    ∃ since, settled inputs terminal = some (.pending since) := by
  rw [settled, h]
  cases terminal <;> exact ⟨_, rfl⟩

theorem settled_none (terminal : Option Terminal) (hpending : inputs.oldestPending = none)
    (hexcluded : inputs.excluded = none) : settled inputs terminal = none := by
  rw [settled, hpending]
  simp only [hexcluded]

theorem settled_excluded {excluded : Excluded} (hpending : inputs.oldestPending = none)
    (hexcluded : inputs.excluded = some excluded) (hlatest : inputs.latest = none) :
    settled inputs none = some (.stopped excluded.stopAt .stop) := by
  rw [settled, hpending]
  simp only [hexcluded, hlatest]
  rfl

theorem settled_ended {inputs : Inputs} {excluded : Excluded} {latest : Turn}
    {terminal : Terminal} (hpending : inputs.oldestPending = none)
    (hexcluded : inputs.excluded = some excluded) (hlatest : inputs.latest = some latest) :
    settled inputs (some terminal) =
      if latest.inputCutoff < excluded.admission ∧ terminal.position ≤ excluded.stopPosition then
        some (.stopped excluded.stopAt .stop)
      else none := by
  rw [settled, hpending]
  simp only [hexcluded, hlatest, Option.any_some, Option.isSome_some, Bool.true_and,
    Bool.or_eq_true, decide_eq_true_iff]
  by_cases hnewer : latest.inputCutoff < excluded.admission ∧
      terminal.position ≤ excluded.stopPosition
  · rw [if_pos hnewer, if_neg (by omega)]
  · rw [if_neg hnewer, if_pos (by omega)]

/-- Queued input comes first, then a stop's exclusion of input that the turn did not bind
where the stop is not older than the outcome, and then the outcome. -/
structure Ranked (inputs : Inputs) (work : Work) : Prop where
  queued : ∀ pending, inputs.oldestPending = some pending →
    (∀ latest, inputs.latest = some latest → latest.terminal ≠ none) →
    ∃ since, work.state = .pending since
  excluded : ∀ excluded, inputs.oldestPending = none → inputs.excluded = some excluded →
    inputs.latest = none → work.state = .stopped excluded.stopAt .stop
  newer : ∀ excluded latest terminal, inputs.oldestPending = none →
    inputs.excluded = some excluded → inputs.latest = some latest →
    latest.terminal = some terminal → latest.inputCutoff < excluded.admission →
    terminal.position ≤ excluded.stopPosition → work.state = .stopped excluded.stopAt .stop
  older : ∀ excluded latest terminal, inputs.oldestPending = none →
    inputs.excluded = some excluded → inputs.latest = some latest →
    latest.terminal = some terminal →
    ¬ (latest.inputCutoff < excluded.admission ∧ terminal.position ≤ excluded.stopPosition) →
    latest.outcome terminal = .ok work.state
  outcome : ∀ latest terminal, inputs.oldestPending = none → inputs.excluded = none →
    inputs.latest = some latest → latest.terminal = some terminal →
    latest.outcome terminal = .ok work.state

theorem derive_ended {terminal : Terminal} (h : derive inputs = .ok work)
    (hlatest : inputs.latest = some latest) (hterminal : latest.terminal = some terminal) :
    (∃ state, settled inputs (some terminal) = some state ∧ work.state = state) ∨
      settled inputs (some terminal) = none ∧ latest.outcome terminal = .ok work.state := by
  cases hsound : latest.contradiction with
  | some failure =>
    rw [derive_corrupt hlatest hsound] at h
    cases h
  | none =>
    rw [derive_some hlatest hsound, Turn.state, hterminal] at h
    simp only at h
    by_cases hop : latest.op.isResolved = false
    · rw [if_pos hop] at h
      cases h
    rw [if_neg hop] at h
    cases hsettled : settled inputs (some terminal) with
    | some state =>
      rw [hsettled] at h
      cases h
      exact .inl ⟨state, rfl, rfl⟩
    | none =>
      rw [hsettled] at h
      simp only at h
      cases houtcome : latest.outcome terminal with
      | error failure =>
        rw [houtcome] at h
        cases h
      | ok state =>
        rw [houtcome] at h
        cases h
        exact .inr ⟨rfl, rfl⟩

theorem derive_ranked (h : derive inputs = .ok work) : Ranked inputs work := by
  refine ⟨?_, ?_, ?_, ?_, ?_⟩
  · intro pending hpending hended
    cases hlatest : inputs.latest with
    | none =>
      obtain ⟨since, hsettled⟩ := settled_pending none hpending
      rw [derive_none hlatest, hsettled] at h
      cases h
      exact ⟨since, rfl⟩
    | some latest =>
      obtain ⟨terminal, hterminal⟩ := Option.ne_none_iff_exists'.mp (hended latest hlatest)
      obtain ⟨since, hsettled⟩ := settled_pending (some terminal) hpending
      rcases derive_ended h hlatest hterminal with ⟨state, hstate, hwork⟩ | ⟨hnone, -⟩
      · rw [hsettled] at hstate
        cases hstate
        exact ⟨since, hwork⟩
      · rw [hsettled] at hnone
        cases hnone
  · intro excluded hpending hexcluded hlatest
    rw [derive_none hlatest, settled_excluded hpending hexcluded hlatest] at h
    cases h
    rfl
  · intro excluded latest terminal hpending hexcluded hlatest hterminal hadmission hposition
    have hsettled := @settled_ended inputs excluded latest terminal hpending hexcluded hlatest
    rw [if_pos ⟨hadmission, hposition⟩] at hsettled
    rcases derive_ended h hlatest hterminal with ⟨state, hstate, hwork⟩ | ⟨hnone, -⟩
    · rw [hsettled] at hstate
      cases hstate
      exact hwork
    · rw [hsettled] at hnone
      cases hnone
  · intro excluded latest terminal hpending hexcluded hlatest hterminal holder
    have hsettled := @settled_ended inputs excluded latest terminal hpending hexcluded hlatest
    rw [if_neg holder] at hsettled
    rcases derive_ended h hlatest hterminal with ⟨state, hstate, -⟩ | ⟨-, houtcome⟩
    · rw [hsettled] at hstate
      cases hstate
    · exact houtcome
  · intro latest terminal hpending hexcluded hlatest hterminal
    have hsettled := settled_none (some terminal) hpending hexcluded
    rcases derive_ended h hlatest hterminal with ⟨state, hstate, -⟩ | ⟨-, houtcome⟩
    · rw [hsettled] at hstate
      cases hstate
    · exact houtcome

/-- **The session work table.** One state for every reader at every later time, whose parts
agree, and whose queue, stops and outcome come in one order. -/
theorem session_work (inputs : Inputs) :
    (∀ work later, derive inputs = .ok work → inputs.nowMs ≤ later →
      derive (inputs.at later) = .ok { work with state := work.state.asOf later }) ∧
    (∀ nowMs, (∃ failure, derive (inputs.at nowMs) = .error failure) ↔
      ∃ failure, derive inputs = .error failure) ∧
    ∀ work, derive inputs = .ok work → Agrees inputs work ∧ Ranked inputs work := by
  refine ⟨fun work later hwork hlater => ?_, derive_fails inputs, fun work hwork =>
    ⟨derive_agrees hwork, derive_ranked hwork⟩⟩
  rw [← derive_asOf inputs hlater, hwork]
  rfl

/-- A stop and an outcome at one position. -/
def tied : Inputs where
  nowMs := 0
  createdAt := 1
  latest := some
    { turnId := 7, operationId := 19, inputCutoff := 5, stoppedAt := none
      terminal := some ⟨.completed, [], 500, 40, none⟩
      op := .resolved (some .answer) 499
      actions := ⟨0, 0, 0, none, 0, none, none, none⟩ }
  oldestPending := none
  excluded := some ⟨6, 40, 520⟩

/-- An exclusion that is not newer outranks the outcome. -/
theorem tied_excluded : derive tied = .ok ⟨.stopped 520 .stop, some 7, some 19, none⟩ ∧
    ¬ ∀ (inputs : Inputs) (work : Work) (latest : Turn) (terminal : Terminal)
      (excluded : Excluded), derive inputs = .ok work → inputs.oldestPending = none →
        inputs.excluded = some excluded → inputs.latest = some latest →
        latest.terminal = some terminal → work.state = .stopped excluded.stopAt .stop →
        latest.outcome terminal ≠ .ok work.state →
        terminal.position < excluded.stopPosition := by
  have hderive : derive tied = .ok ⟨.stopped 520 .stop, some 7, some 19, none⟩ := by decide
  refine ⟨hderive, fun hall => ?_⟩
  exact absurd (hall tied _ _ _ _ hderive rfl rfl rfl rfl rfl (by decide)) (by decide)

end Rui.SessionWork
