import Rui.SessionStops.StopLaws

/-!
# A stop of an open Turn

The whole of a fresh stop, from what round 1 reads to its answer: the rows it writes before it
comes to the open Turn leave that Turn and its Actions as round 1 read them.
-/

namespace Rui.SessionStops

open Library

/-! ## Positions in call order -/

/-- An Action that was cancelled at this position. -/
def Action.cancelledAt (contentId position : Nat) (action : Action) : Action :=
  { action with
    resolutionCode := some .cancelled
    resolutionContentId := some contentId
    acceptancePosition := some position }

theorem idxOf_actionId {done : List Action} {action : Action}
    (h : ∀ each ∈ done, each.actionId = action.actionId → each = action) :
    (done.map Action.actionId).idxOf action.actionId = done.idxOf action := by
  induction done with
  | nil => rfl
  | cons head rest ih =>
    rw [List.map_cons]
    by_cases hsame : head = action
    · rw [hsame, List.idxOf_cons_self, List.idxOf_cons_self]
    · have hid : head.actionId ≠ action.actionId := fun hid => hsame (h head List.mem_cons_self hid)
      rw [List.idxOf_cons_ne _ hid, List.idxOf_cons_ne _ hsame,
        ih fun each heach => h each (List.mem_cons_of_mem _ heach)]

theorem map_mark {actions done : List Action} {contentId first : Nat} (h : Distinct actions)
    (hdone : ∀ action ∈ done, action ∈ actions) :
    actions.map (mark contentId first (done.map Action.actionId)) = actions.map fun action =>
      if action ∈ done then action.cancelledAt contentId (first + done.idxOf action)
      else action := by
  refine List.map_congr_left fun action haction => ?_
  have hsame : ∀ each ∈ done, each.actionId = action.actionId → each = action :=
    fun each heach hid => h.eq_of_id (hdone each heach) haction hid
  by_cases hmem : action ∈ done
  · rw [mark, if_pos (List.mem_map_of_mem hmem), if_pos hmem, Store.cancelled,
      idxOf_actionId hsame]
    rfl
  · rw [if_neg hmem, mark_of_notMem]
    intro hid
    obtain ⟨each, heach, heq⟩ := List.mem_map.mp hid
    exact hmem (hsame each heach heq ▸ heach)

/-! ## The stop -/

namespace Store

/-- What an accepted stop did to a Session with an open Turn. Its own row took `position`; the
Actions cancelled took the positions after it, and the Turn's close the next. -/
structure Stopped (s : Store) (key : List UInt8) (turn : Turn) (operation : Operation)
    (position : Nat) (done : List Action) (completion : Completion) (reply : Reply)
    (s' : Store) : Prop where
  stop : ∃ admissionCutoff parentCaused, s'.stops = s.stops ++
    [⟨key, turn.session, some turn.turnId, admissionCutoff, position, parentCaused⟩]
  reply : ∃ admissionCutoff, reply = .accepted ⟨false, some turn.turnId, admissionCutoff,
    completion, if operation.resolutionCode = none then some operation.operationId else none⟩
  actions : ∃ contentId,
    s'.actions = (s.actions.map fun action =>
      if action ∈ done then action.cancelledAt contentId (position + 1 + done.idxOf action)
      else action) ∧
    (done ≠ [] → ∃ content ∈ s'.contents, content.contentId = contentId ∧
      content.bytes = Store.stopCancellationText ∧ content.isPrivate = false)
  operations : s'.operations = s.operations.map fun each =>
    if each.operationId = operation.operationId ∧ operation.resolutionCode = none then
      each.interrupted key else each
  turns : s'.turns = s.turns.map fun each =>
    if each.turnId = turn.turnId ∧ completion = .completed then
      each.cancelled (position + 1 + done.length) else each
  answers : completion = .pending ↔
    ∃ action ∈ s.actions, action.parentOperationId = turn.operationId ∧
      action.resolutionCode = none ∧ action.attemptOrdinal ≠ 0
  sessions : s'.sessions = advance turn.session
    (1 + done.length + if completion = .completed then 1 else 0) s.sessions

/-- **How a stop of a well-formed Store may fail**: a fault is injected, or a counter has no room
for what the stop takes of it. -/
def Outside (s : Store) (faults : Faults) (position taken : Nat) : Failure → Prop
  | .injectedContentImportFailure => faults.contentImport = true
  | .injectedCommitFailure => faults.beforeCommit = true
  | .sessionPositionExhausted => maxStored < position + taken
  | .identityExhausted => maxStored < s.nextCommandSeq ∨ maxStored < s.nextContentId
  | .stopSelectionChanged | .corruptStore => False

variable {s s₁ : Store} {fails : Failure → Prop} {session : List UInt8} {stop : Stop}

theorem readTarget_position {target : Target} (h : s.readTarget session = some target) :
    s.positionOf session = some target.session.nextPosition ∧ target.session ∈ s.sessions := by
  obtain ⟨row, hrow, rfl⟩ := Option.map_eq_some_iff.mp h
  exact ⟨by rw [positionOf, hrow, Option.map_some], List.mem_of_find?_eq_some hrow⟩

/-- A Store whose rows of the open Turn are as they were, after the stop's own row. -/
structure Before (s : Store) (session : List UInt8) (stop : Stop) (s' : Store) : Prop where
  sessions : s'.sessions = advance session 1 s.sessions
  stops : s'.stops = s.stops ++ [stop]
  turns : s'.turns = s.turns
  operations : s'.operations = s.operations
  actions : s'.actions = s.actions
  nextContentId : s'.nextContentId = s.nextContentId

theorem Before.queueArchive {key : List UInt8} {facts : Facts} {archive : Bool}
    (h : Before s session stop s₁) (hschema : Schema s)
    (hexisting : facts.archiveExisting = s.archives.any fun archive => archive.session = session)
    (hcount : facts.archiveEndings = s.endings.countP (s.suppresses session))
    (harchives : s₁.archives = s.archives) (hendings : s₁.endings = s.endings) :
    Ends fails (fun s₂ => Before s session stop s₂ ∧ s₂.stopsOwed = s₁.stopsOwed)
      (s₁.queueIf archive fun now => now.queueArchive key session facts) := by
  refine queueIf_ends (fun _ => ?_) fun _ => ⟨h, rfl⟩
  have hsame : s₁.endings.countP (s₁.suppresses session) = facts.archiveEndings := by
    rw [hcount, hendings]
    exact List.countP_congr fun ending _ => by rw [suppresses_advance h.sessions h.turns]
  refine (queueArchive_ends (harchives ▸ hschema.archives) (by rw [hexisting, harchives])
    hsame).mono fun s₂ hs₂ => ?_
  obtain ⟨archives, archiveCommands, endings, rfl⟩ := hs₂
  exact ⟨⟨h.sessions, h.stops, h.turns, h.operations, h.actions, h.nextContentId⟩, rfl⟩

theorem Before.settleOwedStop (h : Before s session stop s₁) (hschema : Schema s)
    (hstopsOwed : s₁.stopsOwed = s.stopsOwed) : Ends fails (fun s₂ => Before s session stop s₂ ∧
      ∀ other ≠ session, s₂.stopsOwed.any (StopOwed.owedBy other) =
        s.stopsOwed.any (StopOwed.owedBy other))
      (s₁.queueIf (s.stopsOwed.find? (StopOwed.owedBy session)).isSome
        fun now => now.settleOwedStop session) := by
  refine queueIf_ends (fun hthere => ?_) fun _ => ⟨h, fun other _ => by rw [hstopsOwed]⟩
  obtain ⟨owed, hfind⟩ := Option.isSome_iff_exists.mp hthere
  have hmem := List.mem_of_find?_eq_some hfind
  rw [← hstopsOwed] at hmem
  refine (settleOwedStop_ends (hstopsOwed ▸ hschema.stopsOwed) hmem (List.find?_some hfind)
    (hstopsOwed ▸ hschema.owedOnce session)).mono fun s₂ hs₂ => ?_
  obtain ⟨stopsOwed, rfl, hothers⟩ := hs₂
  exact ⟨⟨h.sessions, h.stops, h.turns, h.operations, h.actions, h.nextContentId⟩, hstopsOwed ▸ hothers⟩

theorem Before.queueOwedStops {position : Nat} (h : Before s session stop s₁) (hschema : Schema s)
    (hothers : ∀ other ≠ session, s₁.stopsOwed.any (StopOwed.owedBy other) =
      s.stopsOwed.any (StopOwed.owedBy other)) : Ends fails (Before s session stop)
      (s₁.queueOwedStops session position (s.unowedChildren session).length) := by
  refine (queueOwedStops_ends (unowedChildren_length hschema.parents h.sessions hothers)).mono
    fun s₂ hs₂ => ?_
  obtain ⟨stopsOwed, rfl⟩ := hs₂
  exact ⟨h.sessions, h.stops, h.turns, h.operations, h.actions, h.nextContentId⟩

/-- **A fresh stop**, for any count that round 1 may have read. -/
theorem stopFresh_ends {command : StopCommand} {facts : Facts} {target : Target} {archive : Bool}
    {faults : Faults} {turn : Turn} {operation : Operation} {selected : List Action} {count : Nat}
    (hschema : Schema s) (h : Opened s turn operation selected)
    (hsession : command.session = turn.session)
    (htarget : s.readTarget turn.session = some target)
    (hexisting : facts.archiveExisting =
      s.archives.any fun archive => archive.session = turn.session)
    (hendings : facts.archiveEndings = s.endings.countP (s.suppresses turn.session))
    (hturn : facts.turn = some (Opened.facts s turn operation count)) :
    Ends (fun failure =>
        s.Outside faults target.session.nextPosition (selected.length + 2) failure ∨
          count ≠ selected.length)
      (fun result => ∃ done completion, Added selected count done ∧
        Stopped s command.key turn operation target.session.nextPosition done completion
          result.1 result.2)
      (s.stopFresh command facts target archive faults) := by
  have hposition := (readTarget_position htarget).1
  obtain ⟨row, hrow, rfl⟩ := Option.map_eq_some_iff.mp htarget
  rw [stopFresh, hsession, hturn]
  refine (queueCommand_ends _ _ _ _ _ fun hlt => .inl (.inl hlt)).bind fun s₁ hs₁ => ?_
  obtain ⟨commands, nextCommandSeq, rfl⟩ := hs₁
  have hfull : ∀ count ≤ selected.length + 2, maxStored < row.nextPosition + count →
      maxStored < row.nextPosition + (selected.length + 2) := fun count hle hlt =>
    Nat.lt_of_lt_of_le hlt (Nat.add_le_add_left hle _)
  refine (@take_ends { s with commands, nextCommandSeq } _ _ _ hposition 1 fun hlt =>
    .inl (hfull 1 (by omega) hlt)).bind fun result htaken => ?_
  obtain ⟨first, s₂⟩ := result
  obtain ⟨rfl, rfl⟩ := htaken
  -- The stop's own row stands, and the rows of the open Turn are as round 1 read them.
  have hstart : ∀ stop : Stop, Before s turn.session stop { s with
      commands, nextCommandSeq,
      sessions := advance turn.session 1 s.sessions,
      stops := s.stops ++ [stop] } := fun _ => ⟨rfl, rfl, rfl, rfl, rfl, rfl⟩
  refine ((hstart _).queueArchive hschema hexisting hendings rfl rfl).bind fun s₃ hs₃ => ?_
  obtain ⟨hbefore₃, hstopsOwed⟩ := hs₃
  refine (hbefore₃.settleOwedStop hschema hstopsOwed).bind fun s₄ hs₄ => ?_
  obtain ⟨hbefore₄, hothers⟩ := hs₄
  refine (hbefore₄.queueOwedStops hschema hothers).bind fun s₅ hbefore => ?_
  have hopened : Opened s₅ turn operation selected :=
    ⟨hbefore.turns ▸ h.turn_mem, h.turn_open, hbefore.operations ▸ h.operation_mem,
      h.operation_id, h.operation_session, hbefore.actions ▸ h.selected⟩
  have hfacts : Opened.facts s turn operation count = Opened.facts s₅ turn operation count := by
    rw [Opened.facts, Opened.facts, hbefore.actions]
  have hsessions : ∀ action ∈ s.actions, action.parentOperationId = turn.operationId →
      action.session = turn.session := by
    intro action haction hparent
    obtain ⟨other, hother, hid, hsame⟩ := hschema.actionSessions action haction
    rw [hparent, ← h.operation_id] at hid
    rw [← hsame, List.inj_on_of_nodup_map hschema.operationIds hother h.operation_mem hid,
      h.operation_session]
  have hends := @stopTurn_ends s₅ (fun failure =>
      s.Outside faults row.nextPosition (selected.length + 2) failure ∨ count ≠ selected.length)
    turn operation selected command.key (row.nextPosition + 1) count faults hopened
    (hbefore.actions ▸ hschema.actions) (hbefore.actions ▸ hsessions)
    (hbefore.turns ▸ hschema.turnIds) (hbefore.operations ▸ hschema.operationIds)
    (positionOf_advance hposition hbefore.sessions) .inr .inl
    (fun hlt => .inl (.inr (hbefore.nextContentId ▸ hlt)))
    fun hlt => .inl (hfull (1 + selected.length + 1) (by omega) (by omega))
  simp only [stopOpenTurn]
  rw [hfacts]
  refine hends.bind fun result hresult => ?_
  obtain ⟨completion, s₆⟩ := result
  obtain ⟨done, hadded, hcloses⟩ := hresult
  refine .ite .inl fun _ => ?_
  obtain ⟨contentId, hactions, hcontent⟩ := hcloses.actions
  have hdone : ∀ action ∈ done, action ∈ s.actions := by
    intro action haction
    obtain ⟨⟨rest, hsplit, -⟩, -⟩ := hadded
    exact ((h.selected.mem action).mp (hsplit ▸ List.mem_append_left rest haction)).1
  refine ⟨done, completion, hadded, ?_, ?_, ⟨contentId, ?_, hcontent⟩, ?_, ?_, ?_, ?_⟩
  · exact ⟨_, _, hcloses.stops.trans hbefore.stops⟩
  · refine ⟨_, congrArg (fun interrupted => Reply.accepted
      ⟨false, some turn.turnId, _, completion, interrupted⟩) ?_⟩
    rw [Option.bind_some]
    simp only [Opened.facts, Option.isNone_iff_eq_none, h.operation_id]
  · rw [hactions, hbefore.actions, map_mark hschema.actions hdone]
  · rw [hcloses.operations, Opened.interrupted, hbefore.operations]
  · rw [hcloses.turns, hbefore.turns]
  · rw [hcloses.answers, hbefore.actions]
  · rw [hcloses.sessions, hbefore.sessions, advance_advance, Nat.add_assoc]

/-- **A stop of a Session with an open Turn.** It cancels each Action of the Turn's Operation that
is unresolved and was never attempted, in call order, from the position after its own on, and no
other; only an injected fault or a full counter fails it, with nothing changed. With a count that
the pages do not add up to, it fails. -/
theorem stop_cancels {s : Store} {command : StopCommand} {owed archive : Bool} {faults : Faults}
    {turn : Turn} (hschema : Schema s) (hfresh : ∀ saved ∈ s.commands, saved.key ≠ command.key)
    (hturn : turn ∈ s.turns) (hopen : turn.outcomeCode = none)
    (hsession : command.session = turn.session)
    (howed : owed = true → ∃ target, s.readTarget turn.session = some target ∧
      target.owedUnder command.key = true) :
    ∃ operation selected target, operation ∈ s.operations ∧
      operation.operationId = turn.operationId ∧ s.readTarget turn.session = some target ∧
      Selected s.actions turn.operationId selected ∧
      ((∃ failure, s.Outside faults target.session.nextPosition (selected.length + 2) failure ∧
          s.stop command owed archive faults = (.error failure, s)) ∨
        ∃ completion reply s', s.stop command owed archive faults = (.ok reply, s') ∧
          Stopped s command.key turn operation target.session.nextPosition selected completion
            reply s') ∧
      ∀ count, pagesTotal selected.length count ≠ count → ∃ failure,
        s.transaction (s.stopFresh command { s.readFacts command.key turn.session with
          turn := some (Opened.facts s turn operation count) } target archive faults) =
            (.error failure, s) := by
  obtain ⟨operation, hoperation, hid, hoperationSession⟩ := hschema.turnOperations turn hturn hopen
  have hselected := hschema.actions.inCallOrder turn.operationId
  have h : Opened s turn operation _ :=
    ⟨hturn, hopen, hoperation, hid, hoperationSession, hselected⟩
  obtain ⟨row, hrow⟩ : ∃ row, s.sessions.find? (fun row => row.ref = turn.session) = some row := by
    obtain ⟨row, hmem, href⟩ := List.mem_map.mp (hschema.turnSessions turn hturn)
    exact Option.isSome_iff_exists.mp (List.find?_isSome.mpr ⟨row, hmem, by simp [href]⟩)
  obtain ⟨target, htarget⟩ : ∃ target, s.readTarget turn.session = some target :=
    ⟨_, by rw [readTarget, hrow, Option.map_some]⟩
  have hvalid : SessionEnvironments.validSessionId turn.session = true := by
    have href : row.ref = turn.session := by simpa using List.find?_some hrow
    rw [← href]
    exact hschema.refs row (List.mem_of_find?_eq_some hrow)
  have hsaved : s.commands.find? (fun saved => saved.key = command.key) = none := by
    refine List.find?_eq_none.mpr fun saved hmem => ?_
    simpa using hfresh saved hmem
  have hfacts : s.readFacts command.key turn.session =
      { saved := none
        target := some target
        turn := s.readTurn turn.session
        archiveExisting := s.archives.any fun archive => archive.session = turn.session
        archiveEndings := s.endings.countP (s.suppresses turn.session) } := by
    rw [readFacts, if_pos hvalid, hsaved, htarget]
  refine ⟨operation, _, target, hoperation, hid, htarget, hselected, ?_, ?_⟩
  · have hends := @stopFresh_ends s command (s.readFacts command.key turn.session) target archive
      faults turn operation _ _ hschema h hsession htarget (by rw [hfacts]) (by rw [hfacts])
      (by rw [hfacts]; exact h.readTurn hschema)
    have hrounds : s.stopRounds command owed archive faults =
        s.stopFresh command (s.readFacts command.key turn.session) target archive faults := by
      rw [stopRounds, hsession, hfacts]
      simp only
      rw [if_neg]
      intro hrefused
      rw [Bool.and_eq_true] at hrefused
      obtain ⟨other, hother, hunder⟩ := howed hrefused.1
      rw [htarget, Option.some.injEq] at hother
      rw [hother] at hrefused
      simp [hunder] at hrefused
    rw [stop, hrounds]
    cases hresult : s.stopFresh command (s.readFacts command.key turn.session) target archive
        faults with
    | error failure =>
      exact .inl ⟨failure, (hends.of_error hresult).resolve_right (not_not_intro rfl), rfl⟩
    | ok result =>
      obtain ⟨done, completion, hadded, hstopped⟩ := hends.of_ok hresult
      rw [hadded.all] at hstopped
      exact .inr ⟨completion, result.1, result.2, rfl, hstopped⟩
  · intro count hcount
    have hends := @stopFresh_ends s command { s.readFacts command.key turn.session with
      turn := some (Opened.facts s turn operation count) } target archive
      faults turn operation _ count hschema h hsession htarget (by rw [hfacts]) (by rw [hfacts]) rfl
    cases hresult : s.stopFresh command { s.readFacts command.key turn.session with
        turn := some (Opened.facts s turn operation count) } target archive faults with
    | error failure => exact ⟨failure, rfl⟩
    | ok result =>
      obtain ⟨done, completion, hadded, -⟩ := hends.of_ok hresult
      exact absurd hadded.pagesTotal hcount

/-- One Session with an open Turn: two Actions were never attempted, one runs, one is resolved. -/
def busy : Store where
  sessions := [⟨text "k7m2qx", 7, none⟩]
  turns := [⟨1, text "k7m2qx", 5, none, none⟩]
  operations := [⟨5, text "k7m2qx", none, none, none⟩]
  actions :=
    [⟨11, 5, 2, text "k7m2qx", 0, none, none, none⟩,
      ⟨12, 5, 0, text "k7m2qx", 0, none, none, none⟩,
      ⟨13, 5, 1, text "k7m2qx", 1, none, none, none⟩,
      ⟨14, 5, 3, text "k7m2qx", 1, some .succeeded, some 2, some 6⟩]

theorem busy_schema : Schema busy where
  refs := by decide
  parents := by decide
  turnIds := by decide
  oneOpen := by decide
  turnSessions := by decide
  turnOperations := by decide
  operationIds := by decide
  actions := ⟨by decide, by decide⟩
  actionSessions := by decide
  stopsOwed := by decide
  owedOnce := fun session a ha => (by cases ha)
  archives := by decide

theorem stop_cancels_busy :
    ∃ operation selected target, operation ∈ busy.operations ∧ operation.operationId = 5 ∧
      busy.readTarget (text "k7m2qx") = some target ∧ Selected busy.actions 5 selected ∧
      ((∃ failure, busy.Outside {} target.session.nextPosition (selected.length + 2) failure ∧
          busy.stop ⟨text "stop", text "k7m2qx", []⟩ false false {} = (.error failure, busy)) ∨
        ∃ completion reply s',
          busy.stop ⟨text "stop", text "k7m2qx", []⟩ false false {} = (.ok reply, s') ∧
          Stopped busy (text "stop") ⟨1, text "k7m2qx", 5, none, none⟩ operation
            target.session.nextPosition selected completion reply s') ∧
      ∀ count, pagesTotal selected.length count ≠ count → ∃ failure,
        busy.transaction (busy.stopFresh ⟨text "stop", text "k7m2qx", []⟩
          { busy.readFacts (text "stop") (text "k7m2qx") with
            turn := some (Opened.facts busy ⟨1, text "k7m2qx", 5, none, none⟩ operation count) }
          target false {}) = (.error failure, busy) :=
  stop_cancels busy_schema (fun saved hsaved => (by cases hsaved)) (List.mem_singleton_self _)
    rfl rfl fun howed => (by exact absurd howed Bool.false_ne_true)

end Store

end Rui.SessionStops
