import Rui.SessionStops.Pages

/-!
# What a stop does

From any well-formed Store, a fresh stop of a Session with an open Turn cancels what was never
attempted, in call order at consecutive positions, and leaves everything that was attempted or
resolved. A stop whose pages do not add up to its count changes nothing.
-/

namespace Rui.SessionStops

open Library

/-- What the schema and the Store's writers keep of the rows a stop reads. -/
structure Schema (s : Store) : Prop where
  refs : ∀ session ∈ s.sessions, SessionEnvironments.validSessionId session.ref = true
  parents : ∀ session ∈ s.sessions, session.parent ≠ some session.ref
  turnIds : (s.turns.map Turn.turnId).Nodup
  oneOpen : ∀ a ∈ s.turns, ∀ b ∈ s.turns, a.outcomeCode = none → b.outcomeCode = none →
    a.session = b.session → a = b
  turnSessions : ∀ turn ∈ s.turns, turn.session ∈ s.sessions.map Session.ref
  turnOperations : ∀ turn ∈ s.turns, turn.outcomeCode = none → ∃ operation ∈ s.operations,
    operation.operationId = turn.operationId ∧ operation.session = turn.session
  operationIds : (s.operations.map Operation.operationId).Nodup
  actions : Distinct s.actions
  actionSessions : ∀ action ∈ s.actions, ∃ operation ∈ s.operations,
    operation.operationId = action.parentOperationId ∧ operation.session = action.session
  stopsOwed : s.stopsOwed.Nodup
  owedOnce : ∀ session, ∀ a ∈ s.stopsOwed, ∀ b ∈ s.stopsOwed, a.owedBy session = true →
    b.owedBy session = true → a = b
  archives : (s.archives.map Archive.session).Nodup

namespace Store

variable {s s' : Store} {fails : Failure → Prop}

/-! ## The rows of an open Turn -/

variable {turn : Turn} {operation : Operation} {selected : List Action} {count : Nat}
  {session : List UInt8}

theorem Schema_find_turn (h : Schema s) (hturn : turn ∈ s.turns) (hopen : turn.outcomeCode = none) :
    s.turns.find? (fun each => each.session = turn.session && each.outcomeCode.isNone) =
      some turn := by
  cases hfind : s.turns.find? fun each => each.session = turn.session && each.outcomeCode.isNone with
  | none =>
    have hnone := List.find?_eq_none.mp hfind turn hturn
    rw [hopen] at hnone
    simp at hnone
  | some found =>
    have hsome := List.find?_some hfind
    rw [Bool.and_eq_true, decide_eq_true_eq, Option.isNone_iff_eq_none] at hsome
    rw [h.oneOpen found (List.mem_of_find?_eq_some hfind) turn hturn hsome.2 hopen hsome.1]

theorem Schema_find_operation (h : Schema s) (hoperation : operation ∈ s.operations) :
    s.operations.find? (fun each => each.operationId = operation.operationId) =
      some operation := by
  cases hfind : s.operations.find? fun each => each.operationId = operation.operationId with
  | none =>
    have hnone := List.find?_eq_none.mp hfind operation hoperation
    simp at hnone
  | some found =>
    have hsome := List.find?_some hfind
    rw [decide_eq_true_eq] at hsome
    rw [List.inj_on_of_nodup_map h.operationIds (List.mem_of_find?_eq_some hfind) hoperation hsome]

/-! ## Cancelling -/

theorem importBytes_ends (bytes : List UInt8)
    (hfull : maxStored < s.nextContentId → fails .identityExhausted) :
    Ends fails (fun result => (∃ contents nextContentId,
      result.2 = { s with contents, nextContentId }) ∧ ∃ content ∈ result.2.contents,
        content.contentId = result.1 ∧ content.bytes = bytes ∧ content.isPrivate = false)
      (s.importBytes bytes) := by
  rw [importBytes]
  cases hfind : s.contents.find? fun content => content.bytes = bytes && !content.isPrivate with
  | some content =>
    have hsome := List.find?_some hfind
    rw [Bool.and_eq_true, decide_eq_true_eq, Bool.not_eq_true'] at hsome
    exact ⟨⟨s.contents, s.nextContentId, rfl⟩, content, List.mem_of_find?_eq_some hfind, rfl,
      hsome.1, hsome.2⟩
  | none =>
    simp only [identity]
    split_ifs with hlt
    · exact hfull hlt
    · exact ⟨⟨_, _, rfl⟩, _, List.mem_append_right _ (List.mem_singleton_self _), rfl, rfl, rfl⟩

/-- What pages that add up to a count cancelled: whole pages of what was selected, or all. -/
structure Added (selected : List Action) (count : Nat) (done : List Action) : Prop where
  split : ∃ rest, selected = done ++ rest ∧ (cancelChunk ∣ done.length ∨ rest = [])
  length : done.length = count

/-- How many Actions the pages hold that are read for this count. -/
def pagesTotal (selected count : Nat) : Nat :=
  min selected (cancelChunk * ((count + (cancelChunk - 1)) / cancelChunk))

variable {done : List Action} {key : List UInt8} {position : Nat}

theorem Added.pagesTotal (h : Added selected count done) :
    pagesTotal selected.length count = count := by
  obtain ⟨⟨rest, rfl, hwhole⟩, rfl⟩ := h
  rw [Store.pagesTotal, List.length_append, cancelChunk] at *
  rcases hwhole with hwhole | rfl
  · omega
  · rw [List.length_nil]
    omega

theorem Added.all (h : Added selected selected.length done) : done = selected := by
  obtain ⟨⟨rest, hsplit, -⟩, hlength⟩ := h
  rw [hsplit, List.length_append] at hlength
  obtain rfl : rest = [] := List.length_eq_zero_iff.mp (by omega)
  rw [hsplit, List.append_nil]

/-- The first Actions of an Operation in call order were cancelled with the stop's text, from
`first` on; nothing else happened. -/
structure CancelsTo (s : Store) (session : List UInt8) (first : Nat) (done : List Action)
    (s' : Store) : Prop where
  cancelled : ∃ contents nextContentId contentId,
    s' = { s with
      contents, nextContentId,
      sessions := advance session done.length s.sessions,
      actions := s.actions.map (mark contentId first (done.map Action.actionId)) } ∧
    ∃ content ∈ contents, content.contentId = contentId ∧
      content.bytes = stopCancellationText ∧ content.isPrivate = false

/-- **Cancelling**, for any count: it succeeds only when as many Actions were cancelled as round 1
counted, and fails only when the count is wrong, a counter is full or a fault is injected. -/
theorem cancelActions_ends {turn : OpenTurn} {first : Nat} {faults : Faults}
    (hdistinct : Distinct s.actions)
    (hsession : ∀ action ∈ s.actions, action.parentOperationId = turn.operationId →
      action.session = session) (hselected : Selected s.actions turn.operationId selected)
    (hposition : s.positionOf session = some first)
    (hcount : turn.cancellable ≠ selected.length → fails .stopSelectionChanged)
    (hfault : faults.contentImport = true → fails .injectedContentImportFailure)
    (hidentity : maxStored < s.nextContentId → fails .identityExhausted)
    (hfull : maxStored < first + selected.length → fails .sessionPositionExhausted) : Ends fails
      (fun s' => ∃ done, Added selected turn.cancellable done ∧ CancelsTo s session first done s')
      (s.cancelActions session turn faults) := by
  have hpage : s.page turn.operationId 0 = selected.take cancelChunk :=
    @page_eq s.actions [] selected turn.operationId 0 first s 0 hselected hdistinct
      (mark_nil 0 first s.actions).symm (fun action haction => (by cases haction))
      fun action _ => Nat.zero_le _
  rw [cancelActions, hpage]
  refine .ite hfault fun _ => ?_
  refine (importBytes_ends stopCancellationText hidentity).bind fun result himport => ?_
  obtain ⟨contentId, s₁⟩ := result
  obtain ⟨⟨contents, nextContentId, rfl⟩, hcontent⟩ := himport
  have hpages := @cancelPages_ends s.actions selected [] selected turn.operationId contentId
    first session turn.cancellable fails hfull hdistinct hsession hselected
    { s with contents, nextContentId } rfl (Nat.dvd_zero _)
    (mark_nil contentId first s.actions).symm hposition
  refine hpages.bind fun result hpaged => ?_
  obtain ⟨total, s₂⟩ := result
  obtain ⟨done, rest, hsplit, rfl, hend, rfl, -, hwhole⟩ := hpaged
  refine .ite (fun hwrong => hcount ?_) fun hsum => ?_
  · rcases hend with hle | rfl
    · rw [hsplit, List.length_append]
      have : turn.cancellable ≠ done.length := fun hsame => hwrong hsame.symm
      omega
    · rw [hsplit, List.append_nil]
      exact fun hsame => hwrong hsame.symm
  · exact ⟨done, ⟨⟨rest, hsplit, hwhole⟩, not_not.mp hsum⟩, contents, nextContentId, contentId,
      rfl, hcontent⟩

/-! ## The other writes -/

theorem identity_ends (value : Nat) (hfull : maxStored < value → fails .identityExhausted) :
    Ends fails (fun id => id = value) (identity value) := by
  rw [identity]
  exact .ite hfull fun _ => rfl

theorem queueCommand_ends (key : List UInt8) (kind : CommandKind) (target digest : List UInt8)
    (code : Option Rejection) (hfull : maxStored < s.nextCommandSeq → fails .identityExhausted) :
    Ends fails (fun s' => ∃ commands nextCommandSeq,
      s' = { s with commands, nextCommandSeq }) (s.queueCommand key kind target digest code) :=
  (identity_ends s.nextCommandSeq hfull).bind fun _ _ => ⟨_, _, rfl⟩

theorem interruptOperation_eq (hids : (s.operations.map Operation.operationId).Nodup)
    (hoperation : operation ∈ s.operations) (hrunning : operation.resolutionCode = none) :
    s.interruptOperation operation.operationId key operation.session = .ok { s with
      operations := s.operations.map fun each =>
        if each.operationId = operation.operationId then each.interrupted key else each } := by
  have hupdate := @updateOne_keyed _ _ _ (fun each : Operation =>
    each.operationId = operation.operationId && each.session = operation.session &&
      each.resolutionCode.isNone) (Operation.interrupted key) s.operations Operation.operationId
    hids operation hoperation (by simp [hrunning]) fun other _ hother => by
      simp only [Bool.and_eq_true, decide_eq_true_eq] at hother
      exact hother.1.1
  rw [interruptOperation, hupdate]

/-- **The Turn's close.** -/
theorem queueClose_ends (hids : (s.turns.map Turn.turnId).Nodup) (hturn : turn ∈ s.turns)
    (hopen : turn.outcomeCode = none) (hposition : s.positionOf turn.session = some position)
    (hfull : maxStored < position + 1 → fails .sessionPositionExhausted) :
    Ends fails (fun s' => ∃ endings, s' = { s with
        endings,
        sessions := advance turn.session 1 s.sessions,
        turns := s.turns.map fun each =>
          if each.turnId = turn.turnId then each.cancelled position else each })
      (s.queueClose turn.session turn.turnId) := by
  refine (take_ends hposition 1 hfull).bind fun result htake => ?_
  obtain ⟨first, s₁⟩ := result
  obtain ⟨rfl, rfl⟩ := htake
  have hupdate := @updateOne_keyed _ _ _ (fun each : Turn =>
    each.turnId = turn.turnId && each.session = turn.session && each.outcomeCode.isNone)
    (Turn.cancelled first) s.turns Turn.turnId
    hids turn hturn (by simp [hopen]) fun other _ hother => by
      simp only [Bool.and_eq_true, decide_eq_true_eq] at hother
      exact hother.1.1
  simp only [hupdate]
  cases ((advance turn.session 1 s.sessions).find? fun row => row.ref = turn.session).bind
      Session.parent with
  | none => exact ⟨s.endings, rfl⟩
  | some parent =>
    refine .ite (fun _ => ⟨s.endings, rfl⟩) fun _ => ⟨_, rfl⟩

/-! ### What a stop is owed and owes -/

theorem settleOwedStop_ends {owed : StopOwed} (hnodup : s.stopsOwed.Nodup)
    (hmem : owed ∈ s.stopsOwed) (howed : owed.owedBy session = true)
    (honce : ∀ a ∈ s.stopsOwed, ∀ b ∈ s.stopsOwed, a.owedBy session = true →
      b.owedBy session = true → a = b) :
    Ends fails (fun s' => ∃ stopsOwed, s' = { s with stopsOwed } ∧
      ∀ other ≠ session, stopsOwed.any (StopOwed.owedBy other) =
        s.stopsOwed.any (StopOwed.owedBy other))
      (s.settleOwedStop session) := by
  have hupdate := @updateOne_keyed _ _ _ (StopOwed.owedBy session)
    (fun owed => { owed with settled := true }) s.stopsOwed id (by rwa [List.map_id]) owed hmem howed
    fun other hother hsame => honce other hother owed hmem hsame howed
  rw [settleOwedStop, hupdate]
  refine ⟨_, rfl, fun other hother => ?_⟩
  rw [List.any_map]
  refine List.any_congr rfl fun each => ?_
  rw [Function.comp_apply]
  by_cases hsame : id each = id owed
  · obtain rfl : each = owed := hsame
    have hchild : each.child = session := by
      rw [StopOwed.owedBy, Bool.and_eq_true, decide_eq_true_eq] at howed
      exact howed.1
    rw [if_pos rfl, StopOwed.owedBy, StopOwed.owedBy, hchild, decide_eq_false hother.symm]
    rfl
  · rw [if_neg hsame]

theorem any_advance {sessions : List Session} {p : Session → Bool}
    (hp : ∀ row count, p { row with nextPosition := count } = p row) :
    (advance session count sessions).any p = sessions.any p := by
  rw [advance, List.any_map]
  refine List.any_congr rfl fun row => ?_
  rw [Function.comp_apply]
  split_ifs
  · exact hp row _
  · rfl

/-- A stop's own writes do not change how many children owe no stop. -/
theorem unowedChildren_length (hparents : ∀ row ∈ s.sessions, row.parent ≠ some row.ref)
    (hsessions : s'.sessions = advance session count s.sessions)
    (howed : ∀ other ≠ session, s'.stopsOwed.any (StopOwed.owedBy other) =
      s.stopsOwed.any (StopOwed.owedBy other)) :
    (s'.unowedChildren session).length = (s.unowedChildren session).length := by
  rw [unowedChildren, unowedChildren, hsessions, advance, List.filter_map, List.length_map]
  congr 1
  refine List.filter_congr fun row hrow => ?_
  have hsame : ∀ count, ({ row with nextPosition := count } : Session).parent = row.parent :=
    fun _ => rfl
  rw [Function.comp_apply]
  by_cases hparent : row.parent = some session
  · have hother : row.ref ≠ session := fun href => hparents row hrow (by rw [href, hparent])
    rw [if_neg hother, howed row.ref hother]
  · split_ifs
    · rw [hsame, decide_eq_false hparent]
      rfl
    · rw [decide_eq_false hparent]
      rfl

theorem queueOwedStops_ends {unowed : Nat} (h : (s.unowedChildren session).length = unowed) :
    Ends fails (fun s' => ∃ stopsOwed, s' = { s with stopsOwed })
      (s.queueOwedStops session position unowed) := by
  rw [queueOwedStops]
  refine .ite (fun _ => ⟨s.stopsOwed, rfl⟩) fun _ => ?_
  rw [if_neg (not_not_intro h)]
  exact ⟨_, rfl⟩

theorem suppresses_advance {parent : List UInt8} {ending : Ending}
    (hsessions : s'.sessions = advance session count s.sessions) (hturns : s'.turns = s.turns) :
    s'.suppresses parent ending = s.suppresses parent ending := by
  rw [suppresses, suppresses, hturns, hsessions]
  congr 1
  refine List.any_congr rfl fun turn => ?_
  rw [any_advance fun _ _ => rfl]

theorem queueArchive_ends {facts : Facts} (hnodup : (s.archives.map Archive.session).Nodup)
    (hexisting : facts.archiveExisting = s.archives.any fun archive => archive.session = session)
    (hendings : s.endings.countP (s.suppresses session) = facts.archiveEndings) :
    Ends fails (fun s' => ∃ archives archiveCommands endings,
      s' = { s with archives, archiveCommands, endings }) (s.queueArchive key session facts) := by
  have hsave : Ends fails (fun s' => ∃ archives, s' = { s with
      archives, archiveCommands := s.archiveCommands ++ [(key, true)] })
      (({ s with archiveCommands := s.archiveCommands ++ [(key, true)] }).saveArchive key session
        facts.archiveExisting) := by
    rw [saveArchive]
    refine .ite (fun hthere => ?_) fun _ => ⟨_, rfl⟩
    rw [hexisting] at hthere
    obtain ⟨archive, harchive, hsame⟩ := List.any_eq_true.mp hthere
    have hupdate := @updateOne_keyed _ _ _ (fun archive : Archive => archive.session = session)
      (fun archive => { archive with commandKey := some key }) s.archives Archive.session hnodup
      archive harchive hsame fun other _ hother => by
        rw [of_decide_eq_true hother, of_decide_eq_true hsame]
    simp only [hupdate]
    exact ⟨_, rfl⟩
  refine hsave.bind fun s' hsaved => ?_
  obtain ⟨archives, rfl⟩ := hsaved
  refine .ite (fun hcount => absurd hendings hcount) fun _ => ⟨archives, _, _, rfl⟩

theorem queueIf_ends {post : Store → Prop} {c : Bool}
    {write : Store → Except Failure Store} (hwrite : c = true → Ends fails post (write s))
    (hskip : c = false → post s) : Ends fails post (s.queueIf c write) := by
  rw [queueIf]
  exact .ite hwrite fun hfalse => hskip (Bool.eq_false_iff.mpr hfalse)

/-! ## The open Turn -/

/-- An open Turn, its Operation, and the Actions that a stop cancels. -/
structure Opened (s : Store) (turn : Turn) (operation : Operation) (selected : List Action) :
    Prop where
  turn_mem : turn ∈ s.turns
  turn_open : turn.outcomeCode = none
  operation_mem : operation ∈ s.operations
  operation_id : operation.operationId = turn.operationId
  operation_session : operation.session = turn.session
  selected : Selected s.actions turn.operationId selected

/-- What round 1 reads of an open Turn, but for the count of what can be cancelled. -/
def Opened.facts (s : Store) (turn : Turn) (operation : Operation) (count : Nat) : OpenTurn where
  turnId := turn.turnId
  operationId := turn.operationId
  running := operation.resolutionCode.isNone
  cancellable := count
  inFlight := s.actions.any (Action.inFlight turn.operationId)

theorem Opened.readTurn (h : Opened s turn operation selected) (hschema : Schema s) :
    s.readTurn turn.session = some (Opened.facts s turn operation selected.length) := by
  rw [Store.readTurn, Schema_find_turn hschema h.turn_mem h.turn_open, h.selected.length hschema.actions]
  simp only
  rw [← h.operation_id, Schema_find_operation hschema h.operation_mem, h.operation_id]
  rfl

/-- The Operations after a stop: this one is interrupted when it is unresolved. -/
def Opened.interrupted (s : Store) (operation : Operation) (key : List UInt8) : List Operation :=
  s.operations.map fun each =>
    if each.operationId = operation.operationId ∧ operation.resolutionCode = none
    then each.interrupted key else each

/-- What a stop does to an open Turn's rows, whose Session's next position is `first`. -/
structure Closes (s : Store) (turn : Turn) (operation : Operation) (key : List UInt8)
    (first : Nat) (done : List Action) (completion : Completion) (s' : Store) : Prop where
  actions : ∃ contentId, s'.actions =
      s.actions.map (mark contentId first (done.map Action.actionId)) ∧
    (done ≠ [] → ∃ content ∈ s'.contents, content.contentId = contentId ∧
      content.bytes = stopCancellationText ∧ content.isPrivate = false)
  operations : s'.operations = Opened.interrupted s operation key
  turns : s'.turns = s.turns.map fun each =>
    if each.turnId = turn.turnId ∧ completion = .completed then
      each.cancelled (first + done.length) else each
  answers : completion = .pending ↔
    ∃ action ∈ s.actions, action.parentOperationId = turn.operationId ∧
      action.resolutionCode = none ∧ action.attemptOrdinal ≠ 0
  sessions : s'.sessions = advance turn.session
    (done.length + if completion = .completed then 1 else 0) s.sessions
  stops : s'.stops = s.stops

/-- **The open Turn's part of a stop**, for any count that round 1 may have read. -/
theorem stopTurn_ends {turn : Turn} {operation : Operation} {selected : List Action}
    {key : List UInt8} {first count : Nat} {faults : Faults}
    (h : Opened s turn operation selected) (hdistinct : Distinct s.actions)
    (hsession : ∀ action ∈ s.actions, action.parentOperationId = turn.operationId →
      action.session = turn.session)
    (hturnIds : (s.turns.map Turn.turnId).Nodup)
    (hoperationIds : (s.operations.map Operation.operationId).Nodup)
    (hposition : s.positionOf turn.session = some first)
    (hcount : count ≠ selected.length → fails .stopSelectionChanged)
    (hfault : faults.contentImport = true → fails .injectedContentImportFailure)
    (hidentity : maxStored < s.nextContentId → fails .identityExhausted)
    (hfull : maxStored < first + selected.length + 1 → fails .sessionPositionExhausted) :
    Ends fails
      (fun result => ∃ done, Added selected count done ∧
        Closes s turn operation key first done result.1 result.2)
      (s.stopTurn key turn.session (Opened.facts s turn operation count) faults) := by
  -- The Operation is interrupted when it still runs.
  have hinterrupt : Ends fails
      (fun s₁ => s₁ = { s with operations := Opened.interrupted s operation key })
      (s.queueIf operation.resolutionCode.isNone fun s =>
        s.interruptOperation turn.operationId key turn.session) := by
    refine queueIf_ends (fun hrunning => ?_) fun hresolved => ?_
    · rw [Option.isNone_iff_eq_none] at hrunning
      rw [← h.operation_id, ← h.operation_session,
        interruptOperation_eq hoperationIds h.operation_mem hrunning]
      simp only [Opened.interrupted, hrunning, and_true]
      exact rfl
    · have hsome : operation.resolutionCode ≠ none := fun hnone => by
        rw [hnone] at hresolved
        cases hresolved
      simp only [Opened.interrupted, hsome, and_false, if_false, List.map_id']
  refine hinterrupt.bind fun s₁ hs₁ => ?_
  have hactions₁ : s₁.actions = s.actions := by rw [hs₁]
  -- The Actions are cancelled when there are any.
  have hcancel : Ends fails
      (fun s₂ => ∃ done contents nextContentId contentId, Added selected count done ∧ s₂ = { s₁ with
          contents, nextContentId,
          sessions := advance turn.session done.length s.sessions,
          actions := s.actions.map (mark contentId first (done.map Action.actionId)) } ∧
        (done ≠ [] → ∃ content ∈ contents, content.contentId = contentId ∧
          content.bytes = stopCancellationText ∧ content.isPrivate = false))
      (s₁.queueIf (decide (count ≠ 0)) fun now =>
        now.cancelActions turn.session (Opened.facts s turn operation count) faults) := by
    have hposition₁ : s₁.positionOf turn.session = some first := by rw [hs₁]; exact hposition
    refine queueIf_ends (fun _ => ?_) fun hzero => ?_
    · refine (cancelActions_ends (hactions₁ ▸ hdistinct) (hactions₁ ▸ hsession)
        (hactions₁ ▸ h.selected) hposition₁ hcount hfault (fun hlt => hidentity (by rwa [hs₁] at hlt))
        fun hlt => hfull (Nat.lt_succ_of_lt hlt)).mono fun s₂ hdone => ?_
      obtain ⟨done, hadded, contents, nextContentId, contentId, hs₂, hcontent⟩ := hdone
      refine ⟨done, contents, nextContentId, contentId, hadded, ?_, fun _ => hcontent⟩
      rw [hs₂, hactions₁, hs₁]
    · have hnone : count = 0 := by simpa using hzero
      refine ⟨[], s₁.contents, s₁.nextContentId, 0,
        ⟨⟨selected, rfl, .inl (Nat.dvd_zero _)⟩, hnone.symm⟩, ?_, fun hne => absurd rfl hne⟩
      rw [hs₁, List.length_nil, advance_zero, List.map_nil, mark_nil]
  refine hcancel.bind fun s₂ hs₂ => ?_
  obtain ⟨done, contents, nextContentId, contentId, hadded, hs₂, hcontent⟩ := hs₂
  have hinFlight : (Opened.facts s turn operation count).inFlight = true ↔
      ∃ action ∈ s.actions, action.parentOperationId = turn.operationId ∧
        action.resolutionCode = none ∧ action.attemptOrdinal ≠ 0 := by
    simp only [Opened.facts, List.any_eq_true, Action.inFlight, Bool.and_eq_true,
      decide_eq_true_eq, Option.isNone_iff_eq_none, and_assoc]
  -- The Turn is closed unless an attempted Action is unresolved.
  refine .ite (fun hpending => ?_) fun hready => ?_
  · refine ⟨done, hadded, ⟨contentId, by rw [hs₂], by rw [hs₂]; exact hcontent⟩,
      by rw [hs₂, hs₁], ?_, iff_of_true rfl (hinFlight.mp hpending), ?_, by rw [hs₂, hs₁]⟩
    · simp only [hs₂, hs₁, reduceCtorEq, and_false, if_false, List.map_id']
    · rw [hs₂]
      rfl
  · have hposition₂ : s₂.positionOf turn.session = some (first + done.length) :=
      positionOf_advance hposition (by rw [hs₂])
    have hturns : s₂.turns = s.turns := by rw [hs₂, hs₁]
    have hshort : done.length ≤ selected.length := by
      obtain ⟨⟨rest, rfl, -⟩, -⟩ := hadded
      rw [List.length_append]
      exact Nat.le_add_right _ _
    refine (queueClose_ends (hturns ▸ hturnIds) (hturns ▸ h.turn_mem) h.turn_open
      hposition₂ fun hlt => hfull (by omega)).bind fun s₃ hs₃ => ?_
    obtain ⟨endings, hs₃⟩ := hs₃
    refine ⟨done, hadded, ⟨contentId, by rw [hs₃, hs₂], by rw [hs₃, hs₂]; exact hcontent⟩,
      by rw [hs₃, hs₂, hs₁], ?_, iff_of_false (fun hsame => (by cases hsame))
        fun hthere => hready (hinFlight.mpr hthere), ?_, by rw [hs₃, hs₂, hs₁]⟩
    · rw [hs₃, hs₂, hs₁]
      simp only [and_true]
    · rw [hs₃, hs₂]
      exact advance_advance _ _ _ _

end Store

end Rui.SessionStops
