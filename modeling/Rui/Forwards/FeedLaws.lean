import Rui.Forwards.FeedRows

/-!
# The rows over transactions

Whatever happens between the hops (outputs that ask for approval, Turns that open and end, owed
endings, stops, archives and restarts), every transaction keeps what holds of the rows.
-/

namespace Rui.Forwards

open Library

variable {ρ : Type} [DecidableEq ρ] {tree : Forest ρ}

namespace Store

variable {s s' : Store ρ}

/-! ## Rows and facts -/

/-- What holds of the rows after every transaction. -/
structure Kept (tree : Forest ρ) (s : Store ρ) : Prop where
  fed : Fed tree s
  numbered : Numbered s

variable {session child parent : ρ} {fault done ends inFlight archive : Bool} {items : List Item}
  {turnId count first position cancelled : Nat} {turn : Turn ρ} {ending : Ending}

theorem take_spared (h : s.take session count = .ok (first, s')) : Spared s s' := by
  obtain ⟨-, rfl⟩ := take_ok h
  refine ⟨rfl, rfl, fun child kind sourceId => ?_⟩
  cases kind <;> exact Iff.rfl

theorem Kept.take (h : Kept tree s) (htake : s.take session count = .ok (first, s')) :
    Kept tree s' := by
  refine ⟨h.fed.spared (take_spared htake), ?_⟩
  obtain ⟨-, rfl⟩ := take_ok htake
  obtain ⟨hactions, hactionsBelow, hturns, hturnsBelow, hendings⟩ := h.numbered
  exact ⟨hactions, hactionsBelow, hturns, hturnsBelow, hendings⟩

theorem Numbered.queue {source : ρ} {kind : Kind} {sourceId : Nat} (h : Numbered s)
    (hqueue : s.queue tree source child kind sourceId = .ok s') : Numbered s' := by
  obtain ⟨more, rfl, -⟩ := queue_ok hqueue
  obtain ⟨hactions, hactionsBelow, hturns, hturnsBelow, hendings⟩ := h
  exact ⟨hactions, hactionsBelow, hturns, hturnsBelow, hendings⟩

theorem Kept.deliver {forwardId now : Nat} (h : Kept tree s)
    (hdeliver : s.deliver tree forwardId now fault = .ok (done, s')) : Kept tree s' := by
  rcases deliver_ok hdeliver with ⟨-, rfl⟩ | ⟨-, before, row, after, hdelivered⟩
  · exact h
  · refine ⟨h.fed.delivered hdelivered, ?_⟩
    obtain ⟨-, -, -, kind, -, hqueue⟩ := hdelivered
    refine Numbered.queue ?_ hqueue
    obtain ⟨hactions, hactionsBelow, hturns, hturnsBelow, hendings⟩ := h.numbered
    exact ⟨hactions, hactionsBelow, hturns, hturnsBelow, hendings⟩

/-! ### Approvals -/

/-- An Action is added, and its request for approval if it makes one. -/
def withAction (s : Store ρ) (session : ρ) (approval : Option Nat) : Store ρ :=
  { s with
    nextAction := s.nextAction + 1,
    actions := s.actions ++ [⟨s.nextAction, session, approval⟩] }

omit [DecidableEq ρ] in
theorem Numbered.withAction (h : Numbered s) (session : ρ) (approval : Option Nat) :
    Numbered (s.withAction session approval) := by
  obtain ⟨hactions, hbelow, hturns, hturnsBelow, hendings⟩ := h
  refine ⟨?_, ?_, hturns, hturnsBelow, hendings⟩
  · rw [Store.withAction, List.map_append, List.map_singleton, List.nodup_append]
    refine ⟨hactions, List.nodup_singleton _, ?_⟩
    intro id hid id' hid' hsame
    obtain ⟨old, hold, rfl⟩ := List.mem_map.mp hid
    exact Nat.ne_of_lt (hbelow old hold) (hsame.trans (List.mem_singleton.mp hid'))
  · intro action haction
    rcases List.mem_append.mp haction with hold | hnew
    · exact (hbelow action hold).trans (Nat.lt_succ_self _)
    · rw [List.mem_singleton.mp hnew]
      exact Nat.lt_succ_self _

omit [DecidableEq ρ] in
theorem withAction_spared (s : Store ρ) (session : ρ) : Spared s (s.withAction session none) := by
  refine ⟨rfl, rfl, fun child kind sourceId => ?_⟩
  cases kind with
  | ending => exact Iff.rfl
  | approval =>
    constructor
    · rintro ⟨action, haction, hid, hsession, happroval⟩
      rcases List.mem_append.mp haction with hold | hnew
      · exact ⟨action, hold, hid, hsession, happroval⟩
      · rw [List.mem_singleton.mp hnew] at happroval
        exact absurd rfl happroval
    · rintro ⟨action, haction, hrest⟩
      exact ⟨action, List.mem_append_left _ haction, hrest⟩

omit [DecidableEq ρ] in
theorem withAction_saves (s : Store ρ) (session : ρ) (position : Nat) :
    Saves s (s.withAction session (some position)) session .approval s.nextAction := by
  refine ⟨rfl, rfl, fun child kind sourceId => ?_⟩
  cases kind with
  | ending =>
    constructor
    · exact .inl
    · rintro (hold | ⟨-, hkind, -⟩)
      · exact hold
      · cases hkind
  | approval =>
    constructor
    · rintro ⟨action, haction, hid, hsession, happroval⟩
      rcases List.mem_append.mp haction with hold | hnew
      · exact .inl ⟨action, hold, hid, hsession, happroval⟩
      · rw [List.mem_singleton.mp hnew] at hid hsession
        exact .inr ⟨hsession.symm, rfl, hid.symm⟩
    · rintro (⟨action, haction, hrest⟩ | ⟨rfl, -, rfl⟩)
      · exact ⟨action, List.mem_append_left _ haction, hrest⟩
      · refine ⟨_, List.mem_append_right _ (List.mem_singleton_self _), rfl, rfl, ?_⟩
        exact Option.some_ne_none _

theorem importItems_cons {item : Item} {rest : List Item}
    (h : importItems tree session (item :: rest) position s = .ok s') :
    ∃ s₁, importItems tree session rest (position + 1) s₁ = .ok s' ∧
      (item = .other ∧ s₁ = s ∨
        item = .rejected ∧ (∃ first, s.take session 1 = .ok (first, s₁)) ∨
        item = .call true ∧ s₁ = s.withAction session none ∨
        item = .call false ∧ (s.withAction session (some position)).queue tree session session
          .approval s.nextAction = .ok s₁) := by
  cases item with
  | other => exact ⟨s, h, .inl ⟨rfl, rfl⟩⟩
  | rejected =>
    obtain ⟨⟨first, s₁⟩, htake, h⟩ := bind_ok h
    exact ⟨s₁, h, .inr (.inl ⟨rfl, first, htake⟩)⟩
  | call authorized =>
    obtain ⟨actionId, hid, h⟩ := bind_ok h
    obtain rfl := identity_ok hid
    cases authorized with
    | true => exact ⟨s.withAction session none, h, .inr (.inr (.inl ⟨rfl, rfl⟩))⟩
    | false =>
      have hbind : ((s.withAction session (some position)).queue tree session session .approval
          s.nextAction >>= importItems tree session rest (position + 1)) = .ok s' := h
      obtain ⟨s₁, hqueue, h⟩ := bind_ok hbind
      exact ⟨s₁, h, .inr (.inr (.inr ⟨rfl, hqueue⟩))⟩

theorem Kept.importItems (h : Kept tree s)
    (himport : Store.importItems tree session items position s = .ok s') : Kept tree s' := by
  induction items generalizing position s with
  | nil =>
    cases himport
    exact h
  | cons item rest ih =>
    obtain ⟨s₁, hrest, ⟨-, rfl⟩ | ⟨-, first, htake⟩ | ⟨-, rfl⟩ | ⟨-, hqueue⟩⟩ :=
      importItems_cons himport
    · exact ih h hrest
    · exact ih (h.take htake) hrest
    · exact ih ⟨h.fed.spared (withAction_spared s session), h.numbered.withAction _ _⟩ hrest
    · exact ih ⟨h.fed.saved (withAction_saves s session position) hqueue,
        (h.numbered.withAction _ _).queue hqueue⟩ hrest

/-! ### Endings -/

/-- A Turn has ended at the Session's next position, and these endings are owed. -/
def closed (s : Store ρ) (session : ρ) (before : List (Turn ρ)) (turn : Turn ρ)
    (after : List (Turn ρ)) (more : List Ending) : Store ρ :=
  { s with
    nextPosition := Function.update s.nextPosition session (s.nextPosition session + 1),
    turns := before ++ { turn with outcomePosition := some (s.nextPosition session) } :: after,
    endings := s.endings ++ more }

theorem queueClose_ok (h : s.queueClose tree session turnId = .ok s') :
    ∃ before turn after more, s.turns = before ++ turn :: after ∧
      turn.openAs turnId session = true ∧ s' = s.closed session before turn after more ∧
      ∀ ending ∈ more, ending.turnId = turnId ∧ ending.delivered = false := by
  obtain ⟨⟨position, taken⟩, htake, h⟩ := bind_ok h
  obtain ⟨rfl, rfl⟩ := take_ok htake
  cases hupdate : updateOne (Turn.openAs turnId session)
      (fun turn => { turn with outcomePosition := some (s.nextPosition session) }) s.turns with
  | none =>
    simp only [hupdate] at h
    cases h
  | some turns =>
    simp only [hupdate] at h
    obtain ⟨before, turn, after, hturns, hopen, -, rfl⟩ := updateOne_eq_some hupdate
    cases hparent : tree.parent session with
    | none =>
      rw [hparent] at h
      cases h
      refine ⟨before, turn, after, [], hturns, hopen, ?_, fun ending hending => (by cases hending)⟩
      rw [closed, List.append_nil]
    | some parent =>
      simp only [hparent] at h
      split_ifs at h
      · cases h
        refine ⟨before, turn, after, [], hturns, hopen, ?_,
          fun ending hending => (by cases hending)⟩
        rw [closed, List.append_nil]
      · cases h
        refine ⟨before, turn, after, _, hturns, hopen, rfl, fun ending hending => ?_⟩
        rw [List.mem_singleton.mp hending]
        exact ⟨rfl, rfl⟩

omit [DecidableEq ρ] in
theorem turn_of_closed {before after : List (Turn ρ)} {outcome : Option Nat} :
    (∃ each ∈ before ++ { turn with outcomePosition := outcome } :: after,
      each.turnId = turnId ∧ each.session = session) ↔
    ∃ each ∈ before ++ turn :: after, each.turnId = turnId ∧ each.session = session := by
  simp only [List.mem_append, List.mem_cons, or_and_right, exists_or, exists_eq_left]

theorem Kept.queueClose (h : Kept tree s) (hclose : s.queueClose tree session turnId = .ok s') :
    Kept tree s' := by
  obtain ⟨before, turn, after, more, hturns, hopen, rfl, hmore⟩ := queueClose_ok hclose
  obtain ⟨hactions, hactionsBelow, hids, hbelow, hendings⟩ := h.numbered
  have hturnIds : (s.closed session before turn after more).turns.map Turn.turnId =
      s.turns.map Turn.turnId := by
    rw [hturns, closed, List.map_append, List.map_append]
    rfl
  refine ⟨h.fed.spared ⟨rfl, rfl, fun child kind sourceId => ?_⟩,
    ⟨hactions, hactionsBelow, hturnIds ▸ hids, ?_, ?_⟩⟩
  · cases kind with
    | approval => exact Iff.rfl
    | ending =>
      refine and_congr ?_ ?_
      · constructor
        · rintro ⟨ending, hending, hid, hdelivered⟩
          rcases List.mem_append.mp hending with hold | hnew
          · exact ⟨ending, hold, hid, hdelivered⟩
          · rw [(hmore ending hnew).2] at hdelivered
            cases hdelivered
        · rintro ⟨ending, hending, hrest⟩
          exact ⟨ending, List.mem_append_left _ hending, hrest⟩
      · rw [hturns]
        exact turn_of_closed
  · intro each heach
    have hid : each.turnId ∈ s.turns.map Turn.turnId := by
      rw [← hturnIds]
      exact List.mem_map_of_mem heach
    obtain ⟨old, hold, hsame⟩ := List.mem_map.mp hid
    rw [← hsame]
    exact hbelow old hold
  · intro ending hending
    rw [hturnIds]
    rcases List.mem_append.mp hending with hold | hnew
    · exact hendings ending hold
    · simp only [Turn.openAs, Bool.and_eq_true, decide_eq_true_eq] at hopen
      rw [(hmore ending hnew).1, ← hopen.1.1, hturns]
      exact List.mem_map_of_mem (by simp)

theorem settle_ok (h : s.settle tree session items ends = .ok s') :
    ∃ first s₁ s₂, s.take session items.length = .ok (first, s₁) ∧
      Store.importItems tree session items first s₁ = .ok s₂ ∧
      (s' = s₂ ∨ ∃ turnId, s₂.queueClose tree session turnId = .ok s') := by
  obtain ⟨⟨first, s₁⟩, htake, h⟩ := bind_ok h
  obtain ⟨s₂, himport, h⟩ := bind_ok h
  refine ⟨first, s₁, s₂, htake, himport, ?_⟩
  cases ends with
  | false =>
    cases h
    exact .inl rfl
  | true =>
    cases hturn : s₂.openTurn session with
    | none =>
      simp only [hturn] at h
      cases h
      exact .inl rfl
    | some turn =>
      simp only [hturn] at h
      exact .inr ⟨turn.turnId, h⟩

theorem Kept.settle (h : Kept tree s) (hsettle : s.settle tree session items ends = .ok s') :
    Kept tree s' := by
  obtain ⟨first, s₁, s₂, htake, himport, rfl | ⟨turnId, hclose⟩⟩ := settle_ok hsettle
  · exact (h.take htake).importItems himport
  · exact ((h.take htake).importItems himport).queueClose hclose

/-- A Message of a child's ending is sent, or none is. -/
structure Sent (s : Store ρ) (child parent : ρ) (s' : Store ρ) : Prop where
  sends : s' = s ∨ ∃ position senderPosition s₁ s₂,
    s.take parent 1 = .ok (position, s₁) ∧ s₁.take child 1 = .ok (senderPosition, s₂) ∧
      s' = { s₂ with messages := s₂.messages ++ [⟨parent, position, child, senderPosition⟩] }

theorem sendEnding_ok (h : s.sendEnding ending child parent = .ok s') : Sent s child parent s' := by
  rw [sendEnding] at h
  split_ifs at h
  · cases h
    exact ⟨.inl rfl⟩
  · obtain ⟨⟨position, s₁⟩, htake, h⟩ := bind_ok h
    obtain ⟨⟨senderPosition, s₂⟩, htake', h⟩ := bind_ok h
    cases h
    exact ⟨.inr ⟨position, senderPosition, s₁, s₂, htake, htake', rfl⟩⟩

/-- What a delivery that found an owed ending did. -/
structure EndingDelivered (tree : Forest ρ) (s : Store ρ) (turnId : Nat) (before : List Ending)
    (ending : Ending) (after : List Ending) (turn : Turn ρ) (parent : ρ) (s₁ s' : Store ρ) :
    Prop where
  rows : s.endings = before ++ ending :: after
  id : ending.turnId = turnId
  turn_mem : turn ∈ s.turns
  turn_id : turn.turnId = turnId
  queued : ({ s with endings := before ++ { ending with delivered := true } :: after }).queue tree
    turn.session turn.session .ending turnId = .ok s₁
  sent : Sent s₁ turn.session parent s'

theorem deliverChildEnding_ok (h : s.deliverChildEnding tree turnId fault = .ok (done, s')) :
    done = false ∧ s' = s ∨ done = true ∧ ∃ before ending after turn parent s₁,
      EndingDelivered tree s turnId before ending after turn parent s₁ s' := by
  rw [deliverChildEnding] at h
  cases hending : s.endings.find? (Ending.owedAs turnId) with
  | none =>
    simp only [hending] at h
    cases h
    exact .inl ⟨rfl, rfl⟩
  | some found =>
    cases hturn : s.turns.find? fun turn => turn.turnId = turnId with
    | none =>
      simp only [hending, hturn] at h
      cases h
      exact .inl ⟨rfl, rfl⟩
    | some turn =>
      simp only [hending, hturn] at h
      cases hparent : tree.parent turn.session with
      | none =>
        simp only [hparent] at h
        cases h
      | some parent =>
        cases hupdate : updateOne (Ending.owedAs turnId)
            (fun each => { each with delivered := true }) s.endings with
        | none =>
          simp only [hparent, hupdate] at h
          cases h
        | some endings =>
          simp only [hparent, hupdate] at h
          obtain ⟨before, ending, after, hendings, howed, -, rfl⟩ := updateOne_eq_some hupdate
          obtain ⟨s₁, hqueue, h⟩ := bind_ok h
          rw [Ending.owedAs, Bool.and_eq_true, decide_eq_true_eq] at howed
          have hturnId := List.find?_some hturn
          rw [decide_eq_true_eq] at hturnId
          obtain ⟨s₂, hsend, h⟩ := bind_ok h
          split_ifs at h
          cases h
          exact .inr ⟨rfl, before, ending, after, turn, parent, s₁, hendings, howed.1,
            List.mem_of_find?_eq_some hturn, hturnId, hqueue, sendEnding_ok hsend⟩

theorem Kept.sent (h : Kept tree s) (hsent : Sent s child parent s') : Kept tree s' := by
  obtain ⟨rfl | ⟨position, senderPosition, s₁, s₂, htake, htake', rfl⟩⟩ := hsent
  · exact h
  · obtain ⟨hfed, hactions, hactionsBelow, hturns, hturnsBelow, hendings⟩ := (h.take htake).take htake'
    refine ⟨hfed.spared ⟨rfl, rfl, fun child kind sourceId => ?_⟩,
      hactions, hactionsBelow, hturns, hturnsBelow, hendings⟩
    cases kind <;> exact Iff.rfl

omit [DecidableEq ρ] in
theorem delivered_saves {before after : List Ending} (hnumbered : Numbered s)
    (hrows : s.endings = before ++ ending :: after) (hid : ending.turnId = turnId)
    (hturn : turn ∈ s.turns) (hturnId : turn.turnId = turnId) :
    Saves s { s with endings := before ++ { ending with delivered := true } :: after }
      turn.session .ending turnId := by
  refine ⟨rfl, rfl, fun child kind sourceId => ?_⟩
  cases kind with
  | approval =>
    constructor
    · exact .inl
    · rintro (hold | ⟨-, hkind, -⟩)
      · exact hold
      · cases hkind
  | ending =>
    constructor
    · rintro ⟨⟨each, heach, hsource, hdelivered⟩, other, hother, hotherId, rfl⟩
      rcases List.mem_append.mp heach with hbefore | hrest
      · exact .inl ⟨⟨each, by rw [hrows]; simp [hbefore], hsource, hdelivered⟩,
          other, hother, hotherId, rfl⟩
      · rcases List.mem_cons.mp hrest with rfl | hafter
        · obtain rfl : turnId = sourceId := hid.symm.trans hsource
          rw [List.inj_on_of_nodup_map hnumbered.turns hother hturn (hotherId.trans hturnId.symm)]
          exact .inr ⟨rfl, rfl, rfl⟩
        · exact .inl ⟨⟨each, by rw [hrows]; simp [hafter], hsource, hdelivered⟩,
            other, hother, hotherId, rfl⟩
    · rintro (⟨⟨each, heach, hsource, hdelivered⟩, hrest⟩ | ⟨rfl, -, rfl⟩)
      · refine ⟨?_, hrest⟩
        rw [hrows] at heach
        rcases List.mem_append.mp heach with hbefore | hrest
        · exact ⟨each, List.mem_append_left _ hbefore, hsource, hdelivered⟩
        · rcases List.mem_cons.mp hrest with rfl | hafter
          · exact ⟨_, List.mem_append_right _ List.mem_cons_self, hsource, rfl⟩
          · exact ⟨each, List.mem_append_right _ (List.mem_cons_of_mem _ hafter), hsource,
              hdelivered⟩
      · exact ⟨⟨_, List.mem_append_right _ List.mem_cons_self, hid, rfl⟩, turn, hturn, hturnId, rfl⟩

theorem Kept.deliverChildEnding (h : Kept tree s)
    (hdeliver : s.deliverChildEnding tree turnId fault = .ok (done, s')) : Kept tree s' := by
  rcases deliverChildEnding_ok hdeliver with
    ⟨-, rfl⟩ | ⟨-, before, ending, after, turn, parent, s₁, hrows, hid, hturn, hturnId, hqueue, hsent⟩
  · exact h
  · refine Kept.sent ⟨h.fed.saved
      (delivered_saves h.numbered hrows hid hturn hturnId) hqueue, Numbered.queue ?_ hqueue⟩ hsent
    obtain ⟨hactions, hactionsBelow, hturns, hturnsBelow, hendings⟩ := h.numbered
    refine ⟨hactions, hactionsBelow, hturns, hturnsBelow, fun each heach => ?_⟩
    rw [hrows] at hendings
    rcases List.mem_append.mp heach with hbefore | hrest
    · exact hendings each (by simp [hbefore])
    · rcases List.mem_cons.mp hrest with rfl | hafter
      · exact hendings ending (by simp)
      · exact hendings each (by simp [hafter])

/-! ### What happens meanwhile -/

omit [DecidableEq ρ] in
theorem Kept.admitTurn (h : Kept tree s) (hadmission : s.admitTurn session = .ok s') :
    Kept tree s' := by
  obtain ⟨turnId, hid, hadmission⟩ := bind_ok hadmission
  obtain rfl := identity_ok hid
  cases hadmission
  obtain ⟨hactions, hactionsBelow, hturns, hturnsBelow, hendings⟩ := h.numbered
  refine ⟨h.fed.spared ⟨rfl, rfl, fun child kind sourceId => ?_⟩,
    hactions, hactionsBelow, ?_, ?_, fun ending hending => ?_⟩
  · cases kind with
    | approval => exact Iff.rfl
    | ending =>
      constructor
      · rintro ⟨⟨ending, hending, hid', hdelivered⟩, turn, hturn, hturnId, hsession⟩
        refine ⟨⟨ending, hending, hid', hdelivered⟩, ?_⟩
        rcases List.mem_append.mp hturn with hold | hnew
        · exact ⟨turn, hold, hturnId, hsession⟩
        · obtain ⟨old, hold, hsame⟩ := List.mem_map.mp (hendings ending hending)
          have hbelow := hturnsBelow old hold
          rw [List.mem_singleton.mp hnew] at hturnId
          exact absurd hbelow (by rw [hsame, hid', ← hturnId]; exact Nat.lt_irrefl _)
      · rintro ⟨hending, turn, hturn, hrest⟩
        exact ⟨hending, turn, List.mem_append_left _ hturn, hrest⟩
  · rw [List.map_append, List.map_singleton, List.nodup_append]
    refine ⟨hturns, List.nodup_singleton _, ?_⟩
    intro id hid id' hid' hsame
    obtain ⟨old, hold, rfl⟩ := List.mem_map.mp hid
    exact Nat.ne_of_lt (hturnsBelow old hold) (hsame.trans (List.mem_singleton.mp hid'))
  · intro turn hturn
    rcases List.mem_append.mp hturn with hold | hnew
    · exact (hturnsBelow turn hold).trans (Nat.lt_succ_self _)
    · rw [List.mem_singleton.mp hnew]
      exact Nat.lt_succ_self _
  · rw [List.map_append]
    exact List.mem_append_left _ (hendings ending hending)

theorem stop_ok (h : s.stop tree session cancelled inFlight archive = .ok s') :
    ∃ turn position s₁, s.take session 1 = .ok (position, s₁) ∧
      (s' = s₁.recordStop tree session turn position archive ∨ ∃ first s₂,
        (s₁.recordStop tree session turn position archive).take session cancelled =
          .ok (first, s₂) ∧
        (s' = s₂ ∨ ∃ turnId, s₂.queueClose tree session turnId = .ok s')) := by
  obtain ⟨⟨position, s₁⟩, htake, h⟩ := bind_ok h
  refine ⟨s.openTurn session, position, s₁, htake, ?_⟩
  cases hturn : s.openTurn session with
  | none =>
    simp only [hturn] at h
    cases h
    exact .inl rfl
  | some turn =>
    simp only [hturn] at h
    obtain ⟨⟨first, s₂⟩, htake', h⟩ := bind_ok h
    refine .inr ⟨first, s₂, htake', ?_⟩
    split_ifs at h
    · cases h
      exact .inl rfl
    · exact .inr ⟨turn.turnId, h⟩

/-- A stop leaves who owes which ending, and what was delivered. -/
theorem recordStop_endings (tree : Forest ρ) (s : Store ρ) (session : ρ) (turn : Option (Turn ρ))
    (position : Nat) (archive : Bool) :
    (s.recordStop tree session turn position archive).endings.map
        (fun ending => (ending.turnId, ending.delivered)) =
      s.endings.map fun ending => (ending.turnId, ending.delivered) := by
  cases archive with
  | false => rfl
  | true =>
    show (List.map _ s.endings).map _ = _
    rw [List.map_map]
    refine List.map_congr_left fun ending _ => ?_
    rw [Function.comp_apply]
    split_ifs <;> rfl

theorem Kept.recordStop (h : Kept tree s) (turn : Option (Turn ρ)) (position : Nat) (archive : Bool) :
    Kept tree (s.recordStop tree session turn position archive) := by
  have hendings := recordStop_endings tree s session turn position archive
  have hsame : (s.recordStop tree session turn position archive).forwards = s.forwards ∧
      (s.recordStop tree session turn position archive).nextForward = s.nextForward ∧
      (s.recordStop tree session turn position archive).actions = s.actions ∧
      (s.recordStop tree session turn position archive).nextAction = s.nextAction ∧
      (s.recordStop tree session turn position archive).turns = s.turns ∧
      (s.recordStop tree session turn position archive).nextTurn = s.nextTurn := by
    cases archive <;> exact ⟨rfl, rfl, rfl, rfl, rfl, rfl⟩
  generalize s.recordStop tree session turn position archive = stopped at hendings hsame
  obtain ⟨hforwards, hnext, hactions, hnextAction, hturns, hnextTurn⟩ := hsame
  -- An ending is there after the stop when it was there before it.
  have hmem : ∀ turnId delivered,
      (∃ ending ∈ stopped.endings, ending.turnId = turnId ∧ ending.delivered = delivered) ↔
      ∃ ending ∈ s.endings, ending.turnId = turnId ∧ ending.delivered = delivered := by
    intro turnId delivered
    have hiff : (turnId, delivered) ∈ stopped.endings.map
        (fun ending => (ending.turnId, ending.delivered)) ↔ (turnId, delivered) ∈
          s.endings.map (fun ending => (ending.turnId, ending.delivered)) := by rw [hendings]
    simpa only [List.mem_map, Prod.mk.injEq] using hiff
  refine ⟨h.fed.spared ⟨hforwards, hnext, fun child kind sourceId => ?_⟩, ?_⟩
  · cases kind with
    | approval =>
      rw [Fact, Fact, hactions]
    | ending =>
      rw [Fact, Fact, hturns, hmem]
  · obtain ⟨hids, hbelow, hturnIds, hturnsBelow, hnamed⟩ := h.numbered
    refine ⟨hactions ▸ hids, ?_, hturns ▸ hturnIds, ?_, fun ending hending => ?_⟩
    · rw [hactions, hnextAction]
      exact hbelow
    · rw [hturns, hnextTurn]
      exact hturnsBelow
    · obtain ⟨old, hold, hid, -⟩ := (hmem _ _).mp ⟨ending, hending, rfl, rfl⟩
      rw [hturns, ← hid]
      exact hnamed old hold

theorem Kept.stop (h : Kept tree s)
    (hstop : s.stop tree session cancelled inFlight archive = .ok s') : Kept tree s' := by
  obtain ⟨turn, position, s₁, htake, rfl | ⟨first, s₂, htake', rfl | ⟨turnId, hclose⟩⟩⟩ :=
    stop_ok hstop
  · exact (h.take htake).recordStop turn position archive
  · exact ((h.take htake).recordStop turn position archive).take htake'
  · exact (((h.take htake).recordStop turn position archive).take htake').queueClose hclose

theorem Kept.restore (h : Kept tree s) (hrestore : s.restore session = .ok s') : Kept tree s' := by
  obtain ⟨⟨first, s₁⟩, htake, hrestore⟩ := bind_ok hrestore
  cases hrestore
  obtain ⟨hfed, hactions, hactionsBelow, hturns, hturnsBelow, hendings⟩ := h.take htake
  refine ⟨hfed.spared ⟨rfl, rfl, fun child kind sourceId => ?_⟩,
    hactions, hactionsBelow, hturns, hturnsBelow, hendings⟩
  cases kind <;> exact Iff.rfl

theorem lt_foldr_max_succ {ids : List Nat} {id : Nat} (h : id ∈ ids) :
    id < ids.foldr max 0 + 1 := by
  induction ids with
  | nil => cases h
  | cons first rest ih =>
    rw [List.foldr_cons]
    rcases List.mem_cons.mp h with rfl | hrest
    · omega
    · have := ih hrest
      omega

omit [DecidableEq ρ] in
/-- **After a restart** no id that a row has is given again. -/
theorem Kept.reopen (h : Kept tree s) : Kept tree s.reopen := by
  obtain ⟨⟨⟨hids, -, hkeys, hfacts, habove⟩, hstarted, honward⟩, hactions, -, hturns, -, hendings⟩ := h
  refine ⟨⟨⟨hids, ?_, hkeys, ?_, habove⟩, ?_, honward⟩, hactions, ?_, hturns, ?_, hendings⟩
  · exact fun row hrow => lt_foldr_max_succ (List.mem_map_of_mem hrow)
  · intro row hrow
    obtain ⟨kind, hkind, hfact⟩ := hfacts row hrow
    refine ⟨kind, hkind, ?_⟩
    cases kind <;> exact hfact
  · intro child kind sourceId hfact
    refine hstarted child kind sourceId ?_
    cases kind <;> exact hfact
  · exact fun action haction => lt_foldr_max_succ (List.mem_map_of_mem haction)
  · exact fun turn hturn => lt_foldr_max_succ (List.mem_map_of_mem hturn)

/-- **Every transaction** keeps what holds of the rows. -/
theorem Kept.perform {event : Event ρ} (h : Kept tree s)
    (hperform : s.perform tree event = .ok s') : Kept tree s' := by
  cases event with
  | settle session items ends => exact h.settle hperform
  | admitTurn session => exact h.admitTurn hperform
  | endTurn session turnId => exact h.queueClose hperform
  | deliverEnding turnId fault =>
    cases hdeliver : s.deliverChildEnding tree turnId fault with
    | error failure => simp only [Store.perform, hdeliver] at hperform; cases hperform
    | ok result =>
      simp only [Store.perform, hdeliver] at hperform
      cases hperform
      exact h.deliverChildEnding hdeliver
  | deliver forwardId now fault =>
    cases hdeliver : s.deliver tree forwardId now fault with
    | error failure => simp only [Store.perform, hdeliver] at hperform; cases hperform
    | ok result =>
      simp only [Store.perform, hdeliver] at hperform
      cases hperform
      exact h.deliver hdeliver
  | stop session cancelled inFlight archive => exact h.stop hperform
  | restore session => exact h.restore hperform
  | other session count =>
    cases htake : s.take session count with
    | error failure => simp only [Store.perform, htake] at hperform; cases hperform
    | ok result =>
      simp only [Store.perform, htake] at hperform
      cases hperform
      exact h.take htake
  | reopen =>
    cases hperform
    exact h.reopen

end Store

end Rui.Forwards
