import Rui.Forwards.FeedLaws

/-!
# The positions of the feeds

A delivered row stands at one position of its target's own sequence: no two facts that have a
position share one.
-/

namespace Rui.Forwards

open Library

variable {ρ : Type} [DecidableEq ρ] {tree : Forest ρ}

/-! ## Places -/

/-- The Session and the position a row stands at, if it has one. -/
def Forward.place (row : Forward ρ) : Option (ρ × Nat) := row.position.map (row.target, ·)

def Action.place (action : Action ρ) : Option (ρ × Nat) :=
  action.approvalPosition.map (action.session, ·)

def Turn.place (turn : Turn ρ) : Option (ρ × Nat) := turn.outcomePosition.map (turn.session, ·)

def Stop.place (stop : Stop ρ) : ρ × Nat := (stop.session, stop.position)

def Message.places (message : Message ρ) : List (ρ × Nat) :=
  [(message.session, message.position), (message.sender, message.senderPosition)]

namespace Store

variable {s s' : Store ρ}

/-- The places of all rows. -/
def places (s : Store ρ) : List (ρ × Nat) :=
  s.forwards.filterMap Forward.place ++ (s.actions.filterMap Action.place ++
    (s.turns.filterMap Turn.place ++
      (s.stops.map Stop.place ++ s.messages.flatMap Message.places)))

theorem places_perm {forwards actions turns stops messages : List (ρ × Nat)}
    (hforwards : (s'.forwards.filterMap Forward.place).Perm
      (forwards ++ s.forwards.filterMap Forward.place))
    (hactions : (s'.actions.filterMap Action.place).Perm
      (actions ++ s.actions.filterMap Action.place))
    (hturns : (s'.turns.filterMap Turn.place).Perm (turns ++ s.turns.filterMap Turn.place))
    (hstops : (s'.stops.map Stop.place).Perm (stops ++ s.stops.map Stop.place))
    (hmessages : (s'.messages.flatMap Message.places).Perm
      (messages ++ s.messages.flatMap Message.places)) :
    s'.places.Perm (forwards ++ (actions ++ (turns ++ (stops ++ messages))) ++ s.places) := by
  rw [List.perm_iff_count] at hforwards hactions hturns hstops hmessages ⊢
  intro place
  have h₁ := hforwards place
  have h₂ := hactions place
  have h₃ := hturns place
  have h₄ := hstops place
  have h₅ := hmessages place
  simp only [places, List.count_append] at h₁ h₂ h₃ h₄ h₅ ⊢
  omega

/-- Places are taken from the next positions on, each once. -/
structure Grows (s s' : Store ρ) : Prop where
  places : ∃ new : List (ρ × Nat), s'.places.Perm (new ++ s.places) ∧ new.Nodup ∧
    ∀ place ∈ new, s.nextPosition place.1 ≤ place.2 ∧ place.2 < s'.nextPosition place.1
  next : ∀ session, s.nextPosition session ≤ s'.nextPosition session

omit [DecidableEq ρ] in
theorem Grows.refl (s : Store ρ) : Grows s s :=
  ⟨⟨[], .refl _, List.nodup_nil, fun place hplace => (by cases hplace)⟩, fun _ => le_rfl⟩

omit [DecidableEq ρ] in
theorem Grows.still (hplaces : s'.places = s.places) (hnext : s'.nextPosition = s.nextPosition) :
    Grows s s' := by
  refine ⟨⟨[], ?_, List.nodup_nil, fun place hplace => (by cases hplace)⟩, fun session => ?_⟩
  · rw [hplaces]
    exact .refl _
  · rw [hnext]

omit [DecidableEq ρ] in
theorem Grows.trans {s'' : Store ρ} (h : Grows s s') (h' : Grows s' s'') : Grows s s'' := by
  obtain ⟨⟨new, hperm, hnodup, hnew⟩, hnext⟩ := h
  obtain ⟨⟨new', hperm', hnodup', hnew'⟩, hnext'⟩ := h'
  refine ⟨⟨new' ++ new, ?_, ?_, ?_⟩, fun session => (hnext session).trans (hnext' session)⟩
  · rw [List.append_assoc]
    exact hperm'.trans (hperm.append_left new')
  · rw [List.nodup_append]
    refine ⟨hnodup', hnodup, fun place hplace place' hplace' hsame => ?_⟩
    have hafter := (hnew' place hplace).1
    have hbefore := (hnew place' hplace').2
    rw [hsame] at hafter
    omega
  · intro place hplace
    have hle := hnext place.1
    have hle' := hnext' place.1
    rcases List.mem_append.mp hplace with hlater | hfirst
    · have := hnew' place hlater
      omega
    · have := hnew place hfirst
      omega

/-- Every place is taken once, and below the Session's next position. -/
structure Placed (s : Store ρ) : Prop where
  nodup : s.places.Nodup
  below : ∀ place ∈ s.places, place.2 < s.nextPosition place.1

omit [DecidableEq ρ] in
theorem Placed.grows (h : Placed s) (hgrows : Grows s s') : Placed s' := by
  obtain ⟨⟨new, hperm, hnodup, hnew⟩, hnext⟩ := hgrows
  refine ⟨hperm.nodup_iff.mpr (List.nodup_append.mpr ⟨hnodup, h.nodup, ?_⟩), ?_⟩
  · intro place hplace place' hplace' hsame
    have hafter := (hnew place hplace).1
    have hbelow := h.below place' hplace'
    rw [← hsame] at hbelow
    omega
  · intro place hplace
    rcases List.mem_append.mp (hperm.mem_iff.mp hplace) with hfirst | hold
    · exact (hnew place hfirst).2
    · exact (h.below place hold).trans_le (hnext place.1)

/-! ## Taking positions -/

theorem le_update (next : ρ → Nat) (session other : ρ) (count : Nat) :
    next other ≤ Function.update next session (next session + count) other := by
  rw [Function.update_apply]
  split_ifs with hsame
  · rw [hsame]
    exact Nat.le_add_right _ _
  · exact le_rfl

variable {session source child : ρ} {kind : Kind} {sourceId : Nat}

theorem Grows.take {count first : Nat} (h : s.take session count = .ok (first, s')) :
    Grows s s' := by
  obtain ⟨rfl, rfl⟩ := take_ok h
  exact ⟨⟨[], .refl _, List.nodup_nil, fun place hplace => (by cases hplace)⟩,
    fun other => le_update s.nextPosition session other count⟩

theorem Grows.one (hperm : s'.places.Perm ((session, s.nextPosition session) :: s.places))
    (hnext : s'.nextPosition = Function.update s.nextPosition session (s.nextPosition session + 1)) :
    Grows s s' := by
  refine ⟨⟨[(session, s.nextPosition session)], hperm, List.nodup_singleton _, ?_⟩, fun other => ?_⟩
  · intro place hplace
    rw [List.mem_singleton.mp hplace, hnext, Function.update_self]
    exact ⟨le_rfl, Nat.lt_succ_self _⟩
  · rw [hnext]
    exact le_update s.nextPosition session other 1

omit [DecidableEq ρ] in
theorem Queued.places {more : List (Forward ρ)} (h : Queued tree s source child kind sourceId more) :
    more.filterMap Forward.place = [] := by
  refine List.filterMap_eq_nil_iff.mpr fun row hrow => ?_
  rw [Forward.place, h.pending row hrow]
  rfl

theorem queue_places (h : s.queue tree source child kind sourceId = .ok s') :
    s'.places = s.places ∧ s'.nextPosition = s.nextPosition := by
  obtain ⟨more, rfl, hqueued⟩ := queue_ok h
  refine ⟨?_, rfl⟩
  rw [Store.places, Store.places, List.filterMap_append, hqueued.places, List.append_nil]

theorem Grows.queue (h : s.queue tree source child kind sourceId = .ok s') : Grows s s' :=
  .still (queue_places h).1 (queue_places h).2

variable {fault done : Bool} {items : List Item} {turnId : Nat}

/-- **A hop takes one position** of its target. -/
theorem Grows.deliver {forwardId now : Nat}
    (h : s.deliver tree forwardId now fault = .ok (done, s')) : Grows s s' := by
  rcases deliver_ok h with ⟨-, rfl⟩ | ⟨-, before, row, after, hrows, -, hpending, kind, -, hqueue⟩
  · exact .refl _
  · refine Grows.trans (.one ?_ rfl) (.queue hqueue)
    refine @places_perm _ _ s _ [(row.target, s.nextPosition row.target)] [] [] [] []
      ?_ (.refl _) (.refl _) (.refl _) (.refl _)
    rw [hrows]
    exact filterMap_changed (by rw [Forward.place, hpending]; rfl) rfl

theorem Grows.importItems {position : Nat}
    (h : Store.importItems tree session items position s = .ok s') :
    (∃ new : List Nat, s'.places.Perm (new.map (session, ·) ++ s.places) ∧ new.Nodup ∧
      ∀ place ∈ new, position ≤ place ∧ place < position + items.length) ∧
    ∀ other, s.nextPosition other ≤ s'.nextPosition other := by
  induction items generalizing position s with
  | nil =>
    cases h
    exact ⟨⟨[], .refl _, List.nodup_nil, fun place hplace => (by cases hplace)⟩, fun _ => le_rfl⟩
  | cons item rest ih =>
    obtain ⟨s₁, hrest, hitem⟩ := importItems_cons h
    obtain ⟨⟨new, hperm, hnodup, hnew⟩, hnext⟩ := ih hrest
    -- An item that takes no place of the block.
    have hpass : s₁.places = s.places →
        (∀ other, s.nextPosition other ≤ s₁.nextPosition other) → _ := fun hplaces hnext' =>
      And.intro (⟨new, hplaces ▸ hperm, hnodup, fun place hplace => by
        have := hnew place hplace
        rw [List.length_cons]
        omega⟩ : ∃ new : List Nat, s'.places.Perm (new.map (session, ·) ++ s.places) ∧ new.Nodup ∧
          ∀ place ∈ new, position ≤ place ∧ place < position + (item :: rest).length)
        fun other => (hnext' other).trans (hnext other)
    rcases hitem with ⟨-, rfl⟩ | ⟨-, first, htake⟩ | ⟨-, rfl⟩ | ⟨-, hqueue⟩
    · exact hpass rfl fun _ => le_rfl
    · obtain ⟨rfl, rfl⟩ := take_ok htake
      exact hpass rfl (Grows.take htake).next
    · refine hpass ?_ fun _ => le_rfl
      simp only [Store.places, withAction, List.filterMap_append]
      rw [List.filterMap_cons_none rfl, List.filterMap_nil, List.append_nil]
    · obtain ⟨hplaces, hnext'⟩ := queue_places hqueue
      have hadded : (s.withAction session (some position)).places.Perm
          ((session, position) :: s.places) := by
        refine @places_perm _ _ s _ [] [(session, position)] [] [] []
          (.refl _) ?_ (.refl _) (.refl _) (.refl _)
        rw [withAction, List.filterMap_append]
        exact List.perm_append_comm
      refine ⟨⟨position :: new, ?_, ?_, ?_⟩, fun other => ?_⟩
      · rw [hplaces] at hperm
        rw [List.map_cons, List.cons_append]
        exact (hperm.trans (hadded.append_left _)).trans List.perm_middle
      · rw [List.nodup_cons]
        exact ⟨fun hmem => by have := (hnew position hmem).1; omega, hnodup⟩
      · intro place hplace
        rw [List.length_cons]
        rcases List.mem_cons.mp hplace with rfl | hlater
        · omega
        · have := hnew place hlater
          omega
      · exact (congrFun hnext' other).ge.trans (hnext other)

theorem Grows.queueClose (h : s.queueClose tree session turnId = .ok s') : Grows s s' := by
  obtain ⟨before, turn, after, more, hturns, hopen, rfl, -⟩ := queueClose_ok h
  simp only [Turn.openAs, Bool.and_eq_true, decide_eq_true_eq, Option.isNone_iff_eq_none] at hopen
  refine .one ?_ rfl
  refine @places_perm _ _ s _ [] [] [(session, s.nextPosition session)] [] []
    (.refl _) (.refl _) ?_ (.refl _) (.refl _)
  rw [hturns]
  refine filterMap_changed ?_ ?_
  · rw [Turn.place, hopen.2]
    rfl
  · rw [Turn.place, hopen.1.2]
    rfl

/-- **An output's requests** stand in the block of positions that its items took. -/
theorem Grows.settle {ends : Bool} (h : s.settle tree session items ends = .ok s') :
    Grows s s' := by
  obtain ⟨first, s₁, s₂, htake, himport, hends⟩ := settle_ok h
  obtain ⟨⟨new, hperm, hnodup, hnew⟩, hnext⟩ := importItems himport
  have hgrows : Grows s s₂ := by
    obtain ⟨rfl, rfl⟩ := take_ok htake
    refine ⟨⟨new.map (session, ·), hperm, ?_, ?_⟩, fun other => ?_⟩
    · exact hnodup.map fun _ _ hsame => (Prod.mk.inj hsame).2
    · intro place hplace
      obtain ⟨position, hposition, rfl⟩ := List.mem_map.mp hplace
      have hbound := hnew position hposition
      have hafter : s.nextPosition session + items.length ≤ s₂.nextPosition session := by
        refine le_trans (Nat.le_of_eq ?_) (hnext session)
        exact (Function.update_self session _ s.nextPosition).symm
      exact ⟨hbound.1, hbound.2.trans_le hafter⟩
    · exact (le_update s.nextPosition session other items.length).trans (hnext other)
  rcases hends with rfl | ⟨turnId, hclose⟩
  · exact hgrows
  · exact hgrows.trans (.queueClose hclose)

theorem Grows.sent {parent : ρ} (h : Sent s child parent s') : Grows s s' := by
  obtain ⟨rfl | ⟨position, senderPosition, s₁, s₂, htake, htake', rfl⟩⟩ := h
  · exact .refl _
  · have hfirst := Grows.take htake
    have hsecond := Grows.take htake'
    obtain ⟨hposition, hs₁⟩ := take_ok htake
    obtain ⟨hsender, hs₂⟩ := take_ok htake'
    have hparent : s₁.nextPosition parent = position + 1 := by
      rw [hs₁]
      exact Function.update_self ..
    have hchild : s₂.nextPosition child = senderPosition + 1 := by
      rw [hs₂]
      exact Function.update_self ..
    have hplaces : s₂.places = s.places := by rw [hs₂, hs₁]; rfl
    refine ⟨⟨[(parent, position), (child, senderPosition)], ?_, ?_, ?_⟩,
      fun other => (hfirst.next other).trans (hsecond.next other)⟩
    · rw [← hplaces]
      refine @places_perm _ _ s₂ _ [] [] [] [] [(parent, position), (child, senderPosition)]
        (.refl _) (.refl _) (.refl _) (.refl _) ?_
      rw [List.flatMap_append]
      exact List.perm_append_comm
    · rw [List.nodup_cons]
      refine ⟨fun hmem => ?_, List.nodup_singleton _⟩
      obtain ⟨rfl, rfl⟩ := Prod.mk.inj (List.mem_singleton.mp hmem)
      omega
    · intro place hplace
      rcases List.mem_cons.mp hplace with rfl | hlast
      · have hle := hsecond.next parent
        exact ⟨hposition.ge, by rw [hparent] at hle; exact hle⟩
      · rw [List.mem_singleton.mp hlast]
        have hle := hfirst.next child
        rw [← hsender] at hle
        exact ⟨hle, by rw [hchild]; exact Nat.lt_succ_self _⟩

theorem Grows.deliverChildEnding (h : s.deliverChildEnding tree turnId fault = .ok (done, s')) :
    Grows s s' := by
  rcases deliverChildEnding_ok h with
    ⟨-, rfl⟩ | ⟨-, before, ending, after, turn, parent, s₁, -, -, -, -, hqueue, hsent⟩
  · exact .refl _
  · obtain ⟨hplaces, hnext⟩ := queue_places hqueue
    have hqueued : Grows s s₁ := .still hplaces hnext
    exact hqueued.trans (.sent hsent)

theorem Grows.stop {cancelled : Nat} {inFlight archive : Bool}
    (h : s.stop tree session cancelled inFlight archive = .ok s') : Grows s s' := by
  obtain ⟨turn, position, s₁, htake, hrest⟩ := stop_ok h
  have hrecorded : Grows s (s₁.recordStop tree session turn position archive) := by
    obtain ⟨rfl, rfl⟩ := take_ok htake
    refine .one ?_ (by cases archive <;> rfl)
    refine @places_perm _ _ s _ [] [] [] [(session, s.nextPosition session)] []
      ?_ ?_ ?_ ?_ ?_
    all_goals cases archive
    all_goals first
      | exact .refl _
      | exact (List.Perm.of_eq (List.map_append ..)).trans List.perm_append_comm
  rcases hrest with rfl | ⟨first, s₂, htake', rfl | ⟨turnId, hclose⟩⟩
  · exact hrecorded
  · exact hrecorded.trans (.take htake')
  · exact (hrecorded.trans (.take htake')).trans (.queueClose hclose)

/-- **Every transaction** takes its places from the next positions on. -/
theorem Grows.perform {event : Event ρ} (h : s.perform tree event = .ok s') : Grows s s' := by
  cases event with
  | settle session items ends => exact .settle h
  | admitTurn session =>
    obtain ⟨turnId, -, h⟩ := bind_ok h
    cases h
    refine .still ?_ rfl
    simp only [Store.places, List.filterMap_append]
    rw [List.filterMap_cons_none rfl, List.filterMap_nil, List.append_nil]
  | endTurn session turnId => exact .queueClose h
  | deliverEnding turnId fault =>
    cases hdeliver : s.deliverChildEnding tree turnId fault with
    | error failure => simp only [Store.perform, hdeliver] at h; cases h
    | ok result =>
      simp only [Store.perform, hdeliver] at h
      cases h
      exact .deliverChildEnding hdeliver
  | deliver forwardId now fault =>
    cases hdeliver : s.deliver tree forwardId now fault with
    | error failure => simp only [Store.perform, hdeliver] at h; cases h
    | ok result =>
      simp only [Store.perform, hdeliver] at h
      cases h
      exact .deliver hdeliver
  | stop session cancelled inFlight archive => exact .stop h
  | restore session =>
    obtain ⟨⟨first, s₁⟩, htake, h⟩ := bind_ok h
    cases h
    exact .trans (.take htake) (.still rfl rfl)
  | other session count =>
    cases htake : s.take session count with
    | error failure => simp only [Store.perform, htake] at h; cases h
    | ok result =>
      simp only [Store.perform, htake] at h
      cases h
      exact .take htake
  | reopen =>
    cases h
    exact .still rfl rfl

end Store

end Rui.Forwards
