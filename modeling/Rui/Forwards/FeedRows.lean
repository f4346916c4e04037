import Rui.Forwards.Feed

/-!
# The rows of the feeds

What each transaction leaves of the rows: a feed's rows go to ancestors of the Session whose fact
they carry, no ancestor has two for one fact, and each delivered row has its next hop.
-/

namespace Rui.Forwards

open Library

variable {ρ : Type} [DecidableEq ρ] {tree : Forest ρ}

/-! ## What an operation does -/

theorem bind_ok {α β : Type} {x : Except Failure α} {f : α → Except Failure β} {b : β}
    (h : (x >>= f) = .ok b) : ∃ a, x = .ok a ∧ f a = .ok b := by
  cases x with
  | error failure => cases h
  | ok a => exact ⟨a, rfl, h⟩

theorem Kind.decode_code (kind : Kind) : Kind.decode kind.code = some kind := by
  cases kind <;> rfl

theorem Kind.code_injective {kind kind' : Kind} (h : kind.code = kind'.code) : kind = kind' := by
  have hdecode := kind.decode_code
  rw [h, kind'.decode_code] at hdecode
  exact (Option.some.inj hdecode).symm

theorem Kind.code_decode {code : Nat} {kind : Kind} (h : Kind.decode code = some kind) :
    code = kind.code := by
  rcases code with _ | _ | _ | code
  all_goals cases h
  all_goals rfl

namespace Store

variable {s s' : Store ρ}

theorem take_ok {session : ρ} {count first : Nat} (h : s.take session count = .ok (first, s')) :
    first = s.nextPosition session ∧
      s' = { s with nextPosition := Function.update s.nextPosition session (first + count) } := by
  rw [take] at h
  split_ifs at h
  cases h
  exact ⟨rfl, rfl⟩

theorem identity_ok {value id : Nat} (h : identity value = .ok id) : id = value := by
  rw [identity] at h
  split_ifs at h
  cases h
  rfl

/-- The rows that a queued fact adds: the one for the parent, unless it is there. -/
structure Queued (tree : Forest ρ) (s : Store ρ) (source child : ρ) (kind : Kind) (sourceId : Nat)
    (more : List (Forward ρ)) : Prop where
  rows : ∀ row ∈ more, ∃ parent, tree.parent source = some parent ∧
    row = ⟨s.nextForward, parent, child, kind.code, sourceId, none, none⟩ ∧
    ∀ old ∈ s.forwards, old.key ≠ row.key
  length : more.length ≤ 1
  reaches : ∀ parent, tree.parent source = some parent →
    ∃ row ∈ s.forwards ++ more, row.key = (parent, kind.code, sourceId)

variable {source child : ρ} {kind : Kind} {sourceId : Nat} {more : List (Forward ρ)}

theorem queue_ok (h : s.queue tree source child kind sourceId = .ok s') :
    ∃ more, s' = { s with forwards := s.forwards ++ more, nextForward := s.nextForward + 1 } ∧
      Queued tree s source child kind sourceId more := by
  obtain ⟨forwardId, hid, h⟩ := bind_ok h
  obtain rfl := identity_ok hid
  cases hparent : tree.parent source with
  | none =>
    rw [hparent] at h
    cases h
    refine ⟨[], by rw [List.append_nil], ⟨?_, Nat.zero_le _, ?_⟩⟩
    · intro row hrow
      cases hrow
    · intro parent hsome
      rw [hparent] at hsome
      cases hsome
  | some parent =>
    rw [hparent] at h
    by_cases hthere : (s.forwards.any fun row => row.key = (parent, kind.code, sourceId)) = true
    · have hkept : s' = { s with nextForward := s.nextForward + 1 } := by
        simp only [hthere, if_true] at h
        cases h
        rfl
      obtain ⟨row, hrow, hkey⟩ := List.any_eq_true.mp hthere
      refine ⟨[], by rw [List.append_nil, hkept], ⟨?_, Nat.zero_le _, ?_⟩⟩
      · intro row hrow
        cases hrow
      · intro above hsome
        rw [hparent] at hsome
        obtain rfl := Option.some.inj hsome
        exact ⟨row, List.mem_append_left _ hrow, of_decide_eq_true hkey⟩
    · simp only [hthere, if_false, Bool.false_eq_true] at h
      split_ifs at h
      cases h
      refine ⟨[⟨s.nextForward, parent, child, kind.code, sourceId, none, none⟩], rfl, ⟨?_, le_rfl, ?_⟩⟩
      · intro row hrow
        obtain rfl := List.mem_singleton.mp hrow
        refine ⟨parent, hparent, rfl, fun old hold hsame => hthere ?_⟩
        exact List.any_eq_true.mpr ⟨old, hold, decide_eq_true hsame⟩
      · intro above hsome
        rw [hparent] at hsome
        obtain rfl := Option.some.inj hsome
        exact ⟨_, List.mem_append_right _ (List.mem_singleton_self _), rfl⟩

/-- A row takes its target's next position. -/
def positioned (s : Store ρ) (before : List (Forward ρ)) (row : Forward ρ)
    (after : List (Forward ρ)) (now : Nat) : Store ρ :=
  { s with
    nextPosition := Function.update s.nextPosition row.target (s.nextPosition row.target + 1),
    forwards := before ++
      { row with position := some (s.nextPosition row.target), deliveredAt := some now } :: after }

/-- What a delivery that found its hop did: the row took a position, and the next hop was
queued. -/
structure Delivered (tree : Forest ρ) (s : Store ρ) (forwardId now : Nat)
    (before : List (Forward ρ)) (row : Forward ρ) (after : List (Forward ρ)) (s' : Store ρ) :
    Prop where
  rows : s.forwards = before ++ row :: after
  id : row.forwardId = forwardId
  pending : row.position = none
  queued : ∃ kind, row.kind = Kind.code kind ∧
    (s.positioned before row after now).queue tree row.target row.child kind row.sourceId = .ok s'

theorem deliver_ok {forwardId now : Nat} {fault done : Bool}
    (h : s.deliver tree forwardId now fault = .ok (done, s')) :
    done = false ∧ s' = s ∨
      done = true ∧ ∃ before row after, Delivered tree s forwardId now before row after s' := by
  rw [deliver] at h
  cases hfind : s.forwards.find? (Forward.pendingAs forwardId) with
  | none =>
    rw [hfind] at h
    cases h
    exact .inl ⟨rfl, rfl⟩
  | some found =>
    rw [hfind] at h
    obtain ⟨⟨position, taken⟩, htake, h⟩ := bind_ok h
    obtain ⟨rfl, rfl⟩ := take_ok htake
    cases hupdate : updateOne (Forward.pendingAs forwardId) (fun row : Forward ρ => { row with
        position := some (s.nextPosition found.target), deliveredAt := some now }) s.forwards with
    | none =>
      simp only [hupdate] at h
      cases h
    | some forwards =>
      simp only [hupdate] at h
      obtain ⟨before, row, after, hrows, hselects, hbefore, rfl⟩ := updateOne_eq_some hupdate
      rw [hrows, find?_updated hselects hbefore] at hfind
      obtain rfl := Option.some.inj hfind
      rw [Forward.pendingAs, Bool.and_eq_true, decide_eq_true_eq, Option.isNone_iff_eq_none] at hselects
      cases hkind : Kind.decode row.kind with
      | none =>
        rw [hkind] at h
        cases h
      | some kind =>
        rw [hkind] at h
        obtain ⟨s₂, hqueue, h⟩ := bind_ok h
        split_ifs at h
        cases h
        exact .inr ⟨rfl, before, row, after, hrows, hselects.1, hselects.2, kind,
          Kind.code_decode hkind, hqueue⟩

/-! ## Facts -/

/-- A fact of `child`'s that was queued for its ancestors: an Action asks for approval, or the
ending its parent is owed was delivered. -/
def Fact (s : Store ρ) (child : ρ) : Kind → Nat → Prop
  | .approval, sourceId => ∃ action ∈ s.actions, action.actionId = sourceId ∧
      action.session = child ∧ action.approvalPosition ≠ none
  | .ending, sourceId => (∃ ending ∈ s.endings, ending.turnId = sourceId ∧
      ending.delivered = true) ∧ ∃ turn ∈ s.turns, turn.turnId = sourceId ∧ turn.session = child

/-- The ids of the rows that facts come from name one row each. -/
structure Numbered (s : Store ρ) : Prop where
  actions : (s.actions.map Action.actionId).Nodup
  actionsBelow : ∀ action ∈ s.actions, action.actionId < s.nextAction
  turns : (s.turns.map Turn.turnId).Nodup
  turnsBelow : ∀ turn ∈ s.turns, turn.turnId < s.nextTurn
  endings : ∀ ending ∈ s.endings, ending.turnId ∈ s.turns.map Turn.turnId

omit [DecidableEq ρ] in
theorem Numbered.child_eq (h : Numbered s) {child' : ρ} (hfact : s.Fact child kind sourceId)
    (hfact' : s.Fact child' kind sourceId) : child = child' := by
  cases kind with
  | approval =>
    obtain ⟨action, haction, hid, rfl, -⟩ := hfact
    obtain ⟨action', haction', hid', rfl, -⟩ := hfact'
    rw [List.inj_on_of_nodup_map h.actions haction haction' (hid.trans hid'.symm)]
  | ending =>
    obtain ⟨-, turn, hturn, hid, rfl⟩ := hfact
    obtain ⟨-, turn', hturn', hid', rfl⟩ := hfact'
    rw [List.inj_on_of_nodup_map h.turns hturn hturn' (hid.trans hid'.symm)]

/-! ## The rows -/

/-- Every row carries a fact to an ancestor, and no two the same fact to the same one. -/
structure Sound (tree : Forest ρ) (s : Store ρ) : Prop where
  ids : (s.forwards.map Forward.forwardId).Nodup
  idsBelow : ∀ row ∈ s.forwards, row.forwardId < s.nextForward
  keys : (s.forwards.map Forward.key).Nodup
  facts : ∀ row ∈ s.forwards, ∃ kind, row.kind = Kind.code kind ∧ s.Fact row.child kind row.sourceId
  above : ∀ row ∈ s.forwards, tree.Above row.child row.target

/-- Every fact has its first hop, and every delivered row its next. -/
structure Fed (tree : Forest ρ) (s : Store ρ) : Prop extends Sound tree s where
  started : ∀ child kind sourceId, s.Fact child kind sourceId → ∀ parent,
    tree.parent child = some parent → (parent, kind.code, sourceId) ∈ s.forwards.map Forward.key
  onward : ∀ row ∈ s.forwards, row.position ≠ none → ∀ parent,
    tree.parent row.target = some parent →
      (parent, row.kind, row.sourceId) ∈ s.forwards.map Forward.key

/-- A transaction that leaves the rows and the facts. -/
structure Spared (s s' : Store ρ) : Prop where
  forwards : s'.forwards = s.forwards
  nextForward : s'.nextForward = s.nextForward
  facts : ∀ child kind sourceId, s'.Fact child kind sourceId ↔ s.Fact child kind sourceId

omit [DecidableEq ρ] in
theorem Fed.spared (h : Fed tree s) (hspared : Spared s s') : Fed tree s' := by
  obtain ⟨hforwards, hnext, hfacts⟩ := hspared
  refine ⟨⟨?_, ?_, ?_, ?_, ?_⟩, ?_, ?_⟩
  · rw [hforwards]
    exact h.ids
  · rw [hforwards, hnext]
    exact h.idsBelow
  · rw [hforwards]
    exact h.keys
  · rw [hforwards]
    intro row hrow
    obtain ⟨kind, hkind, hfact⟩ := h.facts row hrow
    exact ⟨kind, hkind, (hfacts _ _ _).mpr hfact⟩
  · rw [hforwards]
    exact h.above
  · rw [hforwards]
    intro child kind sourceId hfact
    exact h.started child kind sourceId ((hfacts _ _ _).mp hfact)
  · rw [hforwards]
    exact h.onward

omit [DecidableEq ρ] in
theorem Sound.queued (h : Sound tree s) (hfact : s.Fact child kind sourceId)
    (habove : ∀ parent, tree.parent source = some parent → tree.Above child parent)
    (hqueued : Queued tree s source child kind sourceId more) : Sound tree { s with
      forwards := s.forwards ++ more, nextForward := s.nextForward + 1 } := by
  obtain ⟨hrows, hlength, -⟩ := hqueued
  have hnone : more = [] ∨ ∃ row, more = [row] := by
    rcases more with _ | ⟨row, _ | ⟨row', rest⟩⟩
    · exact .inl rfl
    · exact .inr ⟨row, rfl⟩
    · simp at hlength
  rcases hnone with rfl | ⟨row, rfl⟩
  · rw [List.append_nil]
    exact ⟨h.ids, fun row hrow => (h.idsBelow row hrow).trans (Nat.lt_succ_self _), h.keys,
      h.facts, h.above⟩
  · obtain ⟨parent, hparent, hrow, hnew⟩ := hrows row (List.mem_singleton_self _)
    refine ⟨?_, ?_, ?_, ?_, ?_⟩
    · rw [List.map_append, List.map_singleton, List.nodup_append]
      refine ⟨h.ids, List.nodup_singleton _, ?_⟩
      intro id hid id' hid' hsame
      obtain ⟨old, hold, rfl⟩ := List.mem_map.mp hid
      have hbelow := h.idsBelow old hold
      rw [List.mem_singleton.mp hid', hrow] at hsame
      exact Nat.ne_of_lt hbelow hsame
    · intro each heach
      rcases List.mem_append.mp heach with hold | hlast
      · exact (h.idsBelow each hold).trans (Nat.lt_succ_self _)
      · rw [List.mem_singleton.mp hlast, hrow]
        exact Nat.lt_succ_self _
    · rw [List.map_append, List.map_singleton, List.nodup_append]
      refine ⟨h.keys, List.nodup_singleton _, ?_⟩
      intro key hkey key' hkey' hsame
      obtain ⟨old, hold, rfl⟩ := List.mem_map.mp hkey
      exact hnew old hold (hsame.trans (List.mem_singleton.mp hkey'))
    · intro each heach
      rcases List.mem_append.mp heach with hold | hlast
      · exact h.facts each hold
      · rw [List.mem_singleton.mp hlast, hrow]
        exact ⟨kind, rfl, hfact⟩
    · intro each heach
      rcases List.mem_append.mp heach with hold | hlast
      · exact h.above each hold
      · rw [List.mem_singleton.mp hlast, hrow]
        exact habove parent hparent

omit [DecidableEq ρ] in
theorem Queued.mem_keys (h : Queued tree s source child kind sourceId more) {parent : ρ}
    (hparent : tree.parent source = some parent) :
    (parent, kind.code, sourceId) ∈ (s.forwards ++ more).map Forward.key := by
  obtain ⟨row, hrow, hkey⟩ := h.reaches parent hparent
  rw [← hkey]
  exact List.mem_map_of_mem hrow

omit [DecidableEq ρ] in
theorem Queued.pending (h : Queued tree s source child kind sourceId more) :
    ∀ row ∈ more, row.position = none := by
  intro row hrow
  obtain ⟨parent, -, rfl, -⟩ := h.rows row hrow
  rfl

/-- A transaction's saving of one fact, before the fact is queued. -/
structure Saves (s s' : Store ρ) (child : ρ) (kind : Kind) (sourceId : Nat) : Prop where
  forwards : s'.forwards = s.forwards
  nextForward : s'.nextForward = s.nextForward
  facts : ∀ child' kind' sourceId', s'.Fact child' kind' sourceId' ↔
    s.Fact child' kind' sourceId' ∨ child' = child ∧ kind' = kind ∧ sourceId' = sourceId

/-- **A fact is queued as it is saved.** -/
theorem Fed.saved {s₁ : Store ρ} (h : Fed tree s) (hsaves : Saves s s₁ child kind sourceId)
    (hqueue : s₁.queue tree child child kind sourceId = .ok s') : Fed tree s' := by
  obtain ⟨hforwards, hnext, hfacts⟩ := hsaves
  obtain ⟨more, rfl, hqueued⟩ := queue_ok hqueue
  have hsound : Sound tree s₁ := by
    refine ⟨?_, ?_, ?_, ?_, ?_⟩
    · rw [hforwards]
      exact h.ids
    · rw [hforwards, hnext]
      exact h.idsBelow
    · rw [hforwards]
      exact h.keys
    · rw [hforwards]
      intro row hrow
      obtain ⟨kind', hkind, hfact⟩ := h.facts row hrow
      exact ⟨kind', hkind, (hfacts _ _ _).mpr (.inl hfact)⟩
    · rw [hforwards]
      exact h.above
  refine ⟨hsound.queued ((hfacts _ _ _).mpr (.inr ⟨rfl, rfl, rfl⟩))
    (fun _ hparent => .parent hparent) hqueued, ?_, ?_⟩
  · intro child' kind' sourceId' hfact parent hparent
    rcases (hfacts _ _ _).mp hfact with hold | ⟨rfl, rfl, rfl⟩
    · rw [List.map_append, hforwards]
      exact List.mem_append_left _ (h.started _ _ _ hold _ hparent)
    · exact hqueued.mem_keys hparent
  · intro row hrow hposition parent hparent
    rcases List.mem_append.mp hrow with hold | hnew
    · rw [hforwards] at hold
      rw [List.map_append, hforwards]
      exact List.mem_append_left _ (h.onward row hold hposition parent hparent)
    · exact absurd (hqueued.pending row hnew) hposition

/-- **A hop.** The delivered row has its next hop, which is pending. -/
theorem Fed.delivered {forwardId now : Nat} {before after : List (Forward ρ)} {row : Forward ρ}
    (h : Fed tree s) (hdelivered : Delivered tree s forwardId now before row after s') :
    Fed tree s' := by
  obtain ⟨hrows, -, -, kind, hkind, hqueue⟩ := hdelivered
  obtain ⟨more, rfl, hqueued⟩ := queue_ok hqueue
  have hids : (s.positioned before row after now).forwards.map Forward.forwardId =
      s.forwards.map Forward.forwardId := by
    rw [hrows, positioned, List.map_append, List.map_append]
    rfl
  have hkeys : (s.positioned before row after now).forwards.map Forward.key =
      s.forwards.map Forward.key := by
    rw [hrows, positioned, List.map_append, List.map_append]
    rfl
  -- Every row is as it was, but for one position.
  have hrow : ∀ each ∈ (s.positioned before row after now).forwards, ∃ old ∈ s.forwards,
      each.forwardId = old.forwardId ∧ each.child = old.child ∧ each.key = old.key ∧
        (old = each ∨ old = row) := by
    intro each heach
    rw [hrows]
    rcases List.mem_append.mp heach with hbefore | hrest
    · exact ⟨each, List.mem_append_left _ hbefore, rfl, rfl, rfl, .inl rfl⟩
    · rcases List.mem_cons.mp hrest with rfl | hafter
      · exact ⟨row, by simp, rfl, rfl, rfl, .inr rfl⟩
      · exact ⟨each, by simp [hafter], rfl, rfl, rfl, .inl rfl⟩
  have hmem : row ∈ s.forwards := by
    rw [hrows]
    simp
  have hsound : Sound tree (s.positioned before row after now) := by
    refine ⟨hids ▸ h.ids, ?_, hkeys ▸ h.keys, ?_, ?_⟩
    · intro each heach
      obtain ⟨old, hold, hid, -⟩ := hrow each heach
      rw [hid]
      exact h.idsBelow old hold
    · intro each heach
      obtain ⟨old, hold, -, hchild, hkey, -⟩ := hrow each heach
      obtain ⟨kind', hkind', hfact⟩ := h.facts old hold
      simp only [Forward.key, Prod.mk.injEq] at hkey
      rw [hchild, hkey.2.1, hkey.2.2]
      exact ⟨kind', hkind', hfact⟩
    · intro each heach
      obtain ⟨old, hold, -, hchild, hkey, -⟩ := hrow each heach
      simp only [Forward.key, Prod.mk.injEq] at hkey
      rw [hchild, hkey.1]
      exact h.above old hold
  obtain ⟨kind', hkind', hfact⟩ := h.facts row hmem
  obtain rfl := Kind.code_injective (hkind'.symm.trans hkind)
  refine ⟨hsound.queued hfact
    (fun _ hparent => (h.above row hmem).step hparent) hqueued, ?_, ?_⟩
  · intro child kind sourceId hfact parent hparent
    rw [List.map_append, hkeys]
    exact List.mem_append_left _ (h.started child kind sourceId hfact parent hparent)
  · intro each heach hposition parent hparent
    rcases List.mem_append.mp heach with hold | hnew
    · obtain ⟨old, hmem', -, -, hkey, rfl | rfl⟩ := hrow each hold
      · rw [List.map_append, hkeys]
        exact List.mem_append_left _ (h.onward old hmem' hposition parent hparent)
      · simp only [Forward.key, Prod.mk.injEq] at hkey
        rw [hkey.2.1, hkey.2.2, hkind]
        rw [hkey.1] at hparent
        exact hqueued.mem_keys hparent
    · exact absurd (hqueued.pending each hnew) hposition

end Store

end Rui.Forwards
