import Rui.Forwards.FeedPositions

/-!
# Feeds over whole runs

Every queued fact of a descendant is delivered exactly once to every ancestor, at a position of
that ancestor's own, once the pending hops have run; and they run out.
-/

namespace Rui.Forwards

open Library

variable {ρ : Type} [DecidableEq ρ] {tree : Forest ρ}

namespace Store

variable {s s' : Store ρ}

/-! ## Hops that are pending -/

omit [DecidableEq ρ] in
theorem next_eq_none (h : s.next = none) : ∀ row ∈ s.forwards, row.position ≠ none := by
  intro row hrow hpending
  rw [next, List.min?_eq_none_iff, List.map_eq_nil_iff] at h
  have hmem : row ∈ s.forwards.filter fun row => row.position.isNone :=
    List.mem_filter.mpr ⟨hrow, by rw [hpending]; rfl⟩
  rw [h] at hmem
  cases hmem

omit [DecidableEq ρ] in
theorem next_eq_some {forwardId : Nat} (h : s.next = some forwardId) :
    ∃ row ∈ s.forwards, row.forwardId = forwardId ∧ row.position = none := by
  have hmem := List.min?_mem h
  obtain ⟨row, hrow, hid⟩ := List.mem_map.mp hmem
  obtain ⟨hrow, hpending⟩ := List.mem_filter.mp hrow
  exact ⟨row, hrow, hid, Option.isNone_iff_eq_none.mp hpending⟩

omit [DecidableEq ρ] in
/-- **At rest** every fact has reached every ancestor. -/
theorem Fed.reaches {child top : ρ} {kind : Kind} {sourceId : Nat} (h : Fed tree s)
    (hnumbered : Numbered s) (hrest : s.next = none) (hfact : s.Fact child kind sourceId)
    (habove : tree.Above child top) :
    ∃ row ∈ s.forwards, row.key = (top, kind.code, sourceId) ∧ row.child = child ∧
      row.position ≠ none := by
  have hkey : (top, kind.code, sourceId) ∈ s.forwards.map Forward.key := by
    refine habove.climb (h.started child kind sourceId hfact) fun mid hmid parent hparent => ?_
    obtain ⟨row, hrow, hkey⟩ := List.mem_map.mp hmid
    simp only [Forward.key, Prod.mk.injEq] at hkey
    obtain ⟨rfl, hkind, rfl⟩ := hkey
    rw [← hkind]
    exact h.onward row hrow (next_eq_none hrest row hrow) parent hparent
  obtain ⟨row, hrow, hkey⟩ := List.mem_map.mp hkey
  refine ⟨row, hrow, hkey, ?_, next_eq_none hrest row hrow⟩
  obtain ⟨kind', hkind, hfact'⟩ := h.facts row hrow
  simp only [Forward.key, Prod.mk.injEq] at hkey
  rw [hkey.2.1] at hkind
  rw [← Kind.code_injective hkind, hkey.2.2] at hfact'
  exact hnumbered.child_eq hfact' hfact

theorem take_cases (s : Store ρ) (session : ρ) (count : Nat) :
    (s.take session count = .error .sessionPositionExhausted ∧
      maxStored < s.nextPosition session + count) ∨
      ∃ first s', s.take session count = .ok (first, s') := by
  rw [take]
  split_ifs with hfull
  · exact .inl ⟨rfl, by omega⟩
  · exact .inr ⟨_, _, rfl⟩

theorem queue_cases {source child : ρ} (s : Store ρ) (kind : Kind) (sourceId : Nat)
    (h : ∀ parent, tree.parent source = some parent → parent ≠ child) :
    (s.queue tree source child kind sourceId = .error .identityExhausted ∧
      maxStored < s.nextForward) ∨ ∃ s', s.queue tree source child kind sourceId = .ok s' := by
  rw [queue, identity]
  by_cases hfull : s.nextForward > maxStored
  · rw [if_pos hfull]
    exact .inl ⟨rfl, hfull⟩
  · rw [if_neg hfull]
    refine .inr ?_
    cases hparent : tree.parent source with
    | none => exact ⟨_, rfl⟩
    | some parent =>
      by_cases hthere : (s.forwards.any fun row => row.key = (parent, kind.code, sourceId)) = true
      · exact ⟨_, if_pos hthere⟩
      · exact ⟨_, (if_neg hthere).trans (if_neg (h parent hparent))⟩

/-- **A pending hop is delivered**, unless its target's positions or the ids are full. -/
theorem Sound.deliver_cases (h : Sound tree s) {row : Forward ρ} (hrow : row ∈ s.forwards)
    (hpending : row.position = none) (now : Nat) :
    (s.deliver tree row.forwardId now false = .error .sessionPositionExhausted ∧
      maxStored < s.nextPosition row.target + 1) ∨
    (s.deliver tree row.forwardId now false = .error .identityExhausted ∧
      maxStored < s.nextForward) ∨
    ∃ s', s.deliver tree row.forwardId now false = .ok (true, s') := by
  have hselects : row.pendingAs row.forwardId = true := by
    rw [Forward.pendingAs, hpending, decide_eq_true rfl]
    rfl
  have honly : ∀ each ∈ s.forwards, each.pendingAs row.forwardId = true → each = row := by
    intro each heach hsame
    rw [Forward.pendingAs, Bool.and_eq_true, decide_eq_true_eq] at hsame
    exact List.inj_on_of_nodup_map h.ids heach hrow hsame.1
  have hfind : s.forwards.find? (Forward.pendingAs row.forwardId) = some row := by
    cases hfind : s.forwards.find? (Forward.pendingAs row.forwardId) with
    | none => exact absurd hselects (List.find?_eq_none.mp hfind row hrow)
    | some found =>
      rw [honly found (List.mem_of_find?_eq_some hfind) (List.find?_some hfind)]
  rcases take_cases s row.target 1 with ⟨hfails, hfull⟩ | ⟨first, s₁, htake⟩
  · rw [deliver, hfind]
    simp only [hfails]
    exact .inl ⟨rfl, hfull⟩
  · have hforwards : s₁.forwards = s.forwards := (take_spared htake).forwards
    have hupdate := @updateOne_isSome _ _ (Forward.pendingAs row.forwardId)
      (fun row => { row with position := some first, deliveredAt := some now }) s.forwards
      Forward.forwardId h.ids row hrow hselects
      fun each heach hsame => congrArg Forward.forwardId (honly each heach hsame)
    obtain ⟨forwards, hforwards'⟩ := Option.isSome_iff_exists.mp hupdate
    obtain ⟨kind, hkind, -⟩ := h.facts row hrow
    have hdecode : Kind.decode row.kind = some kind := by rw [hkind, Kind.decode_code]
    have hqueues : s.deliver tree row.forwardId now false =
        (({ s₁ with forwards }).queue tree row.target row.child kind row.sourceId >>=
          fun s => .ok (true, s)) := by
      rw [deliver, hfind]
      simp only [htake, Bind.bind, Except.bind, hforwards, hforwards', hdecode, if_false,
        Bool.false_eq_true]
    rw [hqueues]
    refine .inr ?_
    rcases queue_cases { s₁ with forwards } kind row.sourceId
      (fun parent hparent => ((h.above row hrow).step hparent).ne.symm) with ⟨hfails, hfull⟩ | ⟨s₂, hqueue⟩
    · rw [hfails]
      exact .inl ⟨rfl, (take_spared htake).nextForward ▸ hfull⟩
    · rw [hqueue]
      exact .inr ⟨s₂, rfl⟩

/-! ## Hops run out -/

/-- How many hops are pending: each row's, and those its delivery will queue. -/
def owedHops (tree : Forest ρ) (s : Store ρ) : Nat :=
  tally (fun row => if row.position = none then tree.depth row.target + 1 else 0) s.forwards

theorem Delivered.owedHops_lt {forwardId now : Nat} {before after : List (Forward ρ)}
    {row : Forward ρ} (h : Delivered tree s forwardId now before row after s') :
    s'.owedHops tree < s.owedHops tree := by
  obtain ⟨hrows, -, hpending, kind, -, hqueue⟩ := h
  obtain ⟨more, rfl, hqueued⟩ := queue_ok hqueue
  have hnew : tally (fun row => if row.position = none then tree.depth row.target + 1 else 0) more ≤
      tree.depth row.target := by
    obtain ⟨hadded, hlength, -⟩ := hqueued
    rcases more with _ | ⟨next, _ | ⟨next', rest⟩⟩
    · exact Nat.zero_le _
    · obtain ⟨parent, hparent, rfl, -⟩ := hadded next List.mem_cons_self
      have hlt := tree.depth_lt _ _ hparent
      simp only [tally_cons, tally_nil, if_true]
      omega
    · simp at hlength
  rw [owedHops, owedHops, hrows, positioned]
  simp only [tally_append, tally_cons, hpending, if_true, reduceCtorEq, if_false]
  omega

/-- A counter is full that the oldest pending hop needs. -/
def Full (s : Store ρ) : Failure → Prop
  | .sessionPositionExhausted => ∃ row ∈ s.forwards, s.next = some row.forwardId ∧
    maxStored < s.nextPosition row.target + 1
  | .identityExhausted => maxStored < s.nextForward
  | _ => False

/-- **The hops run out**: with no new facts, the pending hops run until none is left, unless the
next one's target has no position left or no id is. -/
theorem Kept.drain {now : Nat} {fuel : Nat} (h : Kept tree s) (hfuel : s.owedHops tree ≤ fuel) :
    (s.drain tree now fuel).2.next = none ∨ ∃ failure,
      (s.drain tree now fuel).1 = some failure ∧ (s.drain tree now fuel).2.Full failure := by
  induction fuel generalizing s with
  | zero =>
    cases hnext : s.next with
    | none => exact .inl hnext
    | some forwardId =>
      obtain ⟨row, hrow, -, hpending⟩ := next_eq_some hnext
      have hzero := tally_eq_zero.mp (Nat.le_zero.mp hfuel) row hrow
      rw [if_pos hpending] at hzero
      omega
  | succ fuel ih =>
    rw [Store.drain]
    cases hnext : s.next with
    | none => exact .inl hnext
    | some forwardId =>
      obtain ⟨row, hrow, rfl, hpending⟩ := next_eq_some hnext
      rcases h.fed.deliver_cases hrow hpending now with ⟨hfails, hfull⟩ | ⟨hfails, hfull⟩ | ⟨s', hdeliver⟩
      · simp only [hfails]
        exact .inr ⟨_, rfl, row, hrow, hnext, hfull⟩
      · simp only [hfails]
        exact .inr ⟨_, rfl, hfull⟩
      · simp only [hdeliver]
        refine ih (h.deliver hdeliver) ?_
        rcases deliver_ok hdeliver with ⟨hfalse, -⟩ | ⟨-, before, row, after, hdelivered⟩
        · cases hfalse
        · have hlt := hdelivered.owedHops_lt
          omega

end Store

/-! ## Runs -/

/-- A Store before any fact was saved. -/
def Store.empty (sessions : List ρ) (nextPosition : ρ → Nat) (archived : ρ → Bool) : Store ρ :=
  { sessions, nextPosition, archived }

end Rui.Forwards
