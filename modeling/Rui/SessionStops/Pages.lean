import Rui.Library.Outcomes
import Rui.SessionStops.Stop

/-!
# The pages of a stop

The Actions that a stop cancels, page by page: after each page's write the next page is what is
left of them, and each takes the next position of the Session.
-/

namespace Rui.SessionStops

open Library

/-! ## Positions -/

/-- Sessions after one of them took positions. -/
def advance (session : List UInt8) (count : Nat) (sessions : List Session) : List Session :=
  sessions.map fun row =>
    if row.ref = session then { row with nextPosition := row.nextPosition + count } else row

theorem advance_advance (session : List UInt8) (count more : Nat) (sessions : List Session) :
    advance session more (advance session count sessions) =
      advance session (count + more) sessions := by
  rw [advance, advance, List.map_map]
  refine List.map_congr_left fun row _ => ?_
  rw [Function.comp_apply]
  by_cases hsame : row.ref = session
  · simp only [hsame, if_true, Nat.add_assoc]
  · simp only [hsame, if_false]

theorem advance_zero (session : List UInt8) (sessions : List Session) :
    advance session 0 sessions = sessions := by
  refine (List.map_congr_left fun row _ => ?_).trans (List.map_id sessions)
  split_ifs <;> rfl

namespace Store

variable {s : Store} {fails : Failure → Prop}

/-- A Session's next position. -/
def positionOf (s : Store) (session : List UInt8) : Option Nat :=
  (s.sessions.find? fun row => row.ref = session).map Session.nextPosition

theorem positionOf_advance {session : List UInt8} {position count : Nat} {s' : Store}
    (h : s.positionOf session = some position)
    (hsessions : s'.sessions = advance session count s.sessions) :
    s'.positionOf session = some (position + count) := by
  obtain ⟨row, hrow, rfl⟩ := Option.map_eq_some_iff.mp h
  have hsame : ((fun row : Session => decide (row.ref = session)) ∘ fun row : Session =>
      if row.ref = session then { row with nextPosition := row.nextPosition + count } else row) =
      fun row => decide (row.ref = session) := by
    funext row
    rw [Function.comp_apply]
    split_ifs <;> rfl
  have href : row.ref = session := by simpa using List.find?_some hrow
  rw [positionOf, hsessions, advance, List.find?_map, hsame, hrow, Option.map_some, if_pos href]
  rfl

theorem take_ends {session : List UInt8} {position : Nat}
    (h : s.positionOf session = some position) (count : Nat)
    (hfull : maxStored < position + count → fails .sessionPositionExhausted) :
    Ends fails (fun result => result.1 = position ∧
      result.2 = { s with sessions := advance session count s.sessions })
      (s.take session count) := by
  obtain ⟨row, hrow, rfl⟩ := Option.map_eq_some_iff.mp h
  rw [take, hrow]
  exact .ite (fun hmore => hfull (by omega)) fun _ => ⟨rfl, rfl⟩

end Store

/-! ## What is selected -/

/-- Actions whose ids and whose calls differ. -/
structure Distinct (actions : List Action) : Prop where
  ids : (actions.map Action.actionId).Nodup
  calls : ∀ a ∈ actions, ∀ b ∈ actions, a.parentOperationId = b.parentOperationId →
    a.callOrdinal = b.callOrdinal → a = b

/-- The Actions of an Operation that a stop cancels, in call order. -/
structure Selected (actions : List Action) (operationId : Nat) (selected : List Action) : Prop where
  sorted : SortedBy Action.callOrdinal selected
  mem : ∀ action, action ∈ selected ↔ action ∈ actions ∧ action.cancellable operationId = true

variable {actions selected done rest chunk : List Action} {operationId contentId first : Nat}

theorem Distinct.eq_of_id (h : Distinct actions) {a b : Action} (ha : a ∈ actions)
    (hb : b ∈ actions) (hid : a.actionId = b.actionId) : a = b :=
  List.inj_on_of_nodup_map h.ids ha hb hid

theorem cancellable_iff {action : Action} : action.cancellable operationId = true ↔
    action.parentOperationId = operationId ∧ action.resolutionCode = none ∧
      action.attemptOrdinal = 0 := by
  simp only [Action.cancellable, Bool.and_eq_true, decide_eq_true_eq, Option.isNone_iff_eq_none,
    and_assoc]

theorem Distinct.sorted (h : Distinct actions) {p : Action → Bool}
    (hp : ∀ action, p action = true → action.parentOperationId = operationId) :
    SortedBy Action.callOrdinal
      ((actions.filter p).insertionSort fun a b => a.callOrdinal ≤ b.callOrdinal) := by
  refine SortedBy.of_insertionSort ?_
  refine List.Nodup.map_on ?_ (h.ids.of_map.filter p)
  intro a ha b hb hcall
  obtain ⟨ha, hpa⟩ := List.mem_filter.mp ha
  obtain ⟨hb, hpb⟩ := List.mem_filter.mp hb
  exact h.calls a ha b hb ((hp a hpa).trans (hp b hpb).symm) hcall

theorem Distinct.inCallOrder (h : Distinct actions) (operationId : Nat) :
    Selected actions operationId
      ((actions.filter (Action.cancellable operationId)).insertionSort
        fun a b => a.callOrdinal ≤ b.callOrdinal) where
  sorted := h.sorted fun _ hcancellable => (cancellable_iff.mp hcancellable).1
  mem action := by
    rw [(List.perm_insertionSort _ _).mem_iff, List.mem_filter]

theorem Selected.length (h : Selected actions operationId selected) (hdistinct : Distinct actions) :
    selected.length = actions.countP (Action.cancellable operationId) := by
  have hsame := h.sorted.eq_of_mem_iff (hdistinct.inCallOrder operationId).sorted fun action => by
    rw [h.mem, (hdistinct.inCallOrder operationId).mem]
  rw [hsame, List.length_insertionSort, List.countP_eq_length_filter]

/-! ## What is cancelled -/

/-- An Action after the ones with these ids were cancelled. -/
def mark (contentId first : Nat) (ids : List Nat) (action : Action) : Action :=
  if action.actionId ∈ ids then Store.cancelled contentId first ids action else action

theorem mark_actionId (contentId first : Nat) (ids : List Nat) (action : Action) :
    (mark contentId first ids action).actionId = action.actionId := by
  rw [mark]
  split_ifs <;> rfl

theorem mark_of_notMem {ids : List Nat} {action : Action} (h : action.actionId ∉ ids) :
    mark contentId first ids action = action := if_neg h

theorem mark_nil (contentId first : Nat) (actions : List Action) :
    actions.map (mark contentId first []) = actions := by
  refine (List.map_congr_left fun action _ => ?_).trans (List.map_id actions)
  exact mark_of_notMem List.not_mem_nil

theorem mark_append {ids more : List Nat} {action : Action} (hdisjoint : ∀ id ∈ more, id ∉ ids) :
    mark contentId first (ids ++ more) action =
      if action.actionId ∈ more then
        Store.cancelled contentId (first + ids.length) more (mark contentId first ids action)
      else mark contentId first ids action := by
  by_cases hmore : action.actionId ∈ more
  · have hids := hdisjoint _ hmore
    rw [if_pos hmore, mark_of_notMem hids, mark, if_pos (List.mem_append_right _ hmore)]
    simp only [Store.cancelled, List.idxOf_append_of_notMem hids, Nat.add_assoc]
  · rw [if_neg hmore, mark, mark]
    by_cases hids : action.actionId ∈ ids
    · rw [if_pos (List.mem_append_left _ hids), if_pos hids]
      simp only [Store.cancelled, List.idxOf_append_of_mem hids]
    · rw [if_neg hids, if_neg fun hmem => (List.mem_append.mp hmem).elim hids hmore]

/-- **The next page** is what is left. -/
theorem page_eq {s : Store} {after : Nat} (h : Selected actions operationId (done ++ rest))
    (hdistinct : Distinct actions)
    (hactions : s.actions = actions.map (mark contentId first (done.map Action.actionId)))
    (hdone : ∀ action ∈ done, action.callOrdinal < after)
    (hrest : ∀ action ∈ rest, after ≤ action.callOrdinal) :
    s.page operationId after = rest.take Store.cancelChunk := by
  -- The Actions that were cancelled are before the page.
  have hbefore : ∀ action ∈ actions, action.actionId ∈ done.map Action.actionId →
      action.callOrdinal < after := by
    intro action haction hid
    obtain ⟨other, hother, hsame⟩ := List.mem_map.mp hid
    have hmem := ((h.mem other).mp (List.mem_append_left _ hother)).1
    rw [hdistinct.eq_of_id haction hmem hsame.symm]
    exact hdone other hother
  have hfilter : (s.actions.filter fun action => action.cancellable operationId &&
      after ≤ action.callOrdinal) = actions.filter fun action =>
        action.cancellable operationId && after ≤ action.callOrdinal := by
    rw [hactions, List.filter_map]
    have hsame : ∀ action ∈ actions, (mark contentId first (done.map Action.actionId) action = action ∨
        ¬ after ≤ action.callOrdinal) := by
      intro action haction
      by_cases hid : action.actionId ∈ done.map Action.actionId
      · exact .inr (Nat.not_le.mpr (hbefore action haction hid))
      · exact .inl (mark_of_notMem hid)
    have hordinal : ∀ action : Action,
        (mark contentId first (done.map Action.actionId) action).callOrdinal =
          action.callOrdinal := by
      intro action
      rw [mark]
      split_ifs <;> rfl
    rw [List.filter_congr (q := fun action =>
      action.cancellable operationId && after ≤ action.callOrdinal) fun action haction => ?_]
    · refine (List.map_congr_left fun action haction => ?_).trans (List.map_id _)
      obtain ⟨haction, hpage⟩ := List.mem_filter.mp haction
      rcases hsame action haction with heq | hlow
      · exact heq
      · rw [decide_eq_false hlow, Bool.and_false] at hpage
        cases hpage
    · rw [Function.comp_apply, hordinal]
      rcases hsame action haction with heq | hlow
      · rw [heq]
      · rw [decide_eq_false hlow, Bool.and_false, Bool.and_false]
  have hsorted := @Distinct.sorted actions operationId hdistinct
    (fun action => action.cancellable operationId && after ≤ action.callOrdinal)
    fun action hpage => (cancellable_iff.mp (Bool.and_eq_true _ _ ▸ hpage).1).1
  rw [Store.page, hfilter, hsorted.eq_of_mem_iff
    (h.sorted.sublist (List.sublist_append_right done rest)) fun action => ?_]
  rw [(List.perm_insertionSort _ _).mem_iff, List.mem_filter, Bool.and_eq_true, decide_eq_true_eq,
    ← and_assoc, ← h.mem, List.mem_append]
  constructor
  · rintro ⟨hin | hin, hafter⟩
    · exact absurd (hdone action hin) (Nat.not_lt.mpr hafter)
    · exact hin
  · intro hin
    exact ⟨.inr hin, hrest action hin⟩

/-- **A page's write** cancels the Actions it names, and no other. -/
theorem cancel_eq {s : Store} {session : List UInt8}
    (h : Selected actions operationId (done ++ (chunk ++ rest))) (hdistinct : Distinct actions)
    (hsession : ∀ action ∈ actions, action.parentOperationId = operationId →
      action.session = session)
    (hactions : s.actions = actions.map (mark contentId first (done.map Action.actionId))) :
    s.cancel contentId (first + done.length) session (chunk.map Action.actionId) = .ok { s with
      actions := actions.map (mark contentId first ((done ++ chunk).map Action.actionId)) } := by
  have hmem : ∀ action ∈ chunk, action ∈ actions ∧ action.cancellable operationId = true :=
    fun action haction => (h.mem action).mp (by simp [haction])
  have hnodup := h.sorted.nodup
  have hdisjoint : ∀ id ∈ chunk.map Action.actionId, id ∉ done.map Action.actionId := by
    intro id hid hid'
    obtain ⟨action, haction, rfl⟩ := List.mem_map.mp hid
    obtain ⟨other, hother, hsame⟩ := List.mem_map.mp hid'
    have hin := ((h.mem other).mp (List.mem_append_left _ hother)).1
    rw [hdistinct.eq_of_id hin (hmem action haction).1 hsame] at hother
    exact (List.nodup_append.mp hnodup).2.2 action hother action
      (List.mem_append_left _ haction) rfl
  have hcancels : ∀ action ∈ actions,
      Store.cancels session (chunk.map Action.actionId)
          (mark contentId first (done.map Action.actionId) action) =
        decide (action.actionId ∈ chunk.map Action.actionId) := by
    intro action haction
    by_cases hid : action.actionId ∈ chunk.map Action.actionId
    · obtain ⟨other, hother, hsame⟩ := List.mem_map.mp hid
      obtain ⟨hin, hcancellable⟩ := hmem other hother
      rw [hdistinct.eq_of_id hin haction hsame] at hcancellable
      obtain ⟨hparent, hnone, hattempt⟩ := cancellable_iff.mp hcancellable
      rw [mark_of_notMem (hdisjoint _ hid), Store.cancels, hsession action haction hparent, hnone,
        hattempt, decide_eq_true hid, List.contains_iff_mem.mpr hid]
      simp
    · rw [decide_eq_false hid, Store.cancels, mark_actionId,
        Bool.eq_false_iff.mpr fun hcontains => hid (List.contains_iff_mem.mp hcontains)]
      rfl
  have hcount : s.actions.countP (Store.cancels session (chunk.map Action.actionId)) =
      (chunk.map Action.actionId).length := by
    rw [hactions, List.countP_map, List.countP_congr (q := fun action : Action =>
      decide (action.actionId ∈ chunk.map Action.actionId)) fun action haction => by
        rw [Function.comp_apply, hcancels action haction], List.length_map,
      List.countP_eq_length_filter]
    refine List.Perm.length_eq ((List.perm_ext_iff_of_nodup (hdistinct.ids.of_map.filter _)
      (List.nodup_append.mp (List.nodup_append.mp hnodup).2.1).1).mpr fun action => ?_)
    rw [List.mem_filter, decide_eq_true_eq]
    constructor
    · rintro ⟨hin, hid⟩
      obtain ⟨other, hother, hsame⟩ := List.mem_map.mp hid
      rw [← hdistinct.eq_of_id (hmem other hother).1 hin hsame]
      exact hother
    · intro hin
      exact ⟨(hmem action hin).1, List.mem_map_of_mem hin⟩
  rw [Store.cancel, if_neg (not_not_intro hcount)]
  simp only
  rw [hactions, List.map_map]
  congr 2
  refine List.map_congr_left fun action haction => ?_
  rw [Function.comp_apply, hcancels action haction, List.map_append, mark_append hdisjoint,
    List.length_map]
  simp only [decide_eq_true_eq]

/-- What the loop has done when it ends: it cancelled the first Actions in call order, each at the
next position, and it ended because there were as many as it was told, or no more. -/
structure Paged (actions selected : List Action) (session : List UInt8)
    (contentId first count : Nat) (done : List Action) (s : Store) (total : Nat) (s' : Store) :
    Prop where
  split : ∃ done' rest', selected = done' ++ rest' ∧ total = done'.length ∧
    (count ≤ done'.length ∨ rest' = []) ∧
    s' = { s with
      sessions := advance session (done'.length - done.length) s.sessions,
      actions := actions.map (mark contentId first (done'.map Action.actionId)) } ∧
    done.length ≤ done'.length ∧ (Store.cancelChunk ∣ done'.length ∨ rest' = [])

theorem Paged.of_rest {session : List UInt8} {count : Nat} {s s' : Store} {total : Nat}
    (hchunk : Paged actions selected session contentId first count (done ++ chunk)
      { s with
        sessions := advance session chunk.length s.sessions,
        actions := actions.map (mark contentId first ((done ++ chunk).map Action.actionId)) }
      total s') :
    Paged actions selected session contentId first count done s total s' := by
  obtain ⟨done', rest', hsplit, htotal, hend, hs', hlength, hwhole⟩ := hchunk
  rw [List.length_append] at hlength
  have hsum : chunk.length + (done'.length - (done ++ chunk).length) =
      done'.length - done.length := by
    rw [List.length_append]
    omega
  refine ⟨done', rest', hsplit, htotal, hend, ?_, by omega, hwhole⟩
  rw [hs', ← hsum]
  simp only [advance_advance]

/-- **The loop of pages.** -/
theorem cancelPages_ends {session : List UInt8} {count : Nat} {fails : Failure → Prop}
    (hfull : maxStored < first + selected.length → fails .sessionPositionExhausted)
    (hdistinct : Distinct actions)
    (hsession : ∀ action ∈ actions, action.parentOperationId = operationId →
      action.session = session) (h : Selected actions operationId selected) {s : Store}
    (hsplit : selected = done ++ rest) (hwhole : Store.cancelChunk ∣ done.length)
    (hactions : s.actions = actions.map (mark contentId first (done.map Action.actionId)))
    (hposition : s.positionOf session = some (first + done.length)) :
    Ends fails
      (fun result => Paged actions selected session contentId first count done s result.1 result.2)
      (s.cancelPages session operationId contentId count (rest.take Store.cancelChunk)
        done.length) := by
  induction hleft : count - done.length using Nat.strong_induction_on generalizing s done rest with
  | _ left ih =>
  rw [Store.cancelPages]
  by_cases hempty : rest.take Store.cancelChunk = []
  · have hrest : rest = [] := by
      rcases List.take_eq_nil_iff.mp hempty with hzero | hnil
      · cases hzero
      · exact hnil
    rw [if_pos hempty]
    refine .ok ⟨done, [], by rw [hsplit, hrest], rfl, .inr rfl, ?_, le_rfl, .inr rfl⟩
    rw [Nat.sub_self, advance_zero, ← hactions]
  rw [if_neg hempty]
  -- The page's Actions, and what is left after them.
  obtain ⟨chunk, hchunk⟩ : ∃ chunk, rest.take Store.cancelChunk = chunk := ⟨_, rfl⟩
  obtain ⟨later, hlater⟩ : ∃ later, rest.drop Store.cancelChunk = later := ⟨_, rfl⟩
  obtain rfl : rest = chunk ++ later := by
    rw [← hchunk, ← hlater, List.take_append_drop]
  rw [hchunk] at hempty ⊢
  have hshort : chunk.length < Store.cancelChunk → later = [] := by
    intro hlt
    rw [← hchunk, List.length_take] at hlt
    rw [← hlater]
    exact List.drop_of_length_le (by omega)
  have hchunkLength : chunk.length ≤ Store.cancelChunk := by
    rw [← hchunk]
    exact List.length_take_le _ _
  have hwhole' : chunk.length = Store.cancelChunk →
      Store.cancelChunk ∣ (done ++ chunk).length := by
    intro hfull
    rw [List.length_append, hfull]
    exact Nat.dvd_add hwhole (Nat.dvd_refl _)
  have htake : Ends fails _ (s.take session chunk.length) :=
    Store.take_ends hposition chunk.length fun hlt => hfull (by
      rw [hsplit, List.length_append, List.length_append]
      omega)
  cases htaken : s.take session chunk.length with
  | error failure => exact htake.of_error htaken
  | ok result =>
    obtain ⟨position, s₁⟩ := result
    obtain ⟨rfl, rfl⟩ := htake.of_ok htaken
    have hcancel := @cancel_eq actions done later chunk operationId contentId first
      { s with sessions := advance session chunk.length s.sessions } session (hsplit ▸ h) hdistinct
      hsession hactions
    simp only [hcancel]
    by_cases hend : done.length + chunk.length ≥ count ∨ chunk.length < Store.cancelChunk
    · rw [dif_pos hend]
      refine .ok ⟨done ++ chunk, later, by rw [hsplit, List.append_assoc], ?_, ?_, ?_, ?_, ?_⟩
      · rw [List.length_append]
      · rw [List.length_append]
        exact hend.imp id hshort
      · rw [List.length_append, Nat.add_sub_cancel_left]
      · rw [List.length_append]
        exact Nat.le_add_right _ _
      · rcases Nat.lt_or_eq_of_le hchunkLength with hlt | hfull
        · exact .inr (hshort hlt)
        · exact .inl (hwhole' hfull)
    · rw [dif_neg hend, ← List.length_append]
      have hsplit' : selected = (done ++ chunk) ++ later := by rw [hsplit, List.append_assoc]
      have hsorted : SortedBy Action.callOrdinal ((done ++ chunk) ++ later) := hsplit' ▸ h.sorted
      -- The next page begins after the last call of this one.
      obtain ⟨before, last, rfl⟩ := (List.eq_nil_or_concat' chunk).resolve_left hempty
      rw [List.getLast?_append, List.getLast?_singleton, Option.some_or, Option.map_some,
        Option.getD_some]
      have hpage := @page_eq actions (done ++ (before ++ [last])) later operationId contentId first
        { s with
          sessions := advance session (before ++ [last]).length s.sessions,
          actions := actions.map (mark contentId first
            ((done ++ (before ++ [last])).map Action.actionId)) }
        (last.callOrdinal + 1) (hsplit' ▸ h) hdistinct rfl ?_ ?_
      · rw [hpage]
        refine (ih _ ?_ hsplit' (hwhole' ?_) rfl ?_ rfl).mono fun result hresult => hresult.of_rest
        · rw [List.length_append]
          rw [Store.cancelChunk] at hend
          omega
        · exact le_antisymm hchunkLength (Nat.not_lt.mp fun hlt => hend (.inr hlt))
        · refine (Store.positionOf_advance hposition rfl).trans ?_
          rw [@List.length_append _ done, Nat.add_assoc]
      · intro action haction
        rw [← List.append_assoc] at haction hsorted
        rcases List.mem_append.mp haction with hfirst | hlast
        · have hless := (List.pairwise_append.mp (List.pairwise_append.mp hsorted).1).2.2 action
            hfirst last (List.mem_singleton_self _)
          omega
        · rw [List.mem_singleton.mp hlast]
          exact Nat.lt_succ_self _
      · intro action haction
        exact (List.pairwise_append.mp hsorted).2.2 last (by simp) action haction

end Rui.SessionStops
