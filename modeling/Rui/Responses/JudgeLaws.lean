import Rui.Responses.Edits
import Rui.Responses.JudgeRules
import Rui.Responses.JudgeSound

/-!
# The judge's verdict

The judge that hears an item reaches the verdict of its rules, whatever the
order of the members. Edits that no rule reads leave the verdict as it was.
-/

namespace Rui.Responses

open Library Library.Json Rui.Json

/-! ## The judge of an item -/

/-- The judge after an item's calls. -/
def judged (operation : Operation) : Json.Value → Judge
  | .object members =>
    let frame := holdMembers operation (.opened .item true 0) 1 members
    let (result, itemKind) := frame.finish operation
    { operation, result, itemKind, outermost := some frame }
  | .array elements =>
    let frame := holdElements operation (.opened .ignored false 0) 1 elements
    let (result, itemKind) := frame.finish operation
    { operation, result, itemKind, outermost := some frame }
  | value => { operation, result := unjudged value }

namespace Judge

theorem hearAll_item (operation : Operation) (tree : Tree) (depth offset : Nat) (inArray : Bool) :
    (reset operation).hearAll (valueCalls tree depth offset inArray) =
      some (judged operation tree.value) := by
  cases tree with
  | object inner members =>
    let opened : Judge := { operation, frames := [.opened .item true 0] }
    have hplaced : Placed opened.frames := by
      rintro _ _ ⟨⟩
      exact .inr rfl
    rw [valueCalls, hearAll_cons]
    change (opened.hearAll _ : Option Judge) = _
    rw [hearAll_append, hearAll_members _ (fun m _ => hearsValue m.value) opened _ _ _ rfl rfl
      hplaced]
    simp [hearAll, hear, ends, endContainer, opened, Judge.accept, Tree.value, judged]
  | array inner elements =>
    let opened : Judge := { operation, frames := [.opened .ignored false 0] }
    have hplaced : Placed opened.frames := by
      rintro _ _ ⟨⟩
      exact .inl rfl
    rw [valueCalls, hearAll_cons]
    change (opened.hearAll _ : Option Judge) = _
    rw [hearAll_append, hearAll_elements _ (fun e _ => hearsValue e.value) opened _ _ _ rfl rfl
      hplaced]
    simp [hearAll, hear, ends, endContainer, opened, Judge.accept, Tree.value, judged]
  | string pieces =>
    simp only [valueCalls, Tree.value, judged]
    apply hear_leaf rfl
    simp only [ends, reset, ne_eq, not_true, if_false, Word.of_text]
    rfl
  | number number =>
    simp only [valueCalls, Tree.value, judged]
    apply hear_leaf rfl
    rfl
  | literal literal =>
    simp only [valueCalls, Tree.value, judged]
    apply hear_leaf rfl
    cases literal <;> rfl

end Judge

mutual

theorem valueAs_sound (operation : Operation) (kind : Kind) (depth : Nat) :
    ∀ value : Json.Value, (valueAs operation kind depth value).Sound
  | .object members => by
    rw [valueAs]
    split
    · exact Value.sound_unjudged .object none 0 false
    · exact (holdMembers_sound operation _ (Frame.sound_opened _ _ _) members).finish operation
  | .array elements => by
    rw [valueAs]
    split
    · exact Value.sound_unjudged .array none 0 false
    · exact (holdElements_sound operation _ (Frame.sound_opened _ _ _) elements).finish operation
  | .string _ => Value.sound_unjudged _ _ _ _
  | .number _ => Value.sound_unjudged _ _ _ _
  | .literal .trueValue => Value.sound_unjudged _ _ _ _
  | .literal .falseValue => Value.sound_unjudged _ _ _ _
  | .literal .nullValue => Value.sound_unjudged _ _ _ _

theorem holdMembers_sound (operation : Operation) (depth : Nat) {frame : Frame}
    (h : frame.Sound) : ∀ members : Members, (holdMembers operation frame depth members).Sound
  | [] => h
  | (key, value) :: members => by
    have hkeyed : (frame.keyOf (Name.named key)).Sound := ⟨h.fields, h.aggregate, h.array⟩
    exact holdMembers_sound operation depth (hkeyed.accept (valueAs_sound operation _ depth value))
      members

theorem holdElements_sound (operation : Operation) (depth : Nat) {frame : Frame}
    (h : frame.Sound) :
    ∀ elements : List Json.Value, (holdElements operation frame depth elements).Sound
  | [] => h
  | value :: elements =>
    holdElements_sound operation depth (h.accept (valueAs_sound operation _ depth value)) elements

end

theorem judged_closed (operation : Operation) (value : Json.Value) :
    (judged operation value).Closed where
  outermost hshape := by
    cases value with
    | object members =>
      exact ⟨_, rfl, holdMembers_sound operation 1 (Frame.sound_opened _ _ _) members,
        holdMembers_kind _ _ _ _, rfl⟩
    | array elements =>
      obtain ⟨hobject, harray, hduplicate⟩ :=
        holdElements_keeps operation 1 elements (.opened .ignored false 0)
      obtain ⟨hfinish, _⟩ := finish_keeps harray hduplicate operation
      rw [hobject] at hfinish
      cases hfinish.symm.trans hshape
    | literal literal => cases literal <;> cases hshape
    | string bytes => cases hshape
    | number number => cases hshape

/-! ## The verdict -/

namespace Judge

/-- What the judge makes of the item it has heard. -/
def outcome (self : Judge) : Option (Check Verdict) :=
  match self.verdict with
  | none => none
  | some (.error e) => some (.error e)
  | some (.ok replaysReasoningText) =>
    match self.itemKind, self.answerPhase with
    | some kind, some answerPhase => some (.ok { kind, answerPhase, replaysReasoningText })
    | _, _ => none

end Judge

theorem item_shown (operation : Operation) (members : Members) :
    Shows.Item operation (holdMembers operation (.opened .item true 0) 1 members) members where
  shows := shows_holdMembers operation .item 0 members
  kind := holdMembers_kind _ _ _ _
  reads := by
    obtain ⟨_, hcapacity, _⟩ := holdMembers_keeps operation 1 members (.opened .item true 0)
    intro field
    rw [hcapacity]
    cases field <;> decide

variable {operation : Operation} {frame : Frame} {members : Members}

theorem replaysReasoningText_eq (h : Shows.Item operation frame members) {judge : Judge}
    {kind : OutputKind} (hkind : judge.itemKind = some kind)
    (houtermost : judge.outermost = some frame) {replays : Bool}
    (hreplays : judge.replaysReasoningText = some replays) :
    replays = Rules.replaysReasoningText members kind := by
  rw [Judge.replaysReasoningText, hkind] at hreplays
  split at hreplays
  · cases hreplays
    cases kind <;> first | rfl | simp_all
  · obtain rfl : kind = .reasoning := by simp_all
    rw [houtermost, Option.map_some, h.shows _ (h.reads _), h.kind] at hreplays
    rw [Rules.replaysReasoningText]
    cases hget : Rules.get members .content with
    | error e =>
      rw [hget] at hreplays
      cases hreplays
    | ok value =>
      rw [hget] at hreplays
      cases hreplays
      simp [content_length operation]

theorem answerPhase_eq (h : Shows.Item operation frame members) {judge : Judge} {kind : OutputKind}
    (hkind : judge.itemKind = some kind) (houtermost : judge.outermost = some frame) {phase : Phase}
    (hphase : judge.answerPhase = some phase) : phase = Rules.answerPhase members kind := by
  rw [Judge.answerPhase, hkind] at hphase
  split at hphase
  · cases hphase
    cases kind <;> first | rfl | simp_all
  · obtain rfl : kind = .message := by simp_all
    rw [houtermost, Option.map_some, h.shows _ (h.reads _), h.kind] at hphase
    rw [Rules.answerPhase]
    cases hget : Rules.get members .phase with
    | error e =>
      rw [hget] at hphase
      cases hphase
    | ok value =>
      rw [hget] at hphase
      cases hphase
      cases value with
      | none => rfl
      | some value =>
        rw [taken_unjudged (by decide)]
        cases value with
        | string bytes =>
          simp only [Bool.or_eq_true, unjudged_is]
          generalize Word.named bytes = word
          cases word with
          | none => rfl
          | some word => cases word <;> rfl
        | literal literal => cases literal <;> rfl
        | _ => rfl

theorem Shows.Item.finish_eq (h : Shows.Item operation frame members)
    (hobject : frame.object = true) :
    (frame.finish operation).1.failure = failureOf (Rules.itemKind members >>= fun kind =>
        Rules.kindRules operation kind members) ∧
      (frame.finish operation).2 = (Rules.itemKind members).toOption := by
  rw [Frame.finish, if_pos hobject, Frame.judge]
  simp only [h.kind, h.itemKind_eq]
  cases Rules.itemKind members with
  | error e => exact ⟨rfl, rfl⟩
  | ok kind =>
    simp only [h.kindRules_eq, ok_bind]
    exact ⟨trivial, rfl⟩

theorem outcome_judged (operation : Operation) (value : Json.Value) :
    (judged operation value).outcome = some (Rules.verdict operation value) := by
  have hclosed := judged_closed operation value
  cases value with
  | object members =>
    have hitem := item_shown operation members
    obtain ⟨hobject, _, hshape, hduplicate⟩ := holdMembers_keeps operation 1 members
      (.opened .item true 0)
    obtain ⟨hresult, _⟩ := finish_keeps hshape hduplicate operation
    rw [hobject] at hresult
    obtain ⟨hfailure, hkind⟩ := hitem.finish_eq hobject
    let judge := judged operation (.object members)
    change judge.result.failure = _ at hfailure
    change judge.itemKind = _ at hkind
    change judge.result.shape = .object at hresult
    obtain ⟨verdict, hverdict, hpassed⟩ := hclosed.verdict
    change judge.verdict = some verdict at hverdict
    change judge.outcome = _
    rw [Judge.outcome, hverdict]
    rw [Judge.verdict, if_neg (not_not.mpr hresult)] at hverdict
    rw [Rules.verdict]
    cases hrules : Rules.itemKind members with
    | error e =>
      rw [hfailure, hrules] at hverdict
      cases hverdict
      rfl
    | ok kind =>
      rw [hrules] at hkind
      rw [hrules, ok_bind] at hfailure
      rw [ok_bind]
      cases hkindRules : Rules.kindRules operation kind members with
      | error e =>
        rw [hfailure, hkindRules] at hverdict
        cases hverdict
        rfl
      | ok _ =>
        rw [hkindRules] at hfailure
        rw [hfailure] at hverdict
        obtain ⟨hambiguous, _⟩ := hclosed.passed hresult hfailure
        simp only [show judge.result.ambiguous = false from hambiguous, Bool.false_eq_true,
          if_false] at hverdict
        obtain ⟨replays, hreplays, rfl⟩ := Option.map_eq_some_iff.mp hverdict
        obtain ⟨_, phase, _, hphase⟩ := hpassed replays rfl
        change judge.answerPhase = some phase at hphase
        have hreplays' := replaysReasoningText_eq hitem hkind rfl hreplays
        have hphase' := answerPhase_eq hitem hkind rfl hphase
        rw [hkind, hphase, hreplays', hphase']
        rfl
  | literal literal => cases literal <;> rfl
  | string bytes => rfl
  | number number => rfl
  | array elements =>
    obtain ⟨hobject, hshape, hduplicate⟩ :=
      holdElements_keeps operation 1 elements (.opened .ignored false 0)
    obtain ⟨hresult, _⟩ := finish_keeps hshape hduplicate operation
    rw [hobject] at hresult
    let judge := judged operation (.array elements)
    change judge.result.shape = .array at hresult
    change judge.outcome = _
    rw [Judge.outcome, Judge.verdict, if_pos (by simp [hresult])]
    rfl

/-- **The streaming judge evaluates the rules of the parsed item.** Whatever the
spelling of the item and wherever it stands in the event, the judge that hears
its calls comes to the verdict of the rules, in their order, over the parsed
item: the first rule broken, or the item's kind, answer phase and replay. Items
that differ by permuted members and members that no rule consumes, in the item
or in the objects it holds, come to one verdict. -/
theorem judge_evaluates (operation : Operation) (tree : Tree) (depth offset : Nat)
    (inArray : Bool) :
    ((Judge.reset operation).hearAll (valueCalls tree depth offset inArray)).bind Judge.outcome =
        some (Rules.verdict operation tree.value) ∧
      ∀ (other : Tree) (members members' : Members) (depth' offset' : Nat) (inArray' : Bool),
        tree.value = .object members → other.value = .object members' →
        Relation.EqvGen (Edit .item) members members' →
        ((Judge.reset operation).hearAll (valueCalls other depth' offset' inArray')).bind
            Judge.outcome =
          ((Judge.reset operation).hearAll (valueCalls tree depth offset inArray)).bind
            Judge.outcome := by
  have hjudge : ∀ (tree : Tree) (depth offset : Nat) (inArray : Bool),
      ((Judge.reset operation).hearAll (valueCalls tree depth offset inArray)).bind
        Judge.outcome = some (Rules.verdict operation tree.value) := by
    intro tree depth offset inArray
    rw [Judge.hearAll_item, Option.bind_some, outcome_judged]
  refine ⟨hjudge tree depth offset inArray, ?_⟩
  intro other members members' depth' offset' inArray' htree hother hedits
  rw [hjudge, hjudge, htree, hother, verdict_edits operation hedits]

end Rui.Responses
