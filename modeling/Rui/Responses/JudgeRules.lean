import Rui.Responses.JudgeRuns

/-!
# The judge evaluates the rules

A frame holds, of each name its depth reads, the last of the values that the
name has and whether it had more than one. That is all a rule asks for, so
each object's rules come out as they do over the parsed members.
-/

namespace Rui.Responses

open Library Library.Json Rui.Json

/-! ## Values that are held -/

theorem unjudged_shape (value : Json.Value) :
    (unjudged value).shape ≠ .absent ∧
      ((unjudged value).shape = .object ↔ isObject value = true) := by
  cases value with
  | literal literal => cases literal <;> simp [unjudged, isObject]
  | _ => simp [unjudged, isObject]

theorem judge_keeps (frame : Frame) (operation : Operation) (result : Value) :
    (frame.judge operation result).1.shape = result.shape ∧
      (frame.judge operation result).1.duplicate = result.duplicate := by
  rw [Frame.judge]
  split
  · split <;> exact ⟨rfl, rfl⟩
  · split <;> exact ⟨rfl, rfl⟩
  · split
    · exact ⟨rfl, rfl⟩
    · split <;> exact ⟨rfl, rfl⟩
  · exact ⟨rfl, rfl⟩
  · exact ⟨rfl, rfl⟩
  · exact ⟨rfl, rfl⟩

variable {frame : Frame}

theorem finish_keeps (hshape : frame.aggregate.shape = .array)
    (hduplicate : frame.aggregate.duplicate = false) (operation : Operation) :
    (frame.finish operation).1.shape = (if frame.object then .object else .array) ∧
      (frame.finish operation).1.duplicate = false := by
  rw [Frame.finish]
  split
  · obtain ⟨hshape', hduplicate'⟩ := judge_keeps frame operation
      { shape := .object, ambiguous := frame.ambiguity.1, ambiguities := frame.ambiguity.2 }
    exact ⟨hshape', hduplicate'⟩
  · exact ⟨hshape, hduplicate⟩

theorem accept_keeps (frame : Frame) (value : Value) :
    (frame.accept value).object = frame.object ∧ (frame.accept value).capacity = frame.capacity ∧
      (frame.accept value).aggregate.shape = frame.aggregate.shape ∧
      (frame.accept value).aggregate.duplicate = frame.aggregate.duplicate ∧
      (frame.accept value).aggregate.failure = frame.aggregate.failure := by
  rw [Frame.accept]
  split <;> exact ⟨rfl, rfl, rfl, rfl, rfl⟩

theorem holdMembers_keeps (operation : Operation) (depth : Nat) (members : Members) :
    ∀ frame : Frame, (holdMembers operation frame depth members).object = frame.object ∧
      (holdMembers operation frame depth members).capacity = frame.capacity ∧
      (holdMembers operation frame depth members).aggregate.shape = frame.aggregate.shape ∧
      (holdMembers operation frame depth members).aggregate.duplicate =
        frame.aggregate.duplicate := by
  induction members with
  | nil =>
    intro frame
    exact ⟨rfl, rfl, rfl, rfl⟩
  | cons member members ih =>
    intro frame
    obtain ⟨hobject, hcapacity, hshape, hduplicate, _⟩ := accept_keeps
      (frame.keyOf (Name.named member.1))
      (valueAs operation ((frame.keyOf (Name.named member.1)).childKind (isObject member.2)) depth
        member.2)
    obtain ⟨hobject', hcapacity', hshape', hduplicate'⟩ := ih
      ((frame.keyOf (Name.named member.1)).accept (valueAs operation
        ((frame.keyOf (Name.named member.1)).childKind (isObject member.2)) depth member.2))
    rw [holdMembers]
    exact ⟨hobject'.trans hobject, hcapacity'.trans hcapacity, hshape'.trans hshape,
      hduplicate'.trans hduplicate⟩

theorem holdElements_keeps (operation : Operation) (depth : Nat) (elements : List Json.Value) :
    ∀ frame : Frame, (holdElements operation frame depth elements).object = frame.object ∧
      (holdElements operation frame depth elements).aggregate.shape = frame.aggregate.shape ∧
      (holdElements operation frame depth elements).aggregate.duplicate =
        frame.aggregate.duplicate := by
  induction elements with
  | nil =>
    intro frame
    exact ⟨rfl, rfl, rfl⟩
  | cons element elements ih =>
    intro frame
    obtain ⟨hobject, _, hshape, hduplicate, _⟩ := accept_keeps frame
      (valueAs operation (frame.childKind (isObject element)) depth element)
    obtain ⟨hobject', hshape', hduplicate'⟩ := ih
      (frame.accept (valueAs operation (frame.childKind (isObject element)) depth element))
    rw [holdElements]
    exact ⟨hobject'.trans hobject, hshape'.trans hshape, hduplicate'.trans hduplicate⟩

/-- However a value is judged, its shape is its own, and it is not yet a
duplicate. -/
theorem valueAs_keeps (operation : Operation) (kind : Kind) (depth : Nat) (value : Json.Value) :
    (valueAs operation kind depth value).shape = (unjudged value).shape ∧
      (valueAs operation kind depth value).duplicate = false := by
  cases value with
  | object members =>
    rw [valueAs]
    split
    · exact ⟨rfl, rfl⟩
    · obtain ⟨hobject, _, hshape, hduplicate⟩ :=
        holdMembers_keeps operation (depth + 1) members (.opened kind true depth)
      obtain ⟨hshape', hduplicate'⟩ := finish_keeps hshape hduplicate operation
      rw [hobject] at hshape'
      exact ⟨hshape', hduplicate'⟩
  | array elements =>
    rw [valueAs]
    split
    · exact ⟨rfl, rfl⟩
    · obtain ⟨hobject, hshape, hduplicate⟩ :=
        holdElements_keeps operation (depth + 1) elements (.opened kind false depth)
      obtain ⟨hshape', hduplicate'⟩ := finish_keeps hshape hduplicate operation
      rw [hobject] at hshape'
      exact ⟨hshape', hduplicate'⟩
  | string bytes => exact ⟨rfl, rfl⟩
  | number number => exact ⟨rfl, rfl⟩
  | literal literal => cases literal <;> exact ⟨rfl, rfl⟩

/-! ## Fields -/

/-- What a container is judged as, by the object it is a member of. -/
def childOf : Kind → Name → Bool → Kind
  | .item, .caller, true => .caller
  | .item, .internalChatMessageMetadataPassthrough, true => .metadata
  | .item, .content, false => .blocks
  | .item, .summary, false => .blocks
  | .block, .annotations, false => .annotations
  | _, _, _ => .ignored

theorem childKind_member (hobject : frame.object = true) {field : Name}
    (hkey : frame.key = some field) (object : Bool) :
    frame.childKind object = childOf frame.kind field object := by
  obtain ⟨kind, isObject, key, fields, capacity, aggregate⟩ := frame
  cases hobject
  cases hkey
  cases kind <;> cases object <;> cases field <;> rfl

/-- What a field of a frame holds. -/
def taken (operation : Operation) (kind : Kind) (depth : Nat) (field : Name) :
    Option Json.Value → Value
  | none => {}
  | some value => valueAs operation (childOf kind field (isObject value)) depth value

/-- What a frame holds of a field after all of the field's values. -/
def heldLast (operation : Operation) (kind : Kind) (depth : Nat) (field : Name)
    (held : Option Value) (values : List Json.Value) : Option Value :=
  values.foldl (fun held value => some { taken operation kind depth field (some value) with
    duplicate := held.isSome }) held

theorem accept_fields (hobject : frame.object = true) (value : Value) (field : Name) :
    (frame.accept value).fields field =
      if frame.key = some field then
        some { value with duplicate := (frame.fields field).isSome }
      else frame.fields field := by
  simp [Frame.accept, hobject]

theorem holdMembers_fields (operation : Operation) (depth : Nat) (field : Name)
    (members : Members) : ∀ frame : Frame, frame.object = true → field.index < frame.capacity →
    (holdMembers operation frame depth members).fields field =
      heldLast operation frame.kind depth field (frame.fields field)
        (Rules.named members field) := by
  induction members with
  | nil =>
    intro frame _ _
    rfl
  | cons member members ih =>
    obtain ⟨key, value⟩ := member
    intro frame hobject hfield
    let keyed := frame.keyOf (Name.named key)
    let value' := valueAs operation (keyed.childKind (isObject value)) depth value
    have hopen : keyed.object = true := hobject
    obtain ⟨hobject', hcapacity', _⟩ := accept_keeps keyed value'
    have hrest := ih (keyed.accept value') (hobject'.trans hopen) (hcapacity' ▸ hfield)
    rw [accept_kind, accept_fields hopen] at hrest
    rw [holdMembers, hrest, Rules.named_cons]
    by_cases hkey : key = field.spell
    · have hkeyed : keyed.key = some field := by
        simp [keyed, Frame.keyOf, Name.named_eq_some.mpr hkey, Option.filter, hfield]
      have hchild : keyed.childKind (isObject value) = childOf frame.kind field (isObject value) :=
        childKind_member hopen hkeyed _
      simp only [if_pos hkey, if_pos hkeyed, value', hchild]
      rfl
    · have hkeyed : keyed.key ≠ some field := by
        intro hkeyed
        exact hkey (Name.named_eq_some.mp (Option.filter_eq_some_iff.mp hkeyed).1)
      simp only [if_neg hkey, if_neg hkeyed]
      rfl

/-- A frame's fields are those of the members it is after. -/
def Shows (operation : Operation) (frame : Frame) (depth : Nat) (members : Members) : Prop :=
  ∀ field, field.index < frame.capacity → frame.get field =
    (Rules.get members field).map (taken operation frame.kind depth field)

theorem heldLast_some (operation : Operation) (kind : Kind) (depth : Nat) (field : Name)
    (values : List Json.Value) : ∀ held : Value, held.duplicate = true →
    ∃ value, heldLast operation kind depth field (some held) values = some value ∧
      value.duplicate = true := by
  induction values with
  | nil =>
    intro held hduplicate
    exact ⟨held, rfl, hduplicate⟩
  | cons value values ih =>
    intro held _
    exact ih _ rfl

theorem shows_holdMembers (operation : Operation) (kind : Kind) (depth : Nat) (members : Members) :
    Shows operation (holdMembers operation (.opened kind true depth) (depth + 1) members)
      (depth + 1) members := by
  intro field hfield
  obtain ⟨_, hcapacity, _⟩ :=
    holdMembers_keeps operation (depth + 1) members (.opened kind true depth)
  rw [hcapacity] at hfield
  rw [holdMembers_kind, Frame.get, Frame.lookup, holdMembers_fields _ _ _ _ _ rfl hfield, Rules.get]
  cases hnamed : Rules.named members field with
  | nil => rfl
  | cons value values =>
    cases values with
    | nil =>
      obtain ⟨_, hduplicate⟩ := valueAs_keeps operation
        (childOf kind field (isObject value)) (depth + 1) value
      simp only [heldLast, List.foldl_cons, List.foldl_nil, Option.getD_some, Frame.opened, taken,
        Option.isSome_none, Bool.false_eq_true, if_false]
      rw [← hduplicate]
      rfl
    | cons more values =>
      obtain ⟨last, hlast, hduplicate⟩ := heldLast_some operation kind (depth + 1) field values
        { taken operation kind (depth + 1) field (some more) with duplicate := true } rfl
      have hheld : heldLast operation kind (depth + 1) field none (value :: more :: values) =
          some last := hlast
      simp only [Frame.opened, hheld, Option.getD_some, hduplicate, if_true]
      rfl

/-! ## One field's rules -/

section Fields

variable {operation : Operation} {frame : Frame} {depth : Nat} {members : Members} {β : Type}
  {field : Name} {next : Value → Check β}

theorem Shows.bind_get (h : Shows operation frame depth members)
    (hfield : field.index < frame.capacity) {next' : Option Json.Value → Check β}
    (hnext : ∀ value, next (taken operation frame.kind depth field value) = next' value) :
    (frame.get field >>= next) = (Rules.get members field >>= next') := by
  rw [h field hfield]
  cases Rules.get members field with
  | error e => rfl
  | ok value => exact hnext value

theorem unjudged_is (bytes : List UInt8) (word : Word) :
    (unjudged (.string bytes)).is word = true ↔ Word.named bytes = some word := by
  simp [unjudged, Value.is]

theorem Shows.string_eq (h : Shows operation frame depth members)
    (hfield : field.index < frame.capacity) : frame.string field =
      (Rules.string members field).map fun bytes => unjudged (.string bytes) := by
  rw [Frame.string, Rules.string, h field hfield]
  cases Rules.get members field with
  | error e => rfl
  | ok value =>
    cases value with
    | none => rfl
    | some value =>
      obtain ⟨hshape, _⟩ :=
        valueAs_keeps operation (childOf frame.kind field (isObject value)) depth value
      cases value with
      | string bytes => rfl
      | object members =>
        simp only [Except.map, ok_bind, taken, hshape]
        rfl
      | array elements =>
        simp only [Except.map, ok_bind, taken, hshape]
        rfl
      | number number => rfl
      | literal literal => cases literal <;> rfl

theorem Shows.bind_string (h : Shows operation frame depth members)
    (hfield : field.index < frame.capacity) {next' : List UInt8 → Check β}
    (hnext : ∀ bytes, next (unjudged (.string bytes)) = next' bytes) :
    (frame.string field >>= next) = (Rules.string members field >>= next') := by
  rw [h.string_eq hfield]
  cases Rules.string members field with
  | error e => rfl
  | ok bytes => exact hnext bytes

theorem Shows.bind_word (h : Shows operation frame depth members)
    (hfield : field.index < frame.capacity) {next' : Option Word → Check β}
    (hnext : ∀ bytes, Rules.string members field = .ok bytes →
      next (unjudged (.string bytes)) = next' (Word.named bytes)) :
    (frame.word field >>= next) = (Rules.word members field >>= next') := by
  rw [Frame.word, Rules.word, h.string_eq hfield]
  cases hstring : Rules.string members field with
  | error e => rfl
  | ok bytes =>
    change ((if bytes.length > maxWordBytes then _ else _) >>= _) =
      ((if bytes.length > maxWordBytes then _ else _) >>= _)
    split
    · rfl
    · exact hnext bytes hstring

theorem get_of_string {bytes : List UInt8} (hstring : Rules.string members field = .ok bytes) :
    Rules.get members field = .ok (some (.string bytes)) := by
  rw [Rules.string] at hstring
  cases hget : Rules.get members field with
  | error e =>
    rw [hget] at hstring
    cases hstring
  | ok value =>
    rw [hget, ok_bind] at hstring
    split at hstring
    · rw [pure_eq_ok] at hstring
      rw [hstring]
    · exact (throw_eq_ok.mp hstring).elim
    · exact (throw_eq_ok.mp hstring).elim

theorem Shows.identity_eq (h : Shows operation frame depth members)
    (hfield : field.index < frame.capacity) : frame.identity field = Rules.identity members field :=
  h.bind_string hfield fun _ => rfl

theorem taken_absent (kind : Kind) (field : Name) (value : Option Json.Value) :
    (taken operation kind depth field value).shape = .absent ↔ value = none := by
  cases value with
  | none => simp [taken]
  | some value =>
    obtain ⟨hshape, _⟩ := valueAs_keeps operation (childOf kind field (isObject value)) depth value
    simp [taken, hshape, (unjudged_shape value).1]

theorem Shows.completed_eq (h : Shows operation frame depth members)
    (hfield : Name.status.index < frame.capacity) : frame.completed = Rules.completed members := by
  apply h.bind_get hfield
  intro value
  simp only [taken_absent]
  cases value with
  | none => rfl
  | some value =>
    apply h.bind_word hfield
    intro bytes _
    exact require_congr (unjudged_is bytes _) _

theorem Shows.unheld_eq (h : Shows operation frame depth members)
    (hfield : field.index < frame.capacity) : frame.unheld field = Rules.unheld members field := by
  apply h.bind_get hfield
  intro value
  apply require_congr
  rw [taken_absent, Option.isNone_iff_eq_none]

/-- Nothing looks inside most fields. -/
theorem taken_unjudged {kind : Kind} (hchild : ∀ object, childOf kind field object = .ignored)
    (value : Json.Value) : taken operation kind depth field (some value) = unjudged value := by
  rw [taken, hchild, valueAs_ignored]

end Fields

/-! ## Arrays of judged objects -/

section Elements

variable {operation : Operation} {depth : Nat} {child : Kind} {reading : Reading}
  {rules : Members → Check Unit} {frame : Frame}

theorem accept_element (hobject : frame.object = false) (hchild : frame.childKind true = child)
    (hrules : ∀ members, (valueAs operation child depth (.object members)).failureAs reading =
      failureOf (rules members)) (value : Json.Value) :
    (frame.accept (valueAs operation (frame.childKind (isObject value)) depth
      value)).aggregate.failures reading =
        (frame.aggregate.failures reading <|> failureOf (Rules.inObject rules value)) := by
  obtain ⟨hshape, _⟩ := valueAs_keeps operation (frame.childKind (isObject value)) depth value
  simp only [Frame.accept, hobject, Bool.false_eq_true, if_false, hshape]
  cases value with
  | object members =>
    simp only [isObject, ne_eq]
    rw [hchild, hrules]
    rfl
  | array elements => rfl
  | string bytes => rfl
  | number number => rfl
  | literal literal => cases literal <;> rfl

/-- What an array's elements are judged as is settled by its kind. -/
theorem childKind_element {frame' : Frame} (hobject : frame.object = false)
    (hobject' : frame'.object = false) (hkind : frame'.kind = frame.kind) (object : Bool) :
    frame'.childKind object = frame.childKind object := by
  simp [Frame.childKind, hobject, hobject', hkind]

/-- The failure of elements under a reading is that of the first that fails. -/
theorem holdElements_failures
    (hrules : ∀ members, (valueAs operation child depth (.object members)).failureAs reading =
      failureOf (rules members)) (elements : List Json.Value) : ∀ frame : Frame,
    frame.object = false → frame.childKind true = child →
      (holdElements operation frame depth elements).aggregate.failures reading =
        (frame.aggregate.failures reading <|> failureOf (Rules.elements rules elements)) ∧
      (holdElements operation frame depth elements).aggregate.failure = frame.aggregate.failure ∧
      (holdElements operation frame depth elements).aggregate.length =
        frame.aggregate.length + elements.length := by
  induction elements with
  | nil =>
    intro frame _ _
    exact ⟨by simp [holdElements, Rules.elements], rfl, rfl⟩
  | cons value elements ih =>
    intro frame hobject hchild
    let next := frame.accept (valueAs operation (frame.childKind (isObject value)) depth value)
    obtain ⟨hobject', _, _, _, hfailure'⟩ := accept_keeps frame
      (valueAs operation (frame.childKind (isObject value)) depth value)
    have hchild' : next.childKind true = child :=
      (childKind_element hobject (hobject'.trans hobject) (accept_kind _ _) true).trans hchild
    obtain ⟨hfailures, hfailure, hlength⟩ := ih next (hobject'.trans hobject) hchild'
    rw [holdElements]
    refine ⟨?_, hfailure.trans hfailure', ?_⟩
    · rw [hfailures, accept_element hobject hchild hrules, Rules.elements, failureOf_bind]
      simp only [Option.orElse_eq_orElse, Option.orElse_eq_or, Option.or_assoc]
    · rw [hlength]
      simp [next, Frame.accept, hobject]
      omega

theorem valueAs_array {kind : Kind} (hkind : kind ≠ .ignored)
    (hchild : (Frame.opened kind false depth).childKind true = child)
    (hrules : ∀ members,
      (valueAs operation child (depth + 1) (.object members)).failureAs reading =
        failureOf (rules members)) (elements : List Json.Value) :
    (valueAs operation kind depth (.array elements)).failureAs reading =
        failureOf (Rules.elements rules elements) ∧
      (valueAs operation kind depth (.array elements)).length = elements.length := by
  obtain ⟨hfailures, hfailure, hlength⟩ :=
    holdElements_failures hrules elements (.opened kind false depth) rfl hchild
  obtain ⟨hobject, _⟩ :=
    holdElements_keeps operation (depth + 1) elements (.opened kind false depth)
  rw [valueAs, if_neg hkind, Frame.finish, hobject]
  refine ⟨?_, ?_⟩
  · rw [Value.failureAs]
    simp only [Frame.opened, Bool.false_eq_true, if_false] at hfailures hfailure ⊢
    rw [hfailure, hfailures]
    simp
  · simpa [Frame.opened] using hlength

theorem Shows.blocks_eq {members : Members} (h : Shows operation frame depth members) {field : Name}
    (hfield : field.index < frame.capacity) (harray : childOf frame.kind field false ≠ .ignored)
    (hchild : (Frame.opened (childOf frame.kind field false) false depth).childKind true = child)
    (hrules : ∀ members,
      (valueAs operation child (depth + 1) (.object members)).failureAs reading =
        failureOf (rules members)) :
    frame.blocks field reading = Rules.blocks rules members field := by
  apply h.bind_get hfield
  intro value
  simp only [taken_absent]
  cases value with
  | none => rfl
  | some value =>
    have hshape : (taken operation frame.kind depth field (some value)).shape =
        (unjudged value).shape := (valueAs_keeps _ _ _ _).1
    simp only [hshape]
    cases value with
    | array elements =>
      obtain ⟨hfailure, _⟩ := valueAs_array harray hchild hrules elements
      simp only [unjudged, reduceCtorEq, if_false, ne_eq, not_true]
      change Frame.unlessFailed ((valueAs operation (childOf frame.kind field false) depth
        (.array elements)).failureAs reading) = _
      rw [hfailure]
      cases Rules.elements rules elements <;> rfl
    | object members => rfl
    | string bytes => rfl
    | number number => rfl
    | literal literal => cases literal <;> rfl

end Elements

/-! ## Judged objects -/

section Objects

variable (operation : Operation)

theorem valueAs_object {kind : Kind} (hkind : kind ≠ .ignored) (depth : Nat) (members : Members) :
    ∃ frame : Frame, frame.kind = kind ∧ frame.capacity = capacity depth ∧
      Shows operation frame (depth + 1) members ∧
      valueAs operation kind depth (.object members) = (frame.judge operation
        { shape := .object, ambiguous := frame.ambiguity.1, ambiguities := frame.ambiguity.2 }).1 := by
  obtain ⟨hobject, hcapacity, _⟩ :=
    holdMembers_keeps operation (depth + 1) members (.opened kind true depth)
  refine ⟨_, holdMembers_kind _ _ _ _, hcapacity, shows_holdMembers operation kind depth members, ?_⟩
  rw [valueAs, if_neg hkind, Frame.finish, hobject]
  rfl

theorem annotation_judged (members : Members) :
    (valueAs operation Kind.annotation 4 (.object members)).failureAs .output =
      failureOf (Rules.annotation members) := by
  obtain ⟨frame, hkind, hcapacity, hshows, hvalue⟩ :=
    valueAs_object operation (by decide : Kind.annotation ≠ .ignored) 4 members
  have hrules : (do
      let type ← frame.word .type
      require (type.is .urlCitation) Incompatibility.unsupportedAnnotation) = Rules.annotation members :=
    hshows.bind_word (by rw [hcapacity]; decide +kernel) fun bytes _ =>
      require_congr (unjudged_is bytes _) _
  rw [hvalue, ← hrules]
  simp only [Frame.judge, hkind]
  cases frame.word .type with
  | error e => rfl
  | ok type =>
    rw [ok_bind, require]
    dsimp only
    split
    · rfl
    · rfl

theorem caller_judged (members : Members) :
    (valueAs operation .caller 1 (.object members)).failure =
      failureOf (Rules.caller members) := by
  obtain ⟨frame, hkind, hcapacity, hshows, hvalue⟩ :=
    valueAs_object operation (by decide : Kind.caller ≠ .ignored) 1 members
  have htype : Name.type.index < frame.capacity := by rw [hcapacity]; decide +kernel
  have hrules : frame.callerRules = Rules.caller members := by
    apply hshows.bind_get htype
    intro value
    have hpresent : require ((taken operation frame.kind 2 .type value).shape ≠ .absent)
        Incompatibility.unsupportedCaller = require (value.isSome) .unsupportedCaller :=
      require_congr (by rw [ne_eq, taken_absent, Option.isSome_iff_ne_none]) _
    rw [hpresent]
    congr 1
    funext _
    exact hshows.bind_word htype fun bytes _ => require_congr (unjudged_is bytes _) _
  rw [hvalue, ← hrules]
  simp only [Frame.judge, hkind]

theorem metadata_judged (members : Members) :
    (valueAs operation .metadata 1 (.object members)).failure =
      failureOf (Rules.metadata members) := by
  obtain ⟨frame, hkind, hcapacity, hshows, hvalue⟩ :=
    valueAs_object operation (by decide : Kind.metadata ≠ .ignored) 1 members
  have hrules : frame.metadataRules = Rules.metadata members := by
    have hunheld : ∀ field ∈ metadataFields.plain, frame.unheld field = Rules.unheld members field := by
      intro field hfield
      apply hshows.unheld_eq
      rw [hcapacity]
      revert field
      decide +kernel
    simp only [metadataFields, List.forall_mem_cons] at hunheld
    obtain ⟨hcell, hexecuted, hcomplete, _⟩ := hunheld
    simp only [Frame.metadataRules, Rules.metadata, metadataFields, List.forM, hcell, hexecuted,
      hcomplete]
  rw [hvalue, ← hrules]
  simp only [Frame.judge, hkind]

theorem failureAs_block {frame : Frame} (hkind : frame.kind = .block) (result : Value)
    (hfailure : result.failure = none) (reading : Reading) :
    (frame.judge operation result).1.failureAs reading =
      failureOf (frame.word .type >>= fun kind => match reading with
        | .output => frame.outputBlock kind
        | .reasoning => frame.textBlock kind .reasoningText
        | .summary => frame.textBlock kind .summaryText) := by
  simp only [Frame.judge, hkind]
  cases frame.word .type with
  | error e => rfl
  | ok kind =>
    rw [ok_bind]
    simp only [Value.failureAs, hfailure]
    cases reading <;> simp

theorem block_judged (reading : Reading) (members : Members) :
    (valueAs operation .block 2 (.object members)).failureAs reading =
      failureOf (Rules.block reading members) := by
  obtain ⟨frame, hkind, hcapacity, hshows, hvalue⟩ :=
    valueAs_object operation (by decide : Kind.block ≠ .ignored) 2 members
  have hfields : ∀ field ∈ [Name.type, .text, .refusal, .annotations],
      field.index < frame.capacity := by
    rw [hcapacity]
    decide +kernel
  simp only [List.forall_mem_cons] at hfields
  obtain ⟨htype, htext, hrefusal, hannotations, _⟩ := hfields
  have hblocks : frame.blocks .annotations .output =
      Rules.blocks Rules.annotation members .annotations :=
    hshows.blocks_eq hannotations (by simp [hkind, childOf])
      (by simp [hkind, childOf, Frame.opened, Frame.childKind]) (annotation_judged operation)
  have htextBlock : ∀ expected : Word, (frame.word .type >>= fun kind =>
      frame.textBlock kind expected) = Rules.textBlock expected members := by
    intro expected
    apply hshows.bind_word htype
    intro bytes _
    rw [Frame.textBlock, require_congr (unjudged_is bytes expected)]
    congr 1
    funext _
    exact hshows.bind_string htext fun _ => rfl
  rw [hvalue, failureAs_block operation hkind _ rfl]
  cases reading with
  | output =>
    congr 1
    apply hshows.bind_word htype
    intro bytes _
    simp only [Frame.outputBlock, Bool.not_eq_true', ← Bool.not_eq_true, unjudged_is]
    split
    · exact hshows.bind_string hrefusal fun _ => rfl
    · rw [ite_not]
      split
      · rw [hblocks, Rules.outputTextBlock]
        congr 1
        funext _
        exact hshows.bind_string htext fun _ => rfl
      · rfl
  | reasoning => exact congrArg failureOf (htextBlock .reasoningText)
  | summary => exact congrArg failureOf (htextBlock .summaryText)

end Objects

/-! ## The item -/

/-- A frame of an item, which reads every name. -/
structure Shows.Item (operation : Operation) (frame : Frame) (members : Members) : Prop where
  shows : Shows operation frame 1 members
  kind : frame.kind = .item
  reads : ∀ field : Name, field.index < frame.capacity

theorem content_length (operation : Operation) (value : Option Json.Value) :
    Rules.count value ≠ 0 ↔
      (taken operation .item 1 .content value).shape = .array ∧
        (taken operation .item 1 .content value).length ≠ 0 := by
  cases value with
  | none => simp [Rules.count, taken]
  | some value =>
    have hshape : (taken operation .item 1 .content (some value)).shape = (unjudged value).shape :=
      (valueAs_keeps _ _ _ _).1
    rw [hshape]
    cases value with
    | array elements =>
      obtain ⟨_, hlength⟩ := valueAs_array (by decide : Kind.blocks ≠ .ignored) rfl
        (block_judged operation .output) elements
      have htaken : (taken operation .item 1 .content (some (.array elements))).length =
          elements.length := hlength
      rw [htaken]
      simp [unjudged, Rules.count]
    | literal literal => cases literal <;> simp [unjudged, Rules.count]
    | _ => simp [unjudged, Rules.count]

namespace Shows.Item

variable {operation : Operation} {frame : Frame} {members : Members}
  (h : Shows.Item operation frame members)

include h

variable {field : Name}

theorem bind_plain {β : Type} (hfield : ∀ object, childOf .item field object = .ignored)
    {next : Value → Check β} {next' : Option Json.Value → Check β} (hnone : next {} = next' none)
    (hsome : ∀ value, next (unjudged value) = next' (some value)) :
    (frame.get field >>= next) = (Rules.get members field >>= next') := by
  apply h.shows.bind_get (h.reads field)
  intro value
  rw [h.kind]
  cases value with
  | none => exact hnone
  | some value =>
    rw [taken_unjudged hfield]
    exact hsome value

theorem encrypted_eq : frame.encrypted = Rules.encrypted members := by
  apply h.bind_plain (by decide) rfl
  intro value
  cases value with
  | literal literal => cases literal <;> rfl
  | _ => rfl

theorem textField_eq : frame.textField = Rules.textField members := by
  apply h.bind_plain (by decide) rfl
  intro value
  exact require_congr (by simp [(unjudged_shape value).1]) _

theorem bind_plainWord {value : Json.Value} (hget : Rules.get members field = .ok (some value))
    {next : Value → Check Unit} {next' : Option Word → Check Unit}
    (hnext : ∀ bytes, value = .string bytes → next (unjudged value) = next' (Word.named bytes)) :
    (frame.word field >>= next) = (Rules.word members field >>= next') := by
  apply h.shows.bind_word (h.reads field)
  intro bytes hstring
  cases hget.symm.trans (get_of_string hstring)
  exact hnext bytes rfl

theorem searched_eq : frame.searched = Rules.searched members := by
  rw [Frame.searched, Rules.searched, h.shows _ (h.reads _), h.kind]
  cases hget : Rules.get members .status with
  | error e => rfl
  | ok value =>
    cases value with
    | none => rfl
    | some value =>
      rw [Except.map, taken_unjudged (by decide), ok_bind, ok_bind, if_neg (unjudged_shape value).1]
      apply h.bind_plainWord hget
      rintro bytes rfl
      apply require_congr
      rw [Bool.or_eq_true, unjudged_is, unjudged_is]

theorem phaseField_eq : frame.phaseField = Rules.phaseField members := by
  rw [Frame.phaseField, Rules.phaseField, h.shows _ (h.reads _), h.kind]
  cases hget : Rules.get members .phase with
  | error e => rfl
  | ok value =>
    cases value with
    | none => rfl
    | some value =>
      rw [Except.map, taken_unjudged (by decide), ok_bind, ok_bind]
      by_cases hnull : value = .literal .nullValue
      · rw [hnull]
        rfl
      · have hshape : (unjudged value).shape ≠ .nullValue := by
          cases value with
          | literal literal => cases literal <;> simp_all [unjudged]
          | _ => simp [unjudged]
        rw [if_neg (by simp [(unjudged_shape value).1, hshape])]
        have hword : (do
            let _ ← frame.word .phase
            require ((unjudged value).is .commentary || (unjudged value).is .partialAnswer ||
              (unjudged value).is .finalAnswer) Incompatibility.unsupportedMessagePhase) = (do
            let phase ← Rules.word members .phase
            require (phase = some .commentary ∨ phase = some .partialAnswer ∨
              phase = some .finalAnswer) .unsupportedMessagePhase) := by
          apply h.bind_plainWord hget
          rintro bytes rfl
          apply require_congr
          rw [Bool.or_eq_true, Bool.or_eq_true, unjudged_is, unjudged_is, unjudged_is, or_assoc]
        rw [hword]
        cases value with
        | literal literal => cases literal <;> first | rfl | exact absurd rfl hnull
        | _ => rfl

theorem continued_eq : frame.continued = Rules.continued members := by
  apply h.bind_plain (by decide) rfl
  intro value
  cases value with
  | literal literal => cases literal <;> rfl
  | _ => rfl

theorem unusedControl_eq (hfield : ∀ object, childOf .item field object = .ignored) :
    frame.unusedControl field = Rules.unusedControl members field := by
  apply h.bind_plain hfield rfl
  intro value
  cases value with
  | literal literal => cases literal <;> rfl
  | _ => rfl

theorem asyncField_eq : frame.asyncField = Rules.asyncField members := by
  apply h.bind_plain (by decide) rfl
  intro value
  cases value with
  | literal literal => cases literal <;> rfl
  | _ => rfl

theorem callerField_eq : frame.callerField = Rules.callerField members := by
  apply h.shows.bind_get (h.reads _)
  intro value
  rw [h.kind]
  cases value with
  | none => rfl
  | some value =>
    cases value with
    | object members =>
      have hjudged := caller_judged operation members
      have hshape : (valueAs operation .caller 1 (.object members)).shape = .object :=
        (valueAs_keeps _ _ _ _).1
      simp only [taken, isObject, childOf, hshape, hjudged, Rules.inObject]
      cases Rules.caller members <;> rfl
    | literal literal => cases literal <;> rfl
    | _ => rfl

theorem metadataField_eq : frame.metadataField = Rules.metadataField members := by
  apply h.shows.bind_get (h.reads _)
  intro value
  simp only [taken_absent]
  rw [h.kind]
  cases value with
  | none => rfl
  | some value =>
    cases value with
    | object members =>
      have hjudged := metadata_judged operation members
      have hshape : (valueAs operation .metadata 1 (.object members)).shape = .object :=
        (valueAs_keeps _ _ _ _).1
      simp only [taken, isObject, childOf, hshape, hjudged, Rules.inObject, reduceCtorEq, if_false,
        ne_eq, not_true]
      cases Rules.metadata members <;> rfl
    | literal literal => cases literal <;> rfl
    | _ => rfl

theorem blocks_eq (hblocks : childOf .item field false = .blocks) (reading : Reading) :
    frame.blocks field reading = Rules.blocks (Rules.block reading) members field :=
  h.shows.blocks_eq (h.reads field) (by simp [h.kind, hblocks])
    (by simp [h.kind, hblocks, Frame.opened, Frame.childKind]) (block_judged operation reading)

theorem contentField_eq : frame.contentField = Rules.contentField members := by
  rw [Frame.contentField, Rules.contentField, h.shows _ (h.reads _), h.kind]
  cases hget : Rules.get members .content with
  | error e => rfl
  | ok value =>
    have hpresent : (taken operation .item 1 .content value).shape ≠ .absent ↔
        value.isSome = true := by
      rw [ne_eq, taken_absent, Option.isSome_iff_ne_none]
    rw [Except.map, ok_bind, ok_bind, h.blocks_eq rfl, require_congr hpresent, Rules.blocks,
      hget]
    have hcount := content_length operation value
    cases value with
    | none => rfl
    | some value =>
      cases value with
      | array elements =>
        have hshape : (taken operation .item 1 .content (some (.array elements))).shape = .array :=
          (valueAs_keeps _ _ _ _).1
        rw [hshape, eq_self_iff_true, true_and] at hcount
        rw [require_congr hcount]
      | literal literal => cases literal <;> rfl
      | _ => rfl

theorem itemKind_eq : frame.itemKind = Rules.itemKind members := by
  apply h.shows.bind_word (h.reads _)
  intro bytes hstring
  rw [h.shows.identity_eq (h.reads _), h.metadataField_eq, h.shows _ (h.reads _), h.kind,
    get_of_string hstring]
  rfl

theorem kindRules_eq (kind : OutputKind) :
    frame.kindRules operation kind = Rules.kindRules operation kind members := by
  have hcompleted := h.shows.completed_eq (h.reads _)
  cases kind with
  | reasoning =>
    simp only [Frame.kindRules, Frame.reasoningRules, Rules.kindRules, Rules.reasoning, hcompleted,
      h.textField_eq, h.encrypted_eq, h.blocks_eq (by rfl : childOf .item .summary false = _),
      h.blocks_eq (by rfl : childOf .item .content false = _)]
  | compaction =>
    simp only [Frame.kindRules, Frame.compactionRules, Rules.kindRules, Rules.compaction,
      hcompleted, h.encrypted_eq]
  | webSearchCall =>
    simp only [Frame.kindRules, Frame.webSearchCallRules, Rules.kindRules, Rules.webSearchCall,
      h.searched_eq, h.continued_eq]
  | functionCall =>
    have harguments : (do let _ ← frame.string .arguments) =
        (do let _ ← Rules.string members .arguments) :=
      h.shows.bind_string (h.reads _) fun _ => rfl
    have hspace := h.unusedControl_eq (by decide : ∀ object, childOf .item .nameSpace object = _)
    have hargs := h.unusedControl_eq
      (by decide : ∀ object, childOf .item .encryptedFunctionArgs object = _)
    simp only [Frame.kindRules, Frame.functionCallRules, Rules.kindRules, Rules.functionCall,
      hcompleted, h.callerField_eq, h.asyncField_eq, hspace, hargs,
      h.shows.identity_eq (h.reads _), harguments]
  | message =>
    simp only [Frame.kindRules, Frame.messageRules, Rules.kindRules, Rules.message, hcompleted,
      h.phaseField_eq, h.contentField_eq]
    congr 1
    funext _
    apply h.shows.bind_word (h.reads _)
    intro bytes _
    rw [require_congr (unjudged_is bytes _)]

end Shows.Item

end Rui.Responses
