import Rui.Responses.Rules

/-!
# Edits that no rule reads

The members of an item, and of the objects in it that rules read, may be
permuted, and members that the rules of their object do not consume may come
and go. None of this changes the verdict.
-/

namespace Rui.Responses

open Library Library.Json Rui.Json

/-! ## Roles -/

/-- The objects that carry rules, a block under one reading. -/
inductive Role
  | item
  | block (reading : Reading)
  | annotation
  | caller
  | metadata

/-- The fields that a table names. -/
def Consumed.names (self : Consumed) : List Name := self.plain ++ self.nested.map Prod.fst

namespace Role

/-- The fields that the rules of an object consume. -/
def consumed : Role → Members → List Name
  | item, members => itemFields.names ++
    match Rules.itemKind members with
    | .ok kind => (kindFields kind).names
    | .error _ => []
  | block reading, members => typeFields.names ++
    match reading, Rules.word members .type with
    | .output, .ok (some .refusal) => refusalFields.names
    | .output, .ok (some .outputText) => outputTextFields.names
    | .reasoning, .ok (some .reasoningText) => textFields.names
    | .summary, .ok (some .summaryText) => textFields.names
    | _, _ => []
  | annotation, _ => typeFields.names
  | caller, _ => typeFields.names
  | metadata, _ => metadataFields.names

/-- What an object that is a member is read as. -/
def object : Role → Name → Option Role
  | item, .caller => some caller
  | item, .internalChatMessageMetadataPassthrough => some metadata
  | _, _ => none

/-- What the objects of an array that is a member are read as. -/
def array : Role → Members → Name → Option Role
  | item, members, field =>
    match Rules.itemKind members with
    | .ok kind => ((kindFields kind).nested.lookup field).map block
    | .error _ => none
  | block .output, _, .annotations => some annotation
  | _, _, _ => none

end Role

/-- One edit of an object in its role, or of an object that it holds. -/
inductive Edit : Role → Members → Members → Prop
  | permute {role : Role} {members members' : Members} (h : members.Perm members') :
    Edit role members members'
  | add {role : Role} {before after : Members} {key : List UInt8} {value : Json.Value}
    (h : ∀ field ∈ role.consumed (before ++ after), key ≠ field.spell) :
    Edit role (before ++ after) (before ++ (key, value) :: after)
  | object {role child : Role} {before after members members' : Members} {field : Name}
    (h : role.object field = some child) (hedit : Edit child members members') :
    Edit role (before ++ (field.spell, .object members) :: after)
      (before ++ (field.spell, .object members') :: after)
  | array {role child : Role} {before after members members' : Members} {field : Name}
    {elements more : List Json.Value}
    (h : role.array (before ++ (field.spell, .array (elements ++ .object members :: more)) :: after)
      field = some child)
    (hedit : Edit child members members') :
    Edit role (before ++ (field.spell, .array (elements ++ .object members :: more)) :: after)
      (before ++ (field.spell, .array (elements ++ .object members' :: more)) :: after)

namespace Rules

/-! ## What a rule reads -/

section Congruence

variable {a b : Members} {field : Name}

theorem get_congr (h : named a field = named b field) : get a field = get b field := by
  rw [get, get, h]

theorem get_perm (h : a.Perm b) (field : Name) : get a field = get b field := by
  have hnamed : (named a field).Perm (named b field) := h.filterMap _
  rw [get, get]
  cases ha : named a field with
  | nil =>
    rw [ha] at hnamed
    rw [hnamed.nil_eq]
  | cons value values =>
    cases values with
    | nil =>
      rw [ha] at hnamed
      rw [List.singleton_perm.mp hnamed]
    | cons next values =>
      have hlength := hnamed.length_eq
      rw [ha] at hlength
      match hb : named b field with
      | [] => simp [hb] at hlength
      | [_] => simp [hb] at hlength
      | _ :: _ :: _ => rfl

theorem string_congr (h : get a field = get b field) : string a field = string b field := by
  rw [string, string, h]

theorem word_congr (h : get a field = get b field) : word a field = word b field := by
  rw [word, word, string_congr h]

theorem identity_congr (h : get a field = get b field) : identity a field = identity b field := by
  rw [identity, identity, string_congr h]

theorem completed_congr (h : get a .status = get b .status) : completed a = completed b := by
  rw [completed, completed, h, word_congr h]

theorem encrypted_congr (h : get a .encryptedContent = get b .encryptedContent) :
    encrypted a = encrypted b := by
  rw [encrypted, encrypted, h]

theorem blocks_congr (h : get a field = get b field) (rules : Members → Check Unit) :
    blocks rules a field = blocks rules b field := by
  rw [blocks, blocks, h]

theorem textField_congr (h : get a .text = get b .text) : textField a = textField b := by
  rw [textField, textField, h]

theorem searched_congr (h : get a .status = get b .status) : searched a = searched b := by
  rw [searched, searched, h, word_congr h]

theorem continued_congr (h : get a .encryptedContent = get b .encryptedContent) :
    continued a = continued b := by
  rw [continued, continued, h]

theorem unusedControl_congr (h : get a field = get b field) :
    unusedControl a field = unusedControl b field := by
  rw [unusedControl, unusedControl, h]

theorem asyncField_congr (h : get a .async = get b .async) : asyncField a = asyncField b := by
  rw [asyncField, asyncField, h]

theorem phaseField_congr (h : get a .phase = get b .phase) : phaseField a = phaseField b := by
  rw [phaseField, phaseField, h, word_congr h]

theorem callerField_congr (h : get a .caller = get b .caller) : callerField a = callerField b := by
  rw [callerField, callerField, h]

theorem metadataField_congr (h : get a .internalChatMessageMetadataPassthrough =
    get b .internalChatMessageMetadataPassthrough) : metadataField a = metadataField b := by
  rw [metadataField, metadataField, h]

theorem unheld_congr (h : get a field = get b field) : unheld a field = unheld b field := by
  rw [unheld, unheld, h]

end Congruence

/-! ## What the rules of an object read -/

section Objects

variable {a b : Members}

theorem annotation_congr (h : get a .type = get b .type) : annotation a = annotation b := by
  rw [Rules.annotation, Rules.annotation, word_congr h]

theorem caller_congr (h : get a .type = get b .type) : caller a = caller b := by
  rw [caller, caller, h, word_congr h]

theorem metadata_congr (h : ∀ field ∈ metadataFields.names, get a field = get b field) :
    metadata a = metadata b := by
  simp only [metadataFields, Consumed.names, List.map_nil, List.append_nil,
    List.forall_mem_cons] at h
  obtain ⟨hcell, hexecuted, hcomplete, _⟩ := h
  simp only [metadata, List.forM, unheld_congr hcell, unheld_congr hexecuted,
    unheld_congr hcomplete]

/-- An array that is a member is there, as long, and judged alike. -/
structure SameArray (rules : Members → Check Unit) (a b : Members) (field : Name) : Prop where
  counted : (get a field).map (fun value => (value.isSome, count value)) =
    (get b field).map fun value => (value.isSome, count value)
  blocks : Rules.blocks rules a field = Rules.blocks rules b field

theorem SameArray.of_get {field : Name} (h : get a field = get b field)
    (rules : Members → Check Unit) : SameArray rules a b field :=
  ⟨by rw [h], blocks_congr h rules⟩

theorem textBlock_congr {expected : Word} (hword : word a .type = word b .type)
    (h : word a .type = .ok (some expected) → get a .text = get b .text) :
    textBlock expected a = textBlock expected b := by
  simp only [textBlock, ← hword]
  cases hfound : word a .type with
  | error e => rfl
  | ok word =>
    rw [ok_bind, ok_bind, require]
    split
    · rename_i hexpected
      rw [string_congr (h (by rw [hfound, hexpected]))]
    · rfl

theorem block_congr {reading : Reading} (htype : get a .type = get b .type)
    (h : ∀ field ∈ (Role.block reading).consumed a, field ≠ .annotations →
      get a field = get b field)
    (hannotations : reading = .output → word a .type = .ok (some .outputText) →
      Rules.blocks annotation a .annotations = Rules.blocks annotation b .annotations) :
    block reading a = block reading b := by
  have hword := word_congr htype
  cases reading with
  | output =>
    simp only [block, outputBlock, ← hword]
    cases hfound : word a .type with
    | error e => rfl
    | ok word =>
      rw [ok_bind, ok_bind]
      split
      · rename_i hrefusal
        rw [refusalBlock, refusalBlock, string_congr (h .refusal (by
          simp [Role.consumed, hfound, hrefusal, refusalFields, Consumed.names]) (by decide))]
      · split
        · rename_i houtput
          rw [outputTextBlock, outputTextBlock, hannotations rfl (by rw [hfound, houtput]),
            string_congr (h .text (by
              simp [Role.consumed, hfound, houtput, outputTextFields, Consumed.names]) (by decide))]
        · rfl
  | reasoning => exact textBlock_congr hword fun hfound => h .text (by
      simp [Role.consumed, hfound, textFields, Consumed.names]) (by decide)
  | summary => exact textBlock_congr hword fun hfound => h .text (by
      simp [Role.consumed, hfound, textFields, Consumed.names]) (by decide)

theorem contentField_congr (h : SameArray (block .output) a b .content) :
    contentField a = contentField b := by
  have hcounted := h.counted
  rw [contentField, contentField, h.blocks]
  cases ha : get a .content with
  | error e =>
    rw [ha] at hcounted
    cases hb : get b .content with
    | error e' =>
      rw [hb] at hcounted
      cases hcounted
      rfl
    | ok value =>
      rw [hb] at hcounted
      cases hcounted
  | ok value =>
    rw [ha] at hcounted
    cases hb : get b .content with
    | error e =>
      rw [hb] at hcounted
      cases hcounted
    | ok value' =>
      rw [hb] at hcounted
      simp only [Except.map, Except.ok.injEq, Prod.mk.injEq] at hcounted
      simp only [ok_bind, hcounted.1, hcounted.2]

theorem itemKind_congr (htype : get a .type = get b .type) (hid : get a .id = get b .id)
    (hmetadata : metadataField a = metadataField b) : itemKind a = itemKind b := by
  rw [itemKind, itemKind, word_congr htype, identity_congr hid, hmetadata]

/-- What an item's kind reads, in the items `a` and `b`. -/
structure SameKind (kind : OutputKind) (a b : Members) : Prop where
  status : get a .status = get b .status
  plain : ∀ field ∈ (kindFields kind).plain, field ≠ .caller →
    field ≠ .internalChatMessageMetadataPassthrough → get a field = get b field
  caller : kind = .functionCall → callerField a = callerField b
  nested : ∀ entry ∈ (kindFields kind).nested, SameArray (block entry.2) a b entry.1

variable {kind : OutputKind} {operation : Operation}

theorem kindRules_congr (h : SameKind kind a b) :
    kindRules operation kind a = kindRules operation kind b := by
  have hcompleted := completed_congr h.status
  have hplain := h.plain
  have hnested := h.nested
  cases kind with
  | reasoning =>
    have hsummary := (hnested (.summary, .summary) (by decide)).blocks
    have hcontent := (hnested (.content, .reasoning) (by decide)).blocks
    simp only [kindRules, reasoning, hcompleted,
      textField_congr (hplain .text (by decide) (by decide) (by decide)),
      encrypted_congr (hplain .encryptedContent (by decide) (by decide) (by decide)), hsummary,
      hcontent]
  | compaction =>
    simp only [kindRules, compaction, hcompleted,
      encrypted_congr (hplain .encryptedContent (by decide) (by decide) (by decide))]
  | webSearchCall =>
    simp only [kindRules, webSearchCall, searched_congr h.status,
      continued_congr (hplain .encryptedContent (by decide) (by decide) (by decide))]
  | functionCall =>
    simp only [kindRules, functionCall, hcompleted, h.caller rfl,
      asyncField_congr (hplain .async (by decide) (by decide) (by decide)),
      unusedControl_congr (hplain .nameSpace (by decide) (by decide) (by decide)),
      unusedControl_congr (hplain .encryptedFunctionArgs (by decide) (by decide) (by decide)),
      identity_congr (hplain .name (by decide) (by decide) (by decide)),
      identity_congr (hplain .callId (by decide) (by decide) (by decide)),
      string_congr (hplain .arguments (by decide) (by decide) (by decide))]
  | message =>
    simp only [kindRules, message, hcompleted,
      word_congr (hplain .role (by decide) (by decide) (by decide)),
      phaseField_congr (hplain .phase (by decide) (by decide) (by decide)),
      contentField_congr (hnested (.content, .output) (by decide))]

theorem answerPhase_congr (h : SameKind kind a b) : answerPhase a kind = answerPhase b kind := by
  cases kind with
  | message => rw [answerPhase, answerPhase, h.plain .phase (by decide) (by decide) (by decide)]
  | _ => rfl

theorem replaysReasoningText_congr (h : SameKind kind a b) :
    replaysReasoningText a kind = replaysReasoningText b kind := by
  cases kind with
  | reasoning =>
    have hcounted := (h.nested (.content, .reasoning) (by decide)).counted
    rw [replaysReasoningText, replaysReasoningText]
    cases ha : get a .content <;> cases hb : get b .content <;> rw [ha, hb] at hcounted <;>
      simp_all [Except.map]
  | _ => rfl

/-- Items that agree on what their rules read have one verdict. -/
theorem verdict_congr (htype : get a .type = get b .type) (hid : get a .id = get b .id)
    (hmetadata : metadataField a = metadataField b)
    (h : ∀ kind, itemKind a = .ok kind → SameKind kind a b) :
    verdict operation (.object a) = verdict operation (.object b) := by
  rw [verdict, verdict, ← itemKind_congr htype hid hmetadata]
  cases hkind : itemKind a with
  | error e => rfl
  | ok kind =>
    have hsame := h kind hkind
    rw [ok_bind, ok_bind, kindRules_congr hsame, answerPhase_congr hsame,
      replaysReasoningText_congr hsame]

end Objects

end Rules

/-! ## Edits -/

/-- What the rules make of an object in its role. -/
def Role.Same (operation : Operation) : Role → Members → Members → Prop
  | .item, a, b => Rules.verdict operation (.object a) = Rules.verdict operation (.object b)
  | .block reading, a, b => Rules.block reading a = Rules.block reading b
  | Role.annotation, a, b => Rules.annotation a = Rules.annotation b
  | .caller, a, b => Rules.caller a = Rules.caller b
  | .metadata, a, b => Rules.metadata a = Rules.metadata b

namespace Rules

section Replace

variable {before after : Members} {field : Name}

theorem named_add {key : List UInt8} {value : Json.Value} (h : key ≠ field.spell) :
    named (before ++ (key, value) :: after) field = named (before ++ after) field := by
  rw [named_append, named_cons, if_neg h, named_append]

variable {field' : Name} {rules : Members → Check Unit}

theorem spell_inj {field : Name} (h : field.spell = field'.spell) : field = field' := by
  have hnamed := Name.named_spell field'
  rw [← h, Name.named_spell] at hnamed
  exact Option.some.inj hnamed

/-- Replacing a value is nothing to the other fields. -/
theorem get_replace (h : field' ≠ field) (value value' : Json.Value) :
    get (before ++ (field.spell, value) :: after) field' =
      get (before ++ (field.spell, value') :: after) field' := by
  have hspell : field.spell ≠ field'.spell := fun hspell => h (spell_inj hspell).symm
  exact get_congr ((named_add hspell).trans (named_add hspell).symm)

/-- A replaced value is the only one of its name, or its name is a duplicate
before and after. -/
theorem get_replaced (before after : Members) (field : Name) (value value' : Json.Value) :
    get (before ++ (field.spell, value) :: after) field = .ok (some value) ∧
        get (before ++ (field.spell, value') :: after) field = .ok (some value') ∨
      get (before ++ (field.spell, value) :: after) field = .error .duplicateJsonField ∧
        get (before ++ (field.spell, value') :: after) field = .error .duplicateJsonField := by
  simp only [get, named_append, named_cons, if_true]
  cases named before field with
  | nil =>
    cases named after field with
    | nil => exact .inl ⟨rfl, rfl⟩
    | cons next values => exact .inr ⟨rfl, rfl⟩
  | cons first values =>
    cases values with
    | nil => exact .inr ⟨rfl, rfl⟩
    | cons second values => exact .inr ⟨rfl, rfl⟩

variable {members members' : Members}

theorem elements_replaced (h : rules members = rules members') (values more : List Json.Value) :
    elements rules (values ++ .object members :: more) =
      elements rules (values ++ .object members' :: more) := by
  induction values with
  | nil => simp only [List.nil_append, elements, inObject, h]
  | cons value values ih => simp only [List.cons_append, elements, ih]

theorem sameArray_replaced (h : rules members = rules members') (values more : List Json.Value) :
    SameArray rules (before ++ (field.spell, .array (values ++ .object members :: more)) :: after)
      (before ++ (field.spell, .array (values ++ .object members' :: more)) :: after) field := by
  rcases get_replaced before after field (.array (values ++ .object members :: more))
    (.array (values ++ .object members' :: more)) with ⟨ha, hb⟩ | ⟨ha, hb⟩
  · refine ⟨?_, ?_⟩
    · rw [ha, hb]
      simp [Except.map, count]
    · rw [blocks, blocks, ha, hb, ok_bind, ok_bind]
      exact elements_replaced h values more
  · exact ⟨by rw [ha, hb], by rw [blocks, blocks, ha, hb]⟩

theorem callerField_replaced (h : caller members = caller members') :
    callerField (before ++ (Name.caller.spell, .object members) :: after) =
      callerField (before ++ (Name.caller.spell, .object members') :: after) := by
  rcases get_replaced before after .caller (.object members) (.object members') with ⟨ha, hb⟩ | ⟨ha, hb⟩
  · rw [callerField, callerField, ha, hb, ok_bind, ok_bind]
    exact h
  · rw [callerField, callerField, ha, hb]

theorem metadataField_replaced (h : metadata members = metadata members') : metadataField (before ++
        (Name.internalChatMessageMetadataPassthrough.spell, .object members) :: after) =
      metadataField (before ++
        (Name.internalChatMessageMetadataPassthrough.spell, .object members') :: after) := by
  rcases get_replaced before after .internalChatMessageMetadataPassthrough (.object members)
    (.object members') with ⟨ha, hb⟩ | ⟨ha, hb⟩
  · rw [metadataField, metadataField, ha, hb, ok_bind, ok_bind]
    exact h
  · rw [metadataField, metadataField, ha, hb]

theorem SameKind.of_get {a b : Members} {kind : OutputKind}
    (h : ∀ field ∈ Name.status :: (kindFields kind).names, get a field = get b field) :
    SameKind kind a b where
  status := h _ List.mem_cons_self
  plain field hfield _ _ :=
    h field (List.mem_cons_of_mem _ (List.mem_append_left _ hfield))
  caller hkind := by
    subst hkind
    exact callerField_congr (h .caller (by decide))
  nested entry hentry :=
    .of_get (h entry.1 (List.mem_cons_of_mem _
      (List.mem_append_right _ (List.mem_map_of_mem hentry)))) _

end Replace

end Rules

variable {role : Role} {a b : Members} {operation : Operation}

theorem Edit.same_permute (h : ∀ field, Rules.get a field = Rules.get b field) :
    role.Same operation a b := by
  cases role with
  | item =>
    exact Rules.verdict_congr (h _) (h _) (Rules.metadataField_congr (h _)) fun _ _ =>
      .of_get fun field _ => h field
  | block reading =>
    exact Rules.block_congr (h _) (fun field _ _ => h field) fun _ _ => Rules.blocks_congr (h _) _
  | annotation => exact Rules.annotation_congr (h _)
  | caller => exact Rules.caller_congr (h _)
  | metadata => exact Rules.metadata_congr fun field _ => h field

theorem Edit.same_add (h : ∀ field ∈ role.consumed a, Rules.get a field = Rules.get b field) :
    role.Same operation a b := by
  cases role with
  | item =>
    have hitem : ∀ field ∈ itemFields.names, Rules.get a field = Rules.get b field :=
      fun field hfield => h field (List.mem_append_left _ hfield)
    apply Rules.verdict_congr (hitem _ (by decide)) (hitem _ (by decide))
      (Rules.metadataField_congr (hitem _ (by decide)))
    intro kind hkind
    apply Rules.SameKind.of_get
    simp only [List.forall_mem_cons]
    refine ⟨hitem _ (by decide), fun field hfield => h field (List.mem_append_right _ ?_)⟩
    rw [hkind]
    exact hfield
  | block reading =>
    apply Rules.block_congr
    · exact h _ (by simp [Role.consumed, typeFields, Consumed.names])
    · intro field hfield _
      exact h field hfield
    · rintro rfl hword
      apply Rules.blocks_congr
      exact h _ (by simp [Role.consumed, hword, outputTextFields, Consumed.names])
  | annotation => exact Rules.annotation_congr (h _ List.mem_cons_self)
  | caller => exact Rules.caller_congr (h _ List.mem_cons_self)
  | metadata => exact Rules.metadata_congr h

/-- The nested arrays of a kind: no plain fields, and each read one way. -/
theorem nested_fields (kind : OutputKind) : ∀ entry ∈ (kindFields kind).nested,
    entry.1 ∉ (kindFields kind).plain ∧ entry.1 ∉ itemFields.plain ∧ entry.1 ≠ .caller ∧
      ((kindFields kind).nested.lookup entry.1) = some entry.2 := by
  cases kind <;> decide

theorem mem_of_lookup {kind : OutputKind} {field : Name} {reading : Reading}
    (h : (kindFields kind).nested.lookup field = some reading) :
    (field, reading) ∈ (kindFields kind).nested := by
  obtain ⟨before, after, hnested, _⟩ := List.lookup_eq_some_iff.mp h
  rw [hnested]
  simp

section Nested

variable {operation : Operation} {before after members members' : Members}

theorem Edit.same_caller (h : Rules.caller members = Rules.caller members') :
    Role.item.Same operation (before ++ (Name.caller.spell, .object members) :: after)
      (before ++ (Name.caller.spell, .object members') :: after) := by
  have hother : ∀ field, field ≠ .caller →
      Rules.get (before ++ (Name.caller.spell, .object members) :: after) field =
        Rules.get (before ++ (Name.caller.spell, .object members') :: after) field :=
    fun field hfield => Rules.get_replace hfield _ _
  apply Rules.verdict_congr (hother _ (by decide)) (hother _ (by decide))
    (Rules.metadataField_congr (hother _ (by decide)))
  intro kind _
  exact {
    status := hother _ (by decide)
    plain := fun field _ hfield _ => hother field hfield
    caller := fun _ => Rules.callerField_replaced h
    nested := fun entry hentry => .of_get (hother _ (nested_fields kind entry hentry).2.2.1) _ }

theorem Edit.same_metadata (h : Rules.metadata members = Rules.metadata members') :
    Role.item.Same operation
      (before ++ (Name.internalChatMessageMetadataPassthrough.spell, .object members) :: after)
      (before ++ (Name.internalChatMessageMetadataPassthrough.spell, .object members') ::
        after) := by
  have hother : ∀ field, field ≠ .internalChatMessageMetadataPassthrough → Rules.get
      (before ++ (Name.internalChatMessageMetadataPassthrough.spell, .object members) :: after)
        field = Rules.get (before ++
          (Name.internalChatMessageMetadataPassthrough.spell, .object members') :: after) field :=
    fun field hfield => Rules.get_replace hfield _ _
  apply Rules.verdict_congr (hother _ (by decide)) (hother _ (by decide))
    (Rules.metadataField_replaced h)
  intro kind _
  exact {
    status := hother _ (by decide)
    plain := fun field _ _ hfield => hother field hfield
    caller := fun _ => Rules.callerField_congr (hother _ (by decide))
    nested := fun entry hentry => by
      apply Rules.SameArray.of_get (hother _ ?_)
      intro hfield
      apply (nested_fields kind entry hentry).2.1
      rw [hfield]
      decide }

variable {elements more : List Json.Value}

theorem Edit.same_blocks {field : Name} {reading : Reading} {kind : OutputKind}
    (hkind : Rules.itemKind (before ++ (field.spell, .array (elements ++ .object members :: more)) ::
      after) = .ok kind) (hfield : (kindFields kind).nested.lookup field = some reading)
    (h : Rules.block reading members = Rules.block reading members') : Role.item.Same operation
      (before ++ (field.spell, .array (elements ++ .object members :: more)) :: after)
      (before ++ (field.spell, .array (elements ++ .object members' :: more)) :: after) := by
  obtain ⟨hplain, hitem, hcaller, _⟩ := nested_fields kind _ (mem_of_lookup hfield)
  have hother : ∀ field', field' ≠ field → Rules.get
      (before ++ (field.spell, .array (elements ++ .object members :: more)) :: after) field' =
        Rules.get
          (before ++ (field.spell, .array (elements ++ .object members' :: more)) :: after)
          field' :=
    fun field' hne => Rules.get_replace hne _ _
  have hread : ∀ field' ∈ itemFields.plain, field' ≠ field := by
    rintro field' hmem rfl
    exact hitem hmem
  apply Rules.verdict_congr (hother _ (hread _ (by decide))) (hother _ (hread _ (by decide)))
    (Rules.metadataField_congr (hother _ (hread _ (by decide))))
  intro kind' hkind'
  cases hkind.symm.trans hkind'
  exact {
    status := hother _ (hread _ (by decide))
    plain := fun field' hmem _ _ => hother field' (by rintro rfl; exact hplain hmem)
    caller := fun _ => Rules.callerField_congr (hother _ hcaller.symm)
    nested := fun entry hentry => by
      by_cases hsame : entry.1 = field
      · have hreading := (nested_fields kind entry hentry).2.2.2
        rw [hsame, hfield] at hreading
        rw [hsame, ← Option.some.inj hreading]
        exact Rules.sameArray_replaced h elements more
      · exact .of_get (hother _ hsame) _ }

theorem Edit.same_annotations (h : Rules.annotation members = Rules.annotation members') :
    (Role.block .output).Same operation
      (before ++ (Name.annotations.spell, .array (elements ++ .object members :: more)) :: after)
      (before ++ (Name.annotations.spell, .array (elements ++ .object members' :: more)) ::
        after) := by
  apply Rules.block_congr (Rules.get_replace (by decide) _ _)
  · intro field _ hfield
    exact Rules.get_replace hfield _ _
  · intro _ _
    exact (Rules.sameArray_replaced h elements more).blocks

end Nested

theorem Edit.same (h : Edit role a b) (operation : Operation) : role.Same operation a b := by
  induction h with
  | permute hperm => exact Edit.same_permute (Rules.get_perm hperm)
  | add hunread =>
    apply Edit.same_add
    intro field hfield
    exact (Rules.get_congr (Rules.named_add (hunread field hfield))).symm
  | @object role child _ _ _ _ field hrole _ ih =>
    cases role with
    | item =>
      cases field <;> cases hrole
      · exact Edit.same_metadata ih
      · exact Edit.same_caller ih
    | _ => cases hrole
  | @array role child _ _ _ _ field _ _ hrole _ ih =>
    cases role with
    | item =>
      rw [Role.array] at hrole
      split at hrole
      · obtain ⟨reading, hfield, rfl⟩ := Option.map_eq_some_iff.mp hrole
        exact Edit.same_blocks ‹_› hfield ih
      · cases hrole
    | block reading =>
      cases reading <;> cases field <;> cases hrole
      exact Edit.same_annotations ih
    | _ => cases hrole

/-- Edits in any number, either way, keep the verdict. -/
theorem verdict_edits (operation : Operation) (h : Relation.EqvGen (Edit .item) a b) :
    Rules.verdict operation (.object a) = Rules.verdict operation (.object b) := by
  induction h with
  | rel a b hedit => exact hedit.same operation
  | refl a => rfl
  | symm a b _ ih => exact ih.symm
  | trans a b c _ _ ih ih' => exact ih.trans ih'

end Rui.Responses
