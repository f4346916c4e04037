import Rui.Responses.Judge

/-!
# Duplicates do not pass the judge

A rule that reads a field finds it once or fails. So where nothing a value's
meaning consumes failed, none of it is a duplicate, and this carries from
annotations through blocks to the item.
-/

namespace Rui.Responses

open Library Library.Json Rui.Json

namespace Value

/-- Where nothing fails, no consumed field is a duplicate. Only objects fail
under every reading, and what is absent fails under none. -/
structure Sound (value : Value) : Prop where
  every : value.failure = none → value.ambiguous = false
  each : ∀ reading, value.failureAs reading = none → value.ambiguousAs reading = false
  leaf : value.shape ≠ .object → value.failure = none
  blank : value.shape = .absent → ∀ reading, value.failureAs reading = none

theorem sound_unjudged (shape : Shape) (word : Option Word) (length : Nat) (duplicate : Bool) :
    Sound { shape, word, length, duplicate } where
  every _ := rfl
  each _ _ := rfl
  leaf _ := rfl
  blank _ _ := rfl

theorem Sound.of_duplicate {value : Value} (h : value.Sound) (duplicate : Bool) :
    Sound { value with duplicate } where
  every := h.every
  each := h.each
  leaf := h.leaf
  blank := h.blank

end Value

namespace Frame

/-- What a frame holds is sound. -/
structure Sound (frame : Frame) : Prop where
  fields : ∀ field value, frame.fields field = some value → value.Sound
  aggregate : frame.aggregate.Sound
  array : frame.aggregate.shape = .array

/-- A field is no duplicate and consumes none. -/
def Clear (frame : Frame) (field : Name) : Prop :=
  (frame.lookup field).duplicate = false ∧ (frame.lookup field).ambiguous = false

/-- A field is no duplicate and consumes none under a reading. -/
def ClearAs (frame : Frame) (field : Name) (reading : Reading) : Prop :=
  (frame.lookup field).duplicate = false ∧ (frame.lookup field).ambiguousAs reading = false

variable {frame : Frame} {value : Value}

theorem duplicateIn_eq_false {table : Consumed} : table.duplicateIn frame = false ↔
      (∀ field ∈ table.plain, frame.Clear field) ∧
        ∀ entry ∈ table.nested, frame.ClearAs entry.1 entry.2 := by
  simp [Consumed.duplicateIn, Clear, ClearAs]

theorem duplicateIn_join {a b : Consumed} : (a.join b).duplicateIn frame = false ↔
      a.duplicateIn frame = false ∧ b.duplicateIn frame = false := by
  simp only [duplicateIn_eq_false, Consumed.join, List.mem_append]
  constructor
  · rintro ⟨hplain, hnested⟩
    exact ⟨⟨fun f hf => hplain f (.inl hf), fun e he => hnested e (.inl he)⟩,
      fun f hf => hplain f (.inr hf), fun e he => hnested e (.inr he)⟩
  · rintro ⟨⟨hplain, hnested⟩, hplain', hnested'⟩
    exact ⟨fun f hf => hf.elim (hplain f) (hplain' f), fun e he => he.elim (hnested e) (hnested' e)⟩

theorem Sound.lookup (h : frame.Sound) (field : Name) : (frame.lookup field).Sound := by
  rw [Frame.lookup]
  cases hfield : frame.fields field with
  | none => exact Value.sound_unjudged .absent none 0 false
  | some value => exact h.fields field value hfield

theorem get_eq_ok {field : Name} : frame.get field = .ok value ↔
      (frame.lookup field).duplicate = false ∧ frame.lookup field = value := by
  rw [get]
  split
  · simp_all [throw_eq_ok]
  · simp_all [pure_eq_ok]

section Clear

variable {frame : Frame} {field : Name} {value : Value}

theorem Sound.clear_of_failure (hsound : frame.Sound) (h : frame.get field = .ok value)
    (hfailure : value.failure = none) : frame.Clear field := by
  obtain ⟨hduplicate, rfl⟩ := get_eq_ok.mp h
  exact ⟨hduplicate, (hsound.lookup field).every hfailure⟩

theorem Sound.clear_of_shape (hsound : frame.Sound) (h : frame.get field = .ok value)
    (hshape : value.shape ≠ .object) : frame.Clear field := by
  apply hsound.clear_of_failure h
  obtain ⟨_, rfl⟩ := get_eq_ok.mp h
  exact (hsound.lookup field).leaf hshape

theorem string_eq_ok : frame.string field = .ok value ↔
    frame.get field = .ok value ∧ value.shape = .string := by
  rw [string, bind_eq_ok]
  constructor
  · rintro ⟨found, hget, h⟩
    split at h
    · cases pure_eq_ok.mp h
      exact ⟨hget, ‹_›⟩
    · exact (throw_eq_ok.mp h).elim
    · exact (throw_eq_ok.mp h).elim
  · rintro ⟨hget, hshape⟩
    refine ⟨value, hget, ?_⟩
    rw [hshape]
    rfl

theorem word_eq_ok : frame.word field = .ok value ↔
    frame.string field = .ok value ∧ value.length ≤ maxWordBytes := by
  rw [word, bind_eq_ok]
  constructor
  · rintro ⟨found, hstring, h⟩
    split at h
    · exact (throw_eq_ok.mp h).elim
    · cases pure_eq_ok.mp h
      exact ⟨hstring, by omega⟩
  · rintro ⟨hstring, hlength⟩
    exact ⟨value, hstring, by rw [if_neg (by omega)]; rfl⟩

section

variable (hsound : frame.Sound)

include hsound

theorem Sound.clear_of_string (h : frame.string field = .ok value) :
    frame.Clear field := by
  obtain ⟨hget, hshape⟩ := string_eq_ok.mp h
  exact hsound.clear_of_shape hget (by simp [hshape])

theorem Sound.clear_of_word (h : frame.word field = .ok value) :
    frame.Clear field :=
  hsound.clear_of_string (word_eq_ok.mp h).1

theorem Sound.clear_of_identity (h : frame.identity field = .ok ()) :
    frame.Clear field := by
  rw [identity, bind_eq_ok] at h
  obtain ⟨value, hstring, _⟩ := h
  exact hsound.clear_of_string hstring

theorem Sound.clear_of_completed (h : frame.completed = .ok ()) :
    frame.Clear .status := by
  rw [completed, bind_eq_ok] at h
  obtain ⟨value, hget, h⟩ := h
  split at h
  · exact hsound.clear_of_shape hget (by simp [*])
  · obtain ⟨word, hword, _⟩ := bind_eq_ok.mp h
    exact hsound.clear_of_word hword

theorem Sound.clear_of_encrypted (h : frame.encrypted = .ok ()) :
    frame.Clear .encryptedContent := by
  rw [encrypted, bind_eq_ok] at h
  obtain ⟨value, hget, h⟩ := h
  split at h
  · exact (throw_eq_ok.mp h).elim
  · exact hsound.clear_of_shape hget (by simp [*])
  · exact (throw_eq_ok.mp h).elim

theorem Sound.clearAs_of_blocks {reading : Reading}
    (h : frame.blocks field reading = .ok ()) : frame.ClearAs field reading := by
  rw [blocks, bind_eq_ok] at h
  obtain ⟨value, hget, h⟩ := h
  obtain ⟨hduplicate, rfl⟩ := get_eq_ok.mp hget
  refine ⟨hduplicate, (hsound.lookup field).each reading ?_⟩
  split at h
  · exact (hsound.lookup field).blank ‹_› reading
  · split at h
    · exact (throw_eq_ok.mp h).elim
    · cases hfailure : (frame.lookup field).failureAs reading with
      | none => rfl
      | some e =>
        rw [hfailure] at h
        exact (throw_eq_ok.mp h).elim

theorem Sound.clear_of_unusedControl
    (h : frame.unusedControl field = .ok ()) : frame.Clear field := by
  rw [unusedControl, bind_eq_ok] at h
  obtain ⟨value, hget, h⟩ := h
  split at h
  · exact hsound.clear_of_shape hget (by simp [*])
  · exact hsound.clear_of_shape hget (by simp [*])
  · exact hsound.clear_of_shape hget (by simp [*])
  · exact (throw_eq_ok.mp h).elim

theorem Sound.clear_of_unheld (h : frame.unheld field = .ok ()) :
    frame.Clear field := by
  rw [unheld, bind_eq_ok] at h
  obtain ⟨value, hget, h⟩ := h
  exact hsound.clear_of_shape hget (by simp [require_eq_ok.mp h])

theorem Sound.clear_of_unlessFailed (hget : frame.get field = .ok value)
    (h : unlessFailed value.failure = .ok ()) : frame.Clear field := by
  apply hsound.clear_of_failure hget
  cases hfailure : value.failure with
  | none => rfl
  | some e => simp [hfailure, unlessFailed, throw_eq_ok] at h

end

end Clear

/-! ## Rules that pass -/

section Rules

variable {frame : Frame}

section

variable (hsound : frame.Sound)

include hsound

theorem Sound.clear_of_metadataField (h : frame.metadataField = .ok ()) :
    frame.Clear .internalChatMessageMetadataPassthrough := by
  rw [metadataField, bind_eq_ok] at h
  obtain ⟨metadata, hget, h⟩ := h
  split at h
  · exact hsound.clear_of_shape hget (by simp [*])
  · split at h
    · exact (throw_eq_ok.mp h).elim
    · exact hsound.clear_of_unlessFailed hget h

theorem Sound.clear_of_callerField (h : frame.callerField = .ok ()) :
    frame.Clear .caller := by
  rw [callerField, bind_eq_ok] at h
  obtain ⟨caller, hget, h⟩ := h
  split at h
  · exact hsound.clear_of_shape hget (by simp [*])
  · exact hsound.clear_of_shape hget (by simp [*])
  · exact hsound.clear_of_unlessFailed hget h
  · exact (throw_eq_ok.mp h).elim

theorem Sound.clear_of_textField (h : frame.textField = .ok ()) :
    frame.Clear .text := by
  rw [textField, bind_eq_ok] at h
  obtain ⟨text, hget, h⟩ := h
  exact hsound.clear_of_shape hget (by simp [require_eq_ok.mp h])

theorem Sound.clear_of_searched (h : frame.searched = .ok ()) :
    frame.Clear .status := by
  rw [searched, bind_eq_ok] at h
  obtain ⟨status, hget, h⟩ := h
  split at h
  · exact hsound.clear_of_shape hget (by simp [*])
  · obtain ⟨word, hword, _⟩ := bind_eq_ok.mp h
    exact hsound.clear_of_word hword

theorem Sound.clear_of_continued (h : frame.continued = .ok ()) :
    frame.Clear .encryptedContent := by
  rw [continued, bind_eq_ok] at h
  obtain ⟨encrypted, hget, h⟩ := h
  apply hsound.clear_of_shape hget
  intro hshape
  rw [hshape] at h
  exact throw_eq_ok.mp h

theorem Sound.clear_of_asyncField (h : frame.asyncField = .ok ()) :
    frame.Clear .async := by
  rw [asyncField, bind_eq_ok] at h
  obtain ⟨async, hget, h⟩ := h
  apply hsound.clear_of_shape hget
  intro hshape
  rw [hshape] at h
  exact throw_eq_ok.mp h

theorem Sound.clear_of_phaseField (h : frame.phaseField = .ok ()) :
    frame.Clear .phase := by
  rw [phaseField, bind_eq_ok] at h
  obtain ⟨phase, hget, h⟩ := h
  split at h
  · rename_i hshape
    exact hsound.clear_of_shape hget (by rcases hshape with hshape | hshape <;> simp [hshape])
  · obtain ⟨word, hword, _⟩ := bind_eq_ok.mp h
    exact hsound.clear_of_word hword

theorem Sound.clearAs_of_contentField (h : frame.contentField = .ok ()) :
    frame.ClearAs .content .output := by
  rw [contentField, bind_eq_ok] at h
  obtain ⟨_, _, h⟩ := h
  simp only [bind_eq_ok] at h
  obtain ⟨_, _, _, hblocks, _⟩ := h
  exact hsound.clearAs_of_blocks hblocks

end

variable {kind : OutputKind}

theorem Sound.itemFields_clear (hsound : frame.Sound) (h : frame.itemKind = .ok kind)
    (hstatus : frame.Clear .status) :
    itemFields.duplicateIn frame = false ∧ (frame.lookup .type).itemKind = some kind := by
  simp only [itemKind, bind_eq_ok] at h
  obtain ⟨_, htype, _, hid, _, hmetadata, declared, hdeclared, h⟩ := h
  refine ⟨duplicateIn_eq_false.mpr ⟨?_, by simp [itemFields]⟩, ?_⟩
  · simp only [itemFields, List.forall_mem_cons]
    exact ⟨hsound.clear_of_word htype, hsound.clear_of_identity hid, hstatus,
      hsound.clear_of_metadataField hmetadata, by simp⟩
  · obtain ⟨_, rfl⟩ := get_eq_ok.mp hdeclared
    split at h
    · rw [pure_eq_ok] at h
      exact h ▸ ‹_›
    · exact (throw_eq_ok.mp h).elim

theorem kindFields_clear {table : Consumed} (hitem : itemFields.duplicateIn frame = false)
    (hplain : ∀ field ∈ table.plain, frame.Clear field)
    (hnested : ∀ entry ∈ table.nested, frame.ClearAs entry.1 entry.2) :
    (itemFields.join table).duplicateIn frame = false :=
  duplicateIn_join.mpr ⟨hitem, duplicateIn_eq_false.mpr ⟨hplain, hnested⟩⟩

variable {operation : Operation}

section

variable (hsound : frame.Sound)

include hsound

theorem Sound.status_clear (h : frame.kindRules operation kind = .ok ()) :
    frame.Clear .status := by
  cases kind with
  | reasoning =>
    simp only [kindRules, reasoningRules, bind_eq_ok] at h
    obtain ⟨_, hcompleted, _⟩ := h
    exact hsound.clear_of_completed hcompleted
  | compaction =>
    simp only [kindRules, compactionRules, bind_eq_ok] at h
    obtain ⟨_, _, _, hcompleted, _⟩ := h
    exact hsound.clear_of_completed hcompleted
  | webSearchCall =>
    simp only [kindRules, webSearchCallRules, bind_eq_ok] at h
    obtain ⟨_, _, _, hsearched, _⟩ := h
    exact hsound.clear_of_searched hsearched
  | functionCall =>
    simp only [kindRules, functionCallRules, bind_eq_ok] at h
    obtain ⟨_, _, _, hcompleted, _⟩ := h
    exact hsound.clear_of_completed hcompleted
  | message =>
    simp only [kindRules, messageRules, bind_eq_ok] at h
    obtain ⟨_, hcompleted, _⟩ := h
    exact hsound.clear_of_completed hcompleted

theorem Sound.kind_clear (h : frame.kindRules operation kind = .ok ())
    (hitem : itemFields.duplicateIn frame = false) :
    (kindFields kind).duplicateIn frame = false := by
  cases kind with
  | reasoning =>
    simp only [kindRules, reasoningRules, bind_eq_ok] at h
    obtain ⟨_, _, _, htext, _, hencrypted, _, hsummary, hcontent⟩ := h
    apply kindFields_clear hitem
    · simp only [List.forall_mem_cons]
      exact ⟨hsound.clear_of_textField htext, hsound.clear_of_encrypted hencrypted, by simp⟩
    · simp only [List.forall_mem_cons]
      exact ⟨hsound.clearAs_of_blocks hsummary, hsound.clearAs_of_blocks hcontent, by simp⟩
  | compaction =>
    simp only [kindRules, compactionRules, bind_eq_ok] at h
    obtain ⟨_, _, _, _, hencrypted⟩ := h
    apply kindFields_clear hitem
    · simp only [List.forall_mem_cons]
      exact ⟨hsound.clear_of_encrypted hencrypted, by simp⟩
    · simp
  | webSearchCall =>
    simp only [kindRules, webSearchCallRules, bind_eq_ok] at h
    obtain ⟨_, _, _, _, hcontinued⟩ := h
    apply kindFields_clear hitem
    · simp only [List.forall_mem_cons]
      exact ⟨hsound.clear_of_continued hcontinued, by simp⟩
    · simp
  | functionCall =>
    simp only [kindRules, functionCallRules, bind_eq_ok] at h
    obtain ⟨_, _, _, _, _, hcaller, _, hasync, _, hspace, _, hargs, _, hname, _, hcall, _,
      harguments, _⟩ := h
    apply kindFields_clear hitem
    · simp only [List.forall_mem_cons]
      exact ⟨hsound.clear_of_identity hname, hsound.clear_of_identity hcall,
        hsound.clear_of_string harguments, hsound.clear_of_callerField hcaller,
        hsound.clear_of_asyncField hasync, hsound.clear_of_unusedControl hspace,
        hsound.clear_of_unusedControl hargs, by simp⟩
    · simp
  | message =>
    simp only [kindRules, messageRules, bind_eq_ok] at h
    obtain ⟨_, _, role, hrole, _, _, _, hphase, hcontent⟩ := h
    apply kindFields_clear hitem
    · simp only [List.forall_mem_cons]
      exact ⟨hsound.clear_of_word hrole, hsound.clear_of_phaseField hphase, by simp⟩
    · simp only [List.forall_mem_cons]
      exact ⟨hsound.clearAs_of_contentField hcontent, by simp⟩

theorem Sound.type_clear {value : Value} (h : frame.word .type = .ok value) :
    typeFields.duplicateIn frame = false ∧ frame.lookup .type = value := by
  refine ⟨duplicateIn_eq_false.mpr ⟨?_, by simp [typeFields]⟩, ?_⟩
  · simp only [typeFields, List.forall_mem_cons]
    exact ⟨hsound.clear_of_word h, by simp⟩
  · exact (get_eq_ok.mp (string_eq_ok.mp (word_eq_ok.mp h).1).1).2

theorem Sound.outputBlock_clear
    (h : frame.outputBlock (frame.lookup .type) = .ok ()) :
    (if (frame.lookup .type).is .refusal then refusalFields.duplicateIn frame
      else (frame.lookup .type).is .outputText && outputTextFields.duplicateIn frame) = false := by
  rw [outputBlock] at h
  split at h
  · rw [if_pos ‹_›, duplicateIn_eq_false]
    obtain ⟨refusal, hrefusal, _⟩ := bind_eq_ok.mp h
    simp only [refusalFields, List.forall_mem_cons]
    exact ⟨⟨hsound.clear_of_string hrefusal, by simp⟩, by simp⟩
  · rw [if_neg ‹_›]
    split at h
    · exact (throw_eq_ok.mp h).elim
    · simp only [bind_eq_ok] at h
      obtain ⟨_, hannotations, text, htext, _⟩ := h
      rw [Bool.and_eq_false_imp]
      intro _
      rw [duplicateIn_eq_false]
      simp only [outputTextFields, List.forall_mem_cons]
      exact ⟨⟨hsound.clear_of_string htext, by simp⟩, hsound.clearAs_of_blocks hannotations, by simp⟩

theorem Sound.textBlock_clear {expected : Word}
    (h : frame.textBlock (frame.lookup .type) expected = .ok ()) :
    textFields.duplicateIn frame = false := by
  simp only [textBlock, bind_eq_ok] at h
  obtain ⟨_, _, text, htext, _⟩ := h
  rw [duplicateIn_eq_false]
  simp only [textFields, List.forall_mem_cons]
  exact ⟨⟨hsound.clear_of_string htext, by simp⟩, by simp⟩

theorem Sound.metadata_clear (h : frame.metadataRules = .ok ()) :
    metadataFields.duplicateIn frame = false := by
  simp only [metadataRules, metadataFields, List.forM, bind_eq_ok] at h
  obtain ⟨_, hcell, _, hexecuted, _, hcomplete, _⟩ := h
  rw [duplicateIn_eq_false]
  simp only [metadataFields, List.forall_mem_cons]
  exact ⟨⟨hsound.clear_of_unheld hcell, hsound.clear_of_unheld hexecuted,
    hsound.clear_of_unheld hcomplete, by simp⟩, by simp⟩

theorem Sound.caller_clear (h : frame.callerRules = .ok ()) :
    typeFields.duplicateIn frame = false := by
  simp only [callerRules, bind_eq_ok] at h
  obtain ⟨_, _, _, _, word, hword, _⟩ := h
  exact (hsound.type_clear hword).1

end

end Rules

theorem sound_object (hshape : value.shape = .object)
    (hevery : value.failure = none → value.ambiguous = false)
    (heach : value.failure = none → ∀ reading, value.failures reading = none →
      value.ambiguities reading = false) : value.Sound where
  every := hevery
  each reading h := by
    rw [Value.failureAs] at h
    cases hfailure : value.failure with
    | none =>
      rw [hfailure] at h
      rw [Value.ambiguousAs, hevery hfailure, heach hfailure reading h]
      rfl
    | some e => simp [hfailure] at h
  leaf h := absurd hshape h
  blank h := by
    rw [hshape] at h
    cases h

theorem Sound.finish {frame : Frame} (hsound : frame.Sound) (operation : Operation) :
    (frame.finish operation).1.Sound := by
  rw [Frame.finish]
  split
  · rw [judge]
    split
    · rename_i hkind
      split
      · exact sound_object rfl (by simp) (by simp)
      · rename_i kind hitem
        refine sound_object rfl ?_ fun _ _ _ => ?_
        · intro hpassed
          obtain ⟨_, hrules⟩ := failureOf_eq_none.mp hpassed
          obtain ⟨hfields, hdeclared⟩ := hsound.itemFields_clear hitem (hsound.status_clear hrules)
          simp [ambiguity, hkind, hfields, hdeclared, hsound.kind_clear hrules hfields]
        · simp [ambiguity, hkind]
    · rename_i hkind
      split
      · exact sound_object rfl (by simp) (by simp)
      · rename_i kind hword
        obtain ⟨htype, rfl⟩ := hsound.type_clear hword
        refine sound_object rfl ?_ ?_
        · intro _
          simp [ambiguity, hkind, htype]
        · intro _ reading hpassed
          cases reading with
          | output =>
            obtain ⟨_, hrules⟩ := failureOf_eq_none.mp hpassed
            simpa [ambiguity, hkind] using hsound.outputBlock_clear hrules
          | reasoning =>
            obtain ⟨_, hrules⟩ := failureOf_eq_none.mp hpassed
            simp [ambiguity, hkind, hsound.textBlock_clear hrules]
          | summary =>
            obtain ⟨_, hrules⟩ := failureOf_eq_none.mp hpassed
            simp [ambiguity, hkind, hsound.textBlock_clear hrules]
    · rename_i hkind
      split
      · exact sound_object rfl (by simp) (by simp)
      · rename_i type hword
        obtain ⟨htype, _⟩ := hsound.type_clear hword
        split
        · exact sound_object rfl (by simp [ambiguity, hkind, htype]) (by simp [ambiguity, hkind])
        · exact sound_object rfl (by simp [ambiguity, hkind, htype]) (by simp [ambiguity, hkind])
    · rename_i hkind
      refine sound_object rfl ?_ (by simp [ambiguity, hkind])
      intro hpassed
      obtain ⟨_, hrules⟩ := failureOf_eq_none.mp hpassed
      simp [ambiguity, hkind, hsound.caller_clear hrules]
    · rename_i hkind
      refine sound_object rfl ?_ (by simp [ambiguity, hkind])
      intro hpassed
      obtain ⟨_, hrules⟩ := failureOf_eq_none.mp hpassed
      simp [ambiguity, hkind, hsound.metadata_clear hrules]
    · have hplain : frame.ambiguity = (false, fun _ => false) := by
        rw [ambiguity]
        split <;> simp_all
      exact sound_object rfl (by simp [hplain]) (by simp [hplain])
  · exact hsound.aggregate

theorem Sound.accept (hsound : frame.Sound) (hvalue : value.Sound) :
    (frame.accept value).Sound := by
  rw [Frame.accept]
  split
  · refine ⟨?_, hsound.aggregate, hsound.array⟩
    intro field taken h
    simp only at h
    split at h
    · cases h
      exact hvalue.of_duplicate _
    · exact hsound.fields field taken h
  · refine ⟨hsound.fields, ⟨hsound.aggregate.every, ?_, hsound.aggregate.leaf, ?_⟩, hsound.array⟩
    · intro reading h
      obtain ⟨haggregate, hnext⟩ : frame.aggregate.failureAs reading = none ∧
          (if value.shape ≠ .object then some .unexpectedJsonDelimiter
            else value.failureAs reading) = none := by
        simp only [Value.failureAs, Option.orElse_eq_orElse, Option.orElse_eq_or,
          Option.or_eq_none_iff] at h ⊢
        exact ⟨⟨h.1, h.2.1⟩, h.2.2⟩
      have hbefore := hsound.aggregate.each reading haggregate
      have hvalue' : value.ambiguousAs reading = false := by
        split at hnext
        · cases hnext
        · exact hvalue.each reading hnext
      rw [Value.ambiguousAs, Bool.or_eq_false_iff] at hbefore ⊢
      exact ⟨hbefore.1, by simp [hbefore.2, hvalue']⟩
    · intro h
      rw [hsound.array] at h
      cases h

theorem sound_opened (kind : Kind) (object : Bool) (depth : Nat) :
    (Frame.opened kind object depth).Sound where
  fields _ _ h := nomatch h
  aggregate := Value.sound_unjudged .array none 0 false
  array := rfl

end Frame

/-! ## The verdict -/

namespace Judge

/-- An item is read: its frame is the one that closed last. -/
structure Closed (judge : Judge) : Prop where
  outermost : judge.result.shape = .object → ∃ frame, judge.outermost = some frame ∧ frame.Sound ∧
    frame.kind = .item ∧ frame.finish judge.operation = (judge.result, judge.itemKind)

variable {judge : Judge} {frame : Frame} {operation : Operation}

theorem Closed.passed (hclosed : judge.Closed) (hshape : judge.result.shape = .object)
    (hfailure : judge.result.failure = none) :
    judge.result.ambiguous = false ∧ ∃ frame kind, judge.outermost = some frame ∧
      judge.itemKind = some kind ∧ frame.itemKind = .ok kind ∧
      frame.kindRules judge.operation kind = .ok () := by
  obtain ⟨frame, houtermost, hsound, hkind, hfinish⟩ := hclosed.outermost hshape
  have hresult := (hsound.finish judge.operation).every
  rw [hfinish] at hresult
  refine ⟨hresult hfailure, frame, ?_⟩
  rw [Frame.finish] at hfinish
  split at hfinish
  · simp only [Frame.judge, hkind] at hfinish
    split at hfinish
    · simp only [Prod.mk.injEq] at hfinish
      rw [← hfinish.1] at hfailure
      cases hfailure
    · rename_i kind hitem
      simp only [Prod.mk.injEq] at hfinish
      rw [← hfinish.1] at hfailure
      obtain ⟨_, hrules⟩ := failureOf_eq_none.mp hfailure
      exact ⟨kind, houtermost, hfinish.2.symm, hitem, hrules⟩
  · simp only [Prod.mk.injEq] at hfinish
    rw [← hfinish.1, hsound.array] at hshape
    cases hshape

theorem reasoning_content (h : frame.kindRules operation .reasoning = .ok ()) :
    ∃ content, frame.get .content = .ok content := by
  simp only [Frame.kindRules, Frame.reasoningRules, bind_eq_ok] at h
  obtain ⟨_, _, _, _, _, _, _, _, hcontent⟩ := h
  rw [Frame.blocks, bind_eq_ok] at hcontent
  obtain ⟨content, hget, _⟩ := hcontent
  exact ⟨content, hget⟩

theorem message_phase (h : frame.kindRules operation .message = .ok ()) :
    ∃ phase, frame.get .phase = .ok phase := by
  simp only [Frame.kindRules, Frame.messageRules, bind_eq_ok] at h
  obtain ⟨_, _, _, _, _, _, _, hphase, _⟩ := h
  rw [Frame.phaseField, bind_eq_ok] at hphase
  obtain ⟨phase, hget, _⟩ := hphase
  exact ⟨phase, hget⟩

/-- The verdict meets no duplicate, and an accepted item has its kind and
phase. -/
theorem Closed.verdict (hclosed : judge.Closed) :
    ∃ verdict, judge.verdict = some verdict ∧ (∀ replays, verdict = .ok replays →
      ∃ kind phase, judge.itemKind = some kind ∧ judge.answerPhase = some phase) := by
  rw [Judge.verdict]
  by_cases hshape : judge.result.shape = .object
  · rw [if_neg (not_not.mpr hshape)]
    cases hfailure : judge.result.failure with
    | some e => exact ⟨_, rfl, nofun⟩
    | none =>
      obtain ⟨hambiguous, frame, kind, houtermost, hkind, _, hrules⟩ :=
        hclosed.passed hshape hfailure
      have hreplays : ∃ replays, judge.replaysReasoningText = some replays := by
        rw [replaysReasoningText, hkind]
        split
        · exact ⟨_, rfl⟩
        · obtain rfl : kind = .reasoning := by simp_all
          obtain ⟨content, hcontent⟩ := reasoning_content hrules
          exact ⟨_, by rw [houtermost, Option.map_some, hcontent]⟩
      have hphase : ∃ phase, judge.answerPhase = some phase := by
        rw [answerPhase, hkind]
        split
        · exact ⟨_, rfl⟩
        · obtain rfl : kind = .message := by simp_all
          obtain ⟨phase, hphase⟩ := message_phase hrules
          exact ⟨_, by rw [houtermost, Option.map_some, hphase]⟩
      obtain ⟨replays, hreplays⟩ := hreplays
      obtain ⟨phase, hphase⟩ := hphase
      refine ⟨.ok replays, ?_, fun _ _ => ⟨kind, phase, hkind, hphase⟩⟩
      simp [hambiguous, hreplays]
      rfl
  · rw [if_pos hshape]
    exact ⟨_, rfl, nofun⟩

end Judge

end Rui.Responses
