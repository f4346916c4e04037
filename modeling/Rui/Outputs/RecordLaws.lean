import Rui.Outputs.Records

/-!
# Records and their bytes

An admitted record reads back from its bytes, and bytes that read as a record are the bytes
of that record, which is admitted.
-/

namespace Rui.Outputs

open Library

/-! ## Codes -/

variable {α : Type} {byte : UInt8} {value : α} {code : α → UInt8} {values : List α}
  {option : Option α}

theorem valueOf_eq_some (hinjective : Function.Injective code) (hmem : value ∈ values) :
    valueOf code values byte = some value ↔ byte = code value := by
  constructor
  · intro h
    have hcode := List.find?_some h
    exact (eq_of_beq hcode).symm
  · rintro rfl
    have hsome : (valueOf code values (code value)).isSome = true :=
      List.find?_isSome.mpr ⟨value, hmem, beq_self_eq_true (code value)⟩
    obtain ⟨found, hfound⟩ := Option.isSome_iff_exists.mp hsome
    have hcode := List.find?_some hfound
    rw [hinjective (eq_of_beq hcode)] at hfound
    exact hfound

theorem tag_injective : Function.Injective OutputRecordTag.code := by
  intro tag tag'
  cases tag <;> cases tag' <;> decide

theorem kind_injective : Function.Injective OutputItemKind.code := by
  intro kind kind'
  cases kind <;> cases kind' <;> decide

theorem tag_ofCode {tag : OutputRecordTag} :
    OutputRecordTag.ofCode byte = some tag ↔ byte = tag.code :=
  valueOf_eq_some tag_injective (by cases tag <;> decide)

theorem kind_ofCode {kind : OutputItemKind} :
    OutputItemKind.ofCode byte = some kind ↔ byte = kind.code :=
  valueOf_eq_some kind_injective (by cases kind <;> decide)

theorem action_ofCode {action : HostedAction} :
    HostedAction.ofCode byte = some action ↔ byte = action.code :=
  valueOf_eq_some (fun a b => by cases a <;> cases b <;> decide) (by cases action <;> decide)

theorem partKind_ofCode {kind : PartKind} : PartKind.ofCode byte = some kind ↔ byte = kind.code :=
  valueOf_eq_some (fun a b => by cases a <;> cases b <;> decide) (by cases kind <;> decide)

theorem phase_ofCode {phase : NeutralPhase} :
    NeutralPhase.ofCode byte = some phase ↔ byte = phase.code :=
  valueOf_eq_some (fun a b => by cases a <;> cases b <;> decide) (by cases phase <;> decide)

theorem partArray_ofCode {array : PartArray} :
    PartArray.ofCode byte = some array ↔ byte = array.code :=
  valueOf_eq_some (fun a b => by cases a <;> cases b <;> decide) (by cases array <;> decide)

theorem scope_ofCode {scope : BagScope} : BagScope.ofCode byte = some scope ↔ byte = scope.code :=
  valueOf_eq_some (fun a b => by cases a <;> cases b <;> decide) (by cases scope <;> decide)

theorem action_code (action : HostedAction) :
    action.code ≤ 3 ∧ (action.code = 0 ↔ action = .none) := by
  cases action <;> decide

theorem partKind_code (kind : PartKind) :
    kind.code ≤ 4 ∧ (kind.code = 0 ↔ kind = .opaqueBlock) := by
  cases kind <;> decide

theorem phase_code (phase : NeutralPhase) :
    phase.code ≤ 2 ∧ (phase.code = 0 ↔ phase = .unphased) := by
  cases phase <;> decide

theorem partArray_code (array : PartArray) : array.code ≤ 2 ∧ (array.code = 0 ↔ array = .none) := by
  cases array <;> decide

theorem scope_code (scope : BagScope) : scope.code ≤ 1 ∧ (scope.code = 0 ↔ scope = .item) := by
  cases scope <;> decide

/-! ## Slots -/

theorem ofNat_u64Bytes (n : UInt64) : UInt64.ofNat (fromLittleEndian (u64Bytes n)) = n := by
  rw [u64Bytes, fromLittleEndian_littleEndian n.toNat_lt, UInt64.ofNat_toNat]

/-- What a slot reads, written again. -/
theorem u64Bytes_readInt (encoded : Encoded) {start : Nat}
    (h : start + 8 ≤ outputMetadataRecordBytes) :
    u64Bytes (encoded.readInt start (start + 8)) = slice encoded.bytes start (start + 8) := by
  have hlength : (slice encoded.bytes start (start + 8)).length = 8 := by
    rw [length_slice (h.trans_eq encoded.length_eq.symm), Nat.add_sub_cancel_left]
  have hlt := fromLittleEndian_lt (slice encoded.bytes start (start + 8))
  have hsame := littleEndian_fromLittleEndian (slice encoded.bytes start (start + 8))
  rw [hlength] at hlt hsame
  rw [u64Bytes, Encoded.readInt, UInt64.toNat_ofNat_of_lt' hlt, hsame]

namespace OutputMetadataRecord

theorem slots (record : OutputMetadataRecord) :
    slice record.encode.bytes 8 16 = record.ordinalSlot ∧
    slice record.encode.bytes 16 24 = u64Bytes record.start ∧
    slice record.encode.bytes 24 32 = u64Bytes record.length ∧
    slice record.encode.bytes 32 40 = record.decodedLengthSlot ∧
    slice record.encode.bytes 40 72 = record.idSlot ∧
    slice record.encode.bytes 72 104 = record.contentDigest.bytes := by
  have hheader : record.header.length = 8 := rfl
  have hordinal : record.ordinalSlot.length = 8 := length_u64Bytes _
  have hdecoded : record.decodedLengthSlot.length = 8 := length_u64Bytes _
  have hlast : slice record.contentDigest.bytes 0 32 = record.contentDigest.bytes := by
    rw [← record.contentDigest.length_eq, slice_whole]
  refine ⟨?_, ?_, ?_, ?_, ?_, ?_⟩ <;>
    simp (disch := simp [hheader, hordinal, hdecoded, length_u64Bytes, length_idSlot]) only
      [encode, slice_append, hheader, hordinal, hdecoded, length_u64Bytes, length_idSlot,
        Nat.reduceSub, slice_front, hlast]

theorem unusedSlot (record : OutputMetadataRecord) {usage : Usage} (h : record.usage = some usage) :
    slice record.encode.bytes 56 72 = slice record.idDigest.bytes 16 32 := by
  have hid := record.slots.2.2.2.2.1
  have hpart : slice (slice record.encode.bytes 40 72) 16 32 =
      slice record.encode.bytes 56 72 := slice_slice (by decide)
  rw [hid, idSlot, h] at hpart
  rw [← hpart]
  simp only
  rw [slice_append (by simp [length_u64Bytes])]
  simp only [List.length_append, length_u64Bytes, Nat.reduceAdd, Nat.reduceSub]
  exact slice_slice (by decide)

end OutputMetadataRecord

/-! ## Reading back -/

namespace OutputMetadataRecord

variable {record : OutputMetadataRecord}

/-- The writer's assertions leave nothing for the reader to refuse. -/
theorem Admitted.not_corrupt (h : record.Admitted) : ¬ record.encode.Corrupt := by
  obtain ⟨husage, htext, hreplay, haction, hhosted, hpart, harray, hscope, hphase, hcounts⟩ := h
  have h0 : record.encode.byte 0 = record.tag.code := rfl
  have h1 : record.encode.byte 1 = record.kind.code := rfl
  have h2 : record.encode.byte 2 = if record.usage.isSome then 1 else 0 := rfl
  have h3 : record.encode.byte 3 =
    if record.omitReasoningText || record.callFailed then 1 else 0 := rfl
  have h4 : record.encode.byte 4 =
    if record.tag = .action then record.action.code else record.partKind.code := rfl
  have h5 : record.encode.byte 5 = record.scope.code := rfl
  have h6 : record.encode.byte 6 = record.partArray.code := rfl
  have h7 : record.encode.byte 7 = record.phase.code := rfl
  have hscopeCode := scope_code record.scope
  have harrayCode := partArray_code record.partArray
  have hphaseCode := phase_code record.phase
  have hkindCode := partKind_code record.partKind
  have hactionCode := action_code record.action
  simp only [Encoded.Corrupt, Encoded.isHosted, Encoded.isAction, Encoded.isPart, Encoded.isBag,
    h0, h1, h2, h3, h4, h5, h6, h7, ne_eq, tag_injective.eq_iff, kind_injective.eq_iff]
  rintro (hc | hc | hc | hc | hc | hc | hc)
  · rcases hc with hc | ⟨hc, htag⟩
    · split_ifs at hc <;> revert hc <;> decide
    · rcases husage with hnone | hsome
      · rw [hnone] at hc
        revert hc
        decide
      · exact htag hsome
  · rcases hhosted with hnot | hkind
    · exact hc.1.elim hnot.1 hnot.2
    · exact hc.2 hkind
  · rcases hc with hc | ⟨hc, htag, hitem⟩
    · split_ifs at hc <;> revert hc <;> decide
    · rcases hreplay with hfalse | hreplay
      · rcases haction with hnone | hyes
        · rw [hfalse, hnone.2] at hc
          revert hc
          decide
        · exact htag hyes
      · exact hitem.elim (fun hne => hne hreplay.1) fun hne => hne hreplay.2
  · rcases hc with hc | hc | hc | ⟨hnotPart, hnotAction, hc⟩ | ⟨hisAction, hc⟩ | ⟨hisPart, hc⟩ |
      ⟨hnotBag, hc⟩
    · split_ifs at hc with htag
      · exact absurd (UInt8.le_trans hactionCode.1 (by decide)) (UInt8.not_le.mpr hc)
      · exact absurd hkindCode.1 (UInt8.not_le.mpr hc)
    · exact absurd hscopeCode.1 (UInt8.not_le.mpr hc)
    · exact absurd harrayCode.1 (UInt8.not_le.mpr hc)
    · rcases hpart with hyes | ⟨hkind, harrayNone⟩
      · exact hnotPart hyes
      · rw [if_neg hnotAction] at hc
        exact hc.elim (fun hne => hne (hkindCode.2.mpr hkind))
          fun hne => hne (harrayCode.2.mpr harrayNone)
    · rcases hpart with hyes | ⟨-, harrayNone⟩
      · rw [hyes] at hisAction
        cases hisAction
      · rw [if_pos hisAction] at hc
        exact hc.elim (fun hlarge => absurd hactionCode.1 (UInt8.not_le.mpr hlarge))
          fun hne => hne (harrayCode.2.mpr harrayNone)
    · exact harray.elim (fun hne => hne hisPart) fun hne => hne (harrayCode.2.mp hc)
    · exact hscope.elim (fun hitem => hc (hscopeCode.2.mpr hitem)) hnotBag
  · rcases hc with hc | ⟨hc, hitem⟩
    · exact absurd hphaseCode.1 (UInt8.not_le.mpr hc)
    · rcases hphase with hunphased | hmessage
      · exact hc (hphaseCode.2.mpr hunphased)
      · exact hitem.elim (fun hne => hne hmessage.1) fun hne => hne hmessage.2
  · exact htext.elim (fun hne => hne hc.1) hc.2
  · obtain ⟨hone, hunused⟩ := hc
    rcases hcounts with hnone | ⟨-, -, hzero⟩
    · rw [hnone] at hone
      revert hone
      decide
    · cases husage' : record.usage with
      | none =>
        rw [husage'] at hone
        revert hone
        decide
      | some usage =>
        rw [record.unusedSlot husage', hzero] at hunused
        refine hunused fun byte hbyte => ?_
        exact (List.mem_replicate.mp (List.mem_of_mem_drop (List.mem_of_mem_take hbyte))).2

theorem readInt_encode {start stop : Nat} {n : UInt64}
    (h : slice record.encode.bytes start stop = u64Bytes n) :
    record.encode.readInt start stop = n := by
  rw [Encoded.readInt, h, ofNat_u64Bytes]

theorem usage_encode (record : OutputMetadataRecord) : record.encode.usage = record.usage := by
  obtain ⟨hordinal, -, -, hdecoded, hid, -⟩ := record.slots
  have h2 : record.encode.byte 2 = if record.usage.isSome then 1 else 0 := rfl
  rw [Encoded.usage, h2]
  cases husage : record.usage with
  | none => rfl
  | some usage =>
    rw [ordinalSlot, husage] at hordinal
    rw [decodedLengthSlot, husage] at hdecoded
    have hwrite : slice (slice record.encode.bytes 40 72) 0 8 =
        slice record.encode.bytes 40 48 := slice_slice (by decide)
    have hout : slice (slice record.encode.bytes 40 72) 8 16 =
        slice record.encode.bytes 48 56 := slice_slice (by decide)
    rw [hid, idSlot, husage] at hwrite hout
    simp only [List.append_assoc] at hwrite hout
    rw [slice_front (length_u64Bytes _)] at hwrite
    rw [slice_append (le_of_eq (length_u64Bytes _)), length_u64Bytes,
      slice_front (by rw [length_u64Bytes])] at hout
    rw [Option.isSome_some, if_pos rfl, if_pos rfl, readInt_encode hordinal,
      readInt_encode hdecoded, readInt_encode hwrite.symm, readInt_encode hout.symm]
    rfl

/-- **An admitted record reads back.** -/
theorem decodeRecord_encode (h : record.Admitted) : decodeRecord record.encode = .ok record := by
  obtain ⟨hordinal, hstart, hlength, hdecoded, hid, hcontent⟩ := record.slots
  have husage := record.usage_encode
  have hcorrupt := h.not_corrupt
  obtain ⟨-, -, hreplay, haction, -, hpart, -, -, -, hcounts⟩ := h
  have h3 : record.encode.byte 3 =
    if record.omitReasoningText || record.callFailed then 1 else 0 := rfl
  have h4 : record.encode.byte 4 =
    if record.tag = .action then record.action.code else record.partKind.code := rfl
  have hisAction : record.encode.isAction ↔ record.tag = .action := tag_injective.eq_iff
  have htag : OutputRecordTag.ofCode (record.encode.byte 0) = some record.tag :=
    tag_ofCode.mpr rfl
  have hkind : OutputItemKind.ofCode (record.encode.byte 1) = some record.kind :=
    kind_ofCode.mpr rfl
  have hscope : BagScope.ofCode (record.encode.byte 5) = some record.scope :=
    scope_ofCode.mpr rfl
  have harray : PartArray.ofCode (record.encode.byte 6) = some record.partArray :=
    partArray_ofCode.mpr rfl
  have hphase : NeutralPhase.ofCode (record.encode.byte 7) = some record.phase :=
    phase_ofCode.mpr rfl
  have hcast : (if record.encode.isAction then HostedAction.ofCode (record.encode.byte 4)
      else some .none) = some record.action := by
    by_cases htagAction : record.tag = .action
    · rw [if_pos (hisAction.mpr htagAction)]
      exact action_ofCode.mpr (by rw [h4, if_pos htagAction])
    · rw [if_neg (mt hisAction.mp htagAction)]
      exact congrArg some (haction.resolve_right htagAction).1.symm
  have hcastKind : (if record.encode.isAction then some .opaqueBlock
      else PartKind.ofCode (record.encode.byte 4)) = some record.partKind := by
    by_cases htagAction : record.tag = .action
    · rw [if_pos (hisAction.mpr htagAction)]
      rcases hpart with hyes | hnone
      · rw [hyes] at htagAction
        cases htagAction
      · exact congrArg some hnone.1.symm
    · rw [if_neg (mt hisAction.mp htagAction)]
      exact partKind_ofCode.mpr (by rw [h4, if_neg htagAction])
  have hflag : record.encode.byte 3 = 1 ↔
      record.omitReasoningText = true ∨ record.callFailed = true := by
    rw [h3, ← Bool.or_eq_true]
    by_cases hset : (record.omitReasoningText || record.callFailed) = true
    · rw [if_pos hset]
      exact iff_of_true rfl hset
    · rw [if_neg hset]
      exact iff_of_false (by decide) hset
  have hreplayTag : record.omitReasoningText = true → record.tag ≠ .action := by
    intro htrue htagAction
    rcases hreplay with hfalse | hitem
    · rw [hfalse] at htrue
      cases htrue
    · rw [hitem.1] at htagAction
      cases htagAction
  have hfailedTag : record.callFailed = true → record.tag = .action := by
    intro htrue
    rcases haction with hfalse | htagAction
    · rw [hfalse.2] at htrue
      cases htrue
    · exact htagAction
  have homit : decide (record.encode.byte 3 = 1 ∧ ¬ record.encode.isAction) =
      record.omitReasoningText := by
    rw [Bool.eq_iff_iff, decide_eq_true_iff, hflag, hisAction]
    exact ⟨fun hset => hset.1.resolve_right (mt hfailedTag hset.2),
      fun hset => ⟨.inl hset, hreplayTag hset⟩⟩
  have hfailed : decide (record.encode.byte 3 = 1 ∧ record.encode.isAction) =
      record.callFailed := by
    rw [Bool.eq_iff_iff, decide_eq_true_iff, hflag, hisAction]
    exact ⟨fun hset => hset.1.resolve_left fun homitted => hreplayTag homitted hset.2,
      fun hset => ⟨.inr hset, hfailedTag hset⟩⟩
  have hordinalRead : (if record.usage = none then record.encode.readInt 8 16 else 0) =
      record.ordinal := by
    by_cases hnone : record.usage = none
    · rw [ordinalSlot, hnone] at hordinal
      rw [if_pos hnone, readInt_encode hordinal]
      rfl
    · rw [if_neg hnone, (hcounts.resolve_left hnone).1]
  have hdecodedRead : (if record.usage = none then record.encode.readInt 32 40 else 0) =
      record.decodedLength := by
    by_cases hnone : record.usage = none
    · rw [decodedLengthSlot, hnone] at hdecoded
      rw [if_pos hnone, readInt_encode hdecoded]
      rfl
    · rw [if_neg hnone, (hcounts.resolve_left hnone).2.1]
  have hidRead : (if record.usage = none then record.encode.digest 40 (by decide) else .zero) =
      record.idDigest := by
    by_cases hnone : record.usage = none
    · rw [idSlot, hnone] at hid
      rw [if_pos hnone]
      exact Digest.ext hid
    · rw [if_neg hnone, (hcounts.resolve_left hnone).2.2]
  have hcontentRead : record.encode.digest 72 (by decide) = record.contentDigest :=
    Digest.ext hcontent
  rw [decodeRecord, if_neg hcorrupt]
  simp only [htag, hkind, hcast, hcastKind, hscope, harray, hphase, found, cast, husage, homit,
    hfailed, hordinalRead, hdecodedRead, hidRead, hcontentRead, readInt_encode hstart,
    readInt_encode hlength]
  rfl

end OutputMetadataRecord

/-! ## Writing back -/

theorem Encoded.header_bytes (encoded : Encoded) : slice encoded.bytes 0 8 =
    [encoded.byte 0, encoded.byte 1, encoded.byte 2, encoded.byte 3, encoded.byte 4,
      encoded.byte 5, encoded.byte 6, encoded.byte 7] := by
  have hbyte : ∀ i, i < outputMetadataRecordBytes →
      slice encoded.bytes i (i + 1) = [encoded.byte i] := by
    intro i hi
    refine slice_one ?_
    rw [Encoded.byte, List.getD_eq_getElem?_getD,
      List.getElem?_eq_getElem (hi.trans_eq encoded.length_eq.symm), Option.getD_some]
  have hwhole : slice encoded.bytes 0 1 ++ slice encoded.bytes 1 2 ++ slice encoded.bytes 2 3 ++
      slice encoded.bytes 3 4 ++ slice encoded.bytes 4 5 ++ slice encoded.bytes 5 6 ++
      slice encoded.bytes 6 7 ++ slice encoded.bytes 7 8 = slice encoded.bytes 0 8 := by
    simp (disch := decide) only [slice_cat]
  rw [← hwhole, hbyte 0 (by decide), hbyte 1 (by decide), hbyte 2 (by decide),
    hbyte 3 (by decide), hbyte 4 (by decide), hbyte 5 (by decide), hbyte 6 (by decide),
    hbyte 7 (by decide)]
  rfl

theorem found_eq_ok (h : found option = .ok value) : option = some value := by
  cases option with
  | none => cases h
  | some value' =>
    cases h
    rfl

theorem cast_eq_ok (h : cast option = .ok value) : option = some value := by
  cases option with
  | none => cases h
  | some value' =>
    cases h
    rfl

theorem bind_eq_ok {β : Type} {first : Except Failure α} {next : α → Except Failure β} {value : β}
    (h : first >>= next = .ok value) : ∃ a, first = .ok a ∧ next a = .ok value := by
  cases first with
  | error failure => cases h
  | ok a => exact ⟨a, rfl, h⟩

/-- What a record that was read says of its bytes. -/
structure Read (encoded : Encoded) (record : OutputMetadataRecord) : Prop where
  sound : ¬ encoded.Corrupt
  tag : encoded.byte 0 = record.tag.code
  kind : encoded.byte 1 = record.kind.code
  action : encoded.isAction → encoded.byte 4 = record.action.code ∧
    record.partKind = .opaqueBlock
  partKind : ¬ encoded.isAction → encoded.byte 4 = record.partKind.code ∧ record.action = .none
  scope : encoded.byte 5 = record.scope.code
  partArray : encoded.byte 6 = record.partArray.code
  phase : encoded.byte 7 = record.phase.code
  usage : record.usage = encoded.usage
  omitted : record.omitReasoningText = true ↔ encoded.byte 3 = 1 ∧ ¬ encoded.isAction
  failed : record.callFailed = true ↔ encoded.byte 3 = 1 ∧ encoded.isAction
  start : record.start = encoded.readInt 16 24
  length : record.length = encoded.readInt 24 32
  contentDigest : record.contentDigest = encoded.digest 72 (by decide)
  plain : encoded.usage = none → record.ordinal = encoded.readInt 8 16 ∧
    record.decodedLength = encoded.readInt 32 40 ∧ record.idDigest = encoded.digest 40 (by decide)
  counted : encoded.usage ≠ none →
    record.ordinal = 0 ∧ record.decodedLength = 0 ∧ record.idDigest = .zero

theorem read_of_decodeRecord {encoded : Encoded} {record : OutputMetadataRecord}
    (h : decodeRecord encoded = .ok record) : Read encoded record := by
  rw [decodeRecord] at h
  by_cases hcorrupt : encoded.Corrupt
  · rw [if_pos hcorrupt] at h
    cases h
  rw [if_neg hcorrupt] at h
  obtain ⟨tag, htag, h⟩ := bind_eq_ok h
  obtain ⟨kind, hkind, h⟩ := bind_eq_ok h
  obtain ⟨action, haction, h⟩ := bind_eq_ok h
  obtain ⟨partKind, hpartKind, h⟩ := bind_eq_ok h
  obtain ⟨scope, hscope, h⟩ := bind_eq_ok h
  obtain ⟨partArray, hpartArray, h⟩ := bind_eq_ok h
  obtain ⟨phase, hphase, h⟩ := bind_eq_ok h
  cases h
  have haction := cast_eq_ok haction
  have hpartKind := cast_eq_ok hpartKind
  refine
    { sound := hcorrupt
      tag := tag_ofCode.mp (found_eq_ok htag)
      kind := kind_ofCode.mp (found_eq_ok hkind)
      action := fun his => ?_
      partKind := fun hnot => ?_
      scope := scope_ofCode.mp (cast_eq_ok hscope)
      partArray := partArray_ofCode.mp (cast_eq_ok hpartArray)
      phase := phase_ofCode.mp (cast_eq_ok hphase)
      usage := rfl
      omitted := decide_eq_true_iff
      failed := decide_eq_true_iff
      start := rfl
      length := rfl
      contentDigest := rfl
      plain := fun hnone => ⟨if_pos hnone, if_pos hnone, if_pos hnone⟩
      counted := fun hsome => ⟨if_neg hsome, if_neg hsome, if_neg hsome⟩ }
  · rw [if_pos his] at haction hpartKind
    exact ⟨action_ofCode.mp haction, (Option.some.inj hpartKind).symm⟩
  · rw [if_neg hnot] at haction hpartKind
    exact ⟨partKind_ofCode.mp hpartKind, (Option.some.inj haction).symm⟩

namespace Read

variable {encoded : Encoded} {record : OutputMetadataRecord}

section

variable (h : Read encoded record)

include h

theorem isAction : encoded.isAction ↔ record.tag = .action := by
  rw [Encoded.isAction, h.tag, tag_injective.eq_iff]

theorem usage_eq_none :
    record.usage = none ↔ encoded.byte 2 ≠ 1 := by
  rw [h.usage, Encoded.usage]
  by_cases hone : encoded.byte 2 = 1
  · rw [if_pos hone]
    exact iff_of_false (fun hnone => (by cases hnone)) (not_not_intro hone)
  · rw [if_neg hone]
    exact iff_of_true rfl hone

theorem admitted : record.Admitted := by
  have hsound := h.sound
  have haction := h.isAction
  have hscopeCode := (scope_code record.scope).2
  have harrayCode := (partArray_code record.partArray).2
  have hphaseCode := (phase_code record.phase).2
  have hkindCode := (partKind_code record.partKind).2
  simp only [Encoded.Corrupt, Encoded.isHosted, Encoded.isPart, Encoded.isBag, haction, h.tag,
    h.kind, h.scope, h.partArray, h.phase, ne_eq, tag_injective.eq_iff, kind_injective.eq_iff,
    hscopeCode, harrayCode, hphaseCode, not_or] at hsound
  obtain ⟨⟨-, husage⟩, hhosted, ⟨-, hflag⟩, ⟨-, -, -, hslots, hactionSlots, hpartSlots, hbag⟩,
    ⟨-, hphase⟩, htext, -⟩ := hsound
  refine
    { usage := ?_, text := ?_, replay := ?_, action := ?_, hosted := ?_, part := ?_
      array := ?_, scope := ?_, phase := ?_, counts := ?_ }
  · by_cases htag : record.tag = .usage
    · exact .inr htag
    · exact .inl (h.usage_eq_none.mpr fun hone => husage ⟨hone, htag⟩)
  · by_cases htag : record.tag = .text
    · exact .inr (by_contra fun hkind => htext ⟨htag, hkind⟩)
    · exact .inl htag
  · cases homit : record.omitReasoningText with
    | false => exact .inl rfl
    | true =>
      obtain ⟨hone, hnot⟩ := h.omitted.mp homit
      rw [haction] at hnot
      refine .inr ⟨by_contra fun htag => hflag ⟨hone, hnot, .inl htag⟩,
        by_contra fun hkind => hflag ⟨hone, hnot, .inr hkind⟩⟩
  · by_cases htag : record.tag = .action
    · exact .inr htag
    · refine .inl ⟨(h.partKind (mt haction.mp htag)).2, ?_⟩
      exact Bool.eq_false_iff.mpr fun hfailed => htag (haction.mp (h.failed.mp hfailed).2)
  · by_cases htag : record.tag = .action
    · exact .inr (by_contra fun hkind => hhosted ⟨.inl htag, hkind⟩)
    · by_cases hpattern : record.tag = .pattern
      · exact .inr (by_contra fun hkind => hhosted ⟨.inr hpattern, hkind⟩)
      · exact .inl ⟨htag, hpattern⟩
  · by_cases hpart : record.tag = .part
    · exact .inl hpart
    · refine .inr ?_
      by_cases htag : record.tag = .action
      · exact ⟨(h.action (haction.mpr htag)).2,
          by_contra fun harray => hactionSlots ⟨htag, .inr harray⟩⟩
      · have hbyte := (h.partKind (mt haction.mp htag)).1
        rw [hbyte, hkindCode] at hslots
        exact ⟨by_contra fun hkind => hslots ⟨hpart, htag, .inl hkind⟩,
          by_contra fun harray => hslots ⟨hpart, htag, .inr harray⟩⟩
  · by_cases hpart : record.tag = .part
    · exact .inr fun harray => hpartSlots ⟨hpart, harray⟩
    · exact .inl hpart
  · by_cases hitem : record.scope = .item
    · exact .inl hitem
    · refine .inr (by_contra fun hnot => ?_)
      exact hbag ⟨not_or.mp hnot, hitem⟩
  · by_cases hunphased : record.phase = .unphased
    · exact .inl hunphased
    · exact .inr ⟨by_contra fun htag => hphase ⟨hunphased, .inl htag⟩,
        by_contra fun hkind => hphase ⟨hunphased, .inr hkind⟩⟩
  · by_cases hnone : record.usage = none
    · exact .inl hnone
    · exact .inr (h.counted (by rwa [← h.usage]))

theorem header_eq : record.header = slice encoded.bytes 0 8 := by
  have hsound := h.sound
  simp only [Encoded.Corrupt, not_or] at hsound
  obtain ⟨⟨hb2, -⟩, -, ⟨hb3, -⟩, -⟩ := hsound
  have hflag : ∀ byte : UInt8, ¬ 1 < byte → byte ≠ 1 → byte = 0 := by
    intro byte hle hne
    refine UInt8.toNat_inj.mp ?_
    have hle' : ¬ 1 < byte.toNat := hle
    have hne' : byte.toNat ≠ 1 := fun heq => hne (UInt8.toNat_inj.mp heq)
    show byte.toNat = 0
    omega
  have husage : (if record.usage.isSome then 1 else 0) = encoded.byte 2 := by
    by_cases hone : encoded.byte 2 = 1
    · have hsome : record.usage ≠ none := fun hnone => h.usage_eq_none.mp hnone hone
      rw [if_pos (Option.isSome_iff_ne_none.mpr hsome), hone]
    · rw [h.usage_eq_none.mpr hone, hflag _ hb2 hone]
      rfl
  have hreplay : (if record.omitReasoningText || record.callFailed then 1 else 0) =
      encoded.byte 3 := by
    by_cases hone : encoded.byte 3 = 1
    · have hset : (record.omitReasoningText || record.callFailed) = true := by
        rw [Bool.or_eq_true, h.omitted, h.failed]
        by_cases haction : encoded.isAction
        · exact .inr ⟨hone, haction⟩
        · exact .inl ⟨hone, haction⟩
      rw [if_pos hset, hone]
    · have hunset : ¬ (record.omitReasoningText || record.callFailed) = true := by
        rw [Bool.or_eq_true, h.omitted, h.failed]
        rintro (hset | hset) <;> exact hone hset.1
      rw [if_neg hunset, hflag _ hb3 hone]
  have hslot : (if record.tag = .action then record.action.code else record.partKind.code) =
      encoded.byte 4 := by
    by_cases htag : record.tag = .action
    · rw [if_pos htag, (h.action (h.isAction.mpr htag)).1]
    · rw [if_neg htag, (h.partKind (mt h.isAction.mp htag)).1]
  rw [encoded.header_bytes, OutputMetadataRecord.header, ← h.tag, ← h.kind, husage, hreplay,
    hslot, ← h.scope, ← h.partArray, ← h.phase]

theorem ordinalSlot_eq :
    record.ordinalSlot = slice encoded.bytes 8 16 ∧
      record.decodedLengthSlot = slice encoded.bytes 32 40 := by
  rw [OutputMetadataRecord.ordinalSlot, OutputMetadataRecord.decodedLengthSlot, h.usage]
  cases husage : encoded.usage with
  | none =>
    obtain ⟨hordinal, hdecoded, -⟩ := h.plain husage
    rw [hordinal, hdecoded]
    exact ⟨u64Bytes_readInt encoded (by decide), u64Bytes_readInt encoded (by decide)⟩
  | some usage =>
    rw [Encoded.usage] at husage
    split_ifs at husage
    cases husage
    exact ⟨u64Bytes_readInt encoded (by decide), u64Bytes_readInt encoded (by decide)⟩

theorem idSlot_eq : record.idSlot = slice encoded.bytes 40 72 := by
  rw [OutputMetadataRecord.idSlot, h.usage]
  cases husage : encoded.usage with
  | none => exact congrArg Digest.bytes (h.plain husage).2.2
  | some usage =>
    have hzero := (h.counted (by rw [husage]; exact fun hnone => (by cases hnone))).2.2
    have hsound := h.sound
    simp only [Encoded.Corrupt, not_or] at hsound
    obtain ⟨-, -, -, -, -, -, hunused⟩ := hsound
    rw [Encoded.usage] at husage
    split_ifs at husage with hone
    cases husage
    have hrest : slice encoded.bytes 56 72 = List.replicate 16 0 :=
      List.eq_replicate_iff.mpr ⟨length_slice (encoded.length_eq ▸ (by decide)),
        by_contra fun hne => hunused ⟨hone, hne⟩⟩
    have hwrite : u64Bytes (encoded.readInt 40 48) = slice encoded.bytes 40 48 :=
      u64Bytes_readInt encoded (by decide)
    have hout : u64Bytes (encoded.readInt 48 56) = slice encoded.bytes 48 56 :=
      u64Bytes_readInt encoded (by decide)
    have hdigest : slice record.idDigest.bytes 16 32 = List.replicate 16 0 := by
      rw [hzero]
      rfl
    simp only
    rw [hwrite, hout, hdigest, ← hrest, slice_cat (by decide) (by decide),
      slice_cat (by decide) (by decide)]

/-- **Bytes that read as a record are its bytes.** -/
theorem encode_eq : record.encode = encoded := by
  have hstart : u64Bytes record.start = slice encoded.bytes 16 24 := by
    rw [h.start]
    exact u64Bytes_readInt encoded (by decide)
  have hlength : u64Bytes record.length = slice encoded.bytes 24 32 := by
    rw [h.length]
    exact u64Bytes_readInt encoded (by decide)
  have hcontent : record.contentDigest.bytes = slice encoded.bytes 72 104 :=
    congrArg Digest.bytes h.contentDigest
  refine Encoded.ext ?_
  show record.header ++ (record.ordinalSlot ++ (u64Bytes record.start ++
    (u64Bytes record.length ++ (record.decodedLengthSlot ++ (record.idSlot ++
      record.contentDigest.bytes))))) = encoded.bytes
  rw [h.header_eq, h.ordinalSlot_eq.1, h.ordinalSlot_eq.2, h.idSlot_eq,
    hstart, hlength, hcontent]
  simp (disch := decide) only [slice_cat]
  have hwhole := slice_whole encoded.bytes
  rw [encoded.length_eq] at hwhole
  exact hwhole

end

end Read

/-! ## Casts -/

theorem valueOf_isSome {largest : UInt8}
    (h : ∀ n, n ≤ largest.toNat → (valueOf code values (UInt8.ofNat n)).isSome = true)
    (hle : ¬ largest < byte) : ∃ value, valueOf code values byte = some value := by
  have hbyte := h byte.toNat (UInt8.not_lt.mp hle)
  rw [UInt8.ofNat_toNat] at hbyte
  exact Option.isSome_iff_exists.mp hbyte

/-- The reader casts no byte that its enumeration does not have. -/
theorem decodeRecord_ne_illegalCast (encoded : Encoded) :
    decodeRecord encoded ≠ .error .illegalCast := by
  rw [decodeRecord]
  by_cases hcorrupt : encoded.Corrupt
  · rw [if_pos hcorrupt]
    exact fun h => (by cases h)
  rw [if_neg hcorrupt]
  simp only [Encoded.Corrupt, not_or] at hcorrupt
  obtain ⟨-, -, -, ⟨hb4, hb5, hb6, -, hactionSlots, -⟩, ⟨hb7, -⟩, -⟩ := hcorrupt
  obtain ⟨scope, hscope⟩ : ∃ scope, BagScope.ofCode (encoded.byte 5) = some scope :=
    valueOf_isSome (by decide) hb5
  obtain ⟨partArray, hpartArray⟩ : ∃ array, PartArray.ofCode (encoded.byte 6) = some array :=
    valueOf_isSome (by decide) hb6
  obtain ⟨phase, hphase⟩ : ∃ phase, NeutralPhase.ofCode (encoded.byte 7) = some phase :=
    valueOf_isSome (by decide) hb7
  obtain ⟨action, haction⟩ : ∃ action, (if encoded.isAction then
      HostedAction.ofCode (encoded.byte 4) else some .none) = some action := by
    by_cases his : encoded.isAction
    · rw [if_pos his]
      exact valueOf_isSome (by decide) fun hlarge => hactionSlots ⟨his, .inl hlarge⟩
    · exact ⟨.none, if_neg his⟩
  obtain ⟨partKind, hpartKind⟩ : ∃ kind, (if encoded.isAction then some .opaqueBlock
      else PartKind.ofCode (encoded.byte 4)) = some kind := by
    by_cases his : encoded.isAction
    · exact ⟨.opaqueBlock, if_pos his⟩
    · rw [if_neg his]
      exact valueOf_isSome (by decide) hb4
  simp only [hscope, hpartArray, hphase, haction, hpartKind, cast]
  intro h
  cases htag : OutputRecordTag.ofCode (encoded.byte 0) with
  | none =>
    rw [htag] at h
    cases h
  | some tag =>
    rw [htag] at h
    cases hkind : OutputItemKind.ofCode (encoded.byte 1) with
    | none =>
      rw [hkind] at h
      cases h
    | some kind =>
      rw [hkind] at h
      cases h

/-- **One encoding for each record.** -/
theorem records_roundTrip :
    (∀ record : OutputMetadataRecord, record.Admitted →
      decodeRecord record.encode = .ok record) ∧
    (∀ (encoded : Encoded) (record : OutputMetadataRecord), decodeRecord encoded = .ok record →
      record.Admitted ∧ record.encode = encoded) ∧
    (∀ (encoded encoded' : Encoded) (record : OutputMetadataRecord),
      decodeRecord encoded = .ok record → decodeRecord encoded' = .ok record →
        encoded = encoded') ∧
    ∀ encoded : Encoded, decodeRecord encoded ≠ .error .illegalCast := by
  refine ⟨fun record h => record.decodeRecord_encode h, fun encoded record h => ?_, ?_,
    decodeRecord_ne_illegalCast⟩
  · have hread := read_of_decodeRecord h
    exact ⟨hread.admitted, hread.encode_eq⟩
  · intro encoded encoded' record h h'
    rw [← (read_of_decodeRecord h).encode_eq, ← (read_of_decodeRecord h').encode_eq]

end Rui.Outputs
