import Rui.Credentials.File

/-!
# The credential file's round trip

A file that is read is the ten lines of the record it reads, up to how its three numbers are
spelled; a record that is written is read back.
-/

namespace Rui.Credentials

open Library

variable {record : Record} {lines : List (List UInt8)}

/-! ## Fields -/

variable {value generation expiresAt refreshedAt : List UInt8}

theorem field_eq_ok {line : Option (List UInt8)} {lead : List UInt8} :
    field line lead = .ok value ↔ line = some (lead ++ value) := by
  cases line with
  | none => exact ⟨fun h => (by cases h), fun h => (by cases h)⟩
  | some whole =>
    rw [field, Option.some.injEq]
    by_cases hlead : lead.isPrefixOf whole = true
    · obtain ⟨rest, rfl⟩ := List.isPrefixOf_iff_prefix.mp hlead
      rw [if_pos hlead, List.drop_left' rfl, Except.ok.injEq, List.append_cancel_left_eq]
    · rw [if_neg hlead]
      refine ⟨fun h => (by cases h), fun h => absurd ?_ hlead⟩
      rw [h]
      exact List.isPrefixOf_iff_prefix.mpr (List.prefix_append _ _)

variable {capacity : Nat} {n : UInt64} {bytes : List UInt8} {destination : Record}

theorem Bounded.set_eq_ok {field : Bounded capacity} :
    Bounded.set capacity value = .ok field ↔ value = field.slice := by
  rw [Bounded.set]
  by_cases hlong : value.length > capacity
  · rw [dif_pos hlong]
    refine ⟨fun h => (by cases h), fun h => absurd field.fits (Nat.not_le.mpr ?_)⟩
    rw [← h]
    exact hlong
  · rw [dif_neg hlong, Except.ok.injEq]
    exact ⟨fun h => h ▸ rfl, fun h => Bounded.ext h⟩

theorem readFedramp_eq_ok {fedramp : Bool} :
    readFedramp value = .ok fedramp ↔ value = decimal fedramp.toNat := by
  have hone : decimal true.toNat = text "1" := rfl
  have hzero : decimal false.toNat = text "0" := rfl
  rw [readFedramp]
  by_cases h₁ : value = text "1"
  · rw [if_pos h₁, h₁, Except.ok.injEq]
    cases fedramp
    · exact ⟨fun h => (by cases h), fun h => absurd h (by rw [hzero]; decide)⟩
    · exact ⟨fun _ => hone.symm, fun _ => rfl⟩
  rw [if_neg h₁]
  by_cases h₀ : value = text "0"
  · rw [if_pos h₀, h₀, Except.ok.injEq]
    cases fedramp
    · exact ⟨fun _ => hzero.symm, fun _ => rfl⟩
    · exact ⟨fun h => (by cases h), fun h => absurd h (by rw [hone]; decide)⟩
  rw [if_neg h₀]
  refine ⟨fun h => (by cases h), fun h => ?_⟩
  cases fedramp
  · exact absurd (h.trans hzero) h₀
  · exact absurd (h.trans hone) h₁

theorem readState_eq_ok {state : State} : readState value = .ok state ↔ value = state.tag := by
  have hsome : ∀ found, State.ofTag value = some found → found.tag = value := by
    intro found hfound
    rw [State.ofTag] at hfound
    have htag := List.find?_some hfound
    exact of_decide_eq_true htag
  have htag : ∀ state, State.ofTag (State.tag state) = some state := by
    intro state
    cases state <;> rfl
  rw [readState]
  cases hfind : State.ofTag value with
  | none =>
    refine ⟨fun h => (by cases h), fun h => ?_⟩
    rw [h, htag] at hfind
    cases hfind
  | some found =>
    rw [Except.ok.injEq]
    refine ⟨fun h => h ▸ (hsome found hfind).symm, fun h => ?_⟩
    rw [h, htag] at hfind
    exact (Option.some.inj hfind).symm

theorem checkEnd_eq_ok : checkEnd lines = .ok () ↔ lines[10]? = some [] ∧ lines[11]? = none := by
  rw [checkEnd]
  cases lines[10]? with
  | none => exact ⟨fun h => (by cases h), fun h => (by cases h.1)⟩
  | some line => rw [require_eq_ok, Option.some.injEq]

/-- A number that is read as a value of its type, which has all that is parsed. -/
theorem number_eq_ok {α β : Type} {parsed : Option α} {read : Except CredentialError β}
    {make : α → β} {value : β → α} {n : β}
    (hnone : parsed = none → read = .error .invalidCredentialNumber)
    (hsome : ∀ m, parsed = some m → read = .ok (make m) ∧ value (make m) = m)
    (hvalue : make (value n) = n) : read = .ok n ↔ parsed = some (value n) := by
  cases hparsed : parsed with
  | none =>
    rw [hnone hparsed]
    exact ⟨fun h => (by cases h), fun h => (by cases h)⟩
  | some m =>
    obtain ⟨hread, hmade⟩ := hsome m hparsed
    rw [hread, Except.ok.injEq, Option.some.injEq]
    exact ⟨fun h => by rw [← h, hmade], fun h => by rw [h, hvalue]⟩

theorem decimalU64_eq_ok :
    decimalU64 value = .ok n ↔ parseInt (2 ^ 64 - 1) value = some n.toNat := by
  refine number_eq_ok (fun hnone => by rw [decimalU64, hnone]) (fun m hparse => ?_)
    UInt64.ofNat_toNat
  have hle := (parseInt_eq_some.mp hparse).2
  exact ⟨by rw [decimalU64, hparse],
    by rw [UInt64.toNat_ofNat_of_lt' (by rw [UInt64.size]; omega)]⟩

theorem decimalI64_eq_ok {n : Int64} :
    decimalI64 value = .ok n ↔ parseSigned (2 ^ 63 - 1) value = some n.toInt := by
  refine number_eq_ok (fun hnone => by rw [decimalI64, hnone]) (fun m hparse => ?_)
    (Int64.ofInt_toInt n)
  obtain ⟨hlow, hhigh⟩ := parseSigned_bounds hparse
  exact ⟨by rw [decimalI64, hparse], by rw [Int64.toInt_ofInt_of_le (by omega) (by omega)]⟩

/-! ## Lines -/

/-- The lines of a record whose numbers are spelled like this. -/
def fileLines (record : Record) (generation expiresAt refreshedAt : List UInt8) :
    List (List UInt8) :=
  [text "version=3", text "generation=" ++ generation,
    text "account_id=" ++ record.accountId.slice,
    text "fedramp=" ++ decimal record.fedramp.toNat, text "id_token=" ++ record.idToken.slice,
    text "access_token=" ++ record.accessToken.slice,
    text "refresh_token=" ++ record.refreshToken.slice, text "expires_at=" ++ expiresAt,
    text "refreshed_at=" ++ refreshedAt, text "state=" ++ record.state.tag, []]

def fileText (record : Record) (generation expiresAt refreshedAt : List UInt8) : List UInt8 :=
  [ascii '\n'].intercalate (fileLines record generation expiresAt refreshedAt)

/-- **What the fields are read from.** -/
theorem parseFields_eq_ok {generation : UInt64} :
    parseFields lines generation = .ok record ↔
      record.version = 3 ∧ record.generation = generation ∧ validateRecord record = .ok () ∧
      lines[2]? = some (text "account_id=" ++ record.accountId.slice) ∧
      lines[3]? = some (text "fedramp=" ++ decimal record.fedramp.toNat) ∧
      lines[4]? = some (text "id_token=" ++ record.idToken.slice) ∧
      lines[5]? = some (text "access_token=" ++ record.accessToken.slice) ∧
      lines[6]? = some (text "refresh_token=" ++ record.refreshToken.slice) ∧
      (∃ value, lines[7]? = some (text "expires_at=" ++ value) ∧
        parseSigned (2 ^ 63 - 1) value = some record.expiresAt.toInt) ∧
      (∃ value, lines[8]? = some (text "refreshed_at=" ++ value) ∧
        parseSigned (2 ^ 63 - 1) value = some record.refreshedAt.toInt) ∧
      lines[9]? = some (text "state=" ++ record.state.tag) ∧
      lines[10]? = some [] ∧ lines[11]? = none := by
  simp only [parseFields, bind_eq_ok, pure_eq_ok, field_eq_ok, Bounded.set_eq_ok,
    readFedramp_eq_ok, readState_eq_ok, decimalI64_eq_ok]
  constructor
  · rintro ⟨_, h₂, accountId, rfl, _, h₃, fedramp, rfl, _, h₄, idToken, rfl, _, h₅, accessToken, rfl,
      _, h₆, refreshToken, rfl, _, h₇, expiresAt, hexpires, _, h₈, refreshedAt, hrefreshed, _, h₉,
      state, rfl, _, hend, _, hvalid, rfl⟩
    exact ⟨rfl, rfl, hvalid, h₂, h₃, h₄, h₅, h₆, ⟨_, h₇, hexpires⟩, ⟨_, h₈, hrefreshed⟩, h₉,
      checkEnd_eq_ok.mp hend⟩
  · rintro ⟨hversion, rfl, hvalid, h₂, h₃, h₄, h₅, h₆, ⟨_, h₇, hexpires⟩, ⟨_, h₈, hrefreshed⟩, h₉,
      hend⟩
    have hrecord : ({ record with version := 3 } : Record) = record := by rw [← hversion]
    refine ⟨_, h₂, record.accountId, rfl, _, h₃, record.fedramp, rfl, _, h₄, record.idToken, rfl, _,
      h₅, record.accessToken, rfl, _, h₆, record.refreshToken, rfl, _, h₇, record.expiresAt,
      hexpires, _, h₈, record.refreshedAt, hrefreshed, _, h₉, record.state, rfl, (),
      checkEnd_eq_ok.mpr hend, (), ?_, ?_⟩
    · exact hrecord ▸ hvalid
    · exact hrecord

theorem eq_fileLines (h₀ : lines[0]? = some (text "version=3"))
    (h₁ : lines[1]? = some (text "generation=" ++ generation))
    (h₂ : lines[2]? = some (text "account_id=" ++ record.accountId.slice))
    (h₃ : lines[3]? = some (text "fedramp=" ++ decimal record.fedramp.toNat))
    (h₄ : lines[4]? = some (text "id_token=" ++ record.idToken.slice))
    (h₅ : lines[5]? = some (text "access_token=" ++ record.accessToken.slice))
    (h₆ : lines[6]? = some (text "refresh_token=" ++ record.refreshToken.slice))
    (h₇ : lines[7]? = some (text "expires_at=" ++ expiresAt))
    (h₈ : lines[8]? = some (text "refreshed_at=" ++ refreshedAt))
    (h₉ : lines[9]? = some (text "state=" ++ record.state.tag))
    (hend : lines[10]? = some [] ∧ lines[11]? = none) :
    lines = fileLines record generation expiresAt refreshedAt := by
  have hshort := List.getElem?_eq_none_iff.mp hend.2
  refine List.ext_getElem? fun i => ?_
  match i with
  | 0 => exact h₀
  | 1 => exact h₁
  | 2 => exact h₂
  | 3 => exact h₃
  | 4 => exact h₄
  | 5 => exact h₅
  | 6 => exact h₆
  | 7 => exact h₇
  | 8 => exact h₈
  | 9 => exact h₉
  | 10 => exact hend.1
  | i + 11 =>
    rw [List.getElem?_eq_none_iff.mpr (by omega)]
    exact (List.getElem?_eq_none_iff.mpr (Nat.le_add_left 11 i)).symm

/-- What a file that is read has in it. -/
structure Reads (record : Record) (generation expiresAt refreshedAt : List UInt8) : Prop where
  version : record.version = 3
  valid : validateRecord record = .ok ()
  generation : parseInt (2 ^ 64 - 1) generation = some record.generation.toNat
  expiresAt : parseSigned (2 ^ 63 - 1) expiresAt = some record.expiresAt.toInt
  refreshedAt : parseSigned (2 ^ 63 - 1) refreshedAt = some record.refreshedAt.toInt

theorem parseGeneration_eq_ok : parseGeneration lines = .ok n ↔
    lines[0]? = some (text "version=3") ∧ ∃ value, lines[1]? = some (text "generation=" ++ value) ∧
      parseInt (2 ^ 64 - 1) value = some n.toNat := by
  rw [parseGeneration]
  cases lines[0]? with
  | none => exact ⟨fun h => (by cases h), fun h => (by cases h.1)⟩
  | some version =>
    simp only [Option.some.injEq]
    by_cases hversion : version = text "version=3"
    · simp only [hversion, ne_eq, not_true_eq_false, if_false, true_and, bind_eq_ok, field_eq_ok,
        decimalU64_eq_ok]
    · rw [if_pos hversion]
      exact ⟨fun h => (by cases h), fun h => absurd h.1 hversion⟩

/-- **A file that is read** is the lines of the record, with its numbers spelled in some way. -/
theorem parseInto_sound (h : parseInto bytes destination = (.ok (), record)) :
    ∃ generation expiresAt refreshedAt, Reads record generation expiresAt refreshedAt ∧
      bytes.splitOn (ascii '\n') = fileLines record generation expiresAt refreshedAt ∧
      bytes = fileText record generation expiresAt refreshedAt := by
  rw [parseInto] at h
  cases hgeneration : parseGeneration (bytes.splitOn (ascii '\n')) with
  | error failure =>
    rw [hgeneration] at h
    cases h
  | ok n =>
    rw [hgeneration] at h
    cases hfields : parseFields (bytes.splitOn (ascii '\n')) n with
    | error failure =>
      simp only [hfields] at h
      cases h
    | ok found =>
      simp only [hfields, Prod.mk.injEq, true_and] at h
      subst h
      obtain ⟨h₀, generation, h₁, hparse⟩ := parseGeneration_eq_ok.mp hgeneration
      obtain ⟨hversion, rfl, hvalid, h₂, h₃, h₄, h₅, h₆, ⟨expiresAt, h₇, hexpires⟩,
        ⟨refreshedAt, h₈, hrefreshed⟩, h₉, hend⟩ := parseFields_eq_ok.mp hfields
      have hlines := eq_fileLines h₀ h₁ h₂ h₃ h₄ h₅ h₆ h₇ h₈ h₉ hend
      refine ⟨generation, expiresAt, refreshedAt, ⟨hversion, hvalid, hparse, hexpires, hrefreshed⟩,
        hlines, ?_⟩
      rw [fileText, ← hlines, List.intercalate_splitOn]

/-- **Such lines are read** as the record. -/
theorem parseInto_complete (h : Reads record generation expiresAt refreshedAt)
    (hlines : bytes.splitOn (ascii '\n') = fileLines record generation expiresAt refreshedAt) :
    parseInto bytes destination = (.ok (), record) := by
  have hgeneration : parseGeneration (bytes.splitOn (ascii '\n')) = .ok record.generation :=
    parseGeneration_eq_ok.mpr (by rw [hlines]; exact ⟨rfl, generation, rfl, h.generation⟩)
  have hfields : parseFields (bytes.splitOn (ascii '\n')) record.generation = .ok record :=
    parseFields_eq_ok.mpr (by
      rw [hlines]
      exact ⟨h.version, rfl, h.valid, rfl, rfl, rfl, rfl, rfl, ⟨expiresAt, rfl, h.expiresAt⟩,
        ⟨refreshedAt, rfl, h.refreshedAt⟩, rfl, rfl, rfl⟩)
  rw [parseInto]
  simp only [hgeneration, hfields]

/-! ## Valid records -/

theorem validateText_eq_ok (h : validateText value false = .ok ()) : ascii '\n' ∉ value := by
  rw [validateText] at h
  split_ifs at h with hempty hbyte
  intro hmem
  refine hbyte (List.any_eq_true.mpr ⟨_, hmem, ?_⟩)
  decide

/-- What a valid record is. -/
structure Valid (record : Record) : Prop where
  version : record.version = 3
  accountId : ascii '\n' ∉ record.accountId.slice
  idToken : ascii '\n' ∉ record.idToken.slice
  accessToken : ascii '\n' ∉ record.accessToken.slice
  refreshToken : ascii '\n' ∉ record.refreshToken.slice
  expiresAt : 0 ≤ record.expiresAt.toInt
  refreshedAt : 0 ≤ record.refreshedAt.toInt

theorem Valid.of_validateRecord (h : validateRecord record = .ok ()) : Valid record := by
  simp only [validateRecord, bind_eq_ok] at h
  obtain ⟨_, hversion, _, haccount, _, hid, _, haccess, _, hrefresh, _, htimes, -⟩ := h
  have htimes := require_eq_ok.mp htimes
  simp only [not_or, Int64.lt_iff_toInt_lt, Int64.le_iff_toInt_le] at htimes
  have hzero : (0 : Int64).toInt = 0 := rfl
  rw [hzero] at htimes
  exact ⟨require_eq_ok.mp hversion, validateText_eq_ok haccount, validateText_eq_ok hid,
    validateText_eq_ok haccess, validateText_eq_ok hrefresh, by omega, by omega⟩

theorem notMem_decimal (n : Nat) : ascii '\n' ∉ decimal n := by
  intro hmem
  exact absurd (isDigit_of_mem_decimal hmem) (by decide)

theorem Valid.splits (h : Valid record) (hgeneration : ascii '\n' ∉ generation)
    (hexpires : ascii '\n' ∉ expiresAt) (hrefreshed : ascii '\n' ∉ refreshedAt) :
    (fileText record generation expiresAt refreshedAt).splitOn (ascii '\n') =
      fileLines record generation expiresAt refreshedAt := by
  refine List.splitOn_intercalate _ (fun line hline => ?_) (List.cons_ne_nil _ _)
  have hlead : ∀ lead value : List UInt8, ascii '\n' ∉ lead → ascii '\n' ∉ value →
      ascii '\n' ∉ lead ++ value := fun lead value hlead hvalue hmem =>
    (List.mem_append.mp hmem).elim hlead hvalue
  have htag : ascii '\n' ∉ record.state.tag := by
    cases record.state <;> decide
  simp only [fileLines, List.mem_cons, List.not_mem_nil, or_false] at hline
  rcases hline with rfl | rfl | rfl | rfl | rfl | rfl | rfl | rfl | rfl | rfl | rfl
  · decide
  · exact hlead _ _ (by decide) hgeneration
  · exact hlead _ _ (by decide) h.accountId
  · exact hlead _ _ (by decide) (notMem_decimal _)
  · exact hlead _ _ (by decide) h.idToken
  · exact hlead _ _ (by decide) h.accessToken
  · exact hlead _ _ (by decide) h.refreshToken
  · exact hlead _ _ (by decide) hexpires
  · exact hlead _ _ (by decide) hrefreshed
  · exact hlead _ _ (by decide) htag
  · exact List.not_mem_nil

theorem printSigned_nonneg {n : Int} (h : 0 ≤ n) : printSigned n = decimal n.toNat := by
  obtain ⟨m, rfl⟩ := Int.eq_ofNat_of_zero_le h
  rfl

theorem Valid.printed (h : Valid record) :
    printSigned record.expiresAt.toInt = decimal record.expiresAt.toInt.toNat ∧
      printSigned record.refreshedAt.toInt = decimal record.refreshedAt.toInt.toNat :=
  ⟨printSigned_nonneg h.expiresAt, printSigned_nonneg h.refreshedAt⟩

/-! ## Writing -/

theorem length_decimal_u64 (n : UInt64) : (decimal n.toNat).length ≤ 20 :=
  (length_decimal_le (by decide)).mpr (lt_of_lt_of_le n.toNat_lt (by decide))

theorem length_decimal_i64 (n : Int64) : (decimal n.toInt.toNat).length ≤ 19 := by
  have hlt := n.toInt_lt
  exact (length_decimal_le (by decide)).mpr (by omega)

/-- **A valid record is written** as its lines, in the space of a file. -/
theorem encode_eq (hvalid : validateRecord record = .ok ()) :
    encode record maxFileBytes = .ok (fileText record (decimal record.generation.toNat)
      (printSigned record.expiresAt.toInt) (printSigned record.refreshedAt.toInt)) := by
  have hprinted := (Valid.of_validateRecord hvalid).printed
  have haccount := record.accountId.fits
  have hid := record.idToken.fits
  have haccess := record.accessToken.fits
  have hrefresh := record.refreshToken.fits
  have hgeneration := length_decimal_u64 record.generation
  have hexpires := length_decimal_i64 record.expiresAt
  have hrefreshed := length_decimal_i64 record.refreshedAt
  have hfedramp : (decimal record.fedramp.toNat).length = 1 := by
    cases record.fedramp <;> rfl
  have htag : record.state.tag.length ≤ 15 := by
    cases record.state <;> decide
  have hshape : fileText record (decimal record.generation.toNat)
      (printSigned record.expiresAt.toInt) (printSigned record.refreshedAt.toInt) =
      text "version=3\ngeneration=" ++ decimal record.generation.toNat ++
        text "\naccount_id=" ++ record.accountId.slice ++
        text "\nfedramp=" ++ decimal record.fedramp.toNat ++
        text "\nid_token=" ++ record.idToken.slice ++
        text "\naccess_token=" ++ record.accessToken.slice ++
        text "\nrefresh_token=" ++ record.refreshToken.slice ++
        text "\nexpires_at=" ++ printSigned record.expiresAt.toInt ++
        text "\nrefreshed_at=" ++ printSigned record.refreshedAt.toInt ++
        text "\nstate=" ++ record.state.tag ++ text "\n" := by
    have hfirst : text "version=3\ngeneration=" =
        text "version=3" ++ ascii '\n' :: text "generation=" := rfl
    rw [hfirst,
      show text "\naccount_id=" = ascii '\n' :: text "account_id=" from rfl,
      show text "\nfedramp=" = ascii '\n' :: text "fedramp=" from rfl,
      show text "\nid_token=" = ascii '\n' :: text "id_token=" from rfl,
      show text "\naccess_token=" = ascii '\n' :: text "access_token=" from rfl,
      show text "\nrefresh_token=" = ascii '\n' :: text "refresh_token=" from rfl,
      show text "\nexpires_at=" = ascii '\n' :: text "expires_at=" from rfl,
      show text "\nrefreshed_at=" = ascii '\n' :: text "refreshed_at=" from rfl,
      show text "\nstate=" = ascii '\n' :: text "state=" from rfl,
      show text "\n" = ascii '\n' :: text "" from rfl]
    simp only [fileText, fileLines, List.intercalate, List.intersperse, List.flatten_cons,
      List.flatten_nil, List.append_assoc, List.append_nil, List.cons_append, List.nil_append]
    rfl
  rw [encode, hvalid, ok_bind, ← hshape, if_neg]
  rw [hshape, hprinted.1, hprinted.2]
  simp only [List.length_append]
  simp only [maxAccountIdBytes, maxTokenBytes] at haccount hid haccess hrefresh
  have htexts : (text "version=3\ngeneration=").length + (text "\naccount_id=").length +
      (text "\nfedramp=").length + (text "\nid_token=").length + (text "\naccess_token=").length +
      (text "\nrefresh_token=").length + (text "\nexpires_at=").length +
      (text "\nrefreshed_at=").length + (text "\nstate=").length + (text "\n").length ≤ 200 := by
    decide
  rw [maxFileBytes]
  omega

/-! ## The round trip -/

theorem Reads.of_valid (hvalid : validateRecord record = .ok ()) :
    Reads record (decimal record.generation.toNat) (printSigned record.expiresAt.toInt)
      (printSigned record.refreshedAt.toInt) := by
  have h := Valid.of_validateRecord hvalid
  have hgeneration := record.generation.toNat_lt
  have hexpires := record.expiresAt.toInt_lt
  have hrefreshed := record.refreshedAt.toInt_lt
  refine ⟨h.version, hvalid, parseInt_decimal (by omega), ?_, ?_⟩
  · rw [h.printed.1, parseSigned_decimal (by omega), Int.toNat_of_nonneg h.expiresAt]
  · rw [h.printed.2, parseSigned_decimal (by omega), Int.toNat_of_nonneg h.refreshedAt]

theorem Valid.splits_printed (h : Valid record) :
    (fileText record (decimal record.generation.toNat) (printSigned record.expiresAt.toInt)
      (printSigned record.refreshedAt.toInt)).splitOn (ascii '\n') =
      fileLines record (decimal record.generation.toNat) (printSigned record.expiresAt.toInt)
        (printSigned record.refreshedAt.toInt) := by
  refine h.splits (notMem_decimal _) ?_ ?_
  · rw [h.printed.1]
    exact notMem_decimal _
  · rw [h.printed.2]
    exact notMem_decimal _

theorem fileLines_injective {generation' expiresAt' refreshedAt' : List UInt8}
    (h : fileLines record generation expiresAt refreshedAt =
      fileLines record generation' expiresAt' refreshedAt') :
    generation = generation' ∧ expiresAt = expiresAt' ∧ refreshedAt = refreshedAt' := by
  simp only [fileLines, List.cons.injEq, List.append_cancel_left_eq, true_and, and_true] at h
  exact h

/-- **The credential file.** A valid record is written and read back. A file that is read is what
is written of its record, but for how its numbers are spelled. A file that is not read leaves a
wiped record, or the one that was there when its generation is not read. -/
theorem credential_file :
    (∀ record destination, validateRecord record = .ok () → ∃ bytes,
      encode record maxFileBytes = .ok bytes ∧ parseInto bytes destination = (.ok (), record)) ∧
    (∀ bytes destination record, parseInto bytes destination = (.ok (), record) →
      ∃ generation expiresAt refreshedAt, Reads record generation expiresAt refreshedAt ∧
        bytes = fileText record generation expiresAt refreshedAt ∧
        (encode record maxFileBytes = .ok bytes ↔
          generation = decimal record.generation.toNat ∧
          expiresAt = decimal record.expiresAt.toInt.toNat ∧
          refreshedAt = decimal record.refreshedAt.toInt.toNat)) ∧
    ∀ bytes destination failure record,
      parseInto bytes destination = (.error failure, record) →
        record = Record.zeroed ∨ record = destination ∧
          ∀ generation, parseGeneration (bytes.splitOn (ascii '\n')) ≠ .ok generation := by
  refine ⟨fun record destination hvalid => ⟨_, encode_eq hvalid, ?_⟩, fun bytes destination record
    hread => ?_, fun bytes destination failure record hfailed => ?_⟩
  · exact parseInto_complete (Reads.of_valid hvalid)
      (Valid.of_validateRecord hvalid).splits_printed
  · obtain ⟨generation, expiresAt, refreshedAt, hreads, hlines, hbytes⟩ := parseInto_sound hread
    have h := Valid.of_validateRecord hreads.valid
    refine ⟨generation, expiresAt, refreshedAt, hreads, hbytes, ?_⟩
    rw [encode_eq hreads.valid, Except.ok.injEq, ← h.printed.1, ← h.printed.2]
    constructor
    · intro hsame
      rw [← hsame, h.splits_printed] at hlines
      exact fileLines_injective hlines.symm
    · rintro ⟨rfl, rfl, rfl⟩
      exact hbytes.symm
  · rw [parseInto] at hfailed
    cases hgeneration : parseGeneration (bytes.splitOn (ascii '\n')) with
    | error early =>
      simp only [hgeneration, Prod.mk.injEq] at hfailed
      exact .inr ⟨hfailed.2.symm, fun n hok => (by cases hok)⟩
    | ok n =>
      cases hfields : parseFields (bytes.splitOn (ascii '\n')) n with
      | error late =>
        simp only [hgeneration, hfields, Prod.mk.injEq] at hfailed
        exact .inl hfailed.2.symm
      | ok found =>
        simp only [hgeneration, hfields, Prod.mk.injEq, reduceCtorEq, false_and] at hfailed

/-- A record of one-byte tokens. -/
def sample : Record where
  generation := 1
  accountId := ⟨text "a", by decide⟩
  idToken := ⟨text "i", by decide⟩
  accessToken := ⟨text "t", by decide⟩
  refreshToken := ⟨text "r", by decide⟩
  expiresAt := 0
  refreshedAt := 1

/-- A file whose generation is `+1` is read as a record that is written with `1`; and an empty file
leaves a record with its tokens. -/
theorem credential_file_exceptions :
    (parseInto (fileText sample (text "+1") (text "0") (text "1")) Record.zeroed = (.ok (), sample) ∧
      encode sample maxFileBytes ≠ .ok (fileText sample (text "+1") (text "0") (text "1"))) ∧
      ∃ failure, parseInto [] sample = (.error failure, sample) ∧
        sample.accessToken ≠ Record.zeroed.accessToken := by
  have hvalid : validateRecord sample = .ok () := rfl
  have h := Valid.of_validateRecord hvalid
  have hreads : Reads sample (text "+1") (text "0") (text "1") :=
    ⟨rfl, hvalid, by decide, @parseSigned_decimal (2 ^ 63 - 1) 0 (by decide),
      @parseSigned_decimal (2 ^ 63 - 1) 1 (by decide)⟩
  have hlines := h.splits (by decide : ascii '\n' ∉ text "+1") (by decide : ascii '\n' ∉ text "0")
    (by decide : ascii '\n' ∉ text "1")
  refine ⟨⟨parseInto_complete hreads hlines, fun hsame => ?_⟩, _, rfl, by decide⟩
  rw [encode_eq hvalid, Except.ok.injEq] at hsame
  rw [← hsame, h.splits_printed] at hlines
  exact absurd (fileLines_injective hlines).1 (by decide)

end Rui.Credentials
