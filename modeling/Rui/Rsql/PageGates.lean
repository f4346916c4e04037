import Rui.Rsql.PageRows

/-!
# What a Page's gates find

Each arm's key columns are integers of its walked table and, after the first, no
NULLs; its joins are LEFT JOINs; its names are the Row's first fields.
-/

namespace Rui.Rsql

/-- An index names its own table's columns, and so does its predicate. -/
structure Schema.Formed (schema : Schema) : Prop where
  index : ∀ index ∈ schema.indexes,
    (∀ column ∈ index.columns, (schemaColumn schema index.table column.name).isSome = true) ∧
      ∀ conjunct ∈ index.where_.getD [], ∀ name ∈ conjunct.columns,
        (schemaColumn schema index.table name).isSome = true
  primaryKey : ∀ table ∈ schema.tables, ∀ name ∈ table.primaryKey,
    (schemaColumn schema table.name name).isSome = true

section
variable {engine : Engine} {schema : Schema} {spec : PageSpec} {walk : Walk}

variable {walked : Walked} {paths : List WalkArm} {names : List String}

theorem walkedBy_formed (hformed : schema.Formed) {walks : Ordered}
    (h : walkedBy schema walks = .ok walked) :
    (∀ column ∈ walked.columns, (schemaColumn schema walked.table column.name).isSome = true) ∧
      ∀ conjunct ∈ walked.where_.getD [], ∀ name ∈ conjunct.columns,
        (schemaColumn schema walked.table name).isSome = true := by
  cases walks with
  | index name =>
    simp only [walkedBy] at h
    split at h
    case h_2 => cases h
    case h_1 index hfind =>
      obtain rfl := Except.ok.inj h
      exact hformed.index index (List.mem_of_find?_eq_some hfind)
  | primaryKey name =>
    simp only [walkedBy] at h
    split at h
    case h_2 => cases h
    case h_1 table hfind =>
      split at h
      case isFalse => cases h
      case isTrue =>
        obtain rfl := Except.ok.inj h
        have hname : table.name = name := by simpa using List.find?_some hfind
        constructor
        · intro column hin
          obtain ⟨key, hkey, rfl⟩ := List.mem_map.mp hin
          exact hname ▸ hformed.primaryKey table (List.mem_of_find?_eq_some hfind) key hkey
        · intro conjunct hin
          cases hin

variable {descending : Option Bool} {arm : Arm} {length : Option Nat} {path : WalkArm}
  {fields : List (String × FieldType)}

/-- A key column that is not refused is an integer, and after the first it is never NULL. -/
theorem keyColumnError_none {written : IndexColumn}
    (h : keyColumnError schema walked descending written = none) :
    (∃ column, schemaColumn schema walked.table written.name = some column ∧ column.int = true) ∧
      (descending.isSome = true →
        (∀ column, schemaColumn schema walked.table written.name = some column →
          column.nullable = false) ∨
        Conjunct.notNull written.name ∈ walked.where_.getD []) := by
  simp only [keyColumnError] at h
  split at h
  case isTrue => cases h
  case isFalse =>
    split at h
    case h_1 => cases h
    case h_2 column hcolumn =>
      split at h
      case isTrue => cases h
      case isFalse hint =>
        split at h
        case isTrue => cases h
        case isFalse hnull =>
          refine ⟨⟨column, hcolumn, by simpa using hint⟩, fun hlater => ?_⟩
          cases hnullable : column.nullable with
          | false =>
            left
            intro other hother
            obtain rfl := Option.some.inj (hcolumn.symm.trans hother)
            exact hnullable
          | true =>
            right
            have hstates : states walked.where_ written.name = true := by
              simpa [hlater, hnullable] using hnull
            simp only [states, List.any_eq_true] at hstates
            obtain ⟨conjunct, hin, hsays⟩ := hstates
            cases conjunct with
            | notNull name => exact of_decide_eq_true hsays ▸ hin
            | other columns holds => cases hsays

theorem keyColumns_ok {columns : List IndexColumn} {key : List String}
    (h : keyColumns schema walked descending columns = .ok key) : key = columns.map (·.name) ∧
      (∀ written ∈ columns, ∃ column,
        schemaColumn schema walked.table written.name = some column ∧ column.int = true) ∧
      ∀ written ∈ if descending.isSome then columns else columns.tail,
        (∀ column, schemaColumn schema walked.table written.name = some column →
          column.nullable = false) ∨
        Conjunct.notNull written.name ∈ walked.where_.getD [] := by
  induction columns generalizing descending key with
  | nil =>
    obtain rfl := Except.ok.inj h
    refine ⟨rfl, fun _ hin => (nomatch hin), fun _ hin => ?_⟩
    cases hsome : descending.isSome <;> simp [hsome] at hin
  | cons written rest ih =>
    simp only [keyColumns] at h
    split at h
    case h_1 => cases h
    case h_2 hnone =>
      obtain ⟨hint, hlater⟩ := keyColumnError_none hnone
      cases hrest : keyColumns schema walked (some written.descending) rest with
      | error message => simp [hrest, Except.map] at h
      | ok names =>
        rw [hrest] at h
        obtain rfl := Except.ok.inj h
        obtain ⟨rfl, hints, hlaters⟩ := ih hrest
        simp only [Option.isSome_some, if_true] at hlaters
        refine ⟨rfl, ?_, ?_⟩
        · intro each hin
          rcases List.mem_cons.mp hin with rfl | hin
          · exact hint
          · exact hints each hin
        · intro each hin
          cases hsome : descending.isSome with
          | false =>
            rw [hsome] at hin
            exact hlaters each hin
          | true =>
            rw [hsome] at hin
            rcases List.mem_cons.mp hin with rfl | hin
            · exact hlater hsome
            · exact hlaters each hin

/-- What `keysetOf` accepts of an arm is sound, if its prefix is not written DESC. -/
theorem walkArm_sound (hformed : schema.Formed) (h : walkArm schema arm length = .ok path)
    (hascends : ∀ column ∈ path.prefixColumns, column.descending = false) :
    ArmSound schema arm path ∧ ∀ n, length = some n → path.key.length = n := by
  simp only [walkArm] at h
  split at h
  case h_1 => cases h
  case h_2 walked hwalked =>
    obtain ⟨hcolumns, hpredicate⟩ := walkedBy_formed hformed hwalked
    split at h
    case isTrue => cases h
    case isFalse hlong =>
      split at h
      case h_1 => cases h
      case h_2 hfixed =>
        split at h
        case h_1 => cases h
        case h_2 key hkey =>
          split at h
          case isTrue => cases h
          case isFalse hlength =>
            obtain rfl := Except.ok.inj h
            obtain ⟨rfl, hints, hlaters⟩ := keyColumns_ok hkey
            have hwritten : ∀ (i : Nat) (hi : i < walked.columns.length), i < 1 + arm.fixed.length →
                walked.columns[i].written = walked.columns[i].name := by
              intro i hi hlt
              have hin : walked.columns[i] ∈ walked.columns.take (1 + arm.fixed.length) :=
                List.mem_take_iff_getElem.mpr ⟨i, by omega, rfl⟩
              simp [IndexColumn.written, hascends _ hin]
            refine ⟨⟨?_, ?_, hpredicate, ?_, ?_, ?_⟩, ?_⟩
            · obtain ⟨first, rest, hcons⟩ := List.exists_cons_of_ne_nil
                (List.ne_nil_of_length_pos (show 0 < walked.columns.length by omega))
              have hfirst := hwritten 0 (by omega) (by omega)
              simp only [hcons, List.getElem_cons_zero] at hfirst
              simp only [WalkArm.sessionColumn, hcons, Nat.add_comm 1, List.take_succ_cons,
                List.map_cons, List.headD_cons, hfirst]
              exact hcolumns first (by simp [hcons])
            · intro fixed hin
              obtain ⟨i, hi, rfl⟩ := List.mem_iff_getElem.mp hin
              have hzip : (arm.fixed[i], walked.columns[i + 1]) ∈
                  arm.fixed.zip (walked.columns.drop 1) := by
                rw [List.mem_iff_getElem]
                exact ⟨i, by simp; omega, by simp⟩
              have hsame := List.find?_eq_none.mp hfixed _ hzip
              simp only [ne_eq, decide_not, Bool.not_eq_true', decide_eq_false_iff_not,
                not_not] at hsame
              rw [hsame, hwritten (i + 1) (by omega) (by omega)]
              exact hcolumns _ (List.getElem_mem _)
            · intro hnil
              have := congrArg List.length hnil
              simp only [List.length_map, List.length_drop, List.length_nil] at this
              omega
            · intro name hname
              obtain ⟨written, hin, rfl⟩ := List.mem_map.mp hname
              exact hints written hin
            · intro name hname
              rw [← List.map_tail] at hname
              obtain ⟨written, hin, rfl⟩ := List.mem_map.mp hname
              exact hlaters written hin
            · intro n hn
              simpa [hn] using Eq.symm (by simpa [hn] using hlength)

theorem walkArms_sound (hformed : schema.Formed) {arms : List Arm}
    (h : walkArms schema length arms = .ok paths)
    (hascends : ∀ path ∈ paths, ∀ column ∈ path.prefixColumns, column.descending = false) :
    paths.length = arms.length ∧
      (∀ pair ∈ arms.zip paths, ArmSound schema pair.1 pair.2) ∧
      ∀ path ∈ paths, path.key.length = length.getD ((paths.head?.map (·.key.length)).getD 0) := by
  induction arms generalizing length paths with
  | nil =>
    obtain rfl := Except.ok.inj h
    exact ⟨rfl, fun _ hin => (nomatch hin), fun _ hin => (nomatch hin)⟩
  | cons arm rest ih =>
    simp only [walkArms] at h
    split at h
    case h_1 => cases h
    case h_2 path hpath =>
      cases hrest : walkArms schema (some (length.getD path.key.length)) rest with
      | error message => simp [hrest, Except.map] at h
      | ok others =>
        rw [hrest] at h
        obtain rfl := Except.ok.inj h
        obtain ⟨hsound, hlength⟩ :=
          walkArm_sound hformed hpath (hascends path List.mem_cons_self)
        obtain ⟨hcount, hsounds, hlengths⟩ :=
          ih hrest fun each hin => hascends each (List.mem_cons_of_mem _ hin)
        have hfirst : path.key.length = length.getD path.key.length := by
          cases length with
          | none => rfl
          | some n => exact hlength n rfl
        refine ⟨by simp [hcount], ?_, ?_⟩
        · intro pair hin
          rw [List.zip_cons_cons] at hin
          rcases List.mem_cons.mp hin with rfl | hin
          · exact hsound
          · exact hsounds pair hin
        · intro each hin
          simp only [List.head?_cons, Option.map_some, Option.getD_some]
          rcases List.mem_cons.mp hin with rfl | hin
          · exact hfirst
          · exact hlengths each hin

theorem coresError_left {cores : List CoreText} (h : coresError cores paths = none) :
    ∀ core ∈ cores, ∀ source ∈ core.sources.tail, source.join = .left := by
  induction cores generalizing paths with
  | nil => exact fun _ hin => (nomatch hin)
  | cons core rest ih =>
    cases paths with
    | nil => cases h
    | cons path paths =>
      simp only [coresError] at h
      split at h
      case isTrue => cases h
      case isFalse =>
        split at h
        case isTrue => cases h
        case isFalse hjoins =>
          intro each hin
          rcases List.mem_cons.mp hin with rfl | hin
          · intro source hsource
            simp only [List.any_eq_true, not_exists, not_and] at hjoins
            simpa using hjoins source hsource
          · exact ih h each hin

theorem columnsError_names {number : Nat} {results : List Result}
    (hlength : results.length = fields.length) (h : columnsError number results fields = none) :
    results.map (·.name) = fields.map fun field => some field.1 := by
  induction results generalizing number fields with
  | nil =>
    obtain rfl := List.length_eq_zero_iff.mp hlength.symm
    rfl
  | cons result rest ih =>
    cases fields with
    | nil => cases hlength
    | cons field fields =>
      simp only [columnsError] at h
      split at h
      case h_1 => cases h
      case h_2 name hname =>
        split at h
        case isTrue => cases h
        case isFalse hsame =>
          simp only [ne_eq, not_not] at hsame
          rw [List.map_cons, List.map_cons, hname, hsame, ih (Nat.succ.inj hlength) h]

/-- What a spec's gates find of it. -/
structure Gated (schema : Schema) (spec : PageSpec) (walk : Walk) : Prop where
  arms : walk.arms.length = spec.arms.length
  some : spec.arms ≠ []
  take : 0 < spec.take
  sound : ∀ pair ∈ spec.arms.zip walk.arms, ArmSound schema pair.1 pair.2
  left : ∀ pair ∈ spec.arms.zip walk.arms, ∀ source ∈ pair.1.joins, source.join = .left
  keys : ∀ pair ∈ spec.arms.zip walk.arms, pair.2.key.length = walk.names.length
  names : walk.names.Nodup
  long : walk.names.length ≤ spec.fields.length
  fields : ∃ rest, (spec.fields.take walk.names.length).map (·.2) = .positive :: rest ∧
    ∀ field ∈ rest, field ≠ .other

variable (engine) in
theorem pageText_cores (h : spec.arms ≠ []) (hlength : walk.arms.length = spec.arms.length) :
    (pageText engine spec walk).first :: (pageText engine spec walk).others.map (·.2) =
      (spec.arms.zip walk.arms).map fun pair => armCore engine walk.names pair.1 pair.2 := by
  obtain ⟨arm, arms, harms⟩ := List.exists_cons_of_ne_nil h
  obtain ⟨path, paths, hpaths⟩ : ∃ path paths, walk.arms = path :: paths := by
    apply List.exists_cons_of_ne_nil
    intro hnil
    simp [hnil, harms] at hlength
  simp [pageText, harms, hpaths, Function.comp_def]

/-- The key comes first in an arm's results, under the key's names. -/
theorem armCore_names (hlength : path.key.length = names.length) :
    ((armCore engine names arm path).toCore.names).take names.length =
      names.map Option.some := by
  have hkeys : ((path.key.zip names).map fun pair =>
      (⟨.column ⟨some arm.aliasName, pair.1⟩, some pair.2⟩ : Result)).map (·.name) =
      names.map Option.some := by
    rw [List.map_map]
    have hsnd : (path.key.zip names).map Prod.snd = names :=
      List.map_snd_zip (Nat.le_of_eq hlength.symm)
    conv_rhs => rw [← hsnd, List.map_map]
    rfl
  simp only [Core.names, armCore, List.map_append]
  rw [hkeys, List.take_append_of_le_length (by simp), List.take_of_length_le (by simp)]

theorem fieldsError_none (h : fieldsError names fields = none) (hnames : names ≠ []) :
    ∃ rest, (fields.take names.length).map (·.2) = .positive :: rest ∧
      ∀ field ∈ rest, field ≠ .other := by
  simp only [fieldsError] at h
  split at h
  case isTrue => cases h
  case isFalse hlong =>
    split at h
    case h_1 first rest hcons =>
      split at h
      case isTrue => cases h
      case isFalse hfirst =>
        split at h
        case isTrue => cases h
        case isFalse hrest =>
          simp only [ne_eq, not_not] at hfirst
          refine ⟨rest, hfirst ▸ hcons, fun field hin hother => hrest ?_⟩
          exact List.any_eq_true.mpr ⟨field, hin, decide_eq_true hother⟩
    case h_2 hnil =>
      have hlength := congrArg List.length hnil
      have hpos := List.length_pos_iff.mpr hnames
      simp only [List.length_map, List.length_take, List.length_nil] at hlength
      omega

theorem gated_of (hformed : schema.Formed) (hsome : spec.arms ≠ []) (htake : 0 < spec.take)
    (hpaths : walkArms schema none spec.arms = .ok paths)
    (hascends : ∀ path ∈ paths, ∀ column ∈ path.prefixColumns, column.descending = false)
    (hnames : names = (paths.head?.map (·.key)).getD [])
    (hfields : fieldsError names spec.fields = none)
    (hpage : coresError ((pageText engine spec ⟨names, paths⟩).first ::
      (pageText engine spec ⟨names, paths⟩).others.map (·.2)) paths = none)
    (hrow : rowError (pageText engine spec ⟨names, paths⟩).first.toCore spec.fields = none) :
    Gated schema spec ⟨names, paths⟩ := by
  obtain ⟨hcount, hsounds, hlengths⟩ := walkArms_sound hformed hpaths hascends
  obtain ⟨arm, arms, harms⟩ := List.exists_cons_of_ne_nil hsome
  obtain ⟨path, others, rfl⟩ : ∃ path others, paths = path :: others := by
    apply List.exists_cons_of_ne_nil
    intro hnil
    simp [hnil, harms] at hcount
  obtain rfl : names = path.key := hnames
  have hkeys : ∀ pair ∈ spec.arms.zip (path :: others), pair.2.key.length = path.key.length := by
    intro pair hin
    exact hlengths pair.2 (List.of_mem_zip hin).2
  have hcores : (pageText engine spec ⟨path.key, path :: others⟩).first ::
      (pageText engine spec ⟨path.key, path :: others⟩).others.map (·.2) =
        (spec.arms.zip (path :: others)).map fun pair => armCore engine path.key pair.1 pair.2 :=
    pageText_cores engine hsome hcount
  have hsound := hsounds (arm, path) (by simp [harms])
  have hlong : path.key.length ≤ spec.fields.length := by
    simp only [fieldsError] at hfields
    split at hfields
    case isTrue => cases hfields
    case isFalse hlong => exact Nat.le_of_not_lt hlong
  refine ⟨hcount, hsome, htake, hsounds, ?_, hkeys, ?_, hlong, ?_⟩
  · intro pair hin
    rw [hcores] at hpage
    exact coresError_left hpage _ (List.mem_map_of_mem hin)
  · have hfirst : (pageText engine spec ⟨path.key, path :: others⟩).first =
        armCore engine path.key arm path := by
      have hhead := congrArg List.head? hcores
      simpa [harms] using hhead
    simp only [rowError] at hrow
    split at hrow
    case isTrue => cases hrow
    case isFalse hlength =>
      have hsame := columnsError_names (by simpa using hlength) hrow
      have htakes := congrArg (List.take path.key.length) hsame
      rw [hfirst] at htakes
      have hown : ((armCore engine path.key arm path).results.map (·.name)).take path.key.length =
          path.key.map Option.some :=
        armCore_names rfl
      rw [hown] at htakes
      have hinjective : path.key = (spec.fields.map (·.1)).take path.key.length := by
        apply List.map_injective_iff.mpr (Option.some_injective String)
        rw [htakes, List.map_take, List.map_map]
        rfl
      rw [hinjective]
      exact spec.distinct.sublist (List.take_sublist _ _)
  · exact fieldsError_none hfields hsound.key

/-- **What a spec that passes its gates is.** -/
theorem PageSpec.Passes.gated (hformed : schema.Formed)
    (h : PageSpec.Passes engine schema spec walk) : Gated schema spec walk := by
  obtain ⟨hkeyset, hpage, hrow⟩ := h
  simp only [keysetOf] at hkeyset
  split at hkeyset
  case isTrue => cases hkeyset
  case isFalse hsome =>
    split at hkeyset
    case isTrue => cases hkeyset
    case isFalse htake =>
      split at hkeyset
      case h_1 => cases hkeyset
      case h_2 paths hpaths =>
        split at hkeyset
        case h_1 => cases hkeyset
        case h_2 hfields =>
          obtain rfl := Except.ok.inj hkeyset
          simp only [pageError] at hpage
          split at hpage
          case isTrue => cases hpage
          case isFalse hascends =>
            exact gated_of hformed hsome (Nat.pos_of_ne_zero htake) hpaths
              (by simpa using hascends) rfl hfields hpage hrow

end

end Rui.Rsql
