import Rui.Requests.Commands

/-!
# What a semantic digest tells apart

Each hashed text gives its parts back, the commands of one kind begin alike and
those of two kinds apart, so equal digests mean commands that agree in
everything but Store and key, as long as none of the texts hashed collide.
-/

namespace Rui.Requests
open Library

variable {sha256 : List UInt8 → Digest}

/-! ## Agreement -/

def OptionalBounded.Agrees {capacity : Nat} (a b : OptionalBounded capacity) : Prop :=
  a.state = b.state ∧ (a.state = .value → a.value = b.value)

/-- Contents are compared by length and digest. -/
def ContentField.Agrees (a b : ContentField) : Prop :=
  a.state = b.state ∧ (a.state = .value → a.length = b.length ∧ a.digest = b.digest)

/-- The names of a list. -/
def ToolsField.list (self : ToolsField) : List (List UInt8) := self.tools.iterator

def ToolsField.Agrees (a b : ToolsField) : Prop :=
  a.state = b.state ∧ (a.state = .value → a.list = b.list)

/-- Every configuration field's state and value. -/
structure Configuration.Agrees (a b : Configuration) : Prop where
  workspace : a.workspace.Agrees b.workspace
  provider : a.provider.Agrees b.provider
  model : a.model.Agrees b.model
  instructions : a.instructions.Agrees b.instructions
  tools : a.tools.Agrees b.tools
  loadedTools : a.loadedTools.Agrees b.loadedTools
  permissionMode : a.permissionMode.Agrees b.permissionMode
  outputSchema : a.outputSchema.Agrees b.outputSchema
  compactionTrigger : a.compactionTrigger.Agrees b.compactionTrigger
  outputReservation : a.outputReservation.Agrees b.outputReservation
  reasoningEffort : a.reasoningEffort.Agrees b.reasoningEffort
  label : a.label.Agrees b.label

/-- An initial configuration with its condition, or none. -/
def InitialAgrees (a b : MessageCommand) : Prop :=
  match a.configuration, b.configuration with
  | none, none => True
  | some configuration, some configuration' =>
    configuration.Agrees configuration' ∧ a.requireModel = b.requireModel
  | _, _ => False

/-- What two commands have in common when their digests are equal. -/
def Command.Agrees : Command → Command → Prop
  | .configure a, .configure b =>
    a.session = b.session ∧ a.configuration.Agrees b.configuration ∧
      a.requireModel = b.requireModel ∧ a.reloadSkills = b.reloadSkills
  | .message a, .message b =>
    a.session = b.session ∧ a.sender = b.sender ∧ a.senderHandle = b.senderHandle ∧
      a.skill = b.skill ∧ (a.skill = none → a.content.Agrees b.content) ∧ InitialAgrees a b
  | .sessionStop a, .sessionStop b => a.session = b.session
  | .sessionArchive a, .sessionArchive b => a.session = b.session ∧ a.archived = b.archived
  | .modelInterruption a, .modelInterruption b =>
    a.session = b.session ∧ a.turnId = b.turnId ∧ a.operationId = b.operationId
  | .permissionDecision a, .permissionDecision b =>
    a.session = b.session ∧ a.actionId = b.actionId ∧ a.decision = b.decision
  | _, _ => False

/-! ## Fields give themselves back -/

theorem FieldState.backing_injective {a b : FieldState} (h : a.backing = b.backing) : a = b := by
  cases a <;> cases b <;> first | rfl | exact absurd h (by decide)

variable {capacity : Nat} {a b : MessageCommand}

theorem Bounded.eq_of_slice {a b : Bounded capacity} (h : a.slice = b.slice) : a = b := by
  cases a
  cases b
  simpa using h

theorem delimited_bounded (hcapacity : capacity < 2 ^ 64) :
    Delimited (fun a : Bounded capacity => hashField a.slice) (· = ·) :=
  (Delimited.field fun a => Nat.lt_of_le_of_lt a.fits hcapacity).mono fun _ _ => Bounded.eq_of_slice

theorem delimited_writeInt : Delimited writeInt (· = ·) :=
  (Delimited.fixed fun _ => lengthBytes_length _).mono fun a b h =>
    UInt64.toNat_inj.mp (lengthBytes_injective a.toNat_lt b.toNat_lt h)

theorem intFromBool_injective {a b : Bool} (h : intFromBool a = intFromBool b) : a = b := by
  cases a <;> cases b <;> first | rfl | exact absurd h (by decide)

theorem delimited_bool : Delimited intFromBool (· = ·) :=
  have hlength : ∀ value, (intFromBool value).length = 1 := fun _ => rfl
  (Delimited.fixed hlength).mono fun _ _ => intFromBool_injective

theorem delimited_digest : Delimited (fun a : Digest => a.toList) (· = ·) :=
  (Delimited.fixed fun a => a.toList_length).mono fun _ _ h => List.Vector.eq _ _ h

theorem delimited_optional (hcapacity : capacity < 2 ^ 64) :
    Delimited (@hashOptional capacity) OptionalBounded.Agrees :=
  (Delimited.tagged (fun a : OptionalBounded capacity => a.state.backing)
    (fun a => a.state = .value) (fun a b h => by rw [FieldState.backing_injective h])
    ((delimited_bounded hcapacity).comap OptionalBounded.value)).mono fun _ _ h =>
      ⟨FieldState.backing_injective h.1, h.2⟩

theorem delimited_content : Delimited hashContent ContentField.Agrees :=
  (Delimited.tagged (fun a : ContentField => a.state.backing)
    (fun a => a.state = .value) (fun a b h => by rw [FieldState.backing_injective h])
    ((delimited_writeInt.comap ContentField.length).append
      (delimited_digest.comap ContentField.digest))).mono fun _ _ h =>
      ⟨FieldState.backing_injective h.1, h.2⟩

/-! ## Tool lists -/

/-- A name has no space in it, and is not empty. -/
theorem validToolName_token {name : List UInt8} (h : validToolName name = true) :
    space ∉ name ∧ name ≠ [] ∧ name.length ≤ maxToolNameBytes := by
  simp only [validToolName, Bool.and_eq_true, decide_eq_true_eq, List.all_eq_true] at h
  obtain ⟨⟨hne, hle⟩, hbytes⟩ := h
  refine ⟨fun hin => ?_, fun hnil => hne (by rw [hnil]; rfl), hle⟩
  exact absurd (hbytes space hin) (by decide)

theorem intercalate_concat {list : List (List UInt8)} (h : list ≠ []) (name : List UInt8) :
    [space].intercalate (list ++ [name]) = [space].intercalate list ++ [space] ++ name := by
  induction list with
  | nil => exact absurd rfl h
  | cons first rest ih =>
    cases rest with
    | nil => simp
    | cons second rest =>
      rw [List.cons_append, List.intercalate_cons_of_ne_nil (by simp), ih (List.cons_ne_nil _ _),
        List.intercalate_cons_of_ne_nil (List.cons_ne_nil _ _)]
      simp only [List.append_assoc]

/-- **What a built list holds**: valid names one space apart, counted. -/
theorem ToolNames.Built.names {tools : ToolNames} (h : tools.Built) :
    tools.names = [space].intercalate tools.iterator ∧ tools.count = tools.iterator.length ∧
      tools.count ≤ maxTools ∧ ∀ name ∈ tools.iterator, validToolName name = true := by
  suffices hlist : ∃ list : List (List UInt8), tools.names = [space].intercalate list ∧
      tools.count = list.length ∧ tools.count ≤ maxTools ∧
      ∀ name ∈ list, validToolName name = true by
    obtain ⟨list, hnames, hcount, hmax, hvalid⟩ := hlist
    have htokens : tools.iterator = list := by
      unfold iterator
      rw [hnames]
      cases list with
      | nil => rfl
      | cons name rest =>
        rw [List.splitOn_intercalate space (fun each hin => (validToolName_token (hvalid each hin)).1)
          (List.cons_ne_nil _ _), List.filter_eq_self]
        intro each hin
        simpa using (validToolName_token (hvalid each hin)).2.1
    rw [htokens]
    exact ⟨hnames, hcount, hmax, hvalid⟩
  induction h with
  | empty => exact ⟨[], rfl, rfl, Nat.zero_le _, fun _ hin => (by cases hin)⟩
  | append hbuilt happend ih =>
    rename_i tools next name
    obtain ⟨list, hnames, hcount, hmax, hvalid⟩ := ih
    unfold ToolNames.append at happend
    split at happend
    · cases happend
    split at happend
    · cases happend
    split at happend
    · cases happend
    split at happend
    · cases happend
    rename_i hname hfull _ _
    rw [Except.ok.injEq] at happend
    subst happend
    refine ⟨list ++ [name], ?_, by simp [hcount], by simp only; omega, fun each hin => ?_⟩
    · cases list with
      | nil =>
        have hzero : tools.count = 0 := hcount
        simp [hzero, hnames]
      | cons first rest =>
        have hpos : tools.count ≠ 0 := by rw [hcount]; simp
        rw [intercalate_concat (List.cons_ne_nil _ _), ← hnames]
        simp [hpos]
    · rcases List.mem_append.mp hin with hin | hin
      · exact hvalid each hin
      · rw [List.mem_singleton.mp hin]
        simpa using hname

theorem delimited_names : Delimited
    (fun a : ToolsField => UInt8.ofNat a.tools.count :: a.tools.iterator.flatMap hashField)
    fun a b => a.list = b.list := by
  intro a b rest more htext
  obtain ⟨_, hcount, hmax, hvalid⟩ := a.built.names
  obtain ⟨_, hcount', hmax', hvalid'⟩ := b.built.names
  rw [List.cons_append, List.cons_append, List.cons.injEq] at htext
  obtain ⟨hbyte, hnames⟩ := htext
  have hsame : a.tools.count = b.tools.count := by
    have := congrArg UInt8.toNat hbyte
    simp only [UInt8.toNat_ofNat', maxTools] at this hmax hmax'
    omega
  have hshort : ∀ {name : List UInt8}, validToolName name = true → name.length < 2 ^ 64 :=
    fun hname => Nat.lt_of_le_of_lt (validToolName_token hname).2.2 (by decide)
  exact fields_injective (hcount.symm.trans (hsame.trans hcount'))
    (fun name hin => hshort (hvalid name hin)) (fun name hin => hshort (hvalid' name hin)) hnames

theorem delimited_tools : Delimited hashTools ToolsField.Agrees :=
  (Delimited.tagged (fun a : ToolsField => a.state.backing) (fun a => a.state = .value)
    (fun a b h => by rw [FieldState.backing_injective h]) delimited_names).mono fun _ _ h =>
      ⟨FieldState.backing_injective h.1, h.2⟩

/-! ## Configurations -/

theorem hashOptional_congr {a b : OptionalBounded capacity} (h : a.Agrees b) :
    hashOptional a = hashOptional b := by
  unfold hashOptional
  by_cases hvalue : a.state = .value
  · rw [if_pos hvalue, if_pos (h.1 ▸ hvalue), h.1, h.2 hvalue]
  · rw [if_neg hvalue, if_neg (h.1 ▸ hvalue), h.1]

theorem hashContent_congr {a b : ContentField} (h : a.Agrees b) : hashContent a = hashContent b := by
  unfold hashContent
  by_cases hvalue : a.state = .value
  · rw [if_pos hvalue, if_pos (h.1 ▸ hvalue), h.1, (h.2 hvalue).1, (h.2 hvalue).2]
  · rw [if_neg hvalue, if_neg (h.1 ▸ hvalue), h.1]

theorem hashTools_congr {a b : ToolsField} (h : a.Agrees b) : hashTools a = hashTools b := by
  unfold hashTools
  by_cases hvalue : a.state = .value
  · have hlist : a.tools.iterator = b.tools.iterator := h.2 hvalue
    rw [if_pos hvalue, if_pos (h.1 ▸ hvalue), h.1, a.built.names.2.1, b.built.names.2.1, hlist]
  · rw [if_neg hvalue, if_neg (h.1 ▸ hvalue), h.1]

/-- **A configuration's text** is that of one configuration, in one Session, on
one condition. -/
theorem configureText_eq {session session' : List UInt8} {a b : Configuration}
    {requireModel requireModel' : Bool} (hsession : session.length < 2 ^ 64)
    (hsession' : session'.length < 2 ^ 64) :
    configureText session a requireModel = configureText session' b requireModel' ↔
      session = session' ∧ a.Agrees b ∧ requireModel = requireModel' := by
  constructor
  · intro h
    simp only [configureText, List.append_assoc] at h
    obtain ⟨-, h⟩ := field_append (by decide) (by decide) h
    obtain ⟨hsame, h⟩ := field_append hsession hsession' h
    obtain ⟨hworkspace, h⟩ := delimited_optional (by decide) _ _ _ _ h
    obtain ⟨hprovider, h⟩ := delimited_optional (by decide) _ _ _ _ h
    obtain ⟨hmodel, h⟩ := delimited_optional (by decide) _ _ _ _ h
    obtain ⟨hinstructions, h⟩ := delimited_content _ _ _ _ h
    obtain ⟨htools, h⟩ := delimited_tools _ _ _ _ h
    obtain ⟨hpermission, h⟩ := delimited_optional (by decide) _ _ _ _ h
    obtain ⟨hschema, h⟩ := delimited_content _ _ _ _ h
    obtain ⟨htrigger, h⟩ := delimited_optional (by decide) _ _ _ _ h
    obtain ⟨hreservation, h⟩ := delimited_optional (by decide) _ _ _ _ h
    obtain ⟨heffort, h⟩ := delimited_optional (by decide) _ _ _ _ h
    obtain ⟨hlabel, h⟩ := delimited_optional (by decide) _ _ _ _ h
    obtain ⟨hrequire, h⟩ := delimited_bool _ _ _ _ h
    have hloaded : a.loadedTools.Agrees b.loadedTools := by
      by_cases ha : a.loadedTools.state = .omitted
      · by_cases hb : b.loadedTools.state = .omitted
        · exact ⟨ha.trans hb.symm, fun hvalue => by rw [ha] at hvalue; cases hvalue⟩
        · rw [if_neg (not_not.mpr ha), if_pos hb] at h
          have hlength := congrArg List.length h
          simp [hashField, field] at hlength
          omega
      · by_cases hb : b.loadedTools.state = .omitted
        · rw [if_pos ha, if_neg (not_not.mpr hb)] at h
          have hlength := congrArg List.length h
          simp [hashField, field] at hlength
        · rw [if_pos ha, if_pos hb] at h
          obtain ⟨-, h⟩ := field_append (by decide) (by decide) h
          exact delimited_tools.eq h
    exact ⟨hsame, ⟨hworkspace, hprovider, hmodel, hinstructions, htools, hloaded, hpermission,
      hschema, htrigger, hreservation, heffort, hlabel⟩, hrequire⟩
  · rintro ⟨rfl, h, rfl⟩
    simp only [configureText, hashOptional_congr h.workspace, hashOptional_congr h.provider,
      hashOptional_congr h.model, hashContent_congr h.instructions, hashTools_congr h.tools,
      hashOptional_congr h.permissionMode, hashContent_congr h.outputSchema,
      hashOptional_congr h.compactionTrigger, hashOptional_congr h.outputReservation,
      hashOptional_congr h.reasoningEffort, hashOptional_congr h.label,
      hashTools_congr h.loadedTools, h.loadedTools.1]

/-! ## Messages -/

theorem bounded_small (hcapacity : capacity < 2 ^ 64) (a : Bounded capacity) :
    a.slice.length < 2 ^ 64 := Nat.lt_of_le_of_lt a.fits hcapacity

theorem delimited_sender : Delimited senderText (· = ·) := by
  intro a b rest more h
  simp only [senderText, List.append_assoc] at h
  obtain ⟨hsome, h⟩ := delimited_bool _ _ _ _ h
  cases a with
  | none =>
    cases b with
    | none => exact ⟨rfl, h⟩
    | some _ => cases hsome
  | some a =>
    cases b with
    | none => cases hsome
    | some b =>
      simp only [List.append_assoc] at h
      obtain ⟨hstore, hrest⟩ := delimited_bounded (by decide) a.store b.store _ _ h
      obtain ⟨hsession, hmore⟩ := delimited_bounded (by decide) a.session b.session _ _ hrest
      obtain ⟨store, session⟩ := a
      obtain rfl : store = b.store := hstore
      obtain rfl : session = b.session := hsession
      exact ⟨rfl, hmore⟩

theorem delimited_handle : Delimited handleText (· = ·) := by
  intro a b rest more h
  simp only [handleText, List.append_assoc] at h
  obtain ⟨hsome, h⟩ := delimited_bool _ _ _ _ h
  cases a with
  | none =>
    cases b with
    | none => exact ⟨rfl, h⟩
    | some _ => cases hsome
  | some a =>
    cases b with
    | none => cases hsome
    | some b =>
      obtain ⟨hsame, h⟩ := delimited_bounded (by decide) _ _ _ _ h
      exact ⟨congrArg some hsame, h⟩

/-- What follows a Message's body. -/
def initialText (sha256 : List UInt8 → Digest) (self : MessageCommand) : List UInt8 :=
  match self.configuration with
  | none => []
  | some configuration =>
    hashField (text "initial-configuration") ++
      (configureDigest sha256 [] configuration self.requireModel).toList

/-- A skill's name begins as no content and what follows it does. -/
theorem skill_ne_content (name : List UInt8) (content : ContentField) (rest : List UInt8)
    (message : MessageCommand) :
    hashField (text "skill-invocation/v1") ++ name ++ rest ≠
      hashContent content ++ initialText sha256 message := by
  intro h
  have hskill : (hashField (text "skill-invocation/v1") ++ name ++ rest)[0]? = some 0 ∧
      (hashField (text "skill-invocation/v1") ++ name ++ rest)[7]? = some 19 := by
    constructor <;> rfl
  rw [h] at hskill
  obtain ⟨hfirst, heighth⟩ := hskill
  cases hstate : content.state with
  | omitted =>
    simp only [hashContent, hstate, reduceCtorEq, if_false, initialText] at heighth
    cases hinitial : message.configuration with
    | none =>
      rw [hinitial] at heighth
      cases heighth
    | some configuration =>
      rw [hinitial] at heighth
      exact absurd heighth (by
        rw [List.cons_append, List.nil_append, List.getElem?_cons_succ,
          List.getElem?_append_left (by decide)]
        decide)
  | value =>
    rw [hashContent, hstate] at hfirst
    cases hfirst
  | explicitNull =>
    rw [hashContent, hstate] at hfirst
    cases hfirst

theorem skill_bounded (name : Bounded maxSkillNameBytes) : name.slice.length < 2 ^ 64 :=
  bounded_small (by decide) name

/-- **A Message's body and configuration** are read back from the end of its text. -/
theorem body_eq
    (h : bodyText a.skill a.content ++ initialText sha256 a =
      bodyText b.skill b.content ++ initialText sha256 b) :
    a.skill = b.skill ∧ (a.skill = none → a.content.Agrees b.content) ∧
      initialText sha256 a = initialText sha256 b := by
  cases ha : a.skill with
  | none =>
    rw [ha] at h
    cases hb : b.skill with
    | none =>
      rw [hb] at h
      obtain ⟨hcontent, hrest⟩ := delimited_content _ _ _ _ h
      exact ⟨rfl, fun _ => hcontent, hrest⟩
    | some name =>
      rw [hb] at h
      exact absurd h.symm (skill_ne_content _ _ _ _)
  | some name =>
    rw [ha] at h
    cases hb : b.skill with
    | none =>
      rw [hb] at h
      exact absurd h (skill_ne_content _ _ _ _)
    | some name' =>
      rw [hb] at h
      simp only [bodyText, List.append_assoc] at h
      obtain ⟨-, h⟩ := field_append (by decide) (by decide) h
      obtain ⟨hname, h⟩ := field_append (skill_bounded name) (skill_bounded name') h
      exact ⟨congrArg some (Bounded.eq_of_slice hname), fun hnone => (by cases hnone), h⟩

theorem initial_eq
    (hfree : CollisionFree sha256
      {each | each ∈ (Command.message a).hashed sha256 ∨ each ∈ (Command.message b).hashed sha256}) :
    initialText sha256 a = initialText sha256 b ↔ InitialAgrees a b := by
  unfold InitialAgrees initialText
  cases ha : a.configuration with
  | none =>
    cases hb : b.configuration with
    | none => simp
    | some configuration => simp [hashField, field, lengthBytes]
  | some configuration =>
    cases hb : b.configuration with
    | none => simp [hashField, field, lengthBytes]
    | some configuration' =>
      constructor
      · intro h
        obtain ⟨-, h⟩ := field_append (by decide) (by decide) h
        have hdigest := List.Vector.eq _ _ h
        have htext := hfree (.inl (by simp [Command.hashed, ha]))
          (.inr (by simp [Command.hashed, hb])) hdigest
        exact ((configureText_eq (by decide) (by decide)).mp htext).2
      · intro h
        have htext : configureText [] configuration a.requireModel =
            configureText [] configuration' b.requireModel :=
          (configureText_eq (by decide) (by decide)).mpr ⟨rfl, h⟩
        simp only [configureDigest, htext]

/-! ## Kinds -/

/-- The tags of the requests that have a digest. -/
inductive Kind
  | configure
  | message
  | sessionStop
  | sessionArchive
  | modelInterruption
  | permissionDecision
  deriving DecidableEq

/-- What a kind's text begins with. -/
def Kind.domain : Kind → List UInt8
  | .configure => text "rui/core/configure/v1"
  | .message => text "rui/core/message/v4"
  | .sessionStop => text "rui/core/session-stop/v1"
  | .sessionArchive => text "rui/core/session-archive/v1"
  | .modelInterruption => text "rui/core/model-interruption/v1"
  | .permissionDecision => text "rui/core/permission-decision/v1"

theorem Kind.domain_length (kind : Kind) : kind.domain.length < 256 := by
  cases kind <;> decide

theorem Kind.domain_injective {a b : Kind} (h : a.domain = b.domain) : a = b := by
  cases a <;> cases b <;> first | rfl | exact absurd h (by decide)

def Command.kind : Command → Kind
  | .configure _ => .configure
  | .message _ => .message
  | .sessionStop _ => .sessionStop
  | .sessionArchive _ => .sessionArchive
  | .modelInterruption _ => .modelInterruption
  | .permissionDecision _ => .permissionDecision

/-- The text whose hash is the command's digest. -/
def Command.root (sha256 : List UInt8 → Digest) : Command → List UInt8
  | .configure command =>
    if command.reloadSkills then reloadText (sha256 command.base) else command.base
  | .message command => command.hashedText sha256
  | .sessionStop command => command.hashedText
  | .sessionArchive command => command.hashedText
  | .modelInterruption command => command.hashedText
  | .permissionDecision command => command.hashedText

theorem Command.semanticDigest_eq (command : Command) :
    command.semanticDigest sha256 = sha256 (command.root sha256) := by
  cases command with
  | configure command =>
    obtain ⟨_, _, _, _, _, _, reload⟩ := command
    cases reload <;> rfl
  | message _ => rfl
  | sessionStop _ => rfl
  | sessionArchive _ => rfl
  | modelInterruption _ => rfl
  | permissionDecision _ => rfl

theorem Command.root_hashed (command : Command) : command.root sha256 ∈ command.hashed sha256 := by
  cases command with
  | configure command =>
    simp only [root, hashed]
    split
    · exact List.mem_cons_of_mem _ List.mem_cons_self
    · exact List.mem_cons_self
  | message _ => exact List.mem_cons_self
  | sessionStop _ => exact List.mem_cons_self
  | sessionArchive _ => exact List.mem_cons_self
  | modelInterruption _ => exact List.mem_cons_self
  | permissionDecision _ => exact List.mem_cons_self

theorem ConfigureCommand.base_begins (command : ConfigureCommand) :
    ∃ rest, command.base = hashField Kind.configure.domain ++ rest := by
  simp only [base, configureText, List.append_assoc]
  exact ⟨_, rfl⟩

/-- A command's text begins with its kind, or it is a reload's. -/
theorem Command.root_begins (hash : List UInt8 → Digest) (command : Command) :
    (∃ rest, command.root hash = hashField command.kind.domain ++ rest) ∨
      command.kind = .configure ∧ ∃ base, command.root hash = reloadText base := by
  cases command with
  | configure command =>
    by_cases hreload : command.reloadSkills
    · exact .inr ⟨rfl, hash command.base, by simp only [root, if_pos hreload]⟩
    · obtain ⟨rest, hrest⟩ := command.base_begins
      exact .inl ⟨rest, by simp only [root, if_neg hreload, hrest, kind]⟩
  | message command =>
    simp only [root, MessageCommand.hashedText, List.append_assoc]
    exact .inl ⟨_, rfl⟩
  | sessionStop command => exact .inl ⟨_, rfl⟩
  | sessionArchive command =>
    simp only [root, SessionArchiveCommand.hashedText, List.append_assoc]
    exact .inl ⟨_, rfl⟩
  | modelInterruption command =>
    simp only [root, ModelInterruptionCommand.hashedText, List.append_assoc]
    exact .inl ⟨_, rfl⟩
  | permissionDecision command =>
    simp only [root, PermissionDecisionCommand.hashedText, List.append_assoc]
    exact .inl ⟨_, rfl⟩

/-- A reload's text begins as no field does. -/
theorem reloadText_ne_field (base : Digest) {value : List UInt8} (hvalue : value.length < 256)
    (rest : List UInt8) : reloadText base ≠ hashField value ++ rest := by
  intro h
  have hfirst := congrArg (fun bytes => bytes[0]?) h
  have hzero : value.length / 72057594037927936 = 0 := Nat.div_eq_of_lt (by omega)
  simp only [reloadText, hashField, field, lengthBytes, List.range_succ, text] at hfirst
  simp [hzero] at hfirst
  exact absurd hfirst (by decide)

/-- **Two texts alike are of one kind.** -/
theorem Command.kind_eq {a b : Command} (h : a.root sha256 = b.root sha256) : a.kind = b.kind := by
  rcases a.root_begins sha256 with ⟨rest, ha⟩ | ⟨ha, base, hbase⟩
  · rcases b.root_begins sha256 with ⟨rest', hb⟩ | ⟨hb, base', hbase'⟩
    · rw [ha, hb] at h
      have hshort : ∀ kind : Kind, kind.domain.length < 2 ^ 64 := fun kind =>
        kind.domain_length.trans (by decide)
      exact Kind.domain_injective (field_append (hshort _) (hshort _) h).1
    · rw [ha, hbase'] at h
      exact absurd h.symm (reloadText_ne_field _ (Kind.domain_length _) _)
  · rcases b.root_begins sha256 with ⟨rest', hb⟩ | ⟨hb, _, _⟩
    · rw [hbase, hb] at h
      exact absurd h (reloadText_ne_field _ (Kind.domain_length _) _)
    · rw [ha, hb]

/-! ## Commands -/

theorem configure_eq {a b : ConfigureCommand}
    (hfree : CollisionFree sha256 {each | each ∈ (Command.configure a).hashed sha256 ∨
      each ∈ (Command.configure b).hashed sha256}) :
    (Command.configure a).root sha256 = (Command.configure b).root sha256 ↔
      (Command.configure a).Agrees (.configure b) := by
  have hbase : a.base = b.base ↔ a.session = b.session ∧ a.configuration.Agrees b.configuration ∧
      a.requireModel = b.requireModel := by
    rw [ConfigureCommand.base, ConfigureCommand.base,
      configureText_eq (bounded_small (by decide) _) (bounded_small (by decide) _)]
    exact and_congr_left' ⟨Bounded.eq_of_slice, fun h => by rw [h]⟩
  have hne : ∀ (digest : Digest) (c : ConfigureCommand), reloadText digest ≠ c.base :=
    fun digest c => by
      obtain ⟨rest, hc⟩ := c.base_begins
      rw [hc]
      exact reloadText_ne_field digest (Kind.domain_length _) rest
  have hall : (Command.configure a).Agrees (.configure b) ↔
      a.base = b.base ∧ a.reloadSkills = b.reloadSkills := by
    rw [hbase, Command.Agrees, and_assoc, and_assoc]
  rw [hall, Command.root, Command.root]
  cases ha : a.reloadSkills <;> cases hb : b.reloadSkills
  · simp
  · simpa using (hne (sha256 b.base) a).symm
  · simpa using hne (sha256 a.base) b
  · simp only [if_true, and_true]
    constructor
    · intro h
      have hdigest : sha256 a.base = sha256 b.base :=
        List.Vector.eq _ _ (List.append_cancel_left h)
      exact hfree (.inl (by simp [Command.hashed, ha])) (.inr (by simp [Command.hashed, hb])) hdigest
    · intro h
      rw [h]

theorem message_eq
    (hfree : CollisionFree sha256 {each | each ∈ (Command.message a).hashed sha256 ∨
      each ∈ (Command.message b).hashed sha256}) :
    (Command.message a).root sha256 = (Command.message b).root sha256 ↔
      (Command.message a).Agrees (.message b) := by
  have htext : ∀ c : MessageCommand, c.hashedText sha256 =
      hashField (text "rui/core/message/v4") ++ (hashField c.session.slice ++
        (senderText c.sender ++ (handleText c.senderHandle ++
          (bodyText c.skill c.content ++ initialText sha256 c)))) := fun c => by
    simp only [MessageCommand.hashedText, List.append_assoc]
    rfl
  rw [Command.root, Command.root, htext, htext, Command.Agrees, ← initial_eq hfree]
  constructor
  · intro h
    obtain ⟨-, h⟩ := field_append (by decide) (by decide) h
    obtain ⟨hsession, h⟩ := delimited_bounded (by decide) a.session b.session _ _ h
    obtain ⟨hsender, h⟩ := delimited_sender _ _ _ _ h
    obtain ⟨hhandle, h⟩ := delimited_handle _ _ _ _ h
    obtain ⟨hskill, hcontent, hinitial⟩ := body_eq h
    exact ⟨hsession, hsender, hhandle, hskill, hcontent, hinitial⟩
  · rintro ⟨hsession, hsender, hhandle, hskill, hcontent, hinitial⟩
    have hbody : bodyText a.skill a.content = bodyText b.skill b.content := by
      rw [hskill] at hcontent ⊢
      cases hb : b.skill with
      | none => exact hashContent_congr (hcontent hb)
      | some name => rfl
    rw [hsession, hsender, hhandle, hbody, hinitial]

theorem sessionStop_eq {a b : SessionStopCommand} :
    a.hashedText = b.hashedText ↔ a.session = b.session := by
  constructor
  · intro h
    obtain ⟨-, h⟩ := field_append (by decide) (by decide) h
    exact (delimited_bounded (by decide)).eq h
  · intro h
    rw [SessionStopCommand.hashedText, SessionStopCommand.hashedText, h]

theorem sessionArchive_eq {a b : SessionArchiveCommand} :
    a.hashedText = b.hashedText ↔ a.session = b.session ∧ a.archived = b.archived := by
  constructor
  · intro h
    simp only [SessionArchiveCommand.hashedText, List.append_assoc] at h
    obtain ⟨-, h⟩ := field_append (by decide) (by decide) h
    obtain ⟨hsession, h⟩ := delimited_bounded (by decide) a.session b.session _ _ h
    exact ⟨hsession, intFromBool_injective h⟩
  · rintro ⟨hsession, harchived⟩
    rw [SessionArchiveCommand.hashedText, SessionArchiveCommand.hashedText, hsession, harchived]

theorem modelInterruption_eq {a b : ModelInterruptionCommand} :
    a.hashedText = b.hashedText ↔
      a.session = b.session ∧ a.turnId = b.turnId ∧ a.operationId = b.operationId := by
  constructor
  · intro h
    simp only [ModelInterruptionCommand.hashedText, List.append_assoc] at h
    obtain ⟨-, h⟩ := field_append (by decide) (by decide) h
    obtain ⟨hsession, h⟩ := delimited_bounded (by decide) a.session b.session _ _ h
    obtain ⟨hturn, h⟩ := delimited_writeInt _ _ _ _ h
    exact ⟨hsession, hturn, delimited_writeInt.eq h⟩
  · rintro ⟨hsession, hturn, hoperation⟩
    rw [ModelInterruptionCommand.hashedText, ModelInterruptionCommand.hashedText, hsession, hturn,
      hoperation]

theorem PermissionDecision.tagName_injective {a b : PermissionDecision}
    (h : a.tagName = b.tagName) : a = b := by
  cases a <;> cases b <;> first | rfl | exact absurd h (by decide)

theorem permissionDecision_eq {a b : PermissionDecisionCommand} :
    a.hashedText = b.hashedText ↔
      a.session = b.session ∧ a.actionId = b.actionId ∧ a.decision = b.decision := by
  have hshort : ∀ decision : PermissionDecision, decision.tagName.length < 2 ^ 64 :=
    fun decision => by cases decision <;> decide
  constructor
  · intro h
    simp only [PermissionDecisionCommand.hashedText, List.append_assoc] at h
    obtain ⟨-, h⟩ := field_append (by decide) (by decide) h
    obtain ⟨hsession, h⟩ := delimited_bounded (by decide) a.session b.session _ _ h
    obtain ⟨haction, h⟩ := delimited_writeInt _ _ _ _ h
    have hname := (Delimited.field hshort).eq h
    exact ⟨hsession, haction, PermissionDecision.tagName_injective hname⟩
  · rintro ⟨hsession, haction, hdecision⟩
    rw [PermissionDecisionCommand.hashedText, PermissionDecisionCommand.hashedText, hsession,
      haction, hdecision]

/-- **Equal digests are agreeing commands.** Where SHA-256 does not collide on
the texts hashed, two commands have one semantic digest exactly when they are of
one kind and agree in all it says but its Store and key. -/
theorem semantic_digests_agree (sha256 : List UInt8 → Digest) (a b : Command)
    (hfree : CollisionFree sha256 {each | each ∈ a.hashed sha256 ∨ each ∈ b.hashed sha256}) :
    a.semanticDigest sha256 = b.semanticDigest sha256 ↔ a.Agrees b := by
  have hroot : a.semanticDigest sha256 = b.semanticDigest sha256 ↔
      a.root sha256 = b.root sha256 := by
    rw [a.semanticDigest_eq, b.semanticDigest_eq]
    exact ⟨fun h => hfree (.inl a.root_hashed) (.inr b.root_hashed) h, fun h => by rw [h]⟩
  rw [hroot]
  by_cases hkind : a.kind = b.kind
  · cases a <;> cases b <;> simp only [Command.kind, reduceCtorEq] at hkind
    case configure.configure => exact configure_eq hfree
    case message.message => exact message_eq hfree
    case sessionStop.sessionStop => exact sessionStop_eq
    case sessionArchive.sessionArchive => exact sessionArchive_eq
    case modelInterruption.modelInterruption => exact modelInterruption_eq
    case permissionDecision.permissionDecision => exact permissionDecision_eq
  · refine ⟨fun h => absurd (Command.kind_eq h) hkind, fun h => ?_⟩
    cases a <;> cases b <;> first | exact h.elim | exact absurd rfl hkind

/-- A stop of a Session. -/
def sampleStop (session : Bounded maxSessionBytes) : Command :=
  .sessionStop ⟨⟨text "/work", by decide⟩, ⟨text "key", by decide⟩, session⟩

/-- What a Message that creates a Session says of it. -/
def sampleConfiguration (model : Bounded maxModelBytes) : Configuration where
  model := ⟨.value, model⟩

def sampleMessage (model : Bounded maxModelBytes) : MessageCommand where
  store := ⟨text "/work", by decide⟩
  key := ⟨text "key", by decide⟩
  session := ⟨[], by decide⟩
  configuration := some (sampleConfiguration model)

/-- The SHA-256 of what is hashed for a stop of `k7m2qx` and of `v948er`, and for a Message that
creates a Session of model `a` and of model `b`. -/
def sampleDigest : List UInt8 → Digest :=
  let models : List (Bounded maxModelBytes × Nat × Nat) := [
    (⟨text "a", by decide⟩, 0x8746e099abf5d48919410468f0850d5c3713b11353358e595d1c809143317e29,
      0x30f7aca28fe6a845227ca4e65266d30eca0a6918eda4579084fc0338144e989c),
    (⟨text "b", by decide⟩, 0xbdfc9207a7f5823b4110e47bfbd3820c6cbc9f40b526b73162965af9c60a2c02,
      0xeb692f85d09f4cd95a66eb901631b54a9b70e1ce0f75daf2f5ad971a6d8a126a)]
  let nested := models.map fun each => (configureText [] (sampleConfiguration each.1) false, each.2.1)
  known (nested ++ (models.map fun each =>
    ((sampleMessage each.1).hashedText (known nested), each.2.2)) ++ [
    (field (text "rui/core/session-stop/v1") ++ field (text "k7m2qx"),
      0xf8e8c1514a14cc72fe18bad111508cffa2b5b55812f6ba2deaed959740940d48),
    (field (text "rui/core/session-stop/v1") ++ field (text "v948er"),
      0x20d9db50fad22d61d16118301e4accf32d29837d374dbe9a1eb63384c1b98fdb)])

theorem semantic_digests_agree_samples :
    (sampleStop ⟨text "k7m2qx", by decide⟩).semanticDigest sampleDigest ≠
      (sampleStop ⟨text "v948er", by decide⟩).semanticDigest sampleDigest ∧
    (Command.message (sampleMessage ⟨text "a", by decide⟩)).semanticDigest sampleDigest ≠
      (Command.message (sampleMessage ⟨text "b", by decide⟩)).semanticDigest sampleDigest := by
  have hfree : ∀ a b : Command, ((a.hashed sampleDigest ++ b.hashed sampleDigest).map
      sampleDigest).Nodup → CollisionFree sampleDigest {each |
        each ∈ a.hashed sampleDigest ∨ each ∈ b.hashed sampleDigest} :=
    fun a b hnodup => (CollisionFree.of_nodup hnodup).mono fun each h => List.mem_append.mpr h
  constructor
  · intro h
    have hsession := (semantic_digests_agree sampleDigest _ _ (hfree _ _ (by decide +kernel))).mp h
    exact absurd (congrArg Bounded.slice hsession) (by decide)
  · intro h
    obtain ⟨-, -, -, -, -, hinitial⟩ :=
      (semantic_digests_agree sampleDigest _ _ (hfree _ _ (by decide +kernel))).mp h
    have hmodel : (sampleConfiguration ⟨text "a", by decide⟩).Agrees
        (sampleConfiguration ⟨text "b", by decide⟩) := hinitial.1
    exact absurd (congrArg Bounded.slice (hmodel.model.2 rfl)) (by decide)

end Rui.Requests
