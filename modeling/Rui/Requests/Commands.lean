import Rui.Library.Hashing

/-!
# Commands and their semantic digests

`protocol.zig`: the commands a request denotes, and the text each one's
`semanticDigest` hashes. A command's Store and key are no part of it. SHA-256 is
the parameter `sha256`.
-/

namespace Rui.Requests
open Library

def maxKeyBytes : Nat := 128
def maxSessionBytes : Nat := 128
def maxStoreBytes : Nat := 492
def maxWorkspaceBytes : Nat := 4096
def maxProviderBytes : Nat := 16
def maxModelBytes : Nat := 256
def maxSenderHandleBytes : Nat := 32
def maxToolNameBytes : Nat := 64
def maxTools : Nat := 128
def maxToolListNameBytes : Nat := 4096
def maxPresetNameBytes : Nat := 64
def maxLabelBytes : Nat := 100
def maxSkillNameBytes : Nat := 64

/-! ## Fields -/

/-- `Bounded`: inline bytes, as many as fit. -/
structure Bounded (capacity : Nat) where
  slice : List UInt8
  fits : slice.length ≤ capacity
  deriving DecidableEq

instance (capacity : Nat) : Inhabited (Bounded capacity) := ⟨⟨[], Nat.zero_le _⟩⟩

inductive FieldState
  | omitted
  | value
  | explicitNull
  deriving DecidableEq

/-- `@backingInt`. -/
def FieldState.backing : FieldState → UInt8
  | .omitted => 0
  | .value => 1
  | .explicitNull => 2

structure OptionalBounded (capacity : Nat) where
  state : FieldState := .omitted
  value : Bounded capacity := default
  deriving DecidableEq

/-- `ContentField`, as the digest reads it. -/
structure ContentField where
  state : FieldState := .omitted
  length : UInt64 := 0
  digest : Digest := List.Vector.replicate 32 0
  deriving DecidableEq

/-! ## Tool lists -/

def space : UInt8 := 32

def validToolName (name : List UInt8) : Bool :=
  name.length ≠ 0 && name.length ≤ maxToolNameBytes &&
    name.all fun byte => isAlphanumeric byte || byte == ascii '_' || byte == ascii '-'

inductive ToolsError
  | invalidToolName
  | invalidJsonShape
  deriving DecidableEq

/-- `ToolsField`'s own fields: the names are held one space apart. -/
structure ToolNames where
  count : Nat := 0
  names : List UInt8 := []
  deriving DecidableEq

namespace ToolNames

/-- `std.mem.tokenizeScalar`. -/
def iterator (self : ToolNames) : List (List UInt8) :=
  (self.names.splitOn space).filter fun token => !token.isEmpty

/-- The name after the last space. -/
def last (self : ToolNames) : List UInt8 :=
  (self.names.reverse.takeWhile fun byte => byte != space).reverse

def append (self : ToolNames) (name : List UInt8) : Except ToolsError ToolNames :=
  if !validToolName name then .error .invalidToolName
  else if self.count = maxTools then .error .invalidJsonShape
  else if self.count ≠ 0 ∧ ¬ self.last < name then .error .invalidJsonShape
  else if self.names.length - (self.count - 1) + name.length > maxToolListNameBytes then
    .error .invalidJsonShape
  else
    .ok ⟨self.count + 1,
      (if self.count ≠ 0 then self.names ++ [space] else self.names) ++ name⟩

/-- The lists that appending builds. -/
inductive Built : ToolNames → Prop
  | empty : Built {}
  | append {tools next : ToolNames} {name : List UInt8} (h : Built tools)
    (happend : tools.append name = .ok next) : Built next

end ToolNames

/-- `ToolsField`, built by `append`. -/
structure ToolsField where
  state : FieldState
  tools : ToolNames
  built : tools.Built

/-- A list left out. -/
def ToolsField.empty : ToolsField := ⟨.omitted, {}, .empty⟩

/-! ## Commands -/

structure Address where
  store : Bounded maxStoreBytes
  session : Bounded maxSessionBytes
  deriving DecidableEq

structure Configuration where
  workspace : OptionalBounded maxWorkspaceBytes := {}
  provider : OptionalBounded maxProviderBytes := {}
  model : OptionalBounded maxModelBytes := {}
  instructions : ContentField := {}
  tools : ToolsField := .empty
  loadedTools : ToolsField := .empty
  permissionMode : OptionalBounded 16 := {}
  outputSchema : ContentField := {}
  compactionTrigger : OptionalBounded 20 := {}
  outputReservation : OptionalBounded 20 := {}
  reasoningEffort : OptionalBounded 16 := {}
  label : OptionalBounded maxLabelBytes := {}

structure ConfigureCommand where
  store : Bounded maxStoreBytes
  key : Bounded maxKeyBytes
  session : Bounded maxSessionBytes
  configuration : Configuration
  preset : Option (Bounded maxPresetNameBytes) := none
  requireModel : Bool := false
  reloadSkills : Bool := false

structure MessageCommand where
  store : Bounded maxStoreBytes
  key : Bounded maxKeyBytes
  session : Bounded maxSessionBytes
  sender : Option Address := none
  senderHandle : Option (Bounded maxSenderHandleBytes) := none
  content : ContentField := {}
  skill : Option (Bounded maxSkillNameBytes) := none
  configuration : Option Configuration := none
  requireModel : Bool := false

structure SessionStopCommand where
  store : Bounded maxStoreBytes
  key : Bounded maxKeyBytes
  session : Bounded maxSessionBytes

structure SessionArchiveCommand where
  store : Bounded maxStoreBytes
  key : Bounded maxKeyBytes
  session : Bounded maxSessionBytes
  archived : Bool := true

structure ModelInterruptionCommand where
  store : Bounded maxStoreBytes
  key : Bounded maxKeyBytes
  session : Bounded maxSessionBytes
  turnId : UInt64
  operationId : UInt64

inductive PermissionDecision
  | allowOnce
  | deny
  deriving DecidableEq

def PermissionDecision.tagName : PermissionDecision → List UInt8
  | .allowOnce => text "allow_once"
  | .deny => text "deny"

structure PermissionDecisionCommand where
  store : Bounded maxStoreBytes
  key : Bounded maxKeyBytes
  session : Bounded maxSessionBytes
  actionId : UInt64
  decision : PermissionDecision

/-- The requests that have a semantic digest. -/
inductive Command
  | configure (command : ConfigureCommand)
  | message (command : MessageCommand)
  | sessionStop (command : SessionStopCommand)
  | sessionArchive (command : SessionArchiveCommand)
  | modelInterruption (command : ModelInterruptionCommand)
  | permissionDecision (command : PermissionDecisionCommand)

/-! ## Texts hashed -/

/-- `@intFromBool`. -/
def intFromBool (value : Bool) : List UInt8 := [if value then 1 else 0]

/-- `std.mem.writeInt(u64, .big)`. -/
def writeInt (value : UInt64) : List UInt8 := lengthBytes value.toNat

def hashField (value : List UInt8) : List UInt8 := field value

def hashTools (self : ToolsField) : List UInt8 :=
  self.state.backing ::
    if self.state = .value then
      UInt8.ofNat self.tools.count :: self.tools.iterator.flatMap hashField
    else []

def hashOptional {capacity : Nat} (self : OptionalBounded capacity) : List UInt8 :=
  self.state.backing ::
    if self.state = .value then hashField self.value.slice else []

def hashContent (self : ContentField) : List UInt8 :=
  self.state.backing ::
    if self.state = .value then
      writeInt self.length ++ self.digest.toList
    else []

/-- What `configureDigest` hashes. -/
def configureText (session : List UInt8) (configuration : Configuration) (requireModel : Bool) :
    List UInt8 :=
  hashField (text "rui/core/configure/v1") ++ hashField session ++
    hashOptional configuration.workspace ++ hashOptional configuration.provider ++
    hashOptional configuration.model ++ hashContent configuration.instructions ++
    hashTools configuration.tools ++ hashOptional configuration.permissionMode ++
    hashContent configuration.outputSchema ++ hashOptional configuration.compactionTrigger ++
    hashOptional configuration.outputReservation ++ hashOptional configuration.reasoningEffort ++
    hashOptional configuration.label ++ intFromBool requireModel ++
    -- Omission retains the digest from before there were loaded tools.
    if configuration.loadedTools.state ≠ .omitted then
      hashField (text "rui/core/configure/loaded-tools/v1") ++ hashTools configuration.loadedTools
    else []

variable (sha256 : List UInt8 → Digest)

def configureDigest (session : List UInt8) (configuration : Configuration) (requireModel : Bool) :
    Digest :=
  sha256 (configureText session configuration requireModel)

def reloadText (base : Digest) : List UInt8 := text "rui/core/reload-skills/v1" ++ base.toList

namespace ConfigureCommand

def base (self : ConfigureCommand) : List UInt8 :=
  configureText self.session.slice self.configuration self.requireModel

def semanticDigest (self : ConfigureCommand) : Digest :=
  if !self.reloadSkills then
    configureDigest sha256 self.session.slice self.configuration self.requireModel
  else
    sha256 (reloadText (configureDigest sha256 self.session.slice self.configuration
      self.requireModel))

end ConfigureCommand

/-- What a Message says of its sender. -/
def senderText (sender : Option Address) : List UInt8 :=
  intFromBool sender.isSome ++
    match sender with
    | none => []
    | some address => hashField address.store.slice ++ hashField address.session.slice

def handleText (handle : Option (Bounded maxSenderHandleBytes)) : List UInt8 :=
  intFromBool handle.isSome ++
    match handle with
    | none => []
    | some handle => hashField handle.slice

/-- `skill` or, without one, `text`. -/
def bodyText (skill : Option (Bounded maxSkillNameBytes)) (content : ContentField) : List UInt8 :=
  match skill with
  | some name => hashField (text "skill-invocation/v1") ++ hashField name.slice
  | none => hashContent content

namespace MessageCommand

def hashedText (self : MessageCommand) : List UInt8 :=
  hashField (text "rui/core/message/v4") ++ hashField self.session.slice ++
    senderText self.sender ++ handleText self.senderHandle ++ bodyText self.skill self.content ++
    match self.configuration with
    | none => []
    | some configuration =>
      hashField (text "initial-configuration") ++
        (configureDigest sha256 [] configuration self.requireModel).toList

end MessageCommand

def SessionStopCommand.hashedText (self : SessionStopCommand) : List UInt8 :=
  hashField (text "rui/core/session-stop/v1") ++ hashField self.session.slice

def SessionArchiveCommand.hashedText (self : SessionArchiveCommand) : List UInt8 :=
  hashField (text "rui/core/session-archive/v1") ++ hashField self.session.slice ++
    intFromBool self.archived

def ModelInterruptionCommand.hashedText (self : ModelInterruptionCommand) : List UInt8 :=
  hashField (text "rui/core/model-interruption/v1") ++ hashField self.session.slice ++
    writeInt self.turnId ++ writeInt self.operationId

def PermissionDecisionCommand.hashedText (self : PermissionDecisionCommand) : List UInt8 :=
  hashField (text "rui/core/permission-decision/v1") ++ hashField self.session.slice ++
    writeInt self.actionId ++ hashField self.decision.tagName

def Command.semanticDigest : Command → Digest
  | .configure command => command.semanticDigest sha256
  | .message command => sha256 (command.hashedText sha256)
  | .sessionStop command => sha256 command.hashedText
  | .sessionArchive command => sha256 command.hashedText
  | .modelInterruption command => sha256 command.hashedText
  | .permissionDecision command => sha256 command.hashedText

/-- Every text hashed for a command's digest. -/
def Command.hashed : Command → List (List UInt8)
  | .configure command =>
    if command.reloadSkills then [command.base, reloadText (sha256 command.base)]
    else [command.base]
  | .message command =>
    command.hashedText sha256 ::
      match command.configuration with
      | none => []
      | some configuration => [configureText [] configuration command.requireModel]
  | .sessionStop command => [command.hashedText]
  | .sessionArchive command => [command.hashedText]
  | .modelInterruption command => [command.hashedText]
  | .permissionDecision command => [command.hashedText]

end Rui.Requests
