import Rui.Library.Checks
import Rui.Library.Decimal

/-!
# The credential file

The record of `codex_credential_policy.zig` and its text, ten ordered lines.
-/

namespace Rui.Credentials

open Library

def maxAccountIdBytes : Nat := 1024

def maxTokenBytes : Nat := 16 * 1024

def maxFileBytes : Nat := 64 * 1024

inductive CredentialError
  | credentialFieldTooLong
  | emptyCredentialField
  | invalidCredentialByte
  | unsupportedCredentialVersion
  | invalidCredentialTime
  | invalidAccessToken
  | credentialFileTooLarge
  | invalidCredentialFile
  | invalidCredentialState
  | invalidCredentialNumber
  | trailingCredentialData
  deriving DecidableEq, Repr

/-- The bytes a field was set to, which fit it. -/
@[ext] structure Bounded (capacity : Nat) where
  slice : List UInt8 := []
  fits : slice.length ≤ capacity := by decide
  deriving Repr

instance (capacity : Nat) : DecidableEq (Bounded capacity) :=
  fun _ _ => decidable_of_iff' _ Bounded.ext_iff

def Bounded.set (capacity : Nat) (value : List UInt8) : Except CredentialError (Bounded capacity) :=
  if h : value.length > capacity then .error .credentialFieldTooLong
  else .ok ⟨value, Nat.not_lt.mp h⟩

inductive State
  | ready
  | refreshPending
  deriving DecidableEq, Repr

/-- `@tagName`. -/
def State.tag : State → List UInt8
  | .ready => text "ready"
  | .refreshPending => text "refresh_pending"

/-- `std.meta.stringToEnum`. -/
def State.ofTag (tag : List UInt8) : Option State :=
  [State.ready, .refreshPending].find? fun state => state.tag = tag

structure Record where
  version : UInt32 := 3
  generation : UInt64
  accountId : Bounded maxAccountIdBytes
  fedramp : Bool := false
  idToken : Bounded maxTokenBytes
  accessToken : Bounded maxTokenBytes
  refreshToken : Bounded maxTokenBytes
  expiresAt : Int64
  refreshedAt : Int64
  state : State := .ready
  deriving DecidableEq, Repr

/-- A record whose bytes are all zero. -/
def Record.zeroed : Record where
  version := 0
  generation := 0
  accountId := {}
  idToken := {}
  accessToken := {}
  refreshToken := {}
  expiresAt := 0
  refreshedAt := 0

def validateText (value : List UInt8) (emptyAllowed : Bool) : Except CredentialError Unit :=
  if !emptyAllowed && value.isEmpty then .error .emptyCredentialField
  else if value.any fun byte => byte.toNat < 0x21 || 0x7e < byte.toNat then
    .error .invalidCredentialByte
  else .ok ()

/-- One segment, or three, and none empty. -/
def validAccessToken (token : List UInt8) : Bool :=
  let segments := token.splitOn (ascii '.')
  !segments.contains [] && (segments.length = 1 || segments.length = 3)

def validateRecord (record : Record) : Except CredentialError Unit := do
  require (record.version = 3) .unsupportedCredentialVersion
  validateText record.accountId.slice false
  validateText record.idToken.slice false
  validateText record.accessToken.slice false
  validateText record.refreshToken.slice false
  require (¬ (record.expiresAt < 0 ∨ record.refreshedAt ≤ 0)) .invalidCredentialTime
  require (validAccessToken record.accessToken.slice) .invalidAccessToken

/-- `{d}` of a signed number. -/
def printSigned : Int → List UInt8
  | .ofNat n => decimal n
  | .negSucc n => ascii '-' :: decimal (n + 1)

/-- The text of a record, into a buffer of `capacity` bytes. -/
def encode (record : Record) (capacity : Nat) : Except CredentialError (List UInt8) := do
  validateRecord record
  let bytes := text "version=3\ngeneration=" ++ decimal record.generation.toNat ++
    text "\naccount_id=" ++ record.accountId.slice ++
    text "\nfedramp=" ++ decimal record.fedramp.toNat ++
    text "\nid_token=" ++ record.idToken.slice ++
    text "\naccess_token=" ++ record.accessToken.slice ++
    text "\nrefresh_token=" ++ record.refreshToken.slice ++
    text "\nexpires_at=" ++ printSigned record.expiresAt.toInt ++
    text "\nrefreshed_at=" ++ printSigned record.refreshedAt.toInt ++
    text "\nstate=" ++ record.state.tag ++ text "\n"
  if bytes.length > capacity then .error .credentialFileTooLarge else .ok bytes

def field (line : Option (List UInt8)) (lead : List UInt8) :
    Except CredentialError (List UInt8) :=
  match line with
  | none => .error .invalidCredentialFile
  | some value =>
    if lead.isPrefixOf value then .ok (value.drop lead.length) else .error .invalidCredentialFile

/-- `decimal(u64, …)`. -/
def decimalU64 (value : List UInt8) : Except CredentialError UInt64 :=
  match parseInt (2 ^ 64 - 1) value with
  | none => .error .invalidCredentialNumber
  | some n => .ok (UInt64.ofNat n)

/-- `decimal(i64, …)`. -/
def decimalI64 (value : List UInt8) : Except CredentialError Int64 :=
  match parseSigned (2 ^ 63 - 1) value with
  | none => .error .invalidCredentialNumber
  | some n => .ok (Int64.ofInt n)

/-- `"1"` or `"0"`. -/
def readFedramp (value : List UInt8) : Except CredentialError Bool :=
  if value = text "1" then .ok true
  else if value = text "0" then .ok false
  else .error .invalidCredentialFile

def readState (value : List UInt8) : Except CredentialError State :=
  match State.ofTag value with
  | none => .error .invalidCredentialState
  | some state => .ok state

/-- The line after the tenth is empty, and the last. -/
def checkEnd (lines : List (List UInt8)) : Except CredentialError Unit :=
  match lines[10]? with
  | none => .error .invalidCredentialFile
  | some line => require (line = [] ∧ lines[11]? = none) .trailingCredentialData

/-- What `parseInto` does once it has written the generation, and an error wipes the record. -/
def parseFields (lines : List (List UInt8)) (generation : UInt64) :
    Except CredentialError Record := do
  let accountId ← field lines[2]? (text "account_id=")
  let accountId ← Bounded.set maxAccountIdBytes accountId
  let fedramp ← field lines[3]? (text "fedramp=")
  let fedramp ← readFedramp fedramp
  let idToken ← field lines[4]? (text "id_token=")
  let idToken ← Bounded.set maxTokenBytes idToken
  let accessToken ← field lines[5]? (text "access_token=")
  let accessToken ← Bounded.set maxTokenBytes accessToken
  let refreshToken ← field lines[6]? (text "refresh_token=")
  let refreshToken ← Bounded.set maxTokenBytes refreshToken
  let expiresAt ← field lines[7]? (text "expires_at=")
  let expiresAt ← decimalI64 expiresAt
  let refreshedAt ← field lines[8]? (text "refreshed_at=")
  let refreshedAt ← decimalI64 refreshedAt
  let state ← field lines[9]? (text "state=")
  let state ← readState state
  checkEnd lines
  let record : Record :=
    { generation, accountId, fedramp, idToken, accessToken, refreshToken, expiresAt, refreshedAt,
      state }
  validateRecord record
  return record

/-- The version and the generation, before the record is written. -/
def parseGeneration (lines : List (List UInt8)) : Except CredentialError UInt64 :=
  match lines[0]? with
  | none => .error .invalidCredentialFile
  | some version =>
    if version ≠ text "version=3" then .error .unsupportedCredentialVersion
    else do
      let generation ← field lines[1]? (text "generation=")
      decimalU64 generation

/-- Reads a file into a record that held something. -/
def parseInto (bytes : List UInt8) (destination : Record) :
    Except CredentialError Unit × Record :=
  let lines := bytes.splitOn (ascii '\n')
  match parseGeneration lines with
  | .error failure => (.error failure, destination)
  | .ok generation =>
    match parseFields lines generation with
    | .error failure => (.error failure, Record.zeroed)
    | .ok record => (.ok (), record)

end Rui.Credentials
