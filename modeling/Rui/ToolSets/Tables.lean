import Rui.ToolSets.Records

/-!
# The tables of tool records and sets

Contents, records and sets are saved once each: what is saved already is looked
up, by digest or by all its columns, and named by its identity. The rows of a
table stand in the order they were inserted in.
-/

namespace Rui.ToolSets
open Library

/-- Why a transaction ends with nothing changed. -/
inductive Failure
  | corruptStore
  | invalidToolCatalog
  | notServing
  deriving DecidableEq, Repr

/-! ## Rows -/

structure ContentRow where
  contentId : Nat
  digest : Digest
  isPrivate : Bool
  payload : List UInt8
  deriving DecidableEq

structure RecordRow where
  toolRecordId : Nat
  name : List UInt8
  owner : Owner
  server : List UInt8
  descriptionContentId : Nat
  inputSchemaContentId : Nat
  deriving DecidableEq

structure SetRow where
  toolSetId : Nat
  digest : Digest
  memberCount : Nat
  deriving DecidableEq

structure MemberRow where
  toolSetId : Nat
  ordinal : Nat
  toolRecordId : Nat
  deriving DecidableEq

/-- The tool columns of a Session; no loaded set means every tool is loaded. -/
structure SessionRow where
  sessionRef : List UInt8
  revision : Nat
  toolSetId : Nat
  loadedToolSetId : Option Nat
  deriving DecidableEq

structure Db where
  content : List ContentRow := []
  toolRecord : List RecordRow := []
  toolSet : List SetRow := []
  toolSetMember : List MemberRow := []
  hostCatalog : Option Nat := none
  session : List SessionRow := []
  /-- Each Session's settings at each of its revisions. -/
  sessionRevision : List SessionRow := []

/-- The Store's maximum plus one. -/
def nextId (ids : List Nat) : Nat := ids.foldr max 0 + 1

/-- The set whose tools a Session's requests offer. -/
def SessionRow.offered (self : SessionRow) : Nat := self.loadedToolSetId.getD self.toolSetId

variable (sha256 : List UInt8 → Digest)

namespace Db

/-! ## Contents -/

def lookupContent (self : Db) (digest : Digest) (length : Nat) (isPrivate : Bool) : Option Nat :=
  (self.content.find? fun row =>
    row.digest == digest && row.payload.length == length && row.isPrivate == isPrivate).map
      (·.contentId)

/-- The id of `bytes`, with a row for them when none exists. -/
def importBytes (self : Db) (bytes : List UInt8) (isPrivate : Bool) : Db × Nat :=
  match self.lookupContent (contentDigest sha256 bytes) bytes.length isPrivate with
  | some id => (self, id)
  | none =>
    let id := nextId (self.content.map (·.contentId))
    ({ self with
      content := self.content ++ [⟨id, contentDigest sha256 bytes, isPrivate, bytes⟩] }, id)

def contentOf (self : Db) (id : Nat) : Option ContentRow :=
  self.content.find? (·.contentId == id)

/-! ## Records -/

def recordOf (self : Db) (id : Nat) : Option RecordRow :=
  self.toolRecord.find? (·.toolRecordId == id)

def lookupRecord (self : Db) (each : Record) (description inputSchema : Nat) : Option RecordRow :=
  self.toolRecord.find? fun row =>
    row.name == each.name && row.owner == each.owner && row.server == each.server &&
      row.descriptionContentId == description && row.inputSchemaContentId == inputSchema

/-- Saves a record and its texts that no row holds yet. -/
def ensureRecord (self : Db) (each : Record) : Db :=
  let (self, description) := self.importBytes sha256 each.description false
  let (self, inputSchema) := self.importBytes sha256 each.inputSchema false
  match self.lookupRecord each description inputSchema with
  | some _ => self
  | none =>
    { self with toolRecord := self.toolRecord ++
        [⟨nextId (self.toolRecord.map (·.toolRecordId)), each.name, each.owner, each.server,
          description, inputSchema⟩] }

def ensureRecords (self : Db) (records : List Record) : Db :=
  records.foldl (ensureRecord sha256) self

/-- A saved record's identity, whose texts' digests their rows hold. -/
def identityOf (self : Db) (row : RecordRow) : Option RecordIdentity := do
  let description ← self.contentOf row.descriptionContentId
  let inputSchema ← self.contentOf row.inputSchemaContentId
  some ⟨row.name, row.owner, row.server, description.digest, inputSchema.digest⟩

/-! ## Sets -/

/-- The records of a set, in its order. -/
def memberIds (self : Db) (set : Nat) : List Nat :=
  (self.toolSetMember.filter (·.toolSetId == set)).map (·.toolRecordId)

/-- A set's members joined with their records. -/
def memberRecords (self : Db) (set : Nat) : List RecordRow :=
  (self.memberIds set).filterMap self.recordOf

def setOf (self : Db) (digest : Digest) : Option SetRow := self.toolSet.find? (·.digest == digest)

def insertSet (self : Db) (digest : Digest) (memberCount : Nat) : Except Failure (Db × Nat) :=
  if self.toolSet.any (·.digest == digest) then .error .corruptStore
  else
    let id := nextId (self.toolSet.map (·.toolSetId))
    .ok ({ self with toolSet := self.toolSet ++ [⟨id, digest, memberCount⟩] }, id)

/-- Inserts the one record a query found as a member. -/
def insertMember (self : Db) (set ordinal : Nat) (found : List RecordRow) : Except Failure Db :=
  match found with
  | [row] =>
    .ok { self with toolSetMember := self.toolSetMember ++ [⟨set, ordinal, row.toolRecordId⟩] }
  | _ => .error .corruptStore

/-- Members one after another, from `ordinal` on: each the one record of its query. -/
def insertMembers {α : Type} (query : Db → α → List RecordRow) (set : Nat) :
    Db → Nat → List α → Except Failure Db
  | self, _, [] => .ok self
  | self, ordinal, each :: rest => do
    let self ← self.insertMember set ordinal (query self each)
    insertMembers query set self (ordinal + 1) rest

/-- The records with a catalog record's name, owner and texts. -/
def catalogMember (self : Db) (each : Record) : List RecordRow :=
  self.toolRecord.filter fun row =>
    row.name == each.name && row.owner == each.owner && row.server == each.server &&
      ((self.contentOf row.descriptionContentId).any fun content =>
        content.digest == contentDigest sha256 each.description &&
          content.payload.length == each.description.length && !content.isPrivate) &&
      ((self.contentOf row.inputSchemaContentId).any fun content =>
        content.digest == contentDigest sha256 each.inputSchema &&
          content.payload.length == each.inputSchema.length && !content.isPrivate)

/-- The records of the source set with a name. -/
def selectedMember (source : Nat) (self : Db) (name : List UInt8) : List RecordRow :=
  (self.memberRecords source).filter (·.name == name)

/-- Makes a set the Host's catalog. -/
def pointCatalog (self : Db) (set : Nat) : Db := { self with hostCatalog := some set }

/-- Saves a catalog's set, whose every record is saved. -/
def insertCatalog (self : Db) (catalog : Catalog) : Except Failure (Db × Nat) := do
  let (self, set) ← self.insertSet (catalog.digest sha256) catalog.records.length
  let self ← insertMembers (catalogMember sha256) set self 0 catalog.records
  .ok (self, set)

end Db

end Rui.ToolSets
