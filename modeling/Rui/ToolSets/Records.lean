import Rui.Library.Hashing

/-!
# Tool records and their digests

A record is one tool as the model is told about it, a set an ordered list of
records; both are known by a SHA-256. The Host's catalog is a sorted list of
records, each with its digest.
-/

namespace Rui.ToolSets
open Library

/-! ## Names -/

def maxToolNameBytes : Nat := 64

/-- Whether `name` is a tool name: 1-64 bytes of [A-Za-z0-9_-]. -/
def validToolName (name : List UInt8) : Bool :=
  name.length ≠ 0 && name.length ≤ maxToolNameBytes &&
    name.all fun byte => isAlphanumeric byte || byte == ascii '_' || byte == ascii '-'

/-- A name's place in byte order. -/
def place (name : List UInt8) : List Nat := name.map UInt8.toNat

theorem place_injective : Function.Injective place :=
  List.map_injective_iff.mpr fun _ _ h => UInt8.toNat_inj.mp h

/-- Sorted, with no name twice. -/
def Ordered (names : List (List UInt8)) : Prop := names.Pairwise fun a b => place a < place b

instance (names : List (List UInt8)) : Decidable (Ordered names) :=
  inferInstanceAs (Decidable (names.Pairwise fun a b => place a < place b))

/-! ## Records -/

/-- Who supplied a tool. -/
inductive Owner
  | rui
  | provider
  | mcp
  deriving DecidableEq, Repr

def Owner.tagName : Owner → List UInt8
  | .rui => text "rui"
  | .provider => text "provider"
  | .mcp => text "mcp"

/-- One tool, as the model is told about it. -/
structure Record where
  name : List UInt8
  description : List UInt8 := []
  inputSchema : List UInt8 := []
  owner : Owner
  server : List UInt8 := []
  deriving DecidableEq, Repr

/-- An MCP record names its server, in the tool-name grammar; any other names none. -/
def validServer (each : Record) : Bool :=
  if each.owner = .mcp then validToolName each.server else each.server.length == 0

variable (sha256 : List UInt8 → Digest)

/-- What is hashed of a content value. -/
def contentText (value : List UInt8) : List UInt8 := field (text "rui/content/v1") ++ value

def contentDigest (value : List UInt8) : Digest := sha256 (contentText value)

/-- A record's identity without its texts. -/
structure RecordIdentity where
  name : List UInt8
  owner : Owner
  server : List UInt8
  description : Digest
  inputSchema : Digest
  deriving DecidableEq

/-- What is hashed of a record. -/
def RecordIdentity.text (self : RecordIdentity) : List UInt8 :=
  field (Library.text "rui/tool-record/v1") ++ (field self.name ++ (field self.owner.tagName ++
    (field self.server ++ (self.description.toList ++ self.inputSchema.toList))))

def RecordIdentity.digest (self : RecordIdentity) : Digest := sha256 self.text

def Record.identity (self : Record) : RecordIdentity :=
  ⟨self.name, self.owner, self.server, contentDigest sha256 self.description,
    contentDigest sha256 self.inputSchema⟩

def recordDigest (member : Record) : Digest := (member.identity sha256).digest sha256

/-- What is hashed of an ordered set of records: their digests, in order. -/
def setText (members : List Digest) : List UInt8 :=
  field (text "rui/tool-set/v2") ++ members.flatMap List.Vector.toList

def setDigest (members : List Digest) : Digest := sha256 (setText members)

/-! ## The built-ins -/

/-- The tools the Host offers, in their names' byte order. -/
inductive Tool
  | bash
  | findTools
  | messageAgent
  | readTranscript
  | skill
  | startAgent
  | webSearch
  deriving DecidableEq, Repr

def Tool.values : List Tool :=
  [.bash, .findTools, .messageAgent, .readTranscript, .skill, .startAgent, .webSearch]

def Tool.tagName : Tool → List UInt8
  | .bash => text "bash"
  | .findTools => text "find_tools"
  | .messageAgent => text "message_agent"
  | .readTranscript => text "read_transcript"
  | .skill => text "skill"
  | .startAgent => text "start_agent"
  | .webSearch => text "web_search"

/-- The prompt texts of the tools Rui has of its own. -/
structure Prompts where
  description : Tool → List UInt8
  inputSchema : Tool → List UInt8

/-- The record of each built-in. -/
def record (prompts : Prompts) : Tool → Record
  | .webSearch => { name := Tool.webSearch.tagName, owner := .provider }
  | tool =>
    { name := tool.tagName, owner := .rui, description := prompts.description tool
      inputSchema := prompts.inputSchema tool }

/-! ## Catalogs -/

def maxCatalogRecords : Nat := 1024

/-- The tools a Host offers, each with its `recordDigest`, in the same order. -/
structure Catalog where
  records : List Record
  digests : List Digest
  deriving DecidableEq

namespace Catalog

/-- The binary search's loop: `fuel` rounds, of which it needs `high - low`. -/
def search (self : Catalog) (name : List UInt8) : Nat → Nat → Nat → Option Nat
  | 0, _, _ => none
  | fuel + 1, low, high =>
    if low < high then
      let middle := low + (high - low) / 2
      match self.records[middle]? with
      | none => none
      | some each =>
        if place each.name = place name then some middle
        else if place each.name < place name then self.search name fuel (middle + 1) high
        else self.search name fuel low middle
    else none

/-- The index of the record named `name`. -/
def find (self : Catalog) (name : List UInt8) : Option Nat :=
  self.search name self.records.length 0 self.records.length

/-- Whether the records are sorted by name, each named once, and each digest is its
record's. -/
def valid (self : Catalog) : Bool :=
  self.records.length == self.digests.length && self.records.length ≤ maxCatalogRecords &&
    self.records.all (fun each => validToolName each.name && validServer each) &&
    decide (Ordered (self.records.map (·.name))) &&
    self.digests == self.records.map (recordDigest sha256)

/-- Whether the built-ins are there, unchanged. -/
def holdsBuiltIns (self : Catalog) (prompts : Prompts) : Bool :=
  Tool.values.all fun tool =>
    match self.find tool.tagName with
    | none => false
    | some index => self.digests[index]? == some (recordDigest sha256 (record prompts tool))

/-- The digest of the catalog's set. -/
def digest (self : Catalog) : Digest := setDigest sha256 self.digests

end Catalog

end Rui.ToolSets
