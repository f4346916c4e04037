import Rui.ToolSets.Selections
import Rui.WordSearch.Matcher

/-!
# The Host's tool sets

Saving the catalog, configuring a Session, and the model's search for tools: the
transactions that read and write tool sets, and the Host that runs them one at a
time. A transaction that fails changes nothing.
-/

namespace Rui.ToolSets
open Library
open WordSearch (Matcher)

variable (sha256 : List UInt8 → Digest) (prompts : Prompts)

/-! ## Configuring a Session -/

/-- A configuration, as far as it is about tools. -/
structure Configuration where
  tools : ToolsField
  loadedTools : ToolsField
  /-- The tools the Session's provider runs. -/
  runsTool : List UInt8 → Bool
  /-- What the checks of the other fields answer. -/
  refused : Bool
  /-- The other texts it saves. -/
  imports : List (List UInt8)

inductive Rejection
  | unknownSession
  | incompleteInitialConfiguration
  | unknownTool
  | providerToolMissing
  | loadedToolsNotInTools
  | loadedToolsUnreachable
  /-- One of the other fields'. -/
  | refused
  deriving DecidableEq, Repr

/-- Why `tools` cannot be saved for a Session of a provider. -/
def toolsRejection (catalog : Catalog) (runsTool : List UInt8 → Bool) :
    List (List UInt8) → Option Rejection
  | [] => none
  | name :: rest =>
    match (catalog.find name).bind fun index => catalog.records[index]? with
    | none => some .unknownTool
    | some each =>
      if each.owner = .provider ∧ runsTool name = false then some .providerToolMissing
      else toolsRejection catalog runsTool rest

/-- A strict loaded set must retain the built-in loader. -/
def loadedToolsRejection (tools loaded : List (List UInt8)) : Option Rejection :=
  if loaded.any fun name => !tools.contains name then some .loadedToolsNotInTools
  else if loaded.length < tools.length ∧ loaded.contains Tool.findTools.tagName = false then
    some .loadedToolsUnreachable
  else none

/-- Whether a field lists names. -/
def ToolsField.isValue : ToolsField → Bool
  | .value _ => true
  | _ => false

/-- What the loaded set is resolved to. -/
inductive Loaded
  | rejected (rejection : Rejection)
  /-- Nothing to select: every tool is loaded, or nothing is said about tools. -/
  | unselected
  | selected (selection : Selection)

/-- The set a configuration takes its tools from, when it lists none of its own. -/
def savedTools (current : Option SessionRow) (requested : Configuration) : Option Nat :=
  if requested.tools.isValue then none else current.map (·.toolSetId)

/-- The names of the tools the Session will have. -/
def toolNames (db : Db) (current : Option SessionRow) (requested : Configuration) :
    Except Failure ToolNames :=
  match savedTools current requested with
  | some set => db.selectedNames set fun _ => true
  | none => .ok requested.tools.list

/-- The names that will be loaded: those listed, or those of the saved loaded set that are
still among the tools. -/
def loadedNames (db : Db) (current : Option SessionRow) (requested : Configuration)
    (tools : ToolNames) : Except Failure ToolNames :=
  match requested.loadedTools, current.bind (·.loadedToolSetId) with
  | .value loaded, _ => .ok loaded
  | _, some set => db.selectedNames set tools.names.contains
  | _, none => .error .corruptStore

/-- Resolves the loaded set before anything is changed. -/
def prepareLoadedTools (db : Db) (catalog : Catalog) (current : Option SessionRow)
    (requested : Configuration) : Except Failure Loaded :=
  if current.isSome && !requested.tools.isValue && !requested.loadedTools.isValue then
    .ok .unselected
  else if !requested.loadedTools.isValue && (current.bind (·.loadedToolSetId)).isNone then
    .ok .unselected
  else do
    let tools ← toolNames db current requested
    let loaded ← loadedNames db current requested tools
    match loadedToolsRejection tools.names loaded.names with
    | some rejection => .ok (.rejected rejection)
    | none =>
      if loaded.names.length = tools.names.length then .ok .unselected
      else
        match savedTools current requested with
        | some set => (Selection.ofSaved sha256 db set loaded).map .selected
        | none =>
          match Selection.ofCatalog sha256 db catalog loaded with
          | none => .error .corruptStore
          | some selection => .ok (.selected selection)

/-- The checks before any content is imported. -/
def configurationRejection (catalog : Catalog) (current : Option SessionRow)
    (requested : Configuration) : Option Rejection :=
  if requested.refused then some .refused
  else if current.isNone && !requested.tools.isValue then some .incompleteInitialConfiguration
  else toolsRejection catalog requested.runsTool requested.tools.list.names

inductive Reply
  | accepted (revision : Nat)
  | rejected (rejection : Rejection)
  deriving DecidableEq, Repr

/-- The set of a Session's tools: the saved one, or the one of the names it lists. -/
def saveTools (db : Db) (catalogSet : Nat) (current : Option SessionRow)
    (requested : Configuration) (tools : Option Selection) : Except Failure (Db × Nat) :=
  match savedTools current requested with
  | some set => .ok (db, set)
  | none =>
    match tools with
    | none => .error .corruptStore
    | some tools => db.finishSelection sha256 tools catalogSet

/-- The set of a Session's loaded tools. -/
def saveLoadedTools (db : Db) (toolSet : Nat) (current : Option SessionRow)
    (requested : Configuration) : Loaded → Except Failure (Db × Option Nat)
  | .selected loaded => (db.finishSelection sha256 loaded toolSet).map fun saved =>
      (saved.1, some saved.2)
  | _ =>
    if current.isNone || requested.loadedTools.isValue || requested.tools.isValue then
      .ok (db, none)
    else .ok (db, current.bind (·.loadedToolSetId))

/-- The texts of a transaction, imported one after another. -/
def Db.importAll (self : Db) (texts : List (List UInt8)) : Db :=
  texts.foldl (fun db bytes => (db.importBytes sha256 bytes false).1) self

/-- A Session's row is written, and with it its revision. -/
def Db.saveSession (self : Db) (row : SessionRow) : Db :=
  { self with
    session := if self.session.any (·.sessionRef == row.sessionRef)
      then self.session.map fun each => if each.sessionRef = row.sessionRef then row else each
      else self.session ++ [row]
    sessionRevision := self.sessionRevision ++ [row] }

def Db.sessionOf (self : Db) (ref : List UInt8) : Option SessionRow :=
  self.session.find? (·.sessionRef == ref)

/-- The transaction of a configuration that passed its checks. -/
def applyConfiguration (db : Db) (catalog : Catalog) (catalogSet : Nat) (ref : List UInt8)
    (requested : Configuration) (loaded : Loaded) : Except Failure (Db × Reply) := do
  let current := db.sessionOf ref
  let tools := Selection.ofCatalog sha256 db catalog requested.tools.list
  let (db, toolSet) ← saveTools sha256 (db.importAll sha256 requested.imports) catalogSet current
    requested tools
  let (db, loadedSet) ← saveLoadedTools sha256 db toolSet current requested loaded
  let revision := (current.map (·.revision)).getD 0 + 1
  .ok (db.saveSession ⟨ref, revision, toolSet, loadedSet⟩, .accepted revision)

/-- Creates the Session with a fresh reference, or applies the configuration to it. -/
def configure (db : Db) (catalog : Catalog) (catalogSet : Nat) (ref : List UInt8)
    (creating : Bool) (requested : Configuration) : Except Failure (Db × Reply) :=
  let current := db.sessionOf ref
  if creating && current.isSome then .error .corruptStore
  else if !creating && current.isNone then .ok (db, .rejected .unknownSession)
  else
    match configurationRejection catalog current requested with
    | some rejection => .ok (db, .rejected rejection)
    | none =>
      match prepareLoadedTools sha256 db catalog current requested with
      | .error e => .error e
      | .ok (.rejected rejection) => .ok (db, .rejected rejection)
      | .ok loaded => applyConfiguration sha256 db catalog catalogSet ref requested loaded

/-! ## Finding tools -/

/-- A tool that is not loaded yet. -/
structure Candidate where
  toolRecordId : Nat
  name : List UInt8
  description : ContentRow

def maxMatches : Nat := 8

def contentWindowBytes : Nat := 64 * 1024

/-- The members of a set not among the loaded ones, in name order. -/
def Db.candidates (self : Db) (set loaded : Nat) : List Candidate :=
  ((self.byName set).filter fun row => !(self.memberIds loaded).contains row.toolRecordId).filterMap
    fun row => (self.contentOf row.descriptionContentId).map fun content =>
      ⟨row.toolRecordId, row.name, content⟩

/-- A description is read in windows; its digest is checked once its end is read. -/
def searchWindows (digest : Digest) (whole : List UInt8) (matchers : List Matcher) :
    List (List UInt8) → Except Failure Bool
  | [] => .ok false
  | window :: rest =>
    if rest.isEmpty && contentDigest sha256 whole != digest then .error .corruptStore
    else
      let matchers := matchers.map (·.feed window)
      if matchers.any (·.count != 0) then .ok true
      else searchWindows digest whole matchers rest

/-- Whether a word is in the tool's name, or in its description. -/
def matchesCandidate (words : List (List UInt8)) (row : Candidate) : Except Failure Bool :=
  if words.any fun word => ((Matcher.init word).feed row.name).count != 0 then .ok true
  else searchWindows sha256 row.description.digest row.description.payload
    (words.map Matcher.init) (row.description.payload.toChunks contentWindowBytes)

/-- The first matches, in name order: at most `room`. -/
def findMatches (words : List (List UInt8)) : Nat → List Candidate → Except Failure (List Candidate)
  | 0, _ | _ + 1, [] => .ok []
  | room + 1, row :: rest => do
    if ← matchesCandidate sha256 words row then
      return row :: (← findMatches words room rest)
    else findMatches words (room + 1) rest

/-- The merge of the matches and the names already loaded, both in name order. -/
def includeLoadedNames (into : ToolNames) : List (List UInt8) → List (List UInt8) →
    Except NameError ToolNames
  | [], saved => into.appendAll saved
  | found, [] => into.appendAll found
  | name :: found, held :: saved =>
    if place name < place held then do
      let into ← into.append name
      includeLoadedNames into found (held :: saved)
    else do
      let into ← into.append held
      includeLoadedNames into (name :: found) saved

/-- A description's first line. -/
def firstLine (bytes : List UInt8) : List UInt8 :=
  bytes.takeWhile fun byte => byte != 0x0d && byte != 0x0a

/-- A content value read whole: its digest is checked, but for the empty one's. -/
def streamVerified (row : ContentRow) : Except Failure (List UInt8) :=
  if row.payload.length ≠ 0 ∧ contentDigest sha256 row.payload ≠ row.digest then
    .error .corruptStore
  else .ok row.payload

/-- What a run tells the model, and the tools it names as loaded. -/
structure Report where
  text : List UInt8
  names : List (List UInt8)
  deriving DecidableEq, Repr

def decimal (n : Nat) : List UInt8 := text (toString n)

/-- The lines of the tools that were loaded. -/
def loadedLines : List Candidate → Except Failure (List UInt8)
  | [] => .ok []
  | row :: rest => do
    let description ← streamVerified sha256 row.description
    let lines ← loadedLines rest
    .ok (text "- " ++ row.name ++ text ": " ++ firstLine description ++ [0x0a] ++ lines)

def reportOf (refusal : Option (List UInt8)) (found : List Candidate) (remaining : Nat) :
    Except Failure Report :=
  match refusal, found with
  | some reason, _ =>
    .ok ⟨text "Rui could not find tools: " ++ reason ++ text ". Nothing was loaded.", []⟩
  | none, [] =>
    .ok ⟨text "No tools matched. " ++ decimal remaining ++ text " tools are still not loaded.", []⟩
  | none, found => do
    let lines ← loadedLines sha256 found
    .ok ⟨text "Loaded these tools; they are available on your next request:\n" ++ lines,
      found.map (·.name)⟩

/-- The names a run that leaves tools unloaded loads. -/
def Db.mergedNames (self : Db) (loaded : Nat) (found : List Candidate) :
    Except Failure ToolNames := do
  let saved ← self.selectedNames loaded fun _ => true
  match includeLoadedNames .empty (found.map (·.name)) saved.names with
  | .error _ => .error .corruptStore
  | .ok names => .ok names

/-- The search of a call: the tools not loaded, and the first that match. -/
def searchTools (db : Db) (row : SessionRow) (words : List (List UInt8))
    (refusal : Option (List UInt8)) : Except Failure (List Candidate × Nat) :=
  if refusal.isSome then .ok ([], 0)
  else
    let pending := db.candidates row.toolSetId row.offered
    if maxTools < pending.length then .error .corruptStore
    else do
      let found ← findMatches sha256 words maxMatches pending
      .ok (found, pending.length - found.length)

/-- What a run of the loader finds out before it writes: the tools it loads, the names of the
loaded set if some tools stay unloaded, and its report. -/
def loaderFinds (db : Db) (row : SessionRow) (words : List (List UInt8))
    (refusal : Option (List UInt8)) :
    Except Failure (List Candidate × Option ToolNames × Report) := do
  let (found, remaining) ← searchTools sha256 db row words refusal
  let names ← if found ≠ [] ∧ 0 < remaining
    then (db.mergedNames row.offered found).map some else .ok none
  let report ← reportOf sha256 refusal found remaining
  .ok (found, names, report)

/-- The loaded set of a run that found tools: none when it loads every tool. -/
def saveLoaded (db : Db) (row : SessionRow) : Option ToolNames → Except Failure (Db × Option Nat)
  | none => .ok (db, none)
  | some names => do
    let selection ← Selection.ofSaved sha256 db row.toolSetId names
    let (db, set) ← db.finishSelection sha256 selection row.toolSetId
    .ok (db, some set)

/-- One call of the loader, whose binding stands. -/
def findTools (db : Db) (ref : List UInt8) (words : List (List UInt8))
    (refusal : Option (List UInt8)) : Except Failure (Db × Report) :=
  match db.sessionOf ref with
  | none => .error .corruptStore
  | some row => do
    let (found, names, report) ← loaderFinds sha256 db row words refusal
    let db := (db.importBytes sha256 report.text false).1
    if found = [] then .ok (db, report)
    else do
      let (db, loaded) ← saveLoaded sha256 db row names
      .ok (db.saveSession ⟨ref, row.revision + 1, row.toolSetId, loaded⟩, report)

/-! ## The Host -/

def recordsPerTransaction : Nat := 2

/-- Where a Host stands: saving the catalog it was opened with, or serving requests. -/
inductive Phase
  | closed
  | saving (offered : Catalog) (start : Nat)
  | serving (offered : Catalog) (set : Nat)

structure Host where
  db : Db := {}
  phase : Phase := .closed

/-- The transactions, and the end of a Host. -/
inductive Op
  /-- The first transaction of saving a catalog: it looks the set up. -/
  | saveCatalog (offered : Catalog)
  /-- The next records of the catalog. -/
  | saveRecords
  /-- The catalog's set, once its records are saved. -/
  | saveSet
  | close
  /-- Any other text, saved by any other transaction. -/
  | importContent (bytes : List UInt8) (isPrivate : Bool)
  | configure (ref : List UInt8) (creating : Bool) (requested : Configuration)
  | findTools (ref : List UInt8) (words : List (List UInt8)) (refusal : Option (List UInt8))

inductive Answer
  | done
  | configured (reply : Reply)
  | reported (report : Report)

def Host.step (self : Host) : Op → Except Failure (Host × Answer)
  | .saveCatalog offered =>
    match self.phase with
    | .closed =>
      if !(offered.valid sha256 && offered.holdsBuiltIns sha256 prompts) then
        .error .invalidToolCatalog
      else
        match self.db.setOf (offered.digest sha256) with
        | some row =>
          .ok ({ db := self.db.pointCatalog row.toolSetId, phase := .serving offered row.toolSetId },
            .done)
        | none => .ok ({ self with phase := .saving offered 0 }, .done)
    | _ => .error .notServing
  | .saveRecords =>
    match self.phase with
    | .saving offered start =>
      if start < offered.records.length then
        .ok ({
          db := self.db.ensureRecords sha256
            ((offered.records.drop start).take recordsPerTransaction)
          phase := .saving offered (start + recordsPerTransaction) }, .done)
      else .error .notServing
    | _ => .error .notServing
  | .saveSet =>
    match self.phase with
    | .saving offered start =>
      if start < offered.records.length then .error .notServing
      else do
        let (db, set) ← self.db.insertCatalog sha256 offered
        .ok ({ db := db.pointCatalog set, phase := .serving offered set }, .done)
    | _ => .error .notServing
  | .close => .ok ({ self with phase := .closed }, .done)
  | .importContent bytes isPrivate =>
    .ok ({ self with db := (self.db.importBytes sha256 bytes isPrivate).1 }, .done)
  | .configure ref creating requested =>
    match self.phase with
    | .serving offered set => do
      let (db, reply) ← ToolSets.configure sha256 self.db offered set ref creating requested
      .ok ({ self with db }, .configured reply)
    | _ => .error .notServing
  | .findTools ref words refusal =>
    match self.phase with
    | .serving _ _ => do
      let (db, report) ← ToolSets.findTools sha256 self.db ref words refusal
      .ok ({ self with db }, .reported report)
    | _ => .error .notServing

end Rui.ToolSets
