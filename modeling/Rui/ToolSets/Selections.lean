import Rui.ToolSets.Tables

/-!
# Selections

The names a configuration or a search selects, and the set that is saved for
them: the records a source set has under these names, in name order. The digest
is computed in one pass over the source, the members are inserted in another.
-/

namespace Rui.ToolSets
open Library

/-! ## Lists of names -/

/-- The most names one `tools` list holds, and their bytes together. -/
def maxTools : Nat := 128

def maxToolListNameBytes : Nat := 4096

theorem Ordered.concat {names : List (List UInt8)} (h : Ordered names) {name : List UInt8}
    (hlast : ∀ last ∈ names.getLast?, place last < place name) : Ordered (names ++ [name]) := by
  rcases List.eq_nil_or_concat names with rfl | ⟨names, last, rfl⟩
  · exact List.pairwise_singleton _ _
  · have hless := hlast last (by simp)
    rw [List.concat_eq_append] at h ⊢
    rw [Ordered, List.pairwise_append] at h ⊢
    refine ⟨List.pairwise_append.mpr h, List.pairwise_singleton _ _, ?_⟩
    intro a ha b hb
    rw [List.mem_singleton.mp hb]
    rcases List.mem_append.mp ha with hin | hin
    · exact (h.2.2 a hin last List.mem_cons_self).trans hless
    · rw [List.mem_singleton.mp hin]
      exact hless

/-- A list of names, sorted, with none twice. -/
structure ToolNames where
  names : List (List UInt8) := []
  ordered : Ordered names := by exact List.Pairwise.nil
  valid : ∀ name ∈ names, validToolName name = true := by simp
  count_le : names.length ≤ maxTools := by simp
  bytes_le : (names.map List.length).sum ≤ maxToolListNameBytes := by simp

inductive NameError
  | invalidToolName
  | invalidJsonShape
  deriving DecidableEq, Repr

namespace ToolNames

/-- No names. -/
def empty : ToolNames := {}

/-- Appends `name`, which must sort after every name already held. -/
def append (self : ToolNames) (name : List UInt8) : Except NameError ToolNames :=
  if hvalid : validToolName name = true then
    if hcount : self.names.length = maxTools then .error .invalidJsonShape
    else if hlast : ∀ last ∈ self.names.getLast?, place last < place name then
      if hbytes : maxToolListNameBytes < (self.names.map List.length).sum + name.length then
        .error .invalidJsonShape
      else .ok {
        names := self.names ++ [name]
        ordered := self.ordered.concat hlast
        valid := fun each hin => (List.mem_append.mp hin).elim (self.valid each) fun h =>
          List.mem_singleton.mp h ▸ hvalid
        count_le := by
          have hle := self.count_le
          rw [List.length_append, List.length_singleton]
          omega
        bytes_le := by
          rw [List.map_append, List.sum_append, List.map_singleton, List.sum_singleton]
          omega }
    else .error .invalidJsonShape
  else .error .invalidToolName

/-- Names appended one after another. -/
def appendAll (self : ToolNames) : List (List UInt8) → Except NameError ToolNames
  | [] => .ok self
  | name :: rest => do
    let self ← self.append name
    self.appendAll rest

end ToolNames

/-- A field of a request that lists tools. -/
inductive ToolsField
  | omitted
  | explicitNull
  | value (names : ToolNames)

/-- The names of a field; one that lists none is empty. -/
def ToolsField.list : ToolsField → ToolNames
  | .value names => names
  | _ => .empty

variable (sha256 : List UInt8 → Digest)

/-! ## Selections -/

/-- The set a transaction saves: names in name order, what is hashed of their records, and the
set its lookup found. -/
structure Selection where
  names : ToolNames
  text : List UInt8
  set : Option Nat

def Selection.digest (self : Selection) : Digest := sha256 self.text

/-- The lookup of a selection's set by its digest. -/
def Db.lookupSelection (self : Db) (names : ToolNames) (text : List UInt8) : Selection :=
  ⟨names, text, (self.setOf (sha256 text)).map (·.toolSetId)⟩

/-- From the catalog: none when it lacks one of the names. -/
def Selection.ofCatalog (db : Db) (catalog : Catalog) (names : ToolNames) : Option Selection := do
  let digests ← names.names.mapM fun name => do
    let index ← catalog.find name
    catalog.digests[index]?
  some (db.lookupSelection sha256 names (setText digests))

/-- A set's records in the order of their names. -/
def Db.byName (self : Db) (set : Nat) : List RecordRow :=
  (self.memberRecords set).insertionSort fun a b => place a.name ≤ place b.name

/-- From an already saved set, not today's catalog. The read stops at its limit, which no Session's
set passes; a set that did is corrupt here. -/
def Selection.ofSaved (db : Db) (source : Nat) (names : ToolNames) : Except Failure Selection := do
  let rows := db.byName source
  if maxTools + 1 < rows.length then .error .corruptStore
  let chosen := (rows.filter fun row => names.names.contains row.name).filterMap db.identityOf
  if chosen.length ≠ names.names.length then .error .corruptStore
  .ok (db.lookupSelection sha256 names (setText (chosen.map (·.digest sha256))))

/-- The id of the set a selection names: the saved one, or one inserted now from the source. -/
def Db.finishSelection (self : Db) (selection : Selection) (source : Nat) :
    Except Failure (Db × Nat) :=
  match selection.set with
  | some id => .ok (self, id)
  | none => do
    let (self, set) ← self.insertSet (selection.digest sha256) selection.names.names.length
    let self ← insertMembers (selectedMember source) set self 0 selection.names.names
    .ok (self, set)

/-- A set's names in order, of those a filter lets through, under the same limit. -/
def Db.selectedNames (self : Db) (set : Nat) (filter : List UInt8 → Bool) :
    Except Failure ToolNames :=
  let rows := self.byName set
  if maxTools + 1 < rows.length then .error .corruptStore
  else
    match ToolNames.empty.appendAll ((rows.map (·.name)).filter filter) with
    | .error _ => .error .corruptStore
    | .ok names => .ok names

end Rui.ToolSets
