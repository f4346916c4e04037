import Rui.ToolSets.Digests

/-!
# What is saved stays, and is saved once

The tables as every transaction leaves them: a content row holds the bytes its
digest is of, no record and no text is saved twice, and a set's members stand in
name order under the digest they have together. A transaction only adds rows.
-/

namespace Rui.ToolSets
open Library

variable {sha256 : List UInt8 → Digest} {hashed : Set (List UInt8)} {db later : Db} {id : Nat}
  {α : Type*} {l : List α} {a : α}

theorem le_of_mem_ids {ids : List Nat} (h : id ∈ ids) : id ≤ ids.foldr max 0 := by
  induction ids with
  | nil => cases h
  | cons first ids ih =>
    rcases List.mem_cons.mp h with rfl | h
    · exact Nat.le_max_left _ _
    · exact (ih h).trans (Nat.le_max_right _ _)

theorem nextId_fresh (ids : List Nat) : nextId ids ∉ ids := by
  intro h
  have hle := le_of_mem_ids h
  rw [nextId] at hle
  omega

theorem eq_of_once {Agree : α → α → Prop} (honce : l.Pairwise fun a b => ¬Agree a b)
    (hsymm : ∀ a b, Agree a b → Agree b a) {b : α} (ha : a ∈ l) (hb : b ∈ l) (hagree : Agree a b) :
    a = b := by
  induction l with
  | nil => cases ha
  | cons first l ih =>
    obtain ⟨hfirst, hrest⟩ := List.pairwise_cons.mp honce
    rcases List.mem_cons.mp ha with rfl | hain
    · rcases List.mem_cons.mp hb with rfl | hbin
      · rfl
      · exact absurd hagree (hfirst b hbin)
    · rcases List.mem_cons.mp hb with rfl | hbin
      · exact absurd (hsymm _ _ hagree) (hfirst a hain)
      · exact ih hrest hain hbin

/-! ## What the tables hold -/

/-- The records of a set, in name order. -/
structure Db.Holds (db : Db) (set : Nat) (rows : List RecordRow) : Prop where
  ids : db.memberIds set = rows.map (·.toolRecordId)
  saved : rows ⊆ db.toolRecord
  ordered : SortedBy (fun row : RecordRow => place row.name) rows

def Db.digestAt (db : Db) (content : Nat) : Digest :=
  ((db.contentOf content).map (·.digest)).getD (List.Vector.replicate 32 0)

/-- A saved record's identity. -/
def Db.identify (db : Db) (row : RecordRow) : RecordIdentity :=
  ⟨row.name, row.owner, row.server, db.digestAt row.descriptionContentId,
    db.digestAt row.inputSchemaContentId⟩

/-- A text that any reader may see is saved. -/
def Db.Public (db : Db) (content : Nat) : Prop :=
  ∃ row, db.contentOf content = some row ∧ row.isPrivate = false

/-- Two records with the same columns. -/
def RecordRow.Same (a b : RecordRow) : Prop :=
  a.name = b.name ∧ a.owner = b.owner ∧ a.server = b.server ∧
    a.descriptionContentId = b.descriptionContentId ∧
    a.inputSchemaContentId = b.inputSchemaContentId

def Db.rowsText (db : Db) (sha256 : List UInt8 → Digest) (rows : List RecordRow) : List UInt8 :=
  setText (rows.map fun row => (db.identify row).digest sha256)

theorem RecordRow.Same.symm {a b : RecordRow} (h : a.Same b) : b.Same a :=
  ⟨h.1.symm, h.2.1.symm, h.2.2.1.symm, h.2.2.2.1.symm, h.2.2.2.2.symm⟩

/-- **The tables' invariant.** -/
structure Db.Sound (sha256 : List UInt8 → Digest) (hashed : Set (List UInt8)) (db : Db) : Prop where
  contentIds : (db.content.map (·.contentId)).Nodup
  contents : ∀ row ∈ db.content,
    row.digest = contentDigest sha256 row.payload ∧ contentText row.payload ∈ hashed
  contentOnce : db.content.Pairwise fun a b => ¬(a.payload = b.payload ∧ a.isPrivate = b.isPrivate)
  recordIds : (db.toolRecord.map (·.toolRecordId)).Nodup
  records : ∀ row ∈ db.toolRecord, db.Public row.descriptionContentId ∧
    db.Public row.inputSchemaContentId ∧ (db.identify row).Bounded ∧ (db.identify row).text ∈ hashed
  recordOnce : db.toolRecord.Pairwise fun a b => ¬a.Same b
  setIds : (db.toolSet.map (·.toolSetId)).Nodup
  sets : ∀ set ∈ db.toolSet, ∃ rows, db.Holds set.toolSetId rows ∧
    set.digest = sha256 (db.rowsText sha256 rows) ∧ db.rowsText sha256 rows ∈ hashed
  members : ∀ member ∈ db.toolSetMember, ∃ set ∈ db.toolSet, set.toolSetId = member.toolSetId

/-- A transaction only adds rows, and none to the sets there are. -/
structure Db.Grows (db later : Db) : Prop where
  content : db.content <+: later.content
  toolRecord : db.toolRecord <+: later.toolRecord
  toolSet : db.toolSet <+: later.toolSet
  members : ∀ set ∈ db.toolSet, later.memberIds set.toolSetId = db.memberIds set.toolSetId

theorem Db.Grows.refl (db : Db) : db.Grows db :=
  ⟨List.prefix_refl _, List.prefix_refl _, List.prefix_refl _, fun _ _ => rfl⟩

theorem Db.Grows.trans {mid : Db} (h : db.Grows mid) (h' : mid.Grows later) : db.Grows later :=
  ⟨h.content.trans h'.content, h.toolRecord.trans h'.toolRecord, h.toolSet.trans h'.toolSet,
    fun set hin => (h'.members set (h.toolSet.subset hin)).trans (h.members set hin)⟩

theorem find?_of_prefix {p : α → Bool} {l' : List α} (h : l <+: l') (hfind : l.find? p = some a) :
    l'.find? p = some a := by
  obtain ⟨more, rfl⟩ := h
  rw [List.find?_append, hfind, Option.some_or]

theorem find?_of_nodup {id : α → Nat} (hnodup : (l.map id).Nodup) (ha : a ∈ l) :
    l.find? (fun each => id each == id a) = some a := by
  induction l with
  | nil => cases ha
  | cons first l ih =>
    rw [List.map_cons, List.nodup_cons] at hnodup
    rcases List.mem_cons.mp ha with rfl | ha
    · simp
    · have hne : id first ≠ id a := fun heq => hnodup.1 (heq ▸ List.mem_map_of_mem ha)
      rw [List.find?_cons_of_neg (by simpa using hne)]
      exact ih hnodup.2 ha

theorem Db.Grows.contentOf (h : db.Grows later) {row : ContentRow}
    (hrow : db.contentOf id = some row) : later.contentOf id = some row :=
  find?_of_prefix h.content hrow

theorem Db.Grows.public (h : db.Grows later) (hpublic : db.Public id) : later.Public id := by
  obtain ⟨row, hrow, hprivate⟩ := hpublic
  exact ⟨row, h.contentOf hrow, hprivate⟩

theorem Db.Grows.digestAt (h : db.Grows later) (hpublic : db.Public id) :
    later.digestAt id = db.digestAt id := by
  obtain ⟨row, hrow, -⟩ := hpublic
  rw [Db.digestAt, Db.digestAt, hrow, h.contentOf hrow]

theorem Db.Grows.identify (h : db.Grows later) (hdb : db.Sound sha256 hashed) {row : RecordRow}
    (hrow : row ∈ db.toolRecord) : later.identify row = db.identify row := by
  obtain ⟨hdescription, hschema, -⟩ := hdb.records row hrow
  rw [Db.identify, Db.identify, h.digestAt hdescription, h.digestAt hschema]

variable {rows : List RecordRow}

theorem Db.Grows.rowsText (h : db.Grows later) (hdb : db.Sound sha256 hashed)
    (hrows : rows ⊆ db.toolRecord) : later.rowsText sha256 rows = db.rowsText sha256 rows := by
  rw [Db.rowsText, Db.rowsText]
  congr 1
  exact List.map_congr_left fun row hrow => by rw [h.identify hdb (hrows hrow)]

theorem Db.Grows.holds (h : db.Grows later) {set : SetRow} (hset : set ∈ db.toolSet)
    (hholds : db.Holds set.toolSetId rows) : later.Holds set.toolSetId rows :=
  ⟨(h.members set hset).trans hholds.ids, fun _ hin => h.toolRecord.subset (hholds.saved hin),
    hholds.ordered⟩

/-! ## Reads of a sound Store -/

namespace Db.Sound

variable {row : RecordRow} {rows' : List RecordRow}

theorem recordOf (h : db.Sound sha256 hashed) (hrow : row ∈ db.toolRecord) :
    db.recordOf row.toolRecordId = some row :=
  find?_of_nodup h.recordIds hrow

theorem identityOf (h : db.Sound sha256 hashed) (hrow : row ∈ db.toolRecord) :
    db.identityOf row = some (db.identify row) := by
  obtain ⟨⟨description, hdescription, -⟩, ⟨schema, hschema, -⟩, -⟩ := h.records row hrow
  simp [Db.identityOf, Db.identify, Db.digestAt, hdescription, hschema]

variable {set : Nat} {rows : List RecordRow}

/-- Joining a set's members with their records gives the records it holds. -/
theorem memberRecords (h : db.Sound sha256 hashed) (hholds : db.Holds set rows) :
    db.memberRecords set = rows := by
  rw [Db.memberRecords, hholds.ids, List.filterMap_map]
  have hall : ∀ row ∈ rows, (db.recordOf ∘ fun row : RecordRow => row.toolRecordId) row = some row :=
    fun row hin => h.recordOf (hholds.saved hin)
  rw [List.filterMap_congr hall, List.filterMap_some]

theorem byName (h : db.Sound sha256 hashed) (hholds : db.Holds set rows) :
    db.byName set = rows := by
  rw [Db.byName, h.memberRecords hholds]
  exact hholds.ordered.insertionSort_eq

theorem holds_unique (h : db.Sound sha256 hashed) (hholds : db.Holds set rows)
    (hholds' : db.Holds set rows') : rows = rows' := by
  rw [← h.memberRecords hholds, h.memberRecords hholds']

/-- **A record is known by its identity.** -/
theorem identify_injective (hfree : CollisionFree sha256 hashed) (h : db.Sound sha256 hashed)
    {a b : RecordRow} (ha : a ∈ db.toolRecord) (hb : b ∈ db.toolRecord)
    (hsame : db.identify a = db.identify b) : a = b := by
  obtain ⟨hname, howner, hserver, hdescription, hschema⟩ := RecordIdentity.mk.inj hsame
  have hcontent : ∀ {i j : Nat}, db.Public i → db.Public j → db.digestAt i = db.digestAt j →
      i = j := by
    intro i j hi hj hdigest
    obtain ⟨row, hrow, hprivate⟩ := hi
    obtain ⟨row', hrow', hprivate'⟩ := hj
    rw [Db.digestAt, Db.digestAt, hrow, hrow'] at hdigest
    have hin : row ∈ db.content := List.mem_of_find?_eq_some hrow
    have hin' : row' ∈ db.content := List.mem_of_find?_eq_some hrow'
    obtain ⟨hlaw, htext⟩ := h.contents row hin
    obtain ⟨hlaw', htext'⟩ := h.contents row' hin'
    have hpayload : row.payload = row'.payload :=
      contentText_injective (hfree htext htext' (hlaw.symm.trans (hdigest.trans hlaw')))
    have heq : row = row' := eq_of_once h.contentOnce
      (fun _ _ hagree => ⟨hagree.1.symm, hagree.2.symm⟩) hin hin'
      ⟨hpayload, hprivate.trans hprivate'.symm⟩
    have hid := List.find?_some hrow
    have hid' := List.find?_some hrow'
    rw [beq_iff_eq] at hid hid'
    rw [← hid, ← hid', heq]
  obtain ⟨hpublic, hpublic', -⟩ := h.records a ha
  obtain ⟨hpublicb, hpublicb', -⟩ := h.records b hb
  exact eq_of_once h.recordOnce (fun _ _ => RecordRow.Same.symm) ha hb
    ⟨hname, howner, hserver, hcontent hpublic hpublicb hdescription,
      hcontent hpublic' hpublicb' hschema⟩

/-- **A set's digest names its records.** -/
theorem rows_of_digest (hfree : CollisionFree sha256 hashed) (h : db.Sound sha256 hashed)
    (hrows : rows ⊆ db.toolRecord) (hrows' : rows' ⊆ db.toolRecord)
    (htext : db.rowsText sha256 rows ∈ hashed) (htext' : db.rowsText sha256 rows' ∈ hashed)
    (hdigest : sha256 (db.rowsText sha256 rows) = sha256 (db.rowsText sha256 rows')) :
    rows = rows' := by
  have hdigests := setText_injective (hfree htext htext' hdigest)
  have hknown : ∀ {rows : List RecordRow}, rows ⊆ db.toolRecord →
      ∀ each ∈ rows.map db.identify, each.Bounded ∧ each.text ∈ hashed := by
    intro rows hsub each hin
    obtain ⟨row, hrow, rfl⟩ := List.mem_map.mp hin
    exact (h.records row (hsub hrow)).2.2
  have hidentities : rows.map db.identify = rows'.map db.identify :=
    identities_eq hfree (hknown hrows) (hknown hrows') (by
      rw [List.map_map, List.map_map]
      exact hdigests)
  clear hdigests hdigest htext htext' hknown
  induction rows generalizing rows' with
  | nil =>
    rw [List.map_nil, eq_comm, List.map_eq_nil_iff] at hidentities
    exact hidentities.symm
  | cons row rows ih =>
    cases rows' with
    | nil => cases hidentities
    | cons row' rows' =>
      obtain ⟨hhead, htail⟩ := List.cons.inj hidentities
      rw [h.identify_injective hfree (hrows List.mem_cons_self) (hrows' List.mem_cons_self) hhead,
        ih (fun _ hin => hrows (List.mem_cons_of_mem _ hin))
          (fun _ hin => hrows' (List.mem_cons_of_mem _ hin)) htail]

/-- Two saved sets with one digest have the same records. -/
theorem same_records (hfree : CollisionFree sha256 hashed) (h : db.Sound sha256 hashed)
    {set set' : SetRow} (hset : set ∈ db.toolSet) (hset' : set' ∈ db.toolSet)
    (hdigest : set.digest = set'.digest) :
    db.memberIds set.toolSetId = db.memberIds set'.toolSetId := by
  obtain ⟨rows, hholds, hlaw, htext⟩ := h.sets set hset
  obtain ⟨rows', hholds', hlaw', htext'⟩ := h.sets set' hset'
  have hrows := h.rows_of_digest hfree hholds.saved hholds'.saved htext htext'
    (hlaw.symm.trans (hdigest.trans hlaw'))
  rw [hholds.ids, hholds'.ids, hrows]

end Db.Sound

end Rui.ToolSets
