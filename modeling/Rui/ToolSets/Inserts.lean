import Rui.ToolSets.Saving

/-!
# Inserting contents, records and sets

Each insert keeps the tables' invariant. A set is inserted in two passes, its
row with the digest first and its members after it; what the second pass finds
is what the first one hashed.
-/

namespace Rui.ToolSets
open Library

variable {sha256 : List UInt8 → Digest} {hashed : Set (List UInt8)} {db later : Db}

/-! ## Contents -/

theorem Db.Sound.content (h : db.Sound sha256 hashed) (row : ContentRow)
    (hfresh : row.contentId ∉ db.content.map (·.contentId))
    (hlaw : row.digest = contentDigest sha256 row.payload ∧ contentText row.payload ∈ hashed)
    (honce : ∀ each ∈ db.content,
      ¬(each.payload = row.payload ∧ each.isPrivate = row.isPrivate)) :
    Db.Sound sha256 hashed { db with content := db.content ++ [row] } ∧
      db.Grows { db with content := db.content ++ [row] } := by
  have hgrows : db.Grows { db with content := db.content ++ [row] } :=
    ⟨List.prefix_append _ _, List.prefix_refl _, List.prefix_refl _, fun _ _ => rfl⟩
  refine ⟨⟨?_, ?_, ?_, h.recordIds, ?_, h.recordOnce, h.setIds, ?_, h.members⟩, hgrows⟩
  · rw [List.map_append, List.map_singleton]
    exact h.contentIds.append (List.nodup_singleton _) (by simpa using hfresh)
  · intro each hin
    rcases List.mem_append.mp hin with hin | hin
    · exact h.contents each hin
    · rw [List.mem_singleton.mp hin]
      exact hlaw
  · refine List.pairwise_append.mpr ⟨h.contentOnce, List.pairwise_singleton _ _, ?_⟩
    intro each hin last hlast
    rw [List.mem_singleton.mp hlast]
    exact honce each hin
  · intro each hin
    obtain ⟨hdescription, hschema, hknown⟩ := h.records each hin
    rw [hgrows.identify h hin]
    exact ⟨hgrows.public hdescription, hgrows.public hschema, hknown⟩
  · intro set hin
    obtain ⟨rows, hholds, hdigest, htext⟩ := h.sets set hin
    refine ⟨rows, hgrows.holds hin hholds, ?_, ?_⟩
    · rw [hgrows.rowsText h hholds.saved]
      exact hdigest
    · rw [hgrows.rowsText h hholds.saved]
      exact htext

/-- What importing a text leaves. -/
structure Imported (sha256 : List UInt8 → Digest) (hashed : Set (List UInt8)) (db : Db)
    (bytes : List UInt8) (isPrivate : Bool) (later : Db) (id : Nat) : Prop where
  sound : later.Sound sha256 hashed
  grows : db.Grows later
  others : ∃ content, later = { db with content := content }
  found : ∃ row, later.contentOf id = some row ∧ row.digest = contentDigest sha256 bytes ∧
    row.isPrivate = isPrivate

theorem Db.Sound.importBytes (h : db.Sound sha256 hashed) {bytes : List UInt8}
    (htext : contentText bytes ∈ hashed) (isPrivate : Bool) :
    Imported sha256 hashed db bytes isPrivate (db.importBytes sha256 bytes isPrivate).1
      (db.importBytes sha256 bytes isPrivate).2 := by
  rw [Db.importBytes]
  cases hlookup : db.lookupContent (contentDigest sha256 bytes) bytes.length isPrivate with
  | some id =>
    obtain ⟨row, hfind, rfl⟩ := Option.map_eq_some_iff.mp hlookup
    have hmatch := List.find?_some hfind
    simp only [Bool.and_eq_true, beq_iff_eq] at hmatch
    exact ⟨h, .refl db, ⟨db.content, rfl⟩, row,
      find?_of_nodup h.contentIds (List.mem_of_find?_eq_some hfind), hmatch.1.1, hmatch.2⟩
  | none =>
    rw [Db.lookupContent, Option.map_eq_none_iff, List.find?_eq_none] at hlookup
    have hfresh := nextId_fresh (db.content.map (·.contentId))
    obtain ⟨hsound, hgrows⟩ := h.content
      ⟨nextId (db.content.map (·.contentId)), contentDigest sha256 bytes, isPrivate, bytes⟩
      hfresh ⟨rfl, htext⟩ (by
        rintro each hin ⟨hpayload, hprivate⟩
        apply hlookup each hin
        simp only [Bool.and_eq_true, beq_iff_eq]
        exact ⟨⟨(h.contents each hin).1.trans (congrArg _ hpayload), congrArg _ hpayload⟩, hprivate⟩)
    exact ⟨hsound, hgrows, ⟨_, rfl⟩, _,
      find?_of_nodup hsound.contentIds (List.mem_append_right _ List.mem_cons_self), rfl, rfl⟩

theorem Db.Sound.importAll (h : db.Sound sha256 hashed) {texts : List (List UInt8)}
    (htexts : ∀ bytes ∈ texts, contentText bytes ∈ hashed) :
    (db.importAll sha256 texts).Sound sha256 hashed ∧ db.Grows (db.importAll sha256 texts) ∧
      ∃ content, db.importAll sha256 texts = { db with content := content } := by
  induction texts generalizing db with
  | nil => exact ⟨h, .refl db, db.content, rfl⟩
  | cons bytes texts ih =>
    obtain ⟨hsound, hgrows, ⟨content, hcontent⟩, -⟩ :=
      h.importBytes (htexts bytes List.mem_cons_self) false
    obtain ⟨hlast, hgrows', content', hcontent'⟩ :=
      ih hsound fun each hin => htexts each (List.mem_cons_of_mem _ hin)
    refine ⟨hlast, hgrows.trans hgrows', content', hcontent'.trans ?_⟩
    rw [hcontent]

/-! ## Records -/

theorem Db.Sound.ensureRecord (h : db.Sound sha256 hashed) {each : Record}
    (hbounded : (each.identity sha256).Bounded)
    (hdescription : contentText each.description ∈ hashed)
    (hschema : contentText each.inputSchema ∈ hashed)
    (hidentity : (each.identity sha256).text ∈ hashed) :
    (db.ensureRecord sha256 each).Sound sha256 hashed ∧ db.Grows (db.ensureRecord sha256 each) ∧
      ∃ content toolRecord, db.ensureRecord sha256 each = { db with content, toolRecord } := by
  have hfirst := h.importBytes hdescription false
  have hsecond := hfirst.sound.importBytes hschema false
  have hgrows := hfirst.grows.trans hsecond.grows
  rw [Db.ensureRecord]
  generalize hfirstDb : db.importBytes sha256 each.description false = first at *
  obtain ⟨mid, description⟩ := first
  dsimp only at *
  generalize hsecondDb : mid.importBytes sha256 each.inputSchema false = second at *
  obtain ⟨last, inputSchema⟩ := second
  dsimp only at *
  obtain ⟨content, rfl⟩ := hfirst.others
  obtain ⟨content', rfl⟩ := hsecond.others
  have hsound := hsecond.sound
  obtain ⟨row, hrow, hdigest, hpublic⟩ := hfirst.found
  obtain ⟨row', hrow', hdigest', hpublic'⟩ := hsecond.found
  have hrow := hsecond.grows.contentOf hrow
  cases hlookup : Db.lookupRecord { db with content := content' } each description inputSchema with
  | some found => exact ⟨hsound, hgrows, content', db.toolRecord, rfl⟩
  | none =>
    rw [Db.lookupRecord, List.find?_eq_none] at hlookup
    have hfresh := nextId_fresh (db.toolRecord.map (·.toolRecordId))
    generalize nextId (db.toolRecord.map (·.toolRecordId)) = id at hfresh ⊢
    have hgrows' : Db.Grows { db with content := content' }
        { db with content := content', toolRecord := db.toolRecord ++
          [⟨id, each.name, each.owner, each.server, description, inputSchema⟩] } :=
      ⟨List.prefix_refl _, List.prefix_append _ _, List.prefix_refl _, fun _ _ => rfl⟩
    have hnew : Db.identify { db with content := content' }
        ⟨id, each.name, each.owner, each.server, description, inputSchema⟩ =
        each.identity sha256 := by
      simp only [Db.identify, Db.digestAt, hrow, hrow', Option.map_some, Option.getD_some, hdigest,
        hdigest', Record.identity]
    refine ⟨⟨hsound.contentIds, hsound.contents, hsound.contentOnce, ?_, ?_, ?_, hsound.setIds, ?_,
      hsound.members⟩, hgrows.trans hgrows', content', _, rfl⟩
    · rw [List.map_append, List.map_singleton]
      exact hsound.recordIds.append (List.nodup_singleton _) (by simpa using hfresh)
    · intro saved hin
      rcases List.mem_append.mp hin with hin | hin
      · obtain ⟨hone, htwo, hknown⟩ := hsound.records saved hin
        exact ⟨hone, htwo, hknown⟩
      · rw [List.mem_singleton.mp hin]
        refine ⟨⟨row, hrow, hpublic⟩, ⟨row', hrow', hpublic'⟩, ?_⟩
        show (Db.identify { db with content := content' } _).Bounded ∧
          (Db.identify { db with content := content' } _).text ∈ hashed
        rw [hnew]
        exact ⟨hbounded, hidentity⟩
    · refine List.pairwise_append.mpr ⟨hsound.recordOnce, List.pairwise_singleton _ _, ?_⟩
      intro saved hin last hlast hsame
      rw [List.mem_singleton.mp hlast] at hsame
      apply hlookup saved hin
      obtain ⟨hname, howner, hserver, hone, htwo⟩ := hsame
      simp only [Bool.and_eq_true, beq_iff_eq]
      exact ⟨⟨⟨⟨hname, howner⟩, hserver⟩, hone⟩, htwo⟩
    · intro set hin
      obtain ⟨rows, hholds, hlaw, htext⟩ := hsound.sets set hin
      exact ⟨rows, hgrows'.holds hin hholds, hlaw, htext⟩

theorem Db.Sound.ensureRecords (h : db.Sound sha256 hashed) {records : List Record}
    (hrecords : ∀ each ∈ records, (each.identity sha256).Bounded ∧
      contentText each.description ∈ hashed ∧ contentText each.inputSchema ∈ hashed ∧
      (each.identity sha256).text ∈ hashed) :
    (db.ensureRecords sha256 records).Sound sha256 hashed ∧
      db.Grows (db.ensureRecords sha256 records) ∧
      ∃ content toolRecord, db.ensureRecords sha256 records = { db with content, toolRecord } := by
  induction records generalizing db with
  | nil => exact ⟨h, .refl db, db.content, db.toolRecord, rfl⟩
  | cons each records ih =>
    obtain ⟨hbounded, hdescription, hschema, hidentity⟩ := hrecords each List.mem_cons_self
    obtain ⟨hsound, hgrows, content, toolRecord, hothers⟩ :=
      h.ensureRecord hbounded hdescription hschema hidentity
    obtain ⟨hlast, hgrows', content', toolRecord', hothers'⟩ :=
      ih hsound fun each hin => hrecords each (List.mem_cons_of_mem _ hin)
    refine ⟨hlast, hgrows.trans hgrows', content', toolRecord', hothers'.trans ?_⟩
    rw [hothers]

/-! ## Sets -/

theorem memberIds_append (db : Db) (more : List MemberRow) (set : Nat) :
    Db.memberIds { db with toolSetMember := db.toolSetMember ++ more } set =
      db.memberIds set ++ (more.filter (·.toolSetId == set)).map (·.toolRecordId) := by
  rw [Db.memberIds, Db.memberIds, List.filter_append, List.map_append]

/-- Members one after another: each the one record its query finds, whatever of the set is
there already. -/
theorem insertMembers_found {α : Type} {query : Db → α → List RecordRow} {set ordinal : Nat}
    {list : List α}
    (hquery : ∀ more : List MemberRow, (∀ member ∈ more, member.toolSetId = set) → ∀ each ∈ list,
      query { db with toolSetMember := db.toolSetMember ++ more } each = query db each)
    (h : Db.insertMembers query set db ordinal list = .ok later) :
    ∃ rows : List RecordRow, ∃ more : List MemberRow,
      later = { db with toolSetMember := db.toolSetMember ++ more } ∧
      (∀ member ∈ more, member.toolSetId = set) ∧
      more.map (·.toolRecordId) = rows.map (·.toolRecordId) ∧
      list.map (query db) = rows.map fun row => [row] := by
  induction list generalizing db ordinal with
  | nil =>
    cases h
    exact ⟨[], [], by rw [List.append_nil], by simp, rfl, rfl⟩
  | cons each list ih =>
    rw [Db.insertMembers] at h
    cases hfound : query db each with
    | nil =>
      rw [hfound] at h
      cases h
    | cons row others =>
      cases others with
      | cons other others =>
        rw [hfound] at h
        cases h
      | nil =>
        rw [hfound] at h
        have hfirst := hquery [⟨set, ordinal, row.toolRecordId⟩] (by simp)
        have hsecond : ∀ more : List MemberRow, (∀ member ∈ more, member.toolSetId = set) →
            ∀ each ∈ list, query { db with toolSetMember :=
                (db.toolSetMember ++ [⟨set, ordinal, row.toolRecordId⟩]) ++ more } each =
              query { db with toolSetMember :=
                db.toolSetMember ++ [⟨set, ordinal, row.toolRecordId⟩] } each := by
          intro more hmore member hin
          have hall := hquery (⟨set, ordinal, row.toolRecordId⟩ :: more)
            (by simpa using hmore) member (List.mem_cons_of_mem _ hin)
          rw [hfirst member (List.mem_cons_of_mem _ hin), ← hall, List.append_assoc,
            List.singleton_append]
        obtain ⟨rows, more, hlater, hsets, hids, hqueries⟩ := ih hsecond h
        refine ⟨row :: rows, ⟨set, ordinal, row.toolRecordId⟩ :: more, ?_, ?_, ?_, ?_⟩
        · rw [hlater, List.append_assoc, List.singleton_append]
        · simpa using hsets
        · rw [List.map_cons, List.map_cons, hids]
        · rw [List.map_cons, List.map_cons, hfound, ← hqueries]
          congr 1
          exact List.map_congr_left fun each hin =>
            (hfirst each (List.mem_cons_of_mem _ hin)).symm

theorem Db.Sound.insertSet (h : db.Sound sha256 hashed) {digest : Digest} {count set : Nat}
    {rows : List RecordRow} {more : List MemberRow} {mid : Db}
    (hinsert : db.insertSet digest count = .ok (mid, set))
    (hmore : ∀ member ∈ more, member.toolSetId = set)
    (hids : more.map (·.toolRecordId) = rows.map (·.toolRecordId))
    (hsaved : rows ⊆ db.toolRecord) (hordered : SortedBy (fun row : RecordRow => place row.name) rows)
    (hdigest : digest = sha256 (db.rowsText sha256 rows))
    (htext : db.rowsText sha256 rows ∈ hashed) :
    Db.Sound sha256 hashed { mid with toolSetMember := mid.toolSetMember ++ more } ∧
      db.Grows { mid with toolSetMember := mid.toolSetMember ++ more } ∧
      Db.Holds { mid with toolSetMember := mid.toolSetMember ++ more } set rows ∧
      (∃ row ∈ mid.toolSet, row.toolSetId = set ∧ row.digest = digest) ∧
      ∃ toolSet toolSetMember, { mid with toolSetMember := mid.toolSetMember ++ more } =
        { db with toolSet, toolSetMember } := by
  rw [Db.insertSet] at hinsert
  split at hinsert
  · cases hinsert
  · obtain ⟨rfl, rfl⟩ := Prod.mk.inj (Except.ok.inj hinsert)
    have hfresh := nextId_fresh (db.toolSet.map (·.toolSetId))
    generalize nextId (db.toolSet.map (·.toolSetId)) = set at hfresh hmore ⊢
    have hother : ∀ each ∈ db.toolSet, each.toolSetId ≠ set :=
      fun each hin heq => hfresh (heq ▸ List.mem_map_of_mem hin)
    have hmembers : ∀ each ∈ db.toolSet,
        Db.memberIds { db with
            toolSet := db.toolSet ++ [⟨set, digest, count⟩]
            toolSetMember := db.toolSetMember ++ more } each.toolSetId =
          db.memberIds each.toolSetId := by
      intro each hin
      refine (memberIds_append db more each.toolSetId).trans ?_
      rw [List.filter_eq_nil_iff.mpr, List.map_nil, List.append_nil]
      intro member hmember
      rw [hmore member hmember, beq_iff_eq]
      exact (hother each hin).symm
    have hnew : Db.memberIds { db with
            toolSet := db.toolSet ++ [⟨set, digest, count⟩]
            toolSetMember := db.toolSetMember ++ more } set = rows.map (·.toolRecordId) := by
      refine (memberIds_append db more set).trans ?_
      have hnone : db.memberIds set = [] := by
        rw [Db.memberIds, List.map_eq_nil_iff, List.filter_eq_nil_iff]
        intro member hmember heq
        obtain ⟨each, hin, hset⟩ := h.members member hmember
        exact hother each hin (hset.trans (beq_iff_eq.mp heq))
      rw [hnone, List.nil_append, List.filter_eq_self.mpr, hids]
      intro member hmember
      rw [hmore member hmember, beq_self_eq_true]
    have hgrows : db.Grows { db with
            toolSet := db.toolSet ++ [⟨set, digest, count⟩]
            toolSetMember := db.toolSetMember ++ more } :=
      ⟨List.prefix_refl _, List.prefix_refl _, List.prefix_append _ _, hmembers⟩
    refine ⟨⟨h.contentIds, h.contents, h.contentOnce, h.recordIds, h.records, h.recordOnce, ?_, ?_,
      ?_⟩, hgrows, ⟨hnew, hsaved, hordered⟩,
      ⟨_, List.mem_append_right _ List.mem_cons_self, rfl, rfl⟩, _, _, rfl⟩
    · rw [List.map_append, List.map_singleton]
      exact h.setIds.append (List.nodup_singleton _) (by simpa using hfresh)
    · intro each hin
      rcases List.mem_append.mp hin with hin | hin
      · obtain ⟨rows, hholds, hlaw, htext⟩ := h.sets each hin
        exact ⟨rows, hgrows.holds hin hholds, hlaw, htext⟩
      · rw [List.mem_singleton.mp hin]
        exact ⟨rows, ⟨hnew, hsaved, hordered⟩, hdigest, htext⟩
    · intro member hin
      rcases List.mem_append.mp hin with hin | hin
      · obtain ⟨each, hset, heq⟩ := h.members member hin
        exact ⟨each, List.mem_append_left _ hset, heq⟩
      · exact ⟨_, List.mem_append_right _ List.mem_cons_self, (hmore member hin).symm⟩

end Rui.ToolSets
