import Rui.ToolSets.Inserts

/-!
# The set a selection names

A selection hashes the records it selects in one pass, from the catalog or from a
saved set, and the transaction that saves it inserts them in another. The set it
ends with, found or inserted, holds the records with the selected names.
-/

namespace Rui.ToolSets
open Library

variable {sha256 : List UInt8 → Digest} {hashed : Set (List UInt8)} {db later : Db}

/-- A set is saved, and holds these records. -/
structure Db.Saves (db : Db) (set : Nat) (rows : List RecordRow) : Prop where
  row : ∃ each ∈ db.toolSet, each.toolSetId = set
  holds : db.Holds set rows

variable {set source : Nat} {rows : List RecordRow} {catalog : Catalog} {selection : Selection}

theorem Db.Grows.saves (h : db.Grows later) (hsaves : db.Saves set rows) :
    later.Saves set rows := by
  obtain ⟨⟨each, hin, rfl⟩, hholds⟩ := hsaves
  exact ⟨⟨each, h.toolSet.subset hin, rfl⟩, h.holds hin hholds⟩

theorem Db.Sound.saves_unique (h : db.Sound sha256 hashed) {rows' : List RecordRow}
    (hsaves : db.Saves set rows) (hsaves' : db.Saves set rows') : rows = rows' :=
  h.holds_unique hsaves.holds hsaves'.holds

/-! ## Catalogs -/

theorem Db.identify_catalogMember {each : Record} {row : RecordRow}
    (hrow : db.catalogMember sha256 each = [row]) :
    row ∈ db.toolRecord ∧ db.identify row = each.identity sha256 := by
  have hin : row ∈ db.catalogMember sha256 each := hrow ▸ List.mem_cons_self
  rw [Db.catalogMember, List.mem_filter] at hin
  obtain ⟨hin, hmatch⟩ := hin
  simp only [Bool.and_eq_true, beq_iff_eq, Option.any_eq_true] at hmatch
  obtain ⟨⟨⟨⟨hname, howner⟩, hserver⟩, ⟨content, hcontent, ⟨hdigest, -⟩, -⟩⟩,
    ⟨content', hcontent', ⟨hdigest', -⟩, -⟩⟩ := hmatch
  refine ⟨hin, ?_⟩
  simp only [Db.identify, Db.digestAt, hcontent, hcontent', Option.map_some, Option.getD_some,
    hdigest, hdigest', hname, howner, hserver, Record.identity]

theorem Db.identify_catalogMembers {records : List Record}
    (hrows : records.map (db.catalogMember sha256) = rows.map fun row => [row]) :
    rows.map db.identify = records.map (Record.identity sha256) := by
  induction records generalizing rows with
  | nil =>
    rw [List.map_nil, eq_comm, List.map_eq_nil_iff] at hrows
    rw [hrows]
    rfl
  | cons each records ih =>
    cases rows with
    | nil => cases hrows
    | cons row rows =>
      obtain ⟨hhead, htail⟩ := List.cons.inj hrows
      rw [List.map_cons, List.map_cons, (Db.identify_catalogMember hhead).2, ih htail]

/-- A catalog that passed its checks, and whose texts were hashed. -/
structure Catalog.Known (sha256 : List UInt8 → Digest) (hashed : Set (List UInt8))
    (catalog : Catalog) : Prop where
  valid : catalog.Valid sha256
  texts : catalog.texts sha256 ⊆ hashed

/-- A saved set holds a catalog's records. -/
structure Db.Serves (sha256 : List UInt8 → Digest) (hashed : Set (List UInt8)) (db : Db)
    (catalog : Catalog) (set : Nat) : Prop where
  known : catalog.Known sha256 hashed
  saved : ∃ rows, db.Saves set rows ∧
    rows.map db.identify = catalog.records.map (Record.identity sha256)

theorem Catalog.Known.identities (h : catalog.Known sha256 hashed) :
    ∀ each ∈ catalog.records.map (Record.identity sha256), each.Bounded ∧ each.text ∈ hashed := by
  intro identity hin
  obtain ⟨each, heach, rfl⟩ := List.mem_map.mp hin
  exact ⟨h.valid.bounded heach, h.texts (.inr ⟨each, heach, .inr (.inr rfl)⟩)⟩

theorem Catalog.Valid.digests_eq (h : catalog.Valid sha256) : catalog.digests =
      (catalog.records.map (Record.identity sha256)).map (·.digest sha256) := by
  rw [h.digests, List.map_map]
  rfl

theorem Db.Grows.serves (h : db.Grows later) (hdb : db.Sound sha256 hashed)
    (hserves : db.Serves sha256 hashed catalog set) : later.Serves sha256 hashed catalog set := by
  obtain ⟨hknown, rows, hsaves, hrows⟩ := hserves
  refine ⟨hknown, rows, h.saves hsaves, ?_⟩
  rw [← hrows]
  exact List.map_congr_left fun row hin => h.identify hdb (hsaves.holds.saved hin)

/-- **A set found by the catalog's digest is the catalog's.** -/
theorem Db.Sound.serves_of_digest (hfree : CollisionFree sha256 hashed) (h : db.Sound sha256 hashed)
    (hknown : catalog.Known sha256 hashed) {set : SetRow} (hset : set ∈ db.toolSet)
    (hdigest : set.digest = catalog.digest sha256) :
    db.Serves sha256 hashed catalog set.toolSetId := by
  obtain ⟨rows, hholds, hlaw, htext⟩ := h.sets set hset
  refine ⟨hknown, rows, ⟨⟨set, hset, rfl⟩, hholds⟩, ?_⟩
  have hdigests := setText_injective
    (hfree htext (hknown.texts (.inl rfl)) (hlaw.symm.trans hdigest))
  rw [hknown.valid.digests_eq] at hdigests
  refine identities_eq hfree ?_ hknown.identities ((List.map_map).trans hdigests)
  intro identity hin
  obtain ⟨row, hrow, rfl⟩ := List.mem_map.mp hin
  exact (h.records row (hholds.saved hrow)).2.2

theorem singletons_injective {α : Type*} {a b : List α}
    (h : a.map (fun x => [x]) = b.map fun x => [x]) : a = b :=
  List.map_injective_iff.mpr (fun _ _ heq => List.singleton_inj.mp heq) h

theorem Db.Sound.insertCatalog (h : db.Sound sha256 hashed) (hknown : catalog.Known sha256 hashed)
    (hinsert : db.insertCatalog sha256 catalog = .ok (later, set)) :
    later.Sound sha256 hashed ∧ db.Grows later ∧ later.Serves sha256 hashed catalog set ∧
      ∃ toolSet toolSetMember, later = { db with toolSet, toolSetMember } := by
  rw [Db.insertCatalog] at hinsert
  cases hset : db.insertSet (catalog.digest sha256) catalog.records.length with
  | error e =>
    rw [hset] at hinsert
    cases hinsert
  | ok inserted =>
    obtain ⟨mid, id⟩ := inserted
    rw [hset] at hinsert
    have hmid := hset
    rw [Db.insertSet] at hmid
    split at hmid
    · cases hmid
    · obtain ⟨rfl, -⟩ := Prod.mk.inj (Except.ok.inj hmid)
      change (Db.insertMembers (Db.catalogMember sha256) id _ 0 catalog.records).bind
        (fun db => .ok (db, id)) = _ at hinsert
      cases hmembers : Db.insertMembers (Db.catalogMember sha256) id
          { db with toolSet := db.toolSet ++ [⟨nextId (db.toolSet.map (·.toolSetId)),
            catalog.digest sha256, catalog.records.length⟩] } 0 catalog.records with
      | error e =>
        rw [hmembers] at hinsert
        cases hinsert
      | ok last =>
        rw [hmembers] at hinsert
        obtain ⟨rfl, rfl⟩ := Prod.mk.inj (Except.ok.inj hinsert)
        obtain ⟨rows, more, rfl, hmore, hids, hqueries⟩ :=
          insertMembers_found (fun _ _ _ _ => rfl) hmembers
        have hfound : ∀ row ∈ rows, ∃ each ∈ catalog.records,
            db.catalogMember sha256 each = [row] := by
          intro row hin
          have hin : [row] ∈ rows.map fun row => [row] := List.mem_map_of_mem hin
          rw [← hqueries] at hin
          exact List.mem_map.mp hin
        have hsaved : rows ⊆ db.toolRecord := by
          intro row hin
          obtain ⟨each, -, hrow⟩ := hfound row hin
          exact (Db.identify_catalogMember hrow).1
        have hidentities : rows.map db.identify =
            catalog.records.map (Record.identity sha256) := by
          exact Db.identify_catalogMembers hqueries
        have hnames : rows.map (·.name) = catalog.records.map (·.name) := by
          have hmap := congrArg (List.map fun identity : RecordIdentity => identity.name) hidentities
          rwa [List.map_map, List.map_map] at hmap
        have hordered : SortedBy (fun row : RecordRow => place row.name) rows := by
          have hsorted := SortedBy.map.mpr hknown.valid.ordered
          rw [← hnames] at hsorted
          exact SortedBy.map.mp hsorted
        have htext : db.rowsText sha256 rows = setText catalog.digests := by
          rw [Db.rowsText, hknown.valid.digests_eq, ← hidentities, List.map_map]
          rfl
        obtain ⟨hsound, hgrows, hholds, ⟨row, hrow, hid, -⟩, hothers⟩ :=
          h.insertSet hset hmore hids hsaved hordered
            (by rw [htext, Catalog.digest, setDigest])
            (by rw [htext]; exact hknown.texts (.inl rfl))
        exact ⟨hsound, hgrows, ⟨hknown, rows, ⟨⟨row, hrow, hid⟩, hholds⟩, hidentities⟩, hothers⟩

/-! ## Selections -/

/-- What a selection from a source set is about: the records with its names. -/
structure Db.Selects (sha256 : List UInt8 → Digest) (hashed : Set (List UInt8)) (db : Db)
    (source : Nat) (selection : Selection) (rows : List RecordRow) : Prop where
  source : ∃ all, db.Saves source all ∧
    rows = all.filter fun row => selection.names.names.contains row.name
  names : rows.map (·.name) = selection.names.names
  text : selection.text = db.rowsText sha256 rows
  hashed : selection.text ∈ hashed
  found : ∀ id, selection.set = some id →
    ∃ set ∈ db.toolSet, set.toolSetId = id ∧ set.digest = sha256 selection.text

theorem Db.Selects.saved (h : db.Selects sha256 hashed source selection rows) :
    rows ⊆ db.toolRecord := by
  obtain ⟨all, hsaves, rfl⟩ := h.source
  exact fun row hin => hsaves.holds.saved (List.mem_of_mem_filter hin)

theorem Db.Selects.ordered (h : db.Selects sha256 hashed source selection rows) :
    SortedBy (fun row : RecordRow => place row.name) rows := by
  obtain ⟨all, hsaves, rfl⟩ := h.source
  exact hsaves.holds.ordered.filter _

theorem Db.Grows.selects (h : db.Grows later) (hdb : db.Sound sha256 hashed)
    (hselects : db.Selects sha256 hashed source selection rows) :
    later.Selects sha256 hashed source selection rows := by
  obtain ⟨all, hsaves, hrows⟩ := hselects.source
  refine ⟨⟨all, h.saves hsaves, hrows⟩, hselects.names, ?_, hselects.hashed, ?_⟩
  · rw [hselects.text, h.rowsText hdb hselects.saved]
  · intro id hid
    obtain ⟨set, hset, hrest⟩ := hselects.found id hid
    exact ⟨set, h.toolSet.subset hset, hrest⟩

theorem lookupSelection_found (db : Db) (names : ToolNames) (text : List UInt8) :
    ∀ id, (db.lookupSelection sha256 names text).set = some id →
      ∃ set ∈ db.toolSet, set.toolSetId = id ∧ set.digest = sha256 text := by
  intro id hid
  obtain ⟨set, hset, rfl⟩ := Option.map_eq_some_iff.mp hid
  have hdigest := List.find?_some hset
  rw [beq_iff_eq] at hdigest
  exact ⟨set, List.mem_of_find?_eq_some hset, rfl, hdigest⟩

theorem map_eq_of_names {β : Type*} {records : List Record} {f : RecordRow → β} {g : Record → β}
    (hnames : rows.map (·.name) = records.map (·.name))
    (hpoint : ∀ row ∈ rows, ∀ each ∈ records, row.name = each.name → f row = g each) :
    rows.map f = records.map g := by
  induction rows generalizing records with
  | nil =>
    rw [List.map_nil, eq_comm, List.map_eq_nil_iff] at hnames
    rw [hnames]
    rfl
  | cons row rows ih =>
    cases records with
    | nil => cases hnames
    | cons each records =>
      obtain ⟨hhead, htail⟩ := List.cons.inj hnames
      rw [List.map_cons, List.map_cons, hpoint row List.mem_cons_self each List.mem_cons_self hhead,
        ih htail fun r hr e he => hpoint r (List.mem_cons_of_mem _ hr) e (List.mem_cons_of_mem _ he)]

/-- From the catalog: what is hashed is what the catalog's set holds. -/
theorem Db.Serves.ofCatalog (hserves : db.Serves sha256 hashed catalog set) {names : ToolNames}
    (hselection : Selection.ofCatalog sha256 db catalog names = some selection)
    (hhashed : selection.text ∈ hashed) :
    selection.names = names ∧ ∃ rows, db.Selects sha256 hashed set selection rows := by
  obtain ⟨hknown, all, hsaves, hall⟩ := hserves
  rw [Selection.ofCatalog, Option.bind_eq_bind, Option.bind_eq_some_iff] at hselection
  obtain ⟨digests, hdigests, hselection⟩ := hselection
  obtain rfl := Option.some.inj hselection
  obtain ⟨records, hin, hnames, rfl⟩ := Catalog.digests_named hknown.valid hdigests
  have hallNames : all.map (·.name) = catalog.records.map (·.name) := by
    have hmap := congrArg (List.map fun identity : RecordIdentity => identity.name) hall
    rwa [List.map_map, List.map_map] at hmap
  have hsub : names.names ⊆ all.map (·.name) := by
    rw [hallNames, ← hnames]
    exact List.map_subset _ hin
  have hchosen := SortedBy.chosen hsaves.holds.ordered names.ordered hsub
  refine ⟨rfl, _, ⟨all, hsaves, rfl⟩, hchosen, ?_, hhashed, lookupSelection_found db names _⟩
  show setText _ = db.rowsText sha256 _
  rw [Db.rowsText]
  congr 1
  refine (map_eq_of_names (hchosen.trans hnames.symm) ?_).symm
  intro row hrow each heach hsame
  have hrow : db.identify row ∈ all.map db.identify :=
    List.mem_map_of_mem (List.mem_of_mem_filter hrow)
  rw [hall] at hrow
  obtain ⟨each', heach', hidentity⟩ := List.mem_map.mp hrow
  have hname : each'.name = each.name := (congrArg RecordIdentity.name hidentity).trans hsame
  rw [hknown.valid.ordered.eq_of_key heach' (hin each heach) (congrArg place hname)] at hidentity
  rw [← hidentity]
  rfl

/-- From a saved set: what is hashed is what it holds. -/
theorem Db.Sound.ofSaved (h : db.Sound sha256 hashed) {all : List RecordRow}
    (hsaves : db.Saves source all) {names : ToolNames}
    (hselection : Selection.ofSaved sha256 db source names = .ok selection)
    (hhashed : selection.text ∈ hashed) :
    selection.names = names ∧ ∃ rows, db.Selects sha256 hashed source selection rows := by
  rw [Selection.ofSaved, h.byName hsaves.holds] at hselection
  have hknown : (all.filter fun row => names.names.contains row.name).filterMap db.identityOf =
      (all.filter fun row => names.names.contains row.name).map db.identify := by
    rw [← List.filterMap_eq_map]
    exact List.filterMap_congr fun row hin =>
      h.identityOf (hsaves.holds.saved (List.mem_of_mem_filter hin))
  rw [hknown] at hselection
  dsimp only at hselection
  split at hselection
  · cases hselection
  · split at hselection
    · cases hselection
    · next hlength =>
      rw [not_not, List.length_map] at hlength
      obtain rfl := Except.ok.inj hselection
      refine ⟨rfl, _, ⟨all, hsaves, rfl⟩, hsaves.holds.ordered.chosen_of_length names.ordered hlength,
        ?_, hhashed, lookupSelection_found db names _⟩
      show setText _ = db.rowsText sha256 _
      rw [Db.rowsText, List.map_map]
      rfl

/-- **The set a selection ends with holds what it selected**, found or inserted. -/
theorem Db.Sound.finishSelection (hfree : CollisionFree sha256 hashed) (h : db.Sound sha256 hashed)
    (hselects : db.Selects sha256 hashed source selection rows)
    (hfinish : db.finishSelection sha256 selection source = .ok (later, set)) :
    later.Sound sha256 hashed ∧ db.Grows later ∧ later.Saves set rows ∧
      ∃ toolSet toolSetMember, later = { db with toolSet, toolSetMember } := by
  rw [Db.finishSelection] at hfinish
  cases hset : selection.set with
  | some id =>
    rw [hset] at hfinish
    obtain ⟨rfl, rfl⟩ := Prod.mk.inj (Except.ok.inj hfinish)
    obtain ⟨row, hrow, rfl, hdigest⟩ := hselects.found id hset
    obtain ⟨rows', hholds, hlaw, htext⟩ := h.sets row hrow
    have hsame := hselects.text ▸ hselects.hashed
    obtain rfl := h.rows_of_digest hfree hholds.saved hselects.saved htext hsame
      (hlaw.symm.trans (hselects.text ▸ hdigest))
    exact ⟨h, .refl db, ⟨⟨row, hrow, rfl⟩, hholds⟩, _, _, rfl⟩
  | none =>
    rw [hset] at hfinish
    cases hinsert : db.insertSet (selection.digest sha256) selection.names.names.length with
    | error e =>
      rw [hinsert] at hfinish
      cases hfinish
    | ok inserted =>
      obtain ⟨mid, id⟩ := inserted
      rw [hinsert] at hfinish
      have hmid := hinsert
      rw [Db.insertSet] at hmid
      split at hmid
      · cases hmid
      · obtain ⟨rfl, hid⟩ := Prod.mk.inj (Except.ok.inj hmid)
        change (Db.insertMembers (Db.selectedMember source) id _ 0 selection.names.names).bind
          (fun db => .ok (db, id)) = _ at hfinish
        obtain ⟨all, hsaves, hrows⟩ := hselects.source
        have hother : id ≠ source := by
          obtain ⟨each, hin, rfl⟩ := hsaves.row
          rw [← hid]
          exact fun heq => nextId_fresh (db.toolSet.map (·.toolSetId))
            (heq ▸ List.mem_map_of_mem hin)
        cases hmembers : Db.insertMembers (Db.selectedMember source) id
            { db with toolSet := db.toolSet ++ [⟨nextId (db.toolSet.map (·.toolSetId)),
              selection.digest sha256, selection.names.names.length⟩] } 0
            selection.names.names with
        | error e =>
          rw [hmembers] at hfinish
          cases hfinish
        | ok last =>
          rw [hmembers] at hfinish
          obtain ⟨rfl, rfl⟩ := Prod.mk.inj (Except.ok.inj hfinish)
          have hquery : ∀ more : List MemberRow, (∀ member ∈ more, member.toolSetId = id) →
              Db.memberIds { db with toolSetMember := db.toolSetMember ++ more } source =
                db.memberIds source := by
            intro more hmore
            rw [memberIds_append, List.filter_eq_nil_iff.mpr, List.map_nil, List.append_nil]
            intro member hin
            rw [hmore member hin, beq_iff_eq]
            exact hother
          obtain ⟨rows', more, rfl, hmore, hids, hqueries⟩ := insertMembers_found
            (fun more hmore name _ => by
              show (List.filterMap _ (Db.memberIds { db with
                toolSetMember := db.toolSetMember ++ more } source)).filter _ = _
              rw [hquery more hmore]
              rfl) hmembers
          have hsingle : selection.names.names.map (Db.selectedMember source db) =
              rows.map fun row => [row] := by
            rw [← hselects.names, List.map_map]
            refine List.map_congr_left fun row hin => ?_
            show (db.memberRecords source).filter _ = _
            rw [h.memberRecords hsaves.holds]
            exact hsaves.holds.ordered.filter_eq (List.mem_of_mem_filter (hrows ▸ hin))
          obtain rfl : rows' = rows := singletons_injective (hqueries.symm.trans hsingle)
          obtain ⟨hsound, hgrows, hholds, ⟨row, hrow, hrowId, -⟩, hothers⟩ :=
            h.insertSet hinsert hmore hids hselects.saved hselects.ordered
              (by rw [Selection.digest, hselects.text])
              (hselects.text ▸ hselects.hashed)
          exact ⟨hsound, hgrows, ⟨⟨row, hrow, hrowId⟩, hholds⟩, hothers⟩

/-- The records selected from the catalog's set are selected from the tools chosen of it. -/
theorem Db.Selects.narrow {tools loaded : Selection} {toolRows : List RecordRow}
    (hdb : db.Sound sha256 hashed) (htools : db.Selects sha256 hashed source tools toolRows)
    (hloaded : db.Selects sha256 hashed source loaded rows) (hsaves : db.Saves set toolRows)
    (hsub : loaded.names.names ⊆ tools.names.names) : db.Selects sha256 hashed set loaded rows := by
  refine ⟨⟨toolRows, hsaves, ?_⟩, hloaded.names, hloaded.text, hloaded.hashed, hloaded.found⟩
  obtain ⟨all, hall, htoolRows⟩ := htools.source
  obtain ⟨all', hall', hrows⟩ := hloaded.source
  obtain rfl := hdb.saves_unique hall hall'
  rw [hrows, htoolRows, List.filter_filter]
  refine List.filter_congr fun row _ => ?_
  rw [Bool.eq_iff_iff, Bool.and_eq_true, List.contains_iff_mem, List.contains_iff_mem]
  exact ⟨fun hin => ⟨hin, hsub hin⟩, fun hboth => hboth.1⟩

end Rui.ToolSets
