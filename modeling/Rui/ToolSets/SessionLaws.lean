import Rui.Library.Checks
import Rui.ToolSets.FindToolsLaws

/-!
# Every Session's sets

A Session's tools are a saved set, and what is loaded of them is another, with
fewer records of the same, the loader among them. Configuring a Session and
searching for tools keep it so, and change no set that is saved.
-/

namespace Rui.ToolSets
open Library

variable {sha256 : List UInt8 → Digest} {hashed : Set (List UInt8)} {db later : Db}

/-- A Session's sets are saved; a loaded set has the loader and only some of the tools. -/
def SessionRow.Sound (db : Db) (row : SessionRow) : Prop :=
  ∃ all, db.Saves row.toolSetId all ∧ ∀ set, row.loadedToolSetId = some set →
    ∃ rows, db.Saves set rows ∧ rows ⊆ all ∧ rows.length < all.length ∧
      Tool.findTools.tagName ∈ rows.map (·.name)

variable {row : SessionRow} {ref : List UInt8} {catalog : Catalog} {current : Option SessionRow}
  {requested : Configuration} {catalogSet set : Nat} {all rows : List RecordRow}

theorem SessionRow.Sound.grows (h : row.Sound db) (hgrows : db.Grows later) : row.Sound later := by
  obtain ⟨all, hall, hloaded⟩ := h
  refine ⟨all, hgrows.saves hall, fun set hset => ?_⟩
  obtain ⟨rows, hrows, hrest⟩ := hloaded set hset
  exact ⟨rows, hgrows.saves hrows, hrest⟩

/-- What a transaction does to the Sessions: it writes rows that are sound. -/
structure Db.Follows (sha256 : List UInt8 → Digest) (hashed : Set (List UInt8)) (db later : Db) :
    Prop where
  sound : later.Sound sha256 hashed
  grows : db.Grows later
  rows : ∃ fresh : List SessionRow, (∀ row ∈ fresh, row.Sound later) ∧
    later.sessionRevision = db.sessionRevision ++ fresh ∧
    ∀ row ∈ later.session, row ∈ db.session ∨ row ∈ fresh

theorem Db.Follows.unchanged (hsound : later.Sound sha256 hashed) (hgrows : db.Grows later)
    (hsession : later.session = db.session)
    (hrevision : later.sessionRevision = db.sessionRevision) :
    db.Follows sha256 hashed later :=
  ⟨hsound, hgrows, [], by simp, by rw [hrevision, List.append_nil],
    fun _ hin => .inl (hsession ▸ hin)⟩

/-- The Sessions and the catalog's pointer are no part of what digests name. -/
theorem Db.Sound.others (h : db.Sound sha256 hashed) (hostCatalog : Option Nat)
    (session sessionRevision : List SessionRow) :
    Db.Sound sha256 hashed { db with hostCatalog, session, sessionRevision } ∧
      db.Grows { db with hostCatalog, session, sessionRevision } := by
  have hgrows : db.Grows { db with hostCatalog, session, sessionRevision } :=
    ⟨List.prefix_refl _, List.prefix_refl _, List.prefix_refl _, fun _ _ => rfl⟩
  refine ⟨⟨h.contentIds, h.contents, h.contentOnce, h.recordIds, h.records, h.recordOnce, h.setIds,
    ?_, h.members⟩, hgrows⟩
  intro set hin
  obtain ⟨rows, hholds, hrest⟩ := h.sets set hin
  exact ⟨rows, hgrows.holds hin hholds, hrest⟩

variable {mid : Db} {selection : Selection} {toolSet : Nat} {loaded : Loaded} {reply : Reply}
  {name : List UInt8} {found : List Candidate}

theorem Db.Follows.saveSession (hsound : mid.Sound sha256 hashed) (hgrows : db.Grows mid)
    (hsession : mid.session = db.session) (hrevision : mid.sessionRevision = db.sessionRevision)
    (hrow : row.Sound mid) : db.Follows sha256 hashed (mid.saveSession row) := by
  obtain ⟨hsound', hsame⟩ := hsound.others mid.hostCatalog (mid.saveSession row).session
    (mid.saveSession row).sessionRevision
  refine ⟨hsound', hgrows.trans hsame, [row], ?_, ?_, ?_⟩
  · intro each hin
    rw [List.mem_singleton.mp hin]
    exact hrow.grows hsame
  · rw [← hrevision]
    rfl
  · intro each hin
    rw [← hsession]
    rw [Db.saveSession] at hin
    dsimp only at hin
    split at hin
    · obtain ⟨old, hold, rfl⟩ := List.mem_map.mp hin
      split
      · exact .inr List.mem_cons_self
      · exact .inl hold
    · exact List.mem_append.mp hin

theorem Db.mem_of_sessionOf (h : db.sessionOf ref = some row) :
    row ∈ db.session ∧ row.sessionRef = ref := by
  rw [Db.sessionOf] at h
  have href := List.find?_some h
  rw [beq_iff_eq] at href
  exact ⟨List.mem_of_find?_eq_some h, href⟩

theorem Db.sessionOf_saveSession (db : Db) (row : SessionRow) (ref : List UInt8) :
    (db.saveSession row).sessionOf ref =
      if ref = row.sessionRef then some row else db.sessionOf ref := by
  rw [Db.saveSession, Db.sessionOf, Db.sessionOf]
  dsimp only
  split
  · next hany =>
    rw [List.find?_map]
    have hsame : ((fun each : SessionRow => each.sessionRef == ref) ∘ fun each =>
        if each.sessionRef = row.sessionRef then row else each) =
        fun each => each.sessionRef == ref := by
      funext each
      rw [Function.comp_apply]
      split
      · next heq => rw [heq]
      · rfl
    rw [hsame]
    split
    · next href =>
      obtain ⟨old, hold, hmatch⟩ := List.any_eq_true.mp hany
      rw [beq_iff_eq] at hmatch
      cases hfind : db.session.find? fun each => each.sessionRef == ref with
      | none =>
        rw [List.find?_eq_none] at hfind
        exact absurd (by rw [hmatch, href, beq_self_eq_true]) (hfind old hold)
      | some found =>
        have hfound := List.find?_some hfind
        rw [beq_iff_eq] at hfound
        rw [Option.map_some, if_pos (hfound.trans href)]
    · next href =>
      cases hfind : db.session.find? fun each => each.sessionRef == ref with
      | none => rfl
      | some found =>
        have hfound := List.find?_some hfind
        rw [beq_iff_eq] at hfound
        rw [Option.map_some, if_neg (hfound ▸ href)]
  · next hany =>
    rw [List.find?_append]
    split
    · next href =>
      have hnone : db.session.find? (fun each => each.sessionRef == ref) = none := by
        rw [List.find?_eq_none]
        intro each hin hmatch
        exact hany (List.any_eq_true.mpr ⟨each, hin, href ▸ hmatch⟩)
      rw [hnone, Option.none_or, List.find?_cons_of_pos (by rw [href, beq_self_eq_true])]
    · next href =>
      rw [List.find?_cons_of_neg (by rw [beq_iff_eq]; exact fun heq => href heq.symm),
        List.find?_nil, Option.or_none]

/-! ## Configuring -/

theorem loadedToolsRejection_none {tools loaded : List (List UInt8)}
    (h : loadedToolsRejection tools loaded = none) :
    loaded ⊆ tools ∧ (loaded.length < tools.length → Tool.findTools.tagName ∈ loaded) := by
  rw [loadedToolsRejection] at h
  split at h
  · cases h
  · next hall =>
    split at h
    · cases h
    · next hloader =>
      constructor
      · intro name hin
        by_contra hout
        refine hall (List.any_eq_true.mpr ⟨name, hin, ?_⟩)
        rw [Bool.not_eq_true', ← Bool.not_eq_true, List.contains_iff_mem]
        exact hout
      · intro hless
        by_contra hout
        refine hloader ⟨hless, ?_⟩
        rw [← Bool.not_eq_true, List.contains_iff_mem]
        exact hout

/-- What a prepared loaded set was taken from, and which names it has. -/
theorem prepareLoadedTools_selected
    (h : prepareLoadedTools sha256 db catalog current requested = .ok (.selected selection)) :
    ∃ tools loaded : ToolNames, toolNames db current requested = .ok tools ∧
      loaded.names ⊆ tools.names ∧ loaded.names.length ≠ tools.names.length ∧
      (loaded.names.length < tools.names.length → Tool.findTools.tagName ∈ loaded.names) ∧
      ((∃ set, savedTools current requested = some set ∧
          Selection.ofSaved sha256 db set loaded = .ok selection) ∨
        savedTools current requested = none ∧
          Selection.ofCatalog sha256 db catalog loaded = some selection) := by
  rw [prepareLoadedTools] at h
  split at h
  · cases h
  · split at h
    · cases h
    · obtain ⟨tools, htools, h⟩ := bind_eq_ok.mp h
      obtain ⟨loaded, hloaded, h⟩ := bind_eq_ok.mp h
      cases hrejection : loadedToolsRejection tools.names loaded.names with
      | some rejection =>
        rw [hrejection] at h
        cases h
      | none =>
        rw [hrejection] at h
        obtain ⟨hsub, hloader⟩ := loadedToolsRejection_none hrejection
        dsimp only at h
        split at h
        · cases h
        · next hlength =>
          refine ⟨tools, loaded, htools, hsub, hlength, hloader, ?_⟩
          cases hsource : savedTools current requested with
          | some set =>
            rw [hsource] at h
            dsimp only at h
            cases hselection : Selection.ofSaved sha256 db set loaded with
            | error e =>
              rw [hselection] at h
              cases h
            | ok selected =>
              rw [hselection] at h
              cases h
              exact .inl ⟨set, rfl, hselection⟩
          | none =>
            rw [hsource] at h
            cases hselection : Selection.ofCatalog sha256 db catalog loaded with
            | none =>
              rw [hselection] at h
              cases h
            | some selected =>
              rw [hselection] at h
              cases h
              exact .inr ⟨rfl, rfl⟩

/-- What a configuration hashes: the names it selects, and the texts it imports. -/
def configureTexts (sha256 : List UInt8 → Digest) (db : Db) (catalog : Catalog) (ref : List UInt8)
    (requested : Configuration) : Set (List UInt8) :=
  {text | (requested.tools.isValue = true ∧ ∃ selection,
      Selection.ofCatalog sha256 db catalog requested.tools.list = some selection ∧
        text = selection.text) ∨
    (∃ selection, prepareLoadedTools sha256 db catalog (db.sessionOf ref) requested =
      .ok (.selected selection) ∧ text = selection.text) ∨
    ∃ bytes ∈ requested.imports, text = contentText bytes}

theorem Db.Sound.saveTools (hfree : CollisionFree sha256 hashed) (h : db.Sound sha256 hashed)
    (hserves : db.Serves sha256 hashed catalog catalogSet)
    (hcurrent : ∀ row, current = some row → row.Sound db)
    (hhashed : requested.tools.isValue = true → ∀ selection,
      Selection.ofCatalog sha256 db catalog requested.tools.list = some selection →
        selection.text ∈ hashed)
    (hvalue : savedTools current requested = none → requested.tools.isValue = true)
    (hmid : mid.Sound sha256 hashed) (hgrows : db.Grows mid)
    (hsave : ToolSets.saveTools sha256 mid catalogSet current requested
      (Selection.ofCatalog sha256 db catalog requested.tools.list) = .ok (later, set)) :
    later.Sound sha256 hashed ∧ mid.Grows later ∧
      (∃ all, later.Saves set all ∧ (∀ source, savedTools current requested = some source →
          source = set ∧ db.Saves source all) ∧
        (savedTools current requested = none →
          all.map (·.name) = requested.tools.list.names ∧
          ∃ tools, later.Selects sha256 hashed catalogSet tools all ∧
            tools.names = requested.tools.list)) ∧
      ∃ toolSet toolSetMember, later = { mid with toolSet, toolSetMember } := by
  rw [ToolSets.saveTools.eq_def] at hsave
  cases hsource : savedTools current requested with
  | some source =>
    rw [hsource] at hsave
    obtain ⟨rfl, rfl⟩ := Prod.mk.inj (Except.ok.inj hsave)
    rw [savedTools] at hsource
    split at hsource
    · cases hsource
    · obtain ⟨row, hrow, rfl⟩ := Option.map_eq_some_iff.mp hsource
      obtain ⟨all, hall, -⟩ := hcurrent row hrow
      refine ⟨hmid, .refl mid, ⟨all, hgrows.saves hall, ?_, fun hnone => by cases hnone⟩,
        mid.toolSet, mid.toolSetMember, rfl⟩
      intro source heq
      obtain rfl := Option.some.inj heq
      exact ⟨rfl, hall⟩
  | none =>
    rw [hsource] at hsave
    have hvalue := hvalue hsource
    cases hselection : Selection.ofCatalog sha256 db catalog requested.tools.list with
    | none =>
      rw [hselection] at hsave
      cases hsave
    | some tools =>
      rw [hselection] at hsave
      obtain ⟨hnames, all, hselects⟩ :=
        hserves.ofCatalog hselection (hhashed hvalue tools hselection)
      have hselects := hgrows.selects h hselects
      obtain ⟨hsound, hgrows', hsaves, hothers⟩ := hmid.finishSelection hfree hselects hsave
      refine ⟨hsound, hgrows', ⟨all, hsaves, fun source heq => (by cases heq), fun _ => ?_⟩, hothers⟩
      exact ⟨hnames ▸ hselects.names, tools, hgrows'.selects hmid hselects, hnames⟩

/-- The names a configuration prepares for are those its tools have once they are saved. -/
theorem Db.Sound.toolNames (h : db.Sound sha256 hashed) {tools : ToolNames}
    (hsaved : ∀ source, savedTools current requested = some source → db.Saves source all)
    (hlisted : savedTools current requested = none → all.map (·.name) = requested.tools.list.names)
    (htools : ToolSets.toolNames db current requested = .ok tools) :
    tools.names = all.map (·.name) := by
  rw [ToolSets.toolNames] at htools
  cases hsource : savedTools current requested with
  | some source =>
    rw [hsource] at htools
    rw [h.selectedNames (hsaved source hsource) htools, List.filter_eq_self.mpr fun _ _ => rfl]
  | none =>
    rw [hsource] at htools
    obtain rfl := Except.ok.inj htools
    exact (hlisted hsource).symm

theorem Db.Sound.prepared (h : db.Sound sha256 hashed)
    (hserves : db.Serves sha256 hashed catalog catalogSet)
    (hprepared : prepareLoadedTools sha256 db catalog current requested = .ok (.selected selection))
    (hhashed : selection.text ∈ hashed) (hlater : later.Sound sha256 hashed)
    (hgrows : db.Grows later) (hall : later.Saves toolSet all)
    (hsource : ∀ source, savedTools current requested = some source →
      source = toolSet ∧ db.Saves source all)
    (hlisted : savedTools current requested = none →
      all.map (·.name) = requested.tools.list.names ∧
      ∃ tools, later.Selects sha256 hashed catalogSet tools all ∧
        tools.names = requested.tools.list) :
    ∃ rows, later.Selects sha256 hashed toolSet selection rows ∧ rows.length < all.length ∧
      Tool.findTools.tagName ∈ rows.map (·.name) := by
  obtain ⟨tools, loaded, htools, hsub, hlength, hloader, hselection⟩ :=
    prepareLoadedTools_selected hprepared
  have hnames : tools.names = all.map (·.name) :=
    h.toolNames (fun source heq => (hsource source heq).2) (fun heq => (hlisted heq).1) htools
  have hle : loaded.names.length ≤ tools.names.length :=
    (List.subperm_of_subset (SortedBy.nodup loaded.ordered) hsub).length_le
  have hcount : tools.names.length = all.length := by rw [hnames, List.length_map]
  have hchosen : ∃ rows, later.Selects sha256 hashed toolSet selection rows ∧
      selection.names = loaded := by
    rcases hselection with ⟨source, heq, hselection⟩ | ⟨heq, hselection⟩
    · obtain ⟨rfl, hsaves⟩ := hsource source heq
      obtain ⟨hsame, rows, hselects⟩ := h.ofSaved hsaves hselection hhashed
      exact ⟨rows, hgrows.selects h hselects, hsame⟩
    · obtain ⟨hlistedNames, requestedTools, hrequested, hsameTools⟩ := hlisted heq
      obtain ⟨hsame, rows, hselects⟩ := hserves.ofCatalog hselection hhashed
      refine ⟨rows, hrequested.narrow hlater (hgrows.selects h hselects) hall ?_, hsame⟩
      rw [hsame, hsameTools, ← hlistedNames, ← hnames]
      exact hsub
  obtain ⟨rows, hselects, rfl⟩ := hchosen
  have hrows : rows.length = selection.names.names.length := by
    rw [← hselects.names, List.length_map]
  refine ⟨rows, hselects, by omega, ?_⟩
  rw [hselects.names]
  exact hloader (by omega)

theorem Db.Sound.saveLoadedTools (hfree : CollisionFree sha256 hashed) (h : db.Sound sha256 hashed)
    (hall : db.Saves toolSet all)
    (hselected : ∀ selection, loaded = .selected selection →
      ∃ rows, db.Selects sha256 hashed toolSet selection rows ∧ rows.length < all.length ∧
        Tool.findTools.tagName ∈ rows.map (·.name))
    (hkept : requested.tools.isValue = false → ∀ row, current = some row →
      row.toolSetId = toolSet ∧ row.Sound db) {loadedSet : Option Nat}
    (hsave : ToolSets.saveLoadedTools sha256 db toolSet current requested loaded =
      .ok (later, loadedSet)) : later.Sound sha256 hashed ∧ db.Grows later ∧
      (∃ sets members, later = { db with toolSet := sets, toolSetMember := members }) ∧
      ∀ ref revision, SessionRow.Sound later ⟨ref, revision, toolSet, loadedSet⟩ := by
  have hall' : ∀ ref revision, SessionRow.Sound db ⟨ref, revision, toolSet, none⟩ :=
    fun ref revision => ⟨all, hall, fun set hset => by cases hset⟩
  have hothers : ∀ {saved : Option Nat}, (if current.isNone || requested.loadedTools.isValue ||
        requested.tools.isValue then (.ok (db, none) : Except Failure (Db × Option Nat))
      else .ok (db, current.bind (·.loadedToolSetId))) = .ok (later, saved) →
      later.Sound sha256 hashed ∧ db.Grows later ∧
        (∃ sets members, later = { db with toolSet := sets, toolSetMember := members }) ∧
        ∀ ref revision, SessionRow.Sound later ⟨ref, revision, toolSet, saved⟩ := by
    intro saved heq
    split at heq
    · obtain ⟨rfl, rfl⟩ := Prod.mk.inj (Except.ok.inj heq)
      exact ⟨h, .refl db, ⟨db.toolSet, db.toolSetMember, rfl⟩, hall'⟩
    · next hkeep =>
      obtain ⟨rfl, rfl⟩ := Prod.mk.inj (Except.ok.inj heq)
      refine ⟨h, .refl db, ⟨db.toolSet, db.toolSetMember, rfl⟩, fun ref revision => ?_⟩
      simp only [Bool.or_eq_true, not_or, Bool.not_eq_true] at hkeep
      cases current with
      | none => exact hall' ref revision
      | some row =>
        obtain ⟨rfl, hsound⟩ := hkept hkeep.2 row rfl
        exact hsound
  cases loaded with
  | rejected rejection => exact hothers hsave
  | unselected => exact hothers hsave
  | selected selection =>
    obtain ⟨rows, hselects, hless, hloader⟩ := hselected selection rfl
    rw [ToolSets.saveLoadedTools] at hsave
    cases hfinish : db.finishSelection sha256 selection toolSet with
    | error e =>
      rw [hfinish] at hsave
      cases hsave
    | ok saved =>
      obtain ⟨last, set⟩ := saved
      rw [hfinish] at hsave
      obtain ⟨rfl, rfl⟩ := Prod.mk.inj (Except.ok.inj hsave)
      obtain ⟨hsound, hgrows, hsaves, hothers⟩ := h.finishSelection hfree hselects hfinish
      refine ⟨hsound, hgrows, hothers, fun ref revision => ⟨all, hgrows.saves hall, ?_⟩⟩
      intro each heq
      obtain rfl := Option.some.inj heq
      obtain ⟨all', hall', hrows⟩ := hselects.source
      obtain rfl := h.saves_unique hall hall'
      exact ⟨rows, hsaves, hrows ▸ List.filter_subset_self .., hless, hloader⟩

/-- **Configuring keeps every Session's sets as they should be.** -/
theorem Db.Sound.applyConfiguration (hfree : CollisionFree sha256 hashed)
    (h : db.Sound sha256 hashed) (hserves : db.Serves sha256 hashed catalog catalogSet)
    (hsessions : ∀ row ∈ db.session, row.Sound db)
    (hhashed : configureTexts sha256 db catalog ref requested ⊆ hashed)
    (hvalue : savedTools (db.sessionOf ref) requested = none → requested.tools.isValue = true)
    (hloaded : ∀ selection, loaded = .selected selection →
      prepareLoadedTools sha256 db catalog (db.sessionOf ref) requested = .ok (.selected selection))
    (happly : ToolSets.applyConfiguration sha256 db catalog catalogSet ref requested loaded =
      .ok (later, reply)) : db.Follows sha256 hashed later := by
  have himports : ∀ bytes ∈ requested.imports, contentText bytes ∈ hashed :=
    fun bytes hin => hhashed (.inr (.inr ⟨bytes, hin, rfl⟩))
  obtain ⟨hfirst, hgrows, content, hcontent⟩ := h.importAll himports
  have hcurrent : ∀ row, db.sessionOf ref = some row → row.Sound db :=
    fun row hrow => hsessions row (Db.mem_of_sessionOf hrow).1
  rw [ToolSets.applyConfiguration] at happly
  obtain ⟨saved, hsave, happly⟩ := bind_eq_ok.mp happly
  obtain ⟨second, toolSet⟩ := saved
  obtain ⟨hsecond, hgrows', ⟨all, hall, hsource, hlisted⟩, sets, members, hothers⟩ :=
    h.saveTools hfree hserves hcurrent
      (fun htools selection hselection => hhashed (.inl ⟨htools, selection, hselection, rfl⟩))
      hvalue hfirst hgrows hsave
  obtain ⟨savedLoaded, hsaveLoaded, happly⟩ := bind_eq_ok.mp happly
  obtain ⟨third, loadedSet⟩ := savedLoaded
  obtain ⟨rfl, -⟩ := Prod.mk.inj (Except.ok.inj happly)
  have hthird : third.Sound sha256 hashed ∧ second.Grows third ∧
      (∃ sets members, third = { second with toolSet := sets, toolSetMember := members }) ∧
      SessionRow.Sound third
        ⟨ref, ((db.sessionOf ref).map (·.revision)).getD 0 + 1, toolSet, loadedSet⟩ := by
    obtain ⟨hsound, hgrows'', hsame, hrow⟩ := hsecond.saveLoadedTools hfree hall
      (fun selection heq => h.prepared hserves (hloaded selection heq)
        (hhashed (.inr (.inl ⟨selection, hloaded selection heq, rfl⟩))) hsecond
        (hgrows.trans hgrows') hall hsource hlisted)
      (fun hkeep row hrow => ⟨(hsource row.toolSetId (by
          rw [savedTools, hkeep, if_neg Bool.false_ne_true, hrow]
          rfl)).1, (hcurrent row hrow).grows (hgrows.trans hgrows')⟩)
      hsaveLoaded
    exact ⟨hsound, hgrows'', hsame, hrow _ _⟩
  obtain ⟨hsound, hgrows'', ⟨sets', members', hothers'⟩, hrow⟩ := hthird
  refine .saveSession hsound ((hgrows.trans hgrows').trans hgrows'') ?_ ?_ hrow
  · rw [hothers', hothers, hcontent]
  · rw [hothers', hothers, hcontent]

theorem Db.Sound.configure (hfree : CollisionFree sha256 hashed) (h : db.Sound sha256 hashed)
    (hserves : db.Serves sha256 hashed catalog catalogSet)
    (hsessions : ∀ row ∈ db.session, row.Sound db) {creating : Bool}
    (hhashed : configureTexts sha256 db catalog ref requested ⊆ hashed)
    (hconfigure : ToolSets.configure sha256 db catalog catalogSet ref creating requested =
      .ok (later, reply)) : db.Follows sha256 hashed later := by
  have hsame : ∀ {answer : Reply}, Except.ok (db, answer) =
      (Except.ok (later, reply) : Except Failure (Db × Reply)) →
      db.Follows sha256 hashed later := by
    intro answer heq
    obtain ⟨rfl, -⟩ := Prod.mk.inj (Except.ok.inj heq)
    exact .unchanged h (.refl db) rfl rfl
  rw [ToolSets.configure] at hconfigure
  split at hconfigure
  · cases hconfigure
  · split at hconfigure
    · exact hsame hconfigure
    · cases hrejection : configurationRejection catalog (db.sessionOf ref) requested with
      | some rejection =>
        rw [hrejection] at hconfigure
        exact hsame hconfigure
      | none =>
        rw [hrejection] at hconfigure
        dsimp only at hconfigure
        -- A configuration that lists no tools is one of a Session that has some.
        have hvalue : savedTools (db.sessionOf ref) requested = none →
            requested.tools.isValue = true := by
          intro hnone
          by_contra hlisted
          rw [savedTools, if_neg hlisted, Option.map_eq_none_iff] at hnone
          rw [Bool.not_eq_true] at hlisted
          rw [configurationRejection, hnone, hlisted] at hrejection
          split at hrejection <;> cases hrejection
        cases hprepared : prepareLoadedTools sha256 db catalog (db.sessionOf ref) requested with
        | error e =>
          rw [hprepared] at hconfigure
          cases hconfigure
        | ok loaded =>
          rw [hprepared] at hconfigure
          cases loaded with
          | rejected rejection => exact hsame hconfigure
          | unselected =>
            exact h.applyConfiguration hfree hserves hsessions hhashed hvalue
              (fun selection heq => by cases heq) hconfigure
          | selected selection =>
            refine h.applyConfiguration hfree hserves hsessions hhashed hvalue ?_ hconfigure
            intro each heq
            rw [hprepared, heq]

/-! ## Searching -/

/-- The names of a set's tools. -/
def Db.names (db : Db) (set : Nat) : List (List UInt8) := (db.memberRecords set).map (·.name)

theorem Db.Sound.names (h : db.Sound sha256 hashed) (hsaves : db.Saves set rows) :
    db.names set = rows.map (·.name) := by
  rw [Db.names, h.memberRecords hsaves.holds]

/-- What a search hashes: its report, and the names that are loaded after it. -/
def findToolsTexts (sha256 : List UInt8 → Digest) (db : Db) (ref : List UInt8)
    (words : List (List UInt8)) (refusal : Option (List UInt8)) : Set (List UInt8) :=
  {text | ∃ row found names report, db.sessionOf ref = some row ∧
    loaderFinds sha256 db row words refusal = .ok (found, names, report) ∧
    (text = contentText report.text ∨ ∃ merged selection, names = some merged ∧
      Selection.ofSaved sha256 (db.importBytes sha256 report.text false).1 row.toolSetId merged =
        .ok selection ∧ text = selection.text)}

/-- **A search adds what it reports** to the tools that are loaded, of those the Session has,
and takes none away. -/
structure Db.Loads (db later : Db) (ref : List UInt8) (report : Report) : Prop where
  row : ∃ before after, db.sessionOf ref = some before ∧ later.sessionOf ref = some after ∧
    after.toolSetId = before.toolSetId ∧
    (∀ name, name ∈ later.names after.offered ↔
      name ∈ db.names before.offered ∨ name ∈ report.names) ∧
    (∀ name ∈ report.names, name ∉ db.names before.offered ∧ name ∈ db.names before.toolSetId)
  sets : ∀ set ∈ db.toolSet, later.memberIds set.toolSetId = db.memberIds set.toolSetId
  others : ∀ other, other ≠ ref → later.sessionOf other = db.sessionOf other

/-- What a Session's requests offer: its tools, or some of them and the loader. -/
theorem SessionRow.Sound.offers (h : row.Sound db) :
    ∃ all rows, db.Saves row.toolSetId all ∧ db.Saves row.offered rows ∧ rows ⊆ all ∧
      (rows ≠ all → Tool.findTools.tagName ∈ rows.map (·.name)) := by
  obtain ⟨all, hall, hloaded⟩ := h
  cases hset : row.loadedToolSetId with
  | none =>
    refine ⟨all, all, hall, ?_, List.Subset.refl _, fun hne => absurd rfl hne⟩
    rw [SessionRow.offered, hset]
    exact hall
  | some set =>
    obtain ⟨rows, hrows, hsub, -, hloader⟩ := hloaded set hset
    refine ⟨all, rows, hall, ?_, hsub, fun _ => hloader⟩
    rw [SessionRow.offered, hset]
    exact hrows

/-- The tools that are not loaded: some of the Session's, under other names. -/
theorem mem_pending (hordered : SortedBy (fun row : RecordRow => place row.name) all)
    (hsub : rows ⊆ all) (hin : name ∈ (all.filter fun row => !decide (row ∈ rows)).map (·.name)) :
    name ∉ rows.map (·.name) ∧ name ∈ all.map (·.name) := by
  obtain ⟨row, hrow, rfl⟩ := List.mem_map.mp hin
  obtain ⟨hrow, hout⟩ := List.mem_filter.mp hrow
  refine ⟨?_, List.mem_map_of_mem hrow⟩
  intro hloaded
  obtain ⟨each, heach, hname⟩ := List.mem_map.mp hloaded
  have hsame := hordered.eq_of_key (hsub heach) hrow (congrArg place hname)
  rw [Bool.not_eq_true', decide_eq_false_iff_not] at hout
  exact hout (hsame ▸ heach)

theorem mem_all_iff (hsub : rows ⊆ all) : name ∈ all.map (·.name) ↔ name ∈ rows.map (·.name) ∨
      name ∈ (all.filter fun row => !decide (row ∈ rows)).map (·.name) := by
  constructor
  · intro hin
    obtain ⟨row, hrow, rfl⟩ := List.mem_map.mp hin
    by_cases hloaded : row ∈ rows
    · exact .inl (List.mem_map_of_mem hloaded)
    · exact .inr (List.mem_map_of_mem (List.mem_filter.mpr ⟨hrow, by simpa using hloaded⟩))
  · rintro (hin | hin)
    · exact List.map_subset _ hsub hin
    · exact List.map_subset _ (List.filter_subset_self ..) hin

theorem Db.Sound.names_later (h : db.Sound sha256 hashed) (hlater : later.Sound sha256 hashed)
    (hgrows : db.Grows later) (hsaves : db.Saves set rows) : later.names set = db.names set := by
  rw [h.names hsaves, hlater.names (hgrows.saves hsaves)]

theorem Db.Sound.mergedNames (h : db.Sound sha256 hashed) {loaded : Nat}
    (hloaded : db.Saves loaded rows) {merged : ToolNames}
    (hmerged : ToolSets.Db.mergedNames db loaded found = .ok merged) :
    merged.names.Perm (found.map (·.name) ++ rows.map (·.name)) := by
  rw [ToolSets.Db.mergedNames] at hmerged
  obtain ⟨saved, hsaved, hmerged⟩ := bind_eq_ok.mp hmerged
  have hnames := h.selectedNames hloaded hsaved
  rw [List.filter_eq_self.mpr fun _ _ => rfl] at hnames
  cases hinclude : includeLoadedNames .empty (found.map (·.name)) saved.names with
  | error e =>
    rw [hinclude] at hmerged
    cases hmerged
  | ok names =>
    rw [hinclude] at hmerged
    obtain rfl := Except.ok.inj hmerged
    rw [← hnames]
    exact includeLoadedNames_perm hinclude

/-- The tools that are loaded and those that are not are all the Session has. -/
theorem length_pending (hnodup : rows.Nodup) (hsub : rows ⊆ all) :
    rows.length + (all.filter fun row => !decide (row ∈ rows)).length ≤ all.length := by
  have hrows : rows ⊆ all.filter fun row => decide (row ∈ rows) := fun row hin =>
    List.mem_filter.mpr ⟨hsub hin, decide_eq_true hin⟩
  have hle := (List.subperm_of_subset hnodup hrows).length_le
  have hsum := List.length_eq_length_filter_add (l := all) fun row => decide (row ∈ rows)
  omega

theorem Db.Sound.saveLoaded (hfree : CollisionFree sha256 hashed) (h : db.Sound sha256 hashed)
    (hall : db.Saves row.toolSetId all) (hnodup : rows.Nodup) (hsub : rows ⊆ all)
    (hloader : rows ≠ all → Tool.findTools.tagName ∈ rows.map (·.name)) (hnonempty : found ≠ [])
    (hfound : (found.map (·.name)).Sublist
      ((all.filter fun row => !decide (row ∈ rows)).map (·.name))) {names : Option ToolNames}
    (hnames : names = none ∧
        (all.filter fun row => !decide (row ∈ rows)).length ≤ found.length ∨
      ∃ merged, names = some merged ∧
        found.length < (all.filter fun row => !decide (row ∈ rows)).length ∧
        merged.names.Perm (found.map (·.name) ++ rows.map (·.name)))
    (hhashed : ∀ merged selection, names = some merged →
      Selection.ofSaved sha256 db row.toolSetId merged = .ok selection → selection.text ∈ hashed)
    {loaded : Option Nat} (hsave : ToolSets.saveLoaded sha256 db row names = .ok (later, loaded)) :
    later.Sound sha256 hashed ∧ db.Grows later ∧
      (∃ sets members, later = { db with toolSet := sets, toolSetMember := members }) ∧
      (∀ ref revision, SessionRow.Sound later ⟨ref, revision, row.toolSetId, loaded⟩) ∧
      ∃ offered, later.Saves (loaded.getD row.toolSetId) offered ∧
        ∀ name, name ∈ offered.map (·.name) ↔
          name ∈ rows.map (·.name) ∨ name ∈ found.map (·.name) := by
  rcases hnames with ⟨rfl, hcount⟩ | ⟨merged, rfl, hcount, hperm⟩
  · obtain ⟨rfl, rfl⟩ := Prod.mk.inj (Except.ok.inj hsave)
    have hsame := hfound.eq_of_length_le (by simpa using hcount)
    refine ⟨h, .refl db, ⟨db.toolSet, db.toolSetMember, rfl⟩,
      fun ref revision => ⟨all, hall, fun set heq => by cases heq⟩, all, hall, fun name => ?_⟩
    rw [hsame]
    exact mem_all_iff hsub
  · rw [ToolSets.saveLoaded] at hsave
    obtain ⟨selection, hselection, hsave⟩ := bind_eq_ok.mp hsave
    obtain ⟨saved, hfinish, hsave⟩ := bind_eq_ok.mp hsave
    obtain ⟨last, savedSet⟩ := saved
    obtain ⟨rfl, rfl⟩ := Prod.mk.inj (Except.ok.inj hsave)
    obtain ⟨hsame, chosen, hselects⟩ :=
      h.ofSaved hall hselection (hhashed merged selection rfl hselection)
    obtain ⟨hsound, hgrows, hsaves, hothers⟩ :=
      h.finishSelection hfree hselects hfinish
    have hchosen : (chosen.map (·.name)).Perm (found.map (·.name) ++ rows.map (·.name)) := by
      rw [hselects.names, hsame]
      exact hperm
    have hmem : ∀ name, name ∈ chosen.map (·.name) ↔
        name ∈ rows.map (·.name) ∨ name ∈ found.map (·.name) := by
      intro name
      rw [hchosen.mem_iff, List.mem_append]
      exact Or.comm
    refine ⟨hsound, hgrows, hothers, fun ref revision => ⟨all, hgrows.saves hall, ?_⟩, chosen,
      hsaves, hmem⟩
    intro set heq
    obtain rfl := Option.some.inj heq
    obtain ⟨all', hall', hrows⟩ := hselects.source
    obtain rfl := h.saves_unique hall hall'
    refine ⟨chosen, hsaves, hrows ▸ List.filter_subset_self .., ?_, ?_⟩
    · have hlength := hchosen.length_eq
      have hsum := length_pending hnodup hsub
      simp only [List.length_map, List.length_append] at hlength
      omega
    · refine (hmem _).mpr (.inl (hloader fun heq => hnonempty ?_))
      have hnone : (all.filter fun row => !decide (row ∈ rows)) = [] := by
        rw [List.filter_eq_nil_iff, heq]
        simp
      rw [hnone, List.map_nil, List.sublist_nil, List.map_eq_nil_iff] at hfound
      exact hfound

/-- **A search loads what it reports, and keeps every Session's sets as they should be.** -/
theorem Db.Sound.findTools (hfree : CollisionFree sha256 hashed) (h : db.Sound sha256 hashed)
    (hsessions : ∀ row ∈ db.session, row.Sound db) {words : List (List UInt8)}
    {refusal : Option (List UInt8)} (hhashed : findToolsTexts sha256 db ref words refusal ⊆ hashed)
    {report : Report} (hfind : ToolSets.findTools sha256 db ref words refusal = .ok (later, report)) :
    db.Follows sha256 hashed later ∧ db.Loads later ref report := by
  rw [ToolSets.findTools] at hfind
  cases hrow : db.sessionOf ref with
  | none =>
    rw [hrow] at hfind
    cases hfind
  | some row =>
    rw [hrow] at hfind
    dsimp only at hfind
    obtain ⟨finds, hfinds, hfind⟩ := bind_eq_ok.mp hfind
    obtain ⟨found, names, reported⟩ := finds
    obtain ⟨hmatches, hreport, hnames⟩ := loaderFinds_spec hfinds
    obtain ⟨all, rows, hall, hrows, hsub, hloader⟩ := (hsessions row (Db.mem_of_sessionOf hrow).1).offers
    have hreported : contentText reported.text ∈ hashed :=
      hhashed ⟨row, found, names, reported, hrow, hfinds, .inl rfl⟩
    obtain ⟨hmid, hgrows, ⟨content, hcontent⟩, -⟩ := h.importBytes hreported false
    have hpending := h.candidates hall hrows
    have hfound := hmatches.map Candidate.name
    rw [hpending] at hfound
    have hlength : (db.candidates row.toolSetId row.offered).length =
        (all.filter fun row => !decide (row ∈ rows)).length := by
      simpa using congrArg List.length hpending
    have hfresh : ∀ name ∈ reported.names, name ∉ db.names row.offered ∧
        name ∈ db.names row.toolSetId := by
      intro name hin
      rw [hreport] at hin
      rw [h.names hrows, h.names hall]
      exact mem_pending hall.holds.ordered hsub (hfound.subset hin)
    dsimp only at hfind
    split at hfind
    · next hnone =>
      obtain ⟨rfl, rfl⟩ := Prod.mk.inj (Except.ok.inj hfind)
      refine ⟨.unchanged hmid hgrows (by rw [hcontent]) (by rw [hcontent]),
        ⟨row, row, hrow, ?_, rfl, ?_, hfresh⟩, hgrows.members, fun other _ => ?_⟩
      · rw [← hrow, hcontent]
        rfl
      · intro name
        rw [h.names_later hmid hgrows hrows, hreport, hnone, List.map_nil]
        simp
      · rw [hcontent]
        rfl
    · next hnonempty =>
      obtain ⟨saved, hsave, hfind⟩ := bind_eq_ok.mp hfind
      obtain ⟨last, loaded⟩ := saved
      obtain ⟨rfl, rfl⟩ := Prod.mk.inj (Except.ok.inj hfind)
      obtain ⟨hsound, hgrows', ⟨sets, members, hothers⟩, hafter, offered, hoffered, hmem⟩ :=
        hmid.saveLoaded hfree (hgrows.saves hall) (SortedBy.nodup hrows.holds.ordered) hsub hloader
          hnonempty hfound (by
            rw [← hlength]
            refine (hnames hnonempty).imp_right ?_
            rintro ⟨merged, rfl, hless, hmerged⟩
            exact ⟨merged, rfl, hless, h.mergedNames hrows hmerged⟩)
          (by
            rintro merged selection rfl hselection
            exact hhashed ⟨row, found, some merged, reported, hrow, hfinds,
              .inr ⟨merged, selection, rfl, hselection, rfl⟩⟩) hsave
      have hsession : last.session = db.session := by rw [hothers, hcontent]
      have hfollows := Db.Follows.saveSession hsound (hgrows.trans hgrows') hsession
        (by rw [hothers, hcontent]) (hafter ref (row.revision + 1))
      have hwritten := last.sessionOf_saveSession ⟨ref, row.revision + 1, row.toolSetId, loaded⟩
      refine ⟨hfollows, ⟨row, _, hrow, (hwritten ref).trans (if_pos rfl), rfl, ?_, hfresh⟩,
        hfollows.grows.members, fun other hother => ?_⟩
      · intro name
        have hnamesLast := hsound.names hoffered
        rw [hreport, h.names hrows, ← hmem name, ← hnamesLast]
        rfl
      · rw [hwritten other, if_neg hother, Db.sessionOf, hsession]
        rfl

end Rui.ToolSets
