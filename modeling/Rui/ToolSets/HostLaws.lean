import Rui.Library.Runs
import Rui.ToolSets.SessionLaws

/-!
# Tool sets over a Host's life

From an empty Store, over any transactions of any Hosts on it: every revision of
every Session names saved sets, a set's digest is that of its members, and a
search for tools adds to the loaded ones what it reports. No two of the texts
hashed on the way are taken to collide.
-/

namespace Rui.ToolSets
open Library

/-- One transaction that succeeds, with its answer. -/
def Host.Next (sha256 : List UInt8 → Digest) (prompts : Prompts) (now : Host)
    (label : Op × Answer) (next : Host) : Prop :=
  now.step sha256 prompts label.1 = .ok (next, label.2)

/-- What a transaction hashes. -/
def Host.texts (sha256 : List UInt8 → Digest) (self : Host) : Op → Set (List UInt8)
  | .saveCatalog offered => offered.texts sha256
  | .importContent bytes _ => {contentText bytes}
  | .configure ref _ requested =>
    {text | ∃ offered set, self.phase = .serving offered set ∧
      text ∈ configureTexts sha256 self.db offered ref requested}
  | .findTools ref words refusal => findToolsTexts sha256 self.db ref words refusal
  | .saveRecords | .saveSet | .close => ∅

/-- What was hashed so far. -/
def hashedIn (sha256 : List UInt8 → Digest) (past : List (Step Host (Op × Answer))) :
    Set (List UInt8) :=
  {text | ∃ e ∈ past, text ∈ e.before.texts sha256 e.label.1}

variable {sha256 : List UInt8 → Digest} {prompts : Prompts} {hashed : Set (List UInt8)}

/-- The catalog a Host works with has passed its checks; one it serves is saved. -/
def Phase.Sound (sha256 : List UInt8 → Digest) (hashed : Set (List UInt8)) (db : Db) : Phase → Prop
  | .closed => True
  | .saving offered _ => offered.Known sha256 hashed
  | .serving offered set => db.Serves sha256 hashed offered set

/-- **The invariant.** -/
structure Host.Sound (sha256 : List UInt8 → Digest) (hashed : Set (List UInt8)) (host : Host) :
    Prop where
  db : host.db.Sound sha256 hashed
  sessions : ∀ row ∈ host.db.session, row.Sound host.db
  revisions : ∀ row ∈ host.db.sessionRevision, row.Sound host.db
  phase : host.phase.Sound sha256 hashed host.db

variable {db later : Db} {host : Host} {catalog : Catalog} {set : Nat}

theorem Phase.Sound.grows (hdb : db.Sound sha256 hashed) (hgrows : db.Grows later) {phase : Phase}
    (h : phase.Sound sha256 hashed db) : phase.Sound sha256 hashed later := by
  cases phase with
  | closed => trivial
  | saving offered start => exact h
  | serving offered set => exact hgrows.serves hdb h

theorem Host.Sound.empty (sha256 : List UInt8 → Digest) (hashed : Set (List UInt8)) :
    Host.Sound sha256 hashed {} := by
  refine ⟨⟨?_, ?_, ?_, ?_, ?_, ?_, ?_, ?_, ?_⟩, ?_, ?_, trivial⟩ <;> simp

theorem Host.Sound.follows {next : Host} (h : host.Sound sha256 hashed)
    (hfollows : host.db.Follows sha256 hashed next.db)
    (hphase : next.phase.Sound sha256 hashed next.db) : next.Sound sha256 hashed := by
  obtain ⟨hsound, hgrows, fresh, hfresh, hrevision, hsession⟩ := hfollows
  refine ⟨hsound, fun row hin => ?_, fun row hin => ?_, hphase⟩
  · rcases hsession row hin with hin | hin
    · exact (h.sessions row hin).grows hgrows
    · exact hfresh row hin
  · rw [hrevision] at hin
    rcases List.mem_append.mp hin with hin | hin
    · exact (h.revisions row hin).grows hgrows
    · exact hfresh row hin

theorem Db.Follows.pointCatalog (h : db.Follows sha256 hashed later) (set : Nat) :
    db.Follows sha256 hashed (later.pointCatalog set) := by
  obtain ⟨hsound, hgrows⟩ := h.sound.others (some set) later.session later.sessionRevision
  obtain ⟨fresh, hfresh, hrest⟩ := h.rows
  exact ⟨hsound, h.grows.trans hgrows, fresh, fun row hin => (hfresh row hin).grows hgrows, hrest⟩

theorem Db.Serves.pointCatalog (hdb : db.Sound sha256 hashed)
    (h : db.Serves sha256 hashed catalog set) (pointed : Nat) :
    (db.pointCatalog pointed).Serves sha256 hashed catalog set :=
  (hdb.others (some pointed) db.session db.sessionRevision).2.serves hdb h

theorem Catalog.Known.saves (h : catalog.Known sha256 hashed) {each : Record}
    (hin : each ∈ catalog.records) : (each.identity sha256).Bounded ∧
      contentText each.description ∈ hashed ∧ contentText each.inputSchema ∈ hashed ∧
      (each.identity sha256).text ∈ hashed :=
  ⟨h.valid.bounded hin, h.texts (.inr ⟨each, hin, .inl rfl⟩),
    h.texts (.inr ⟨each, hin, .inr (.inl rfl)⟩), h.texts (.inr ⟨each, hin, .inr (.inr rfl)⟩)⟩

/-- **One transaction keeps the invariant.** -/
theorem Host.Sound.step (hfree : CollisionFree sha256 hashed) {now next : Host}
    (h : now.Sound sha256 hashed) {op : Op} {answer : Answer}
    (hstep : now.step sha256 prompts op = .ok (next, answer))
    (htexts : now.texts sha256 op ⊆ hashed) : next.Sound sha256 hashed := by
  cases op with
  | saveCatalog offered =>
    rw [Host.step] at hstep
    split at hstep
    · split at hstep
      · cases hstep
      · next hvalid =>
        rw [Bool.not_eq_true', Bool.not_eq_false, Bool.and_eq_true] at hvalid
        have hknown : offered.Known sha256 hashed := ⟨Catalog.valid_iff hvalid.1, htexts⟩
        cases hset : now.db.setOf (offered.digest sha256) with
        | some row =>
          rw [hset] at hstep
          obtain ⟨rfl, -⟩ := Prod.mk.inj (Except.ok.inj hstep)
          rw [Db.setOf] at hset
          have hdigest := List.find?_some hset
          rw [beq_iff_eq] at hdigest
          refine h.follows (Db.Follows.pointCatalog (.unchanged h.db (.refl _) rfl rfl) _) ?_
          exact Db.Serves.pointCatalog h.db
            (h.db.serves_of_digest hfree hknown (List.mem_of_find?_eq_some hset) hdigest) _
        | none =>
          rw [hset] at hstep
          obtain ⟨rfl, -⟩ := Prod.mk.inj (Except.ok.inj hstep)
          exact h.follows (.unchanged h.db (.refl _) rfl rfl) hknown
    · cases hstep
  | saveRecords =>
    rw [Host.step] at hstep
    split at hstep
    · next offered start hphase =>
      have hknown : offered.Known sha256 hashed := by
        have hsound := h.phase
        rwa [hphase] at hsound
      split at hstep
      · obtain ⟨rfl, -⟩ := Prod.mk.inj (Except.ok.inj hstep)
        obtain ⟨hsound, hgrows, content, toolRecord, hothers⟩ := h.db.ensureRecords
          fun each hin => hknown.saves (List.mem_of_mem_drop (List.mem_of_mem_take hin))
        exact h.follows (.unchanged hsound hgrows (by rw [hothers]) (by rw [hothers])) hknown
      · cases hstep
    · cases hstep
  | saveSet =>
    rw [Host.step] at hstep
    split at hstep
    · next offered start hphase =>
      have hknown : offered.Known sha256 hashed := by
        have hsound := h.phase
        rwa [hphase] at hsound
      split at hstep
      · cases hstep
      · obtain ⟨saved, hinsert, hstep⟩ := bind_eq_ok.mp hstep
        obtain ⟨last, set⟩ := saved
        obtain ⟨rfl, -⟩ := Prod.mk.inj (Except.ok.inj hstep)
        obtain ⟨hsound, hgrows, hserves, toolSet, members, hothers⟩ :=
          h.db.insertCatalog hknown hinsert
        exact h.follows (Db.Follows.pointCatalog (.unchanged hsound hgrows (by rw [hothers])
          (by rw [hothers])) _) (Db.Serves.pointCatalog hsound hserves _)
    · cases hstep
  | close =>
    obtain ⟨rfl, -⟩ := Prod.mk.inj (Except.ok.inj hstep)
    exact h.follows (.unchanged h.db (.refl _) rfl rfl) trivial
  | importContent bytes isPrivate =>
    obtain ⟨rfl, -⟩ := Prod.mk.inj (Except.ok.inj hstep)
    obtain ⟨hsound, hgrows, ⟨content, hothers⟩, -⟩ := h.db.importBytes (htexts rfl) isPrivate
    exact h.follows (.unchanged hsound hgrows (by rw [hothers]) (by rw [hothers]))
      (h.phase.grows h.db hgrows)
  | configure ref creating requested =>
    rw [Host.step] at hstep
    split at hstep
    · next offered set hphase =>
      have hserves : now.db.Serves sha256 hashed offered set := by
        have hsound := h.phase
        rwa [hphase] at hsound
      obtain ⟨configured, hconfigure, hstep⟩ := bind_eq_ok.mp hstep
      obtain ⟨later, reply⟩ := configured
      obtain ⟨rfl, -⟩ := Prod.mk.inj (Except.ok.inj hstep)
      have hfollows := h.db.configure hfree hserves h.sessions
        (fun text hin => htexts ⟨offered, set, hphase, hin⟩) hconfigure
      exact h.follows hfollows (h.phase.grows h.db hfollows.grows)
    · cases hstep
  | findTools ref words refusal =>
    rw [Host.step] at hstep
    split at hstep
    · obtain ⟨found, hfind, hstep⟩ := bind_eq_ok.mp hstep
      obtain ⟨later, report⟩ := found
      obtain ⟨rfl, -⟩ := Prod.mk.inj (Except.ok.inj hstep)
      obtain ⟨hfollows, -⟩ := h.db.findTools hfree h.sessions htexts hfind
      exact h.follows hfollows (h.phase.grows h.db hfollows.grows)
    · cases hstep

/-- **A whole run keeps the invariant.** -/
theorem Host.Sound.run (hfree : CollisionFree sha256 hashed) {now : Host}
    {past : List (Step Host (Op × Answer))} (h : Run (Host.Next sha256 prompts) {} past now)
    (htexts : hashedIn sha256 past ⊆ hashed) : now.Sound sha256 hashed := by
  induction h with
  | start => exact .empty sha256 hashed
  | step hrun hnext ih =>
    have hbefore := ih fun text hin => by
      obtain ⟨e, he, hin⟩ := hin
      exact htexts ⟨e, List.mem_append_left _ he, hin⟩
    exact hbefore.step hfree hnext fun text hin =>
      htexts ⟨_, List.mem_append_right _ List.mem_cons_self, hin⟩

theorem SessionRow.Sound.loaded (hdb : db.Sound sha256 hashed) {row : SessionRow} (h : row.Sound db)
    (hset : row.loadedToolSetId = some set) : (∃ saved ∈ db.toolSet, saved.toolSetId = set) ∧
      db.memberIds set ⊆ db.memberIds row.toolSetId ∧
      ¬db.memberIds row.toolSetId ⊆ db.memberIds set ∧
      Tool.findTools.tagName ∈ db.names set := by
  obtain ⟨all, hall, hloaded⟩ := h
  obtain ⟨rows, hrows, hsub, hless, hloader⟩ := hloaded set hset
  rw [hrows.holds.ids, hall.holds.ids, hdb.names hrows]
  refine ⟨hrows.row, List.map_subset _ hsub, fun hback => ?_, hloader⟩
  have hnodup : (all.map (·.toolRecordId)).Nodup :=
    (SortedBy.nodup hall.holds.ordered).map_on fun a ha b hb hid =>
      List.inj_on_of_nodup_map hdb.recordIds (hall.holds.saved ha) (hall.holds.saved hb) hid
  have hle := (List.subperm_of_subset hnodup hback).length_le
  simp only [List.length_map] at hle
  omega

/-- The digest of a saved set is that of its members. -/
theorem Db.Sound.digest_eq (h : db.Sound sha256 hashed) {set : SetRow} (hset : set ∈ db.toolSet) :
    set.digest = setDigest sha256
      (((db.memberRecords set.toolSetId).filterMap db.identityOf).map (·.digest sha256)) := by
  obtain ⟨rows, hholds, hdigest, -⟩ := h.sets set hset
  have hidentities : rows.filterMap db.identityOf = rows.map db.identify := by
    rw [← List.filterMap_eq_map]
    exact List.filterMap_congr fun row hin => h.identityOf (hholds.saved hin)
  rw [hdigest, h.memberRecords hholds, hidentities, List.map_map]
  rfl

/-- **Tool sets over any history**: what revisions say is loaded is some of their tools and the
loader, a digest names one list of members, and searches load what they report. -/
theorem tool_sets_hold (sha256 : List UInt8 → Digest) (prompts : Prompts)
    {past : List (Step Host (Op × Answer))} {now : Host}
    (hrun : Run (Host.Next sha256 prompts) {} past now)
    (hfree : CollisionFree sha256 (hashedIn sha256 past)) :
    (∀ row ∈ now.db.sessionRevision, ∀ set, row.loadedToolSetId = some set →
      (∃ saved ∈ now.db.toolSet, saved.toolSetId = set) ∧
      now.db.memberIds set ⊆ now.db.memberIds row.toolSetId ∧
      ¬now.db.memberIds row.toolSetId ⊆ now.db.memberIds set ∧
      Tool.findTools.tagName ∈ now.db.names set) ∧
    (∀ set ∈ now.db.toolSet,
      set.digest = setDigest sha256 (((now.db.memberRecords set.toolSetId).filterMap
        now.db.identityOf).map (·.digest sha256)) ∧
      ∀ other ∈ now.db.toolSet, set.digest = other.digest →
        now.db.memberIds set.toolSetId = now.db.memberIds other.toolSetId) ∧
    ∀ e ∈ past, ∀ ref words refusal report,
      e.label = (.findTools ref words refusal, .reported report) →
        e.before.db.Loads e.after.db ref report := by
  have hnow : now.Sound sha256 (hashedIn sha256 past) := .run hfree hrun (subset_refl _)
  refine ⟨fun row hin set hset => (hnow.revisions row hin).loaded hnow.db hset, ?_, ?_⟩
  · intro set hset
    exact ⟨hnow.db.digest_eq hset, fun other hother hdigest =>
      hnow.db.same_records hfree hset hother hdigest⟩
  · intro e he ref words refusal report hlabel
    obtain ⟨before, after, rfl⟩ := List.append_of_mem he
    obtain ⟨hpast, hnext, -⟩ := hrun.split_step
    have hbefore : e.before.Sound sha256 (hashedIn sha256 (before ++ e :: after)) := by
      refine .run hfree hpast fun text hin => ?_
      obtain ⟨each, heach, hin⟩ := hin
      exact ⟨each, List.mem_append_left _ heach, hin⟩
    have htexts : findToolsTexts sha256 e.before.db ref words refusal ⊆
        hashedIn sha256 (before ++ e :: after) := by
      intro text hin
      refine ⟨e, he, ?_⟩
      rw [hlabel]
      exact hin
    rw [hlabel, Host.Next, Host.step] at hnext
    dsimp only at hnext
    split at hnext
    · obtain ⟨found, hfind, hnext⟩ := bind_eq_ok.mp hnext
      obtain ⟨later, reported⟩ := found
      obtain ⟨hafter, hreport⟩ := Prod.mk.inj (Except.ok.inj hnext)
      obtain rfl := Answer.reported.inj hreport
      rw [← hafter]
      exact (hbefore.db.findTools hfree hbefore.sessions htexts hfind).2
    · cases hnext

/-! ## One Session's tools -/

/-- What a transaction hashes, worked out. -/
def Host.textsOf (sha256 : List UInt8 → Digest) (self : Host) : Op → List (List UInt8)
  | .saveCatalog offered => setText offered.digests :: offered.records.flatMap fun each =>
      [contentText each.description, contentText each.inputSchema, (each.identity sha256).text]
  | .importContent bytes _ => [contentText bytes]
  | .configure ref _ requested =>
    match self.phase with
    | .serving offered _ =>
      ((Selection.ofCatalog sha256 self.db offered requested.tools.list).map (·.text)).toList ++
        (match prepareLoadedTools sha256 self.db offered (self.db.sessionOf ref) requested with
          | .ok (.selected selection) => [selection.text]
          | _ => []) ++ requested.imports.map contentText
    | _ => []
  | .findTools ref words refusal =>
    match self.db.sessionOf ref with
    | none => []
    | some row =>
      match loaderFinds sha256 self.db row words refusal with
      | .error _ => []
      | .ok (_, names, report) => contentText report.text :: (names.toList.flatMap fun merged =>
          match Selection.ofSaved sha256 (self.db.importBytes sha256 report.text false).1
              row.toolSetId merged with
          | .ok selection => [selection.text]
          | .error _ => [])
  | .saveRecords | .saveSet | .close => []

theorem Host.mem_textsOf {op : Op} {text : List UInt8} (h : text ∈ host.texts sha256 op) :
    text ∈ host.textsOf sha256 op := by
  cases op with
  | saveCatalog offered =>
    rcases h with rfl | ⟨each, heach, hin⟩
    · exact List.mem_cons_self
    · refine List.mem_cons_of_mem _ (List.mem_flatMap.mpr ⟨each, heach, ?_⟩)
      simpa using hin
  | importContent bytes isPrivate => exact List.mem_singleton.mpr h
  | configure ref creating requested =>
    obtain ⟨offered, set, hphase, hin⟩ := h
    simp only [textsOf, hphase, List.mem_append]
    rcases hin with ⟨-, selection, hselection, rfl⟩ | ⟨selection, hselection, rfl⟩ | ⟨bytes, hin, rfl⟩
    · exact .inl (.inl (by rw [hselection]; exact List.mem_singleton_self _))
    · exact .inl (.inr (by rw [hselection]; exact List.mem_singleton_self _))
    · exact .inr (List.mem_map_of_mem hin)
  | findTools ref words refusal =>
    obtain ⟨row, found, names, report, hrow, hfinds, hin⟩ := h
    simp only [textsOf, hrow, hfinds]
    rcases hin with rfl | ⟨merged, selection, rfl, hselection, rfl⟩
    · exact List.mem_cons_self
    · refine List.mem_cons_of_mem _ (List.mem_flatMap.mpr ⟨merged, List.mem_singleton_self _, ?_⟩)
      rw [hselection]
      exact List.mem_singleton_self _
  | saveRecords => cases h
  | saveSet => cases h
  | close => cases h

/-- A history, and the Host after it, with one more transaction where it succeeds. -/
def Host.after (sha256 : List UInt8 → Digest) (prompts : Prompts)
    (now : List (Step Host (Op × Answer)) × Host) (op : Op) :
    List (Step Host (Op × Answer)) × Host :=
  match now.2.step sha256 prompts op with
  | .ok (next, answer) => (now.1 ++ [⟨now.2, (op, answer), next⟩], next)
  | .error _ => now

theorem Host.run_after (ops : List Op) :
    let now := ops.foldr (fun op now => Host.after sha256 prompts now op) ([], {})
    Run (Host.Next sha256 prompts) {} now.1 now.2 := by
  induction ops with
  | nil => exact .start
  | cons op ops ih =>
    rw [List.foldr_cons, Host.after]
    split
    · next next answer hstep => exact .step ih hstep
    · exact ih

/-- The merge of a run in rounds. -/
def includeRounds : Nat → ToolNames → List (List UInt8) → List (List UInt8) →
    Except NameError ToolNames
  | _, into, [], saved => into.appendAll saved
  | _, into, found, [] => into.appendAll found
  | 0, into, _, _ => .ok into
  | rounds + 1, into, name :: found, held :: saved =>
    if place name < place held then do
      let into ← into.append name
      includeRounds rounds into found (held :: saved)
    else do
      let into ← into.append held
      includeRounds rounds into (name :: found) saved

/-- There are as many rounds as names at most. -/
theorem includeLoadedNames_rounds (into : ToolNames) (found saved : List (List UInt8)) :
    includeLoadedNames into found saved =
      includeRounds (found.length + saved.length) into found saved := by
  generalize hrounds : found.length + saved.length = rounds
  induction rounds generalizing into found saved with
  | zero =>
    obtain rfl := List.length_eq_zero_iff.mp (Nat.eq_zero_of_add_eq_zero_right hrounds)
    rw [includeLoadedNames, includeRounds]
  | succ rounds ih =>
    cases found with
    | nil => rw [includeLoadedNames, includeRounds]
    | cons name found =>
      cases saved with
      | nil => rw [includeLoadedNames, includeRounds] <;> simp
      | cons held saved =>
        rw [List.length_cons, List.length_cons] at hrounds
        rw [includeLoadedNames, includeRounds]
        split
        · exact congrArg _ (funext fun into => ih into found (held :: saved)
            (by rw [List.length_cons]; omega))
        · exact congrArg _ (funext fun into => ih into (name :: found) saved
            (by rw [List.length_cons]; omega))

/-- The tools without their texts. -/
def noPrompts : Prompts := ⟨fun _ => [], fun _ => []⟩

/-- The SHA-256 of the records' empty texts, of the built-ins' records, and of what the Session's
history hashes. -/
def sampleDigest : List UInt8 → Digest :=
  let empty := 0x11fba2ec1cfcbd2a4453bc49eb07258f9742a754a795c7c3dba4fd05416f4528
  let tools := Tool.values.zip [
    0x96112c60ad11f501ed5009ca22fff95ff45c188760d1070e8058b3031a577fbc,
    0xfdf8e8854db248d0a8e8bd4ce0df2f5045bd812a45563296d75102c767ce235a,
    0x369e1078fa239918a896ad4b6436a39738365b77ab4696414020c2c8df23e2f4,
    0x8df45bfd2f829e75956c6e2678a287cfbc7816a335a3bc2c4b986a622180d110,
    0xbb5c20e04db336adf4d5643f58d6878396b40d64c3e461184fae4d2c48e5f0e1,
    0xe95ecc7e51fc8a94d3f68b835176ca0441d5f80350f17e1e52a051332f82b9b9,
    0xeffe976e5ce171d6033b8cfefd755255535a6bbb32c075577842ac0358417fa0]
  let members := fun names : List Tool =>
    setText ((tools.filter fun each => names.contains each.1).map fun each => digestOf each.2)
  known ((contentText [], empty) ::
    (tools.map fun each => (RecordIdentity.text ⟨each.1.tagName, (record noPrompts each.1).owner, [],
      digestOf empty, digestOf empty⟩, each.2)) ++ [
    (members Tool.values, 0xabaa49faf8a82a975efd7add87d14ca726abe062ec9a77f012db09f4091bf3cf),
    (members [.bash, .findTools, .skill],
      0xa0172593ad128725b2acc197af94da64054c4c6aff1bb45684e74655818a8c4e),
    (members [.findTools], 0xb766e621280ee504e9853d18f75bde9137b87d6a1d56c95475947ee91501eb8c),
    (members [.bash, .findTools],
      0x52ca480d2081e68f695151bd9e2ba86651ee9d47a4aaca4f5d2259beb95daf43),
    (contentText (text "Loaded these tools; they are available on your next request:\n- bash: \n"),
      0x456045ca880a5d32c1ad8762e79054c84eb83e784333f7dc275d1226d02032be)])

/-- A configuration that loads the loader alone. -/
def sampleConfiguration : Configuration where
  tools := .value
    { names := [Tool.bash.tagName, Tool.findTools.tagName, Tool.skill.tagName]
      ordered := by decide, valid := by decide, count_le := by decide, bytes_le := by decide }
  loadedTools := .value
    { names := [Tool.findTools.tagName]
      ordered := by decide, valid := by decide, count_le := by decide, bytes_le := by decide }
  runsTool := fun _ => true
  refused := false
  imports := []

/-- A Host saves its catalog and configures a Session, the last transaction first. -/
def sampleOps : List Op :=
  let records := Tool.values.map (record noPrompts)
  [.configure (text "s") true sampleConfiguration, .saveSet, .saveRecords, .saveRecords,
    .saveRecords, .saveRecords, .saveCatalog ⟨records, records.map (recordDigest sampleDigest)⟩]

/-- Then the Session's tools are searched for `bash`. -/
def samplePast : List (Step Host (Op × Answer)) × Host :=
  (.findTools (text "s") [text "bash"] none :: sampleOps).foldr
    (fun op now => Host.after sampleDigest noPrompts now op) ([], {})

/-- The names a search reports. -/
def Answer.names : Answer → List (List UInt8)
  | .reported report => report.names
  | _ => []

/-- The search loads what it reports, and the Session's revisions say so. The last step is a run in
rounds, which evaluates. -/
theorem tool_sets_hold_searched :
    (∀ row ∈ samplePast.2.db.sessionRevision, ∀ set, row.loadedToolSetId = some set →
      ¬samplePast.2.db.memberIds row.toolSetId ⊆ samplePast.2.db.memberIds set ∧
      Tool.findTools.tagName ∈ samplePast.2.db.names set) ∧
    (samplePast.2.db.sessionRevision.map fun row =>
      (samplePast.2.db.names row.toolSetId, row.loadedToolSetId.map samplePast.2.db.names)) =
        [([text "bash", text "find_tools", text "skill"], some [text "find_tools"]),
          ([text "bash", text "find_tools", text "skill"],
            some [text "bash", text "find_tools"])] ∧
    samplePast.1.map (·.label.2.names) = [[], [], [], [], [], [], [], [text "bash"]] ∧
    ∀ e ∈ samplePast.1, ∀ ref words refusal report,
      e.label = (.findTools ref words refusal, .reported report) →
        e.before.db.Loads e.after.db ref report := by
  have hfree : CollisionFree sampleDigest (hashedIn sampleDigest samplePast.1) := by
    have hnodup : ((samplePast.1.flatMap fun e =>
        e.before.textsOf sampleDigest e.label.1).dedup.map sampleDigest).Nodup := by
      simp only [samplePast, List.foldr_cons, Host.after, Host.step, ToolSets.findTools, loaderFinds,
        Db.mergedNames, Host.textsOf, includeLoadedNames_rounds]
      decide +kernel
    refine Set.InjOn.mono ?_ (CollisionFree.of_nodup hnodup)
    rintro text ⟨e, he, hin⟩
    exact List.mem_dedup.mpr (List.mem_flatMap.mpr ⟨e, he, Host.mem_textsOf hin⟩)
  have hrun : Run (Host.Next sampleDigest noPrompts) {} samplePast.1 samplePast.2 := by
    rw [samplePast]
    exact Host.run_after (.findTools (text "s") [text "bash"] none :: sampleOps)
  obtain ⟨hloaded, -, hsearches⟩ := tool_sets_hold sampleDigest noPrompts hrun hfree
  refine ⟨fun row hrow set hset => (hloaded row hrow set hset).2.2, ?_, ?_, hsearches⟩
  · simp only [samplePast, List.foldr_cons, Host.after, Host.step, ToolSets.findTools, loaderFinds,
      Db.mergedNames, includeLoadedNames_rounds]
    decide +kernel
  · simp only [samplePast, List.foldr_cons, Host.after, Host.step, ToolSets.findTools, loaderFinds,
      Db.mergedNames, includeLoadedNames_rounds]
    decide +kernel

end Rui.ToolSets
