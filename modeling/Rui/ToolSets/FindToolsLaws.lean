import Rui.ToolSets.SelectionLaws

/-!
# What a search for tools loads

A run of the loader takes its matches from the tools that are not loaded, and
loads them with those already loaded: all of the Session's tools, when none stays
unloaded, or a set saved for their names.
-/

namespace Rui.ToolSets
open Library
open WordSearch (Matcher)

variable {sha256 : List UInt8 → Digest} {hashed : Set (List UInt8)} {db later : Db}

/-! ## Names -/

variable {into names : ToolNames} {words : List (List UInt8)} {found : List Candidate}
  {refusal : Option (List UInt8)}

theorem ToolNames.append_names {name : List UInt8} (h : into.append name = .ok names) :
    names.names = into.names ++ [name] := by
  rw [ToolNames.append] at h
  split at h
  · split at h
    · cases h
    · split at h
      · split at h
        · cases h
        · obtain rfl := Except.ok.inj h
          rfl
      · cases h
  · cases h

theorem ToolNames.appendAll_names {list : List (List UInt8)} (h : into.appendAll list = .ok names) :
    names.names = into.names ++ list := by
  induction list generalizing into with
  | nil =>
    obtain rfl := Except.ok.inj h
    rw [List.append_nil]
  | cons name list ih =>
    rw [ToolNames.appendAll] at h
    cases happend : into.append name with
    | error e =>
      rw [happend] at h
      cases h
    | ok next =>
      rw [happend] at h
      rw [ih h, append_names happend, List.append_assoc, List.singleton_append]

variable {set remaining : Nat} {rows : List RecordRow} {row : SessionRow} {report : Report}

theorem Db.Sound.selectedNames (h : db.Sound sha256 hashed) (hsaves : db.Saves set rows)
    {filter : List UInt8 → Bool} (hnames : db.selectedNames set filter = .ok names) :
    names.names = (rows.map (·.name)).filter filter := by
  rw [Db.selectedNames, h.byName hsaves.holds] at hnames
  split at hnames
  · cases hnames
  · cases happend : ToolNames.empty.appendAll ((rows.map (·.name)).filter filter) with
    | error e =>
      rw [happend] at hnames
      cases hnames
    | ok all =>
      rw [happend] at hnames
      obtain rfl := Except.ok.inj hnames
      rw [ToolNames.appendAll_names happend]
      rfl

/-- The merge holds the names of both lists, each once. -/
theorem includeLoadedNames_perm {found saved : List (List UInt8)}
    (h : includeLoadedNames into found saved = .ok names) :
    names.names.Perm (into.names ++ (found ++ saved)) := by
  induction into, found, saved using includeLoadedNames.induct with
  | case1 into saved =>
    rw [includeLoadedNames] at h
    rw [ToolNames.appendAll_names h, List.nil_append]
  | case2 into found hfound =>
    rw [includeLoadedNames.eq_2 into found hfound] at h
    rw [ToolNames.appendAll_names h, List.append_nil]
  | case3 into name found held saved hless ih =>
    rw [includeLoadedNames, if_pos hless] at h
    cases happend : into.append name with
    | error e =>
      rw [happend] at h
      cases h
    | ok next =>
      rw [happend] at h
      have hperm := ih next h
      rwa [ToolNames.append_names happend, List.append_assoc, List.singleton_append] at hperm
  | case4 into name found held saved hless ih =>
    rw [includeLoadedNames, if_neg hless] at h
    cases happend : into.append held with
    | error e =>
      rw [happend] at h
      cases h
    | ok next =>
      rw [happend] at h
      have hperm := ih next h
      rw [ToolNames.append_names happend, List.append_assoc, List.singleton_append] at hperm
      exact hperm.trans (List.perm_middle.symm.append_left _)

/-! ## Matches -/

theorem findMatches_sublist {room : Nat} {rows : List Candidate}
    (h : findMatches sha256 words room rows = .ok found) : found.Sublist rows := by
  induction rows generalizing room found with
  | nil =>
    cases room <;> rw [findMatches] at h <;> obtain rfl := Except.ok.inj h <;> exact .slnil
  | cons row rows ih =>
    cases room with
    | zero =>
      rw [findMatches] at h
      obtain rfl := Except.ok.inj h
      exact List.nil_sublist _
    | succ room =>
      rw [findMatches] at h
      cases hmatch : matchesCandidate sha256 words row with
      | error e =>
        rw [hmatch] at h
        cases h
      | ok matched =>
        rw [hmatch] at h
        cases matched with
        | false => exact (ih h).cons _
        | true =>
          cases hrest : findMatches sha256 words room rows with
          | error e =>
            rw [hrest] at h
            cases h
          | ok rest =>
            rw [hrest] at h
            obtain rfl := Except.ok.inj h
            exact (ih hrest).cons_cons _

theorem Db.Sound.candidates (h : db.Sound sha256 hashed) {loaded : Nat} {all : List RecordRow}
    (hset : db.Saves set all) (hloaded : db.Saves loaded rows) :
    (db.candidates set loaded).map (·.name) =
      (all.filter fun row => !decide (row ∈ rows)).map (·.name) := by
  rw [Db.candidates, h.byName hset.holds, hloaded.holds.ids, List.map_filterMap]
  have hsame : (all.filter fun row => !(rows.map (·.toolRecordId)).contains row.toolRecordId) =
      all.filter fun row => !decide (row ∈ rows) := by
    refine List.filter_congr fun row hin => ?_
    rw [Bool.not_eq_eq_eq_not, Bool.not_not, Bool.eq_iff_iff, List.contains_iff_mem,
      decide_eq_true_eq]
    constructor
    · intro hid
      obtain ⟨each, heach, hid⟩ := List.mem_map.mp hid
      have hsaved := h.recordOf (hloaded.holds.saved heach)
      rw [hid, h.recordOf (hset.holds.saved hin)] at hsaved
      exact Option.some.inj hsaved ▸ heach
    · exact List.mem_map_of_mem
  rw [hsame, ← List.filterMap_eq_map]
  refine List.filterMap_congr fun row hin => ?_
  obtain ⟨⟨content, hcontent, -⟩, -⟩ := h.records row (hset.holds.saved (List.mem_of_mem_filter hin))
  rw [hcontent]
  rfl

/-! ## Runs of the loader -/

theorem searchTools_spec (h : searchTools sha256 db row words refusal = .ok (found, remaining)) :
    found.Sublist (db.candidates row.toolSetId row.offered) ∧
      (found ≠ [] → (db.candidates row.toolSetId row.offered).length = found.length + remaining) ∧
      (refusal ≠ none → found = []) := by
  rw [searchTools] at h
  cases refusal with
  | some reason =>
    obtain ⟨rfl, rfl⟩ := Prod.mk.inj (Except.ok.inj h)
    exact ⟨List.nil_sublist _, fun hnonempty => absurd rfl hnonempty, fun _ => rfl⟩
  | none =>
    simp only [Option.isSome_none, Bool.false_eq_true, if_false] at h
    split at h
    · cases h
    · cases hfound : findMatches sha256 words maxMatches (db.candidates row.toolSetId row.offered) with
      | error e =>
        rw [hfound] at h
        cases h
      | ok matched =>
        rw [hfound] at h
        obtain ⟨rfl, rfl⟩ := Prod.mk.inj (Except.ok.inj h)
        have hsub := findMatches_sublist hfound
        have hle := hsub.length_le
        exact ⟨hsub, fun _ => by omega, fun hrefused => absurd rfl hrefused⟩

theorem reportOf_names (hrefused : refusal ≠ none → found = [])
    (h : reportOf sha256 refusal found remaining = .ok report) :
    report.names = found.map (·.name) := by
  rw [reportOf.eq_def] at h
  cases refusal with
  | some reason =>
    obtain rfl := Except.ok.inj h
    rw [hrefused (by simp)]
    rfl
  | none =>
    cases found with
    | nil =>
      obtain rfl := Except.ok.inj h
      rfl
    | cons first rest =>
      dsimp only at h
      cases hlines : loadedLines sha256 (first :: rest) with
      | error e =>
        rw [hlines] at h
        cases h
      | ok lines =>
        rw [hlines] at h
        obtain rfl := Except.ok.inj h
        rfl

/-- What a run of the loader finds: some of the tools not loaded, reported by name. -/
theorem loaderFinds_spec {names : Option ToolNames}
    (h : loaderFinds sha256 db row words refusal = .ok (found, names, report)) :
    found.Sublist (db.candidates row.toolSetId row.offered) ∧ report.names = found.map (·.name) ∧
      (found ≠ [] → (names = none ∧ (db.candidates row.toolSetId row.offered).length ≤ found.length ∨
        ∃ merged, names = some merged ∧
          found.length < (db.candidates row.toolSetId row.offered).length ∧
          db.mergedNames row.offered found = .ok merged)) := by
  rw [loaderFinds] at h
  cases hsearch : searchTools sha256 db row words refusal with
  | error e =>
    rw [hsearch] at h
    cases h
  | ok searched =>
    obtain ⟨found', remaining⟩ := searched
    rw [hsearch] at h
    obtain ⟨hsub, hcount, hrefused⟩ := searchTools_spec hsearch
    have hreport : ∀ {report : Report}, reportOf sha256 refusal found' remaining = .ok report →
        report.names = found'.map (·.name) := fun hreport => reportOf_names hrefused hreport
    dsimp only [bind, Except.bind] at h
    split at h
    · next hmore =>
      cases hmerged : db.mergedNames row.offered found' with
      | error e =>
        rw [hmerged] at h
        cases h
      | ok merged =>
        rw [hmerged] at h
        dsimp only [Except.map] at h
        split at h
        · cases h
        · next hreported =>
          cases h
          refine ⟨hsub, hreport hreported, fun hnonempty => .inr ⟨merged, rfl, ?_, hmerged⟩⟩
          have hroom := hcount hnonempty
          omega
    · next hmore =>
      split at h
      · cases h
      · next hreported =>
        cases h
        refine ⟨hsub, hreport hreported, fun hnonempty => .inl ⟨rfl, ?_⟩⟩
        have hroom := hcount hnonempty
        have hnone : ¬0 < remaining := fun hpos => hmore ⟨hnonempty, hpos⟩
        omega

end Rui.ToolSets
