import Rui.ChildEnvironments.Block

/-!
# Whose variables a child's environment holds

The block is PATH, the client's other entries or the Host's HOME, and Rui's own variables, each
name once.
-/

namespace Rui.ChildEnvironments

open Library

/-! ## PATH -/

section Path

variable {lead : List UInt8}

theorem ledPath_unknown (path : List UInt8) : ledPath none path = path := rfl

theorem ledPath_colon (h : colon ∈ lead) (path : List UInt8) : ledPath (some lead) path = path := by
  rw [ledPath, if_pos (List.contains_iff_mem.mpr h)]

/-- The entries of a PATH after the one that leads it. -/
def following (lead path : List UInt8) : List (List UInt8) :=
  if path = [] then [] else (path.splitOn colon).filter (· ≠ lead)

theorem ledPath_eq (h : colon ∉ lead) (path : List UInt8) :
    ledPath (some lead) path = [colon].intercalate (lead :: following lead path) := by
  have hcontains : ¬ lead.contains colon = true := fun hmem => h (List.contains_iff_mem.mp hmem)
  rw [ledPath, if_neg hcontains, intercalate_cons, following]
  split <;> rfl

/-- **PATH led once** by the directory, the other entries after it in their order. -/
theorem splitOn_ledPath (h : colon ∉ lead) (path : List UInt8) :
    (ledPath (some lead) path).splitOn colon = lead :: following lead path := by
  rw [ledPath_eq h]
  refine List.splitOn_intercalate colon (fun entry hentry => ?_) (List.cons_ne_nil _ _)
  rcases List.mem_cons.mp hentry with rfl | hfollowing
  · exact h
  · rw [following] at hfollowing
    split at hfollowing
    · cases hfollowing
    · exact notMem_of_mem_splitOn (List.mem_of_mem_filter hfollowing)

theorem lead_notMem_following (path : List UInt8) : lead ∉ following lead path := by
  rw [following]
  split
  · exact List.not_mem_nil
  · simp

theorem count_ledPath (h : colon ∉ lead) (path : List UInt8) :
    ((ledPath (some lead) path).splitOn colon).count lead = 1 := by
  rw [splitOn_ledPath h, List.count_cons_self, List.count_eq_zero.mpr (lead_notMem_following path)]

/-- **Leading twice is leading once.** -/
theorem ledPath_idempotent (directory : Option (List UInt8)) (path : List UInt8) :
    ledPath directory (ledPath directory path) = ledPath directory path := by
  cases directory with
  | none => rfl
  | some lead =>
    by_cases h : colon ∈ lead
    · rw [ledPath_colon h, ledPath_colon h]
    · have hfollowing : following lead (ledPath (some lead) path) = following lead path := by
        by_cases hempty : ledPath (some lead) path = []
        · have hsplit := splitOn_ledPath h path
          rw [hempty, List.splitOn_nil] at hsplit
          rw [hempty, following, if_pos rfl, ← (List.cons.inj hsplit).2]
        · rw [following, if_neg hempty, splitOn_ledPath h, List.filter_cons]
          simp only [ne_eq, not_true_eq_false, decide_false, Bool.false_eq_true, if_false]
          refine List.filter_eq_self.mpr fun entry hentry => ?_
          rw [decide_eq_true_eq]
          rintro rfl
          exact lead_notMem_following path hentry
      rw [ledPath_eq h (ledPath (some lead) path), hfollowing, ← ledPath_eq h]

/-- What `leadPath` writes fits the buffer it allocates. -/
theorem length_leadPath (h : colon ∉ lead) (path : List UInt8) :
    (leadPath (some lead) path).length ≤ (text "PATH=").length + lead.length + 1 + path.length := by
  have hpieces : ((following lead path).flatMap (colon :: ·)).length ≤ 1 + path.length := by
    rw [following]
    split
    · exact Nat.zero_le _
    · have hsub := (List.filter_sublist (p := (· ≠ lead)) (l := path.splitOn colon)).flatMap
        (f := (colon :: ·))
      refine hsub.length_le.trans ?_
      cases hsplit : path.splitOn colon with
      | nil => exact Nat.zero_le _
      | cons first pieces =>
        have hpath : [colon].intercalate (path.splitOn colon) = path := List.intercalate_splitOn colon
        rw [hsplit, intercalate_cons] at hpath
        have hlength := congrArg List.length hpath
        rw [List.length_append] at hlength
        rw [List.flatMap_cons, List.length_append, List.length_cons]
        omega
  have hled : (ledPath (some lead) path).length =
      lead.length + ((following lead path).flatMap (colon :: ·)).length := by
    rw [ledPath_eq h, intercalate_cons, List.length_append]
  have hlead : (text "PATH=").length = (text "PATH").length + 1 := rfl
  rw [leadPath, variableOf, List.length_append, List.length_cons]
  omega

theorem length_leadPath_twice :
    colon ∉ text "/a" ∧ (leadPath (some (text "/a")) (text "/b:/a")).length ≤ 13 :=
  ⟨by decide, length_leadPath (by decide) _⟩

end Path

/-! ## Names -/

/-- The name of an entry. -/
def nameOf (entry : List UInt8) : List UInt8 := entry.takeWhile (· ≠ equals)

theorem nameOf_variableOf {name : List UInt8} (h : equals ∉ name) (value : List UInt8) :
    nameOf (variableOf name value) = name := by
  rw [nameOf, variableOf, List.takeWhile_append_of_pos]
  · simp
  · intro byte hbyte
    rw [decide_eq_true_eq]
    rintro rfl
    exact h hbyte

theorem nameOf_text (e : Entry) : nameOf e.text = e.name := nameOf_variableOf e.plainName e.value

/-- A lead without `=` is in the name, if anywhere. -/
theorem startsWith_text {lead : List UInt8} (h : equals ∉ lead) (e : Entry) :
    startsWith e.text lead = startsWith e.name lead := by
  rw [Bool.eq_iff_iff, startsWith, startsWith, List.isPrefixOf_iff_prefix,
    List.isPrefixOf_iff_prefix, Entry.text]
  constructor
  · intro hprefix
    rcases List.prefix_or_prefix_of_prefix hprefix (List.prefix_append _ _) with hname | ⟨more, rfl⟩
    · exact hname
    · cases more with
      | nil => simp
      | cons first more =>
        rw [List.prefix_append_right_inj] at hprefix
        obtain rfl : first = equals := (List.cons_prefix_cons.mp hprefix).1
        exact absurd (List.mem_append_right _ List.mem_cons_self) h
  · exact fun hprefix => hprefix.trans (List.prefix_append _ _)

theorem startsWith_path (e : Entry) :
    startsWith e.text (text "PATH=") = decide (e.name = text "PATH") := by
  have hplain : equals ∉ text "PATH" := by decide
  rw [Bool.eq_iff_iff, decide_eq_true_eq, startsWith, List.isPrefixOf_iff_prefix]
  constructor
  · rintro ⟨more, hmore⟩
    have htext : (text "PATH") ++ equals :: more = e.name ++ equals :: e.value := hmore
    have hcut := congrArg (indexOf [equals]) htext
    rw [indexOf_single hplain, indexOf_single e.plainName] at hcut
    exact (List.append_inj htext (Option.some.inj hcut)).1.symm
  · intro hname
    refine ⟨e.value, ?_⟩
    rw [Entry.text, hname]
    rfl

/-! ## The base's entries -/

variable {self : Filling} {facts : HostFacts} {identity : Identity} {others : List (List UInt8)}
  {path : List UInt8}

theorem Filling.put_eq (h : self.length < self.capacity) (entry : List UInt8) :
    self.put entry = some { self with others := self.others ++ [entry] } := if_pos h

/-- The client's PATH, where it has one. -/
def clientPath (entries : List Entry) : Option (List UInt8) :=
  (entries.find? fun e => e.name = text "PATH").map Entry.value

/-- The client's other entries. -/
def clientOthers (entries : List Entry) : List (List UInt8) :=
  (entries.filter fun e => e.name ≠ text "PATH").map Entry.text

/-- **The base's entries** are all put, but for PATH, whose value is noted. -/
theorem inherit_written (entries : List Entry) (front : List UInt8) (fuel : Nat) (self : Filling)
    (path : List UInt8) (hkept : ∀ e ∈ entries, e.kept = true)
    (hnodup : (entries.map Entry.name).Nodup) (hfuel : (written entries).length ≤ fuel)
    (hroom : self.length + entries.length ≤ self.capacity) :
    Filling.inherit (front ++ written entries) fuel front.length self path =
      some ({ self with others := self.others ++ clientOthers entries },
        (clientPath entries).getD path) := by
  induction entries generalizing front fuel self path with
  | nil =>
    cases fuel <;> simp [Filling.inherit, written, clientOthers, clientPath]
  | cons e entries ih =>
    have hlength : (written (e :: entries)).length = e.bytes.length + (written entries).length := by
      rw [written, List.flatMap_cons, List.length_append]
      rfl
    have hbytes : e.bytes.length = e.text.length + 1 := by simp [Entry.bytes]
    cases fuel with
    | zero => omega
    | succ fuel =>
      have hstart : front.length < (front ++ written (e :: entries)).length := by
        rw [List.length_append]
        omega
      have hdrop : (front ++ written (e :: entries)).drop front.length =
          e.text ++ nul :: written entries := by
        rw [List.drop_left' rfl, written_cons]
      have hslice : slice (front ++ written (e :: entries)) front.length
          (front.length + e.text.length) = e.text := by
        rw [slice, hdrop, Nat.add_sub_cancel_left, List.take_left' rfl]
      have hrui : startsWith e.text ruiPrefix = false := by
        rw [startsWith_text (by decide)]
        simpa [Entry.kept] using hkept e List.mem_cons_self
      have hwhole : front ++ written (e :: entries) = (front ++ e.bytes) ++ written entries := by
        rw [written_cons, Entry.bytes]
        simp
      have hnext : front.length + e.text.length + 1 = (front ++ e.bytes).length := by
        rw [List.length_append, hbytes, Nat.add_assoc]
      obtain ⟨hfresh, hrest⟩ := List.nodup_cons.mp hnodup
      have hkeptRest : ∀ each ∈ entries, each.kept = true :=
        fun each heach => hkept each (List.mem_cons_of_mem _ heach)
      rw [List.length_cons] at hroom
      rw [Filling.inherit, if_pos hstart, indexOfPos_single hdrop e.nul_not_mem_text,
        Option.bind_some]
      simp only [hslice, hrui, Bool.false_eq_true, if_false, startsWith_path, decide_eq_true_eq]
      by_cases hpath : e.name = text "PATH"
      · have hnone : clientPath entries = none := by
          rw [clientPath, Option.map_eq_none_iff, List.find?_eq_none]
          intro each heach hsame
          exact hfresh (hpath ▸ of_decide_eq_true hsame ▸ List.mem_map_of_mem heach)
        have hvalue : e.text.drop (text "PATH=").length = e.value := by
          rw [Entry.text, hpath]
          rfl
        rw [if_pos hpath, hvalue, hwhole, hnext, ih _ _ self _ hkeptRest hrest (by omega)
          (by omega), hnone]
        simp [clientOthers, clientPath, hpath]
      · rw [if_neg hpath, Filling.put_eq (by omega), Option.bind_some, hwhole, hnext,
          ih _ _ _ _ hkeptRest hrest (by omega) (by simp only [Filling.length] at *; simp; omega)]
        simp [clientOthers, clientPath, hpath]

/-! ## The block -/

theorem Filling.putIf_eq {entry : Option (List UInt8)}
    (h : self.length + entry.toList.length ≤ self.capacity) :
    self.putIf entry = some { self with others := self.others ++ entry.toList } := by
  cases entry with
  | none => simp [Filling.putIf]
  | some entry => exact Filling.put_eq h entry

/-- Rui's own variables for a call. -/
def Identity.entries (self : Identity) : List (List UInt8) :=
  [variableOf (text "RUI_ADDRESS") self.address, variableOf (text "RUI_STORE") self.store] ++
    self.handleEntry.toList ++ self.runtimeEntry.toList

/-- How many entries a base brings. -/
def inherited (base : Option (List UInt8)) : Nat :=
  match base with
  | some value => value.count nul
  | none => 0

def capacity (base : Option (List UInt8)) (identity : Identity) : Nat :=
  inherited base + 5 + (if identity.runtimeDir.isSome then 1 else 0)

theorem length_handleEntry (identity : Identity) : identity.handleEntry.toList.length ≤ 1 := by
  rw [Identity.handleEntry]
  split <;> simp

theorem length_runtimeEntry (identity : Identity) : identity.runtimeEntry.toList.length =
    if identity.runtimeDir.isSome then 1 else 0 := by
  cases h : identity.runtimeDir <;> simp [Identity.runtimeEntry, h]

/-- **The capacity suffices**, and what is put is the block. -/
theorem childBlock_based {base : Option (List UInt8)}
    (hbased : ({ capacity := capacity base identity } : Filling).based base facts =
      some ({ capacity := capacity base identity, others }, path))
    (hroom : others.length ≤ inherited base + 1) : childBlock base facts identity =
      some (leadPath facts.executableDir path :: (others ++ identity.entries)) := by
  have hhandle := length_handleEntry identity
  have hruntime := length_runtimeEntry identity
  have hcapacity : capacity base identity =
      inherited base + 5 + identity.runtimeEntry.toList.length := by rw [capacity, hruntime]
  have hstart : childBlock base facts identity =
      (({ capacity := capacity base identity } : Filling).based base facts).bind fun based =>
        (based.1.put (variableOf (text "RUI_ADDRESS") identity.address)).bind fun addressed =>
        (addressed.put (variableOf (text "RUI_STORE") identity.store)).bind fun stored =>
        (stored.putIf identity.handleEntry).bind fun handled =>
        (handled.putIf identity.runtimeEntry).bind fun block =>
        if block.length ≤ block.capacity then
          some (leadPath facts.executableDir based.2 :: block.others)
        else none := rfl
  rw [hstart, hbased, Option.bind_some, Filling.put_eq, Option.bind_some, Filling.put_eq,
    Option.bind_some, Filling.putIf_eq, Option.bind_some, Filling.putIf_eq, Option.bind_some,
    if_pos]
  · simp [Identity.entries]
  all_goals
    simp only [Filling.length, List.length_append, List.length_singleton]
    omega

theorem count_written (entries : List Entry) : (written entries).count nul = entries.length := by
  induction entries with
  | nil => rfl
  | cons e entries ih =>
    rw [written_cons, List.count_append, List.count_cons_self, ih,
      List.count_eq_zero.mpr e.nul_not_mem_text, List.length_cons, Nat.zero_add]

theorem childBlock_client {entries : List Entry} (hkept : ∀ e ∈ entries, e.kept = true)
    (hnodup : (entries.map Entry.name).Nodup) (facts : HostFacts) (identity : Identity) :
    childBlock (some (written entries)) facts identity =
      some (leadPath facts.executableDir ((clientPath entries).getD facts.systemPath) ::
        (clientOthers entries ++ identity.entries)) := by
  have hinherited : inherited (some (written entries)) = entries.length := count_written entries
  refine childBlock_based ?_ ?_
  · have hroom : ({ capacity := capacity (some (written entries)) identity } : Filling).length +
        entries.length ≤ capacity (some (written entries)) identity := by
      simp only [capacity, hinherited, Filling.length, List.length_nil]
      omega
    exact inherit_written entries [] _ _ facts.systemPath hkept hnodup (Nat.le_refl _) hroom
  · rw [hinherited, clientOthers, List.length_map]
    exact (List.length_filter_le _ _).trans (Nat.le_succ _)

/-- The Host's HOME, where it has one. -/
def hostOthers (facts : HostFacts) : List (List UInt8) :=
  facts.home.toList.map (variableOf (text "HOME"))

theorem childBlock_host (facts : HostFacts) (identity : Identity) :
    childBlock none facts identity = some (leadPath facts.executableDir facts.systemPath ::
      (hostOthers facts ++ identity.entries)) := by
  refine childBlock_based ?_ ?_
  · cases hhome : facts.home with
    | none => simp [Filling.based, hostOthers, hhome]
    | some home =>
      simp only [Filling.based, hhome]
      rw [Filling.put_eq (by simp only [Filling.length, capacity, List.length_nil]; omega)]
      simp [hostOthers, hhome]
  · cases hhome : facts.home <;> simp [hostOthers, hhome, inherited]

/-! ## Whose variables they are -/

/-- The names of Rui's own variables. -/
def ownNames : List (List UInt8) :=
  [text "RUI_ADDRESS", text "RUI_STORE", text "RUI_SENDER_HANDLE", text "RUI_RUNTIME_DIR"]

theorem names_entries (identity : Identity) :
    (identity.entries.map nameOf).Sublist ownNames := by
  have hhandle : (identity.handleEntry.toList.map nameOf).Sublist [text "RUI_SENDER_HANDLE"] := by
    rw [Identity.handleEntry]
    split
    · rw [Option.toList_some, List.map_singleton, nameOf_variableOf (by decide)]
    · exact List.nil_sublist _
  have hruntime : (identity.runtimeEntry.toList.map nameOf).Sublist [text "RUI_RUNTIME_DIR"] := by
    cases h : identity.runtimeDir with
    | none => simp [Identity.runtimeEntry, h]
    | some runtime =>
      rw [Identity.runtimeEntry, h, Option.map_some, Option.toList_some, List.map_singleton,
        nameOf_variableOf (by decide)]
  have hfirst : [variableOf (text "RUI_ADDRESS") identity.address,
      variableOf (text "RUI_STORE") identity.store].map nameOf =
        [text "RUI_ADDRESS", text "RUI_STORE"] := by
    rw [List.map_cons, List.map_singleton, nameOf_variableOf (by decide),
      nameOf_variableOf (by decide)]
  rw [Identity.entries, List.map_append, List.map_append, List.append_assoc, hfirst]
  exact (List.Sublist.refl _).append (hhandle.append hruntime)

theorem startsWith_entries {entry : List UInt8} (h : entry ∈ identity.entries) :
    startsWith (nameOf entry) ruiPrefix = true := by
  have hname := (names_entries identity).subset (List.mem_map_of_mem h)
  have hall : ownNames.all fun name => startsWith name ruiPrefix := by decide
  exact List.all_eq_true.mp hall _ hname

theorem nodup_entries (identity : Identity) : (identity.entries.map nameOf).Nodup := by
  have hnodup : ownNames.Nodup := by decide
  exact hnodup.sublist (names_entries identity)

/-- **What a child's environment is**: `path` led by the Host's directory, the others given, and
Rui's own variables, each name once. -/
structure Environment (facts : HostFacts) (identity : Identity) (others : List (List UInt8))
    (path : List UInt8) (block : List (List UInt8)) : Prop where
  entries : block = leadPath facts.executableDir path :: (others ++ identity.entries)
  distinct : (block.map nameOf).Nodup
  own : ∀ entry ∈ block, startsWith (nameOf entry) ruiPrefix = true → entry ∈ identity.entries

theorem Environment.of_others (hnodup : (others.map nameOf).Nodup)
    (hpath : text "PATH" ∉ others.map nameOf)
    (hrui : ∀ entry ∈ others, startsWith (nameOf entry) ruiPrefix = false) :
    Environment facts identity others path
      (leadPath facts.executableDir path :: (others ++ identity.entries)) := by
  have hfirst : nameOf (leadPath facts.executableDir path) = text "PATH" :=
    nameOf_variableOf (by decide) _
  refine ⟨rfl, ?_, ?_⟩
  · rw [List.map_cons, List.map_append, hfirst, List.nodup_cons, List.nodup_append]
    refine ⟨?_, hnodup, nodup_entries identity, ?_⟩
    · rw [List.mem_append, not_or]
      refine ⟨hpath, fun hmem => ?_⟩
      obtain ⟨entry, hentry, hname⟩ := List.mem_map.mp hmem
      have hown := startsWith_entries hentry
      rw [hname] at hown
      exact absurd hown (by decide)
    · intro name hname other hother heq
      obtain ⟨entry, hentry, rfl⟩ := List.mem_map.mp hname
      obtain ⟨entry', hentry', rfl⟩ := List.mem_map.mp hother
      have hown := startsWith_entries hentry'
      rw [← heq, hrui entry hentry] at hown
      cases hown
  · intro entry hentry hown
    rcases List.mem_cons.mp hentry with rfl | hrest
    · rw [hfirst] at hown
      exact absurd hown (by decide)
    · rcases List.mem_append.mp hrest with hother | hmine
      · rw [hrui entry hother] at hown
        cases hown
      · exact hmine

/-- **Environments**: what `received` takes and what `childBlock` makes of it. -/
theorem environment_right :
    (∀ bytes value, received bytes = .ok value ↔ ∃ entries, bytes = written entries ∧
      ((entries.filter Entry.kept).map Entry.name).Nodup ∧
      value = written (entries.filter Entry.kept)) ∧
    (∀ bytes, received bytes ≠ .error .unreachable) ∧
    (∀ bytes value, received bytes = .ok value → ∃ entries, value = written entries ∧
      ∀ facts identity, ∃ block, childBlock (some value) facts identity = some block ∧
        Environment facts identity (clientOthers entries)
          ((clientPath entries).getD facts.systemPath) block) ∧
    (∀ facts identity, ∃ block, childBlock none facts identity = some block ∧
      Environment facts identity (hostOthers facts) facts.systemPath block) ∧
    (∀ lead path, colon ∉ lead →
      (ledPath (some lead) path).splitOn colon = lead :: following lead path ∧
      ((ledPath (some lead) path).splitOn colon).count lead = 1) ∧
    (∀ path, ledPath none path = path) ∧
    (∀ lead path, colon ∈ lead → ledPath (some lead) path = path) ∧
    ∀ directory path, ledPath directory (ledPath directory path) = ledPath directory path := by
  refine ⟨fun _ _ => received_eq_ok, received_ne_unreachable, ?_, ?_,
    fun lead path h => ⟨splitOn_ledPath h path, count_ledPath h path⟩, ledPath_unknown,
    fun lead path h => ledPath_colon h path, ledPath_idempotent⟩
  · intro bytes value h
    obtain ⟨entries, -, hnodup, rfl⟩ := received_eq_ok.mp h
    have hkept : ∀ e ∈ entries.filter Entry.kept, e.kept = true :=
      fun e he => (List.mem_filter.mp he).2
    refine ⟨_, rfl, fun facts identity => ⟨_, childBlock_client hkept hnodup facts identity,
      .of_others ?_ ?_ ?_⟩⟩
    · have hnames : (clientOthers (entries.filter Entry.kept)).map nameOf =
          ((entries.filter Entry.kept).filter fun e => e.name ≠ text "PATH").map Entry.name := by
        rw [clientOthers, List.map_map]
        exact List.map_congr_left fun e _ => nameOf_text e
      rw [hnames]
      exact hnodup.sublist (List.filter_sublist.map _)
    · intro hmem
      obtain ⟨entry, hentry, hname⟩ := List.mem_map.mp hmem
      obtain ⟨e, he, rfl⟩ := List.mem_map.mp hentry
      rw [nameOf_text] at hname
      exact of_decide_eq_true (List.mem_filter.mp he).2 hname
    · intro entry hentry
      obtain ⟨e, he, rfl⟩ := List.mem_map.mp hentry
      have hplain := hkept e (List.mem_of_mem_filter he)
      rw [nameOf_text]
      simpa [Entry.kept] using hplain
  · intro facts identity
    refine ⟨_, childBlock_host facts identity, .of_others ?_ ?_ ?_⟩
    · cases hhome : facts.home <;> simp [hostOthers, hhome]
    · cases hhome : facts.home with
      | none => simp [hostOthers, hhome]
      | some home =>
        rw [hostOthers, hhome, Option.toList_some, List.map_singleton, List.map_singleton,
          nameOf_variableOf (by decide)]
        decide
    · intro entry hentry
      obtain ⟨home, -, rfl⟩ := List.mem_map.mp hentry
      rw [nameOf_variableOf (by decide)]
      decide

/-- A Host's directory that holds a colon leads no PATH. -/
theorem environment_unled :
    childBlock none ⟨some (text "/opt/a:b"), text "/bin", none⟩ ⟨text "k", text "/s", [], none⟩ =
      some [text "PATH=/bin", text "RUI_ADDRESS=k", text "RUI_STORE=/s"] := by
  decide

end Rui.ChildEnvironments
