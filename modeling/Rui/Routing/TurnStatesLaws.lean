import Rui.Library.Recency
import Rui.Routing.TurnStates

/-!
# Sticky routing stays with its Turn and its owner

What a table holds after a run of calls, told by the calls: the value of a Turn is the first one
captured for it in this epoch, the entries are ordered by the calls that used them, and every block
is held or was freed once.
-/

namespace Rui.Routing

open Library

/-! ## One call -/

theorem Entry.holds_iff {self : Entry} {turnId : UInt64} :
    self.holds turnId = true ↔ ∃ held, self.held = some held ∧ held.turnId = turnId := by
  cases hheld : self.held <;> simp [Entry.holds, hheld]

namespace TurnStates

/-- An entry of a table that holds a value. -/
def At (self : TurnStates) (index : Nat) (held : Held) (used : Nat) : Prop :=
  self.entries[index]? = some ⟨some held, used⟩

/-- A Turn with a value. -/
def Holds (self : TurnStates) (turnId : UInt64) : Prop :=
  ∃ index held used, self.At index held used ∧ held.turnId = turnId

variable {self now : TurnStates} {turnId : UInt64} {index target used count : Nat} {held : Held}
  {owner : Owner}

theorem find_eq_none (h : self.find turnId = none) : ¬ self.Holds turnId := by
  rintro ⟨index, held, used, hat, rfl⟩
  have hno := List.findIdx?_eq_none_iff.mp h _ (List.mem_of_getElem? hat)
  simp [Entry.holds] at hno

theorem find_eq_some (h : self.find turnId = some index) : ∃ held used, self.At index held used ∧
      held.turnId = turnId := by
  obtain ⟨hlt, hholds, _⟩ := List.findIdx?_eq_some_iff_getElem.mp h
  obtain ⟨held, hheld, hturn⟩ := Entry.holds_iff.mp hholds
  refine ⟨held, self.entries[index].used, ?_, hturn⟩
  rw [At, List.getElem?_eq_getElem hlt, ← hheld]

/-- The scan for the oldest entry ends at an entry that none was used before. -/
theorem oldest_spec (h : self.entries ≠ []) : ∃ entry, self.entries[self.oldest]? = some entry ∧
      ∀ other ∈ self.entries, entry.used ≤ other.used := by
  have hscan : ∀ indices : List Nat, ∀ start < self.entries.length,
      (∀ index ∈ indices, index < self.entries.length) →
      let least := indices.foldl
        (fun oldest index =>
          if (self.entries.getD index {}).used < (self.entries.getD oldest {}).used then index
          else oldest) start
      least < self.entries.length ∧ ∀ index ∈ start :: indices,
        (self.entries.getD least {}).used ≤ (self.entries.getD index {}).used := by
    intro indices
    induction indices with
    | nil =>
      intro start hstart _
      simpa using hstart
    | cons index rest ih =>
      intro start hstart hall
      have hindex := hall index List.mem_cons_self
      have hrest := fun each heach => hall each (List.mem_cons_of_mem index heach)
      rw [List.foldl_cons]
      split
      · next hless =>
        obtain ⟨hlt, hle⟩ := ih index hindex hrest
        refine ⟨hlt, List.forall_mem_cons.mpr ⟨?_, hle⟩⟩
        exact (hle index List.mem_cons_self).trans (Nat.le_of_lt hless)
      · next hmore =>
        obtain ⟨hlt, hle⟩ := ih start hstart hrest
        have hfirst := hle start List.mem_cons_self
        refine ⟨hlt, List.forall_mem_cons.mpr ⟨hfirst, List.forall_mem_cons.mpr ⟨?_, ?_⟩⟩⟩
        · exact hfirst.trans (Nat.not_lt.mp hmore)
        · exact fun each heach => hle each (List.mem_cons_of_mem _ heach)
  obtain ⟨hlt, hle⟩ := hscan (List.range self.entries.length) 0 (List.length_pos_iff.mpr h)
    fun _ hmem => List.mem_range.mp hmem
  refine ⟨self.entries[self.oldest], List.getElem?_eq_getElem hlt, fun other hother => ?_⟩
  obtain ⟨index, hindex, rfl⟩ := List.getElem_of_mem hother
  have hone := hle index (List.mem_cons_of_mem _ (List.mem_range.mpr hindex))
  rwa [List.getD_eq_getElem _ _ hlt, List.getD_eq_getElem _ _ hindex] at hone

/-- **What a capture does**: nothing, or it takes the entry used least recently. -/
theorem capture_cases (self : TurnStates) (turnId : UInt64) (epoch : Nat) (value : Value)
    (memory : Bool) :
    (self.capture turnId epoch value memory = self ∧
      (epoch ≠ self.epoch ∨ self.owner = none ∨ value.bytes = [] ∨ self.entries = [] ∨
        memory = false ∨ self.Holds turnId)) ∨
    (epoch = self.epoch ∧ self.owner ≠ none ∧ value.bytes ≠ [] ∧ memory = true ∧
      ¬ self.Holds turnId ∧ ∃ target entry, self.entries[target]? = some entry ∧
        (∀ other ∈ self.entries, entry.used ≤ other.used) ∧
        self.capture turnId epoch value memory =
          { self with
            uses := self.uses + 1
            allocated := self.allocated + 1
            freed := self.freed ++ entry.blocks
            entries := self.entries.set target
              ⟨some ⟨turnId, value, self.allocated⟩, self.uses + 1⟩ }) := by
  rw [capture]
  split
  · next hdrop => exact .inl ⟨rfl, by tauto⟩
  · next htake =>
    simp only [not_or, not_not] at htake
    obtain ⟨rfl, howner, hvalue, hentries⟩ := htake
    cases hfind : self.find turnId with
    | some index =>
      obtain ⟨held, used, hat, hturn⟩ := find_eq_some hfind
      have hentry : self.entries.getD index {} = ⟨some held, used⟩ := by
        rw [List.getD_eq_getElem?_getD, hat]
        rfl
      have hholds : (self.entries.getD index {}).holds turnId = true := by
        rw [hentry]
        exact Entry.holds_iff.mpr ⟨held, rfl, hturn⟩
      dsimp only [Option.getD_some]
      rw [if_pos hholds]
      exact .inl ⟨rfl, by have : self.Holds turnId := ⟨index, held, used, hat, hturn⟩; tauto⟩
    | none =>
      have hnone := find_eq_none hfind
      obtain ⟨entry, hentry, hleast⟩ := oldest_spec hentries
      have hget : self.entries.getD self.oldest {} = entry := by
        rw [List.getD_eq_getElem?_getD, hentry]
        rfl
      have hother : ¬ entry.holds turnId = true := by
        intro hholds
        obtain ⟨held, hheld, hturn⟩ := Entry.holds_iff.mp hholds
        exact hnone ⟨_, held, entry.used, by rw [At, hentry, ← hheld], hturn⟩
      dsimp only [Option.getD_none]
      rw [hget, if_neg hother]
      cases memory with
      | false => exact .inl ⟨rfl, by tauto⟩
      | true =>
        exact .inr ⟨rfl, howner, hvalue, rfl, hnone, self.oldest, entry, hentry, hleast, rfl⟩

/-- **What a replay does** once the owner is selected: it reads the Turn's entry and marks it
used. -/
theorem replay_cases (self : TurnStates) (turnId : UInt64) (owner : Owner) :
    (¬ (self.select owner).Holds turnId ∧
      self.replay turnId owner = (self.select owner, ⟨(self.select owner).epoch, []⟩)) ∨
    ∃ index held used, (self.select owner).At index held used ∧ held.turnId = turnId ∧
      self.replay turnId owner =
        ({ self.select owner with
            uses := (self.select owner).uses + 1
            entries := (self.select owner).entries.set index
              ⟨some held, (self.select owner).uses + 1⟩ },
          ⟨(self.select owner).epoch, held.value.bytes⟩) := by
  rw [replay]
  cases hfind : (self.select owner).find turnId with
  | none => exact .inl ⟨find_eq_none hfind, rfl⟩
  | some index =>
    obtain ⟨held, used, hat, hturn⟩ := find_eq_some hfind
    have hentry : (self.select owner).entries.getD index {} = ⟨some held, used⟩ := by
      rw [List.getD_eq_getElem?_getD, hat]
      rfl
    dsimp only
    rw [hentry]
    exact .inr ⟨index, held, used, hat, hturn, rfl⟩

variable {next : TurnStates} {entry : Entry} {epoch : Nat}

theorem at_set (hnext : next.entries = self.entries.set target ⟨some held, used⟩)
    (hlt : target < self.entries.length) {other : Held} {mark : Nat} : next.At index other mark ↔
      (index = target ∧ other = held ∧ mark = used) ∨ (index ≠ target ∧ self.At index other mark) := by
  rw [At, hnext, List.getElem?_set]
  by_cases heq : target = index
  · subst heq
    simp [hlt, eq_comm]
  · have hne : index ≠ target := fun h => heq h.symm
    simp [heq, hne, At]

/-- After a release nothing is held. -/
theorem releaseAll_at : ¬ self.releaseAll.At index held used := by
  intro hat
  rw [At, releaseAll, List.getElem?_map, Option.map_eq_some_iff] at hat
  obtain ⟨entry, _, hentry⟩ := hat
  split at hentry
  · cases hentry
  · next hnone =>
    rw [hentry] at hnone
    exact hnone rfl

/-! ## The table -/

/-- **What every table keeps**: entries told apart by Turn and by use, unused ones first in line,
and every block either held or freed once. -/
structure Good (count : Nat) (table : TurnStates) : Prop where
  length : table.entries.length = count
  unused : ∀ entry ∈ table.entries, entry.held = none → entry.used = 0
  used : ∀ {index held used}, table.At index held used → 0 < used ∧ used ≤ table.uses
  once : ∀ {i j held held' used used'}, table.At i held used → table.At j held' used' →
    held.turnId = held'.turnId → i = j
  ranked : ∀ {i j held held' used}, table.At i held used → table.At j held' used → i = j
  blocks : (table.freed ++ table.entries.flatMap Entry.blocks).Perm (List.range table.allocated)

theorem blocks_set {entries : List Entry} (new : Entry) (h : entries[target]? = some entry) :
    (entry.blocks ++ (entries.set target new).flatMap Entry.blocks).Perm
      (entries.flatMap Entry.blocks ++ new.blocks) := by
  induction entries generalizing target with
  | nil => simp at h
  | cons first rest ih =>
    cases target with
    | zero =>
      obtain rfl : first = entry := by simpa using h
      simp only [List.set_cons_zero, List.flatMap_cons, List.append_assoc]
      exact List.perm_append_comm.append_left _
    | succ target =>
      have hrest := ih (by simpa using h)
      simp only [List.set_cons_succ, List.flatMap_cons, List.append_assoc]
      refine List.Perm.trans ?_ (hrest.append_left first.blocks)
      rw [← List.append_assoc, ← List.append_assoc]
      exact List.perm_append_comm.append_right _

theorem good_init (count : Nat) : Good count (init count) where
  length := List.length_replicate
  unused := by
    intro entry hentry _
    rw [List.eq_of_mem_replicate hentry]
  used := by
    intro index held used hat
    cases List.eq_of_mem_replicate (List.mem_of_getElem? hat)
  once := by
    intro i j held held' used used' hat
    cases List.eq_of_mem_replicate (List.mem_of_getElem? hat)
  ranked := by
    intro i j held held' used hat
    cases List.eq_of_mem_replicate (List.mem_of_getElem? hat)
  blocks := by
    have hnone : (List.replicate count ({} : Entry)).flatMap Entry.blocks = [] := by
      rw [List.flatMap_eq_nil_iff]
      intro entry hentry
      rw [List.eq_of_mem_replicate hentry]
      rfl
    rw [init, hnone]
    exact .refl _

theorem Good.released (h : Good count self) :
    self.releaseAll.freed.Perm (List.range self.allocated) := h.blocks

theorem Good.releaseAll (h : Good count self) (owner : Option Owner) (epoch : Nat) :
    Good count { self.releaseAll with owner := owner, epoch := epoch, uses := 0 } where
  length := by
    rw [← h.length]
    exact List.length_map _
  unused := by
    intro entry hentry hnone
    obtain ⟨old, hold, rfl⟩ := List.mem_map.mp hentry
    split at hnone
    · next hsome => rw [if_pos hsome]
    · next hsome =>
      rw [if_neg hsome]
      exact h.unused old hold hnone
  used := fun hat => absurd hat releaseAll_at
  once := fun hat => absurd hat releaseAll_at
  ranked := fun hat => absurd hat releaseAll_at
  blocks := by
    have hnone : self.releaseAll.entries.flatMap Entry.blocks = [] := by
      rw [List.flatMap_eq_nil_iff]
      intro entry hentry
      obtain ⟨index, hindex⟩ := List.getElem?_of_mem hentry
      cases hheld : entry.held with
      | none =>
        rw [Entry.blocks, hheld]
        rfl
      | some held =>
        have hat : self.releaseAll.At index held entry.used := by rw [At, hindex, ← hheld]
        exact absurd hat releaseAll_at
    dsimp only
    rw [hnone, List.append_nil]
    exact h.released

theorem Good.select (h : Good count self) (owner : Owner) : Good count (self.select owner) := by
  rw [TurnStates.select]
  split
  · exact h
  · exact h.releaseAll _ _

theorem Good.write {count : Nat} {self next : TurnStates} (h : Good count self) {target : Nat}
    {new : Held} (hlt : target < self.entries.length)
    (hentries : next.entries = self.entries.set target ⟨some new, self.uses + 1⟩)
    (huses : next.uses = self.uses + 1)
    (hnew : ∀ {index held used}, self.At index held used → held.turnId = new.turnId →
      index = target)
    (hblocks : (next.freed ++ next.entries.flatMap Entry.blocks).Perm
      (List.range next.allocated)) : Good count next where
  length := by
    rw [hentries, List.length_set]
    exact h.length
  unused := by
    intro entry hentry hnone
    rw [hentries] at hentry
    rcases List.mem_or_eq_of_mem_set hentry with hold | rfl
    · exact h.unused entry hold hnone
    · cases hnone
  used := by
    intro i other mark hother
    rw [huses]
    rcases (at_set hentries hlt).mp hother with ⟨_, _, rfl⟩ | ⟨_, hold⟩
    · exact ⟨Nat.succ_pos _, Nat.le_refl _⟩
    · exact ⟨(h.used hold).1, Nat.le_succ_of_le (h.used hold).2⟩
  once := by
    intro i j one other mark mark' hone hother hturn
    rcases (at_set hentries hlt).mp hone with ⟨hi, hheld, _⟩ | ⟨_, hone'⟩ <;>
      rcases (at_set hentries hlt).mp hother with ⟨hj, hheld', _⟩ | ⟨_, hother'⟩
    · rw [hi, hj]
    · rw [hi, hnew hother' (by rw [← hturn, hheld])]
    · rw [hj, hnew hone' (by rw [hturn, hheld'])]
    · exact h.once hone' hother' hturn
  ranked := by
    intro i j one other mark hone hother
    rcases (at_set hentries hlt).mp hone with ⟨hi, _, hmark⟩ | ⟨_, hone'⟩ <;>
      rcases (at_set hentries hlt).mp hother with ⟨hj, _, hmark'⟩ | ⟨_, hother'⟩
    · rw [hi, hj]
    · have hle := (h.used hother').2
      omega
    · have hle := (h.used hone').2
      omega
    · exact h.ranked hone' hother'
  blocks := hblocks

theorem Good.mark (h : Good count self) (hat : self.At index held used) : Good count { self with
      uses := self.uses + 1
      entries := self.entries.set index ⟨some held, self.uses + 1⟩ } := by
  refine h.write (List.getElem?_eq_some_iff.mp hat).1 rfl rfl (fun hother => h.once hother hat) ?_
  have hsame : ((self.entries.set index ⟨some held, self.uses + 1⟩).flatMap Entry.blocks).Perm
      (self.entries.flatMap Entry.blocks) :=
    (List.perm_append_left_iff _).mp
      ((blocks_set ⟨some held, self.uses + 1⟩ hat).trans List.perm_append_comm)
  exact (hsame.append_left _).trans h.blocks

theorem Good.store (h : Good count self) (hnone : ¬ self.Holds turnId)
    (hentry : self.entries[target]? = some entry) (value : Value) : Good count { self with
      uses := self.uses + 1
      allocated := self.allocated + 1
      freed := self.freed ++ entry.blocks
      entries := self.entries.set target ⟨some ⟨turnId, value, self.allocated⟩, self.uses + 1⟩ } := by
  refine h.write (List.getElem?_eq_some_iff.mp hentry).1 rfl rfl
    (fun hother hturn => absurd ⟨_, _, _, hother, hturn⟩ hnone) ?_
  have hnew := blocks_set ⟨some ⟨turnId, value, self.allocated⟩, self.uses + 1⟩ hentry
  dsimp only
  rw [List.append_assoc, List.range_succ]
  refine (hnew.append_left _).trans ?_
  rw [← List.append_assoc]
  exact h.blocks.append_right _

/-! ## What the calls tell -/

/-- A call, with the tables around it. -/
abbrev Call := Machine.Step TurnStates Op (Option Replay)

/-- A launch by an owner, which is handed an epoch. -/
def Launches (owner : Owner) (epoch : Nat) (call : Call) : Prop :=
  (∃ turnId, call.op = .replay turnId owner) ∧ ∃ value, call.reply = some ⟨epoch, value⟩

/-- A value comes for a Turn in an epoch, and there is memory for it. -/
def Captures (turnId : UInt64) (epoch : Nat) (call : Call) : Prop :=
  ∃ value : Value, call.op = .capture turnId epoch value true ∧ value.bytes ≠ []

/-- A capture takes a Turn's entry from it. -/
def Evicts (turnId : UInt64) (call : Call) : Prop :=
  (∃ other epoch value memory, call.op = .capture other epoch value memory) ∧
    call.before.Holds turnId ∧ ¬ call.after.Holds turnId

/-- A call replays a Turn, or stores its value. -/
def Uses (call : Call) (turnId : UInt64) : Prop :=
  (∃ owner, call.op = .replay turnId owner) ∨
    (∃ epoch value memory, call.op = .capture turnId epoch value memory) ∧
      ¬ call.before.Holds turnId ∧ call.after.Holds turnId

/-- The calls since `launch`, which began the epoch: all by its owner, and what they left. -/
structure Epoch (past before : List Call) (launch : Call) (since : List Call) (owner : Owner)
    (now : TurnStates) : Prop where
  split : past = before ++ launch :: since
  launches : Launches owner now.epoch launch
  first : ∀ call ∈ before, ∀ reply, call.reply = some reply → reply.epoch < now.epoch
  same : ∀ call ∈ since, ∀ turnId other, call.op = .replay turnId other → other = owner
  held : ∀ {index held used}, now.At index held used → held.value.bytes ≠ [] ∧
    ∃ capture, First (Captures held.turnId now.epoch) (Evicts held.turnId) since capture ∧
      capture.op = .capture held.turnId now.epoch held.value true
  missing : now.entries ≠ [] → ∀ turnId, ¬ now.Holds turnId →
    Fresh (Captures turnId now.epoch) (Evicts turnId) since

/-- What a table holds, told by the calls that led to it. -/
structure Told (past : List Call) (now : TurnStates) : Prop where
  recent : ∀ {i j held held' used used'}, now.At i held used → now.At j held' used' →
    used < used' → UsedSince Uses past held.turnId held'.turnId
  replies : ∀ call ∈ past, ∀ reply, call.reply = some reply → reply.epoch ≤ now.epoch
  none : now.owner = none → ∀ turnId, ¬ now.Holds turnId
  owned : ∀ owner, now.owner = some owner → ∃ before launch since,
    Epoch past before launch since owner now
  bounded : now.epoch ≤ past.length ∧ now.uses ≤ past.length

theorem told_init (count : Nat) : Told [] (init count) where
  recent := by
    intro i j held held' used used' hat
    cases List.eq_of_mem_replicate (List.mem_of_getElem? hat)
  replies := nofun
  none := by
    rintro _ turnId ⟨index, held, used, hat, _⟩
    cases List.eq_of_mem_replicate (List.mem_of_getElem? hat)
  owned := nofun
  bounded := ⟨Nat.le_refl _, Nat.le_refl _⟩

variable {past : List Call} {call : Call}

/-- **An epoch goes on** over a call that keeps what is held, stores what comes for a Turn without a
value, or evicts. -/
theorem Epoch.snoc {before since : List Call} {launch : Call}
    (h : Epoch past before launch since owner now) (hepoch : next.epoch = now.epoch)
    (hentries : next.entries ≠ [] → now.entries ≠ [])
    (hsame : ∀ turnId other, call.op = .replay turnId other → other = owner)
    (hheld : ∀ {index held used}, next.At index held used →
      ((∃ i mark, now.At i held mark) ∧ ¬ Evicts held.turnId call) ∨
      (¬ now.Holds held.turnId ∧ now.entries ≠ [] ∧ held.value.bytes ≠ [] ∧
        call.op = .capture held.turnId now.epoch held.value true))
    (hmissing : ∀ turnId, ¬ next.Holds turnId → next.entries ≠ [] →
      ¬ Captures turnId now.epoch call ∧ (Evicts turnId call ∨ ¬ now.Holds turnId)) :
    Epoch (past ++ [call]) before launch (since ++ [call]) owner next where
  split := by
    rw [h.split]
    simp
  launches := by
    rw [hepoch]
    exact h.launches
  first := by
    rw [hepoch]
    exact h.first
  same := by
    intro other hother turnId
    rcases List.mem_append.mp hother with hother | hother
    · exact h.same other hother turnId
    · rw [List.mem_singleton.mp hother]
      exact hsame turnId
  held := by
    intro index held used hat
    rw [hepoch]
    rcases hheld hat with ⟨⟨i, mark, hold⟩, hkept⟩ | ⟨hnone, hsome, hvalue, hop⟩
    · obtain ⟨hvalue, capture, hfirst, hop⟩ := h.held hold
      exact ⟨hvalue, capture, hfirst.snoc hkept, hop⟩
    · exact ⟨hvalue, call, (h.missing hsome _ hnone).first ⟨held.value, hop, hvalue⟩, hop⟩
  missing := by
    intro hsome turnId hnone
    rw [hepoch]
    obtain ⟨hother, hevicts | hbefore⟩ := hmissing turnId hnone hsome
    · exact fresh_reset hevicts hother
    · exact (h.missing (hentries hsome) turnId hbefore).snoc hother

theorem replies_snoc (h : ∀ old ∈ past, ∀ reply, old.reply = some reply → reply.epoch ≤ epoch)
    (hcall : ∀ reply, call.reply = some reply → reply.epoch ≤ epoch) :
    ∀ old ∈ past ++ [call], ∀ reply, old.reply = some reply → reply.epoch ≤ epoch := by
  intro old hold
  rcases List.mem_append.mp hold with hold | hold
  · exact h old hold
  · rw [List.mem_singleton.mp hold]
    exact hcall

theorem select_same (h : self.owner = some owner) : self.select owner = self := if_pos h

/-- Another owner begins an epoch, with nothing held. -/
theorem Told.launched (h : Told past now) (hother : now.owner ≠ some owner) :
    Told (past ++ [machine.stepFrom now (.replay turnId owner)]) (now.replay turnId owner).1 := by
  have hselect : now.select owner =
      { now.releaseAll with owner := some owner, epoch := now.epoch + 1, uses := 0 } :=
    if_neg hother
  have hnone : ∀ {index held used}, ¬ (now.select owner).At index held used := by
    intro index held used
    rw [hselect]
    exact releaseAll_at
  rcases replay_cases now turnId owner with ⟨_, hreplay⟩ | ⟨index, held, used, hat, _⟩
  · have hcall : machine.call now (.replay turnId owner) =
        (now.select owner, some ⟨(now.select owner).epoch, []⟩) := by
      simp only [machine, hreplay]
    have hepoch : (now.select owner).epoch = now.epoch + 1 := by rw [hselect]
    rw [hreplay]
    dsimp only
    refine ⟨fun hat => absurd hat hnone, ?_, ?_, ?_, ?_⟩
    · apply replies_snoc
      · intro old hold reply hreply
        rw [hepoch]
        exact Nat.le_succ_of_le (h.replies old hold reply hreply)
      · intro reply hreply
        rw [Machine.stepFrom_reply, hcall] at hreply
        cases hreply
        exact Nat.le_refl _
    · intro howner
      rw [hselect] at howner
      cases howner
    · intro owner' howner'
      have howner : owner' = owner := by
        rw [hselect] at howner'
        exact (Option.some.inj howner').symm
      subst howner
      refine ⟨past, _, [], rfl, ⟨⟨turnId, rfl⟩, [], ?_⟩, ?_, nofun,
        fun hat => absurd hat hnone, fun _ _ _ => fresh_nil⟩
      · rw [Machine.stepFrom_reply, hcall]
      · intro old hold reply hreply
        rw [hepoch]
        exact Nat.lt_succ_of_le (h.replies old hold reply hreply)
    · rw [List.length_append, hselect]
      exact ⟨Nat.succ_le_succ h.bounded.1, Nat.zero_le _⟩
  · exact absurd hat hnone

/-- A replay by the owner there is marks the Turn's entry. -/
theorem Told.replayed (hgood : Good count now) (h : Told past now) (howner : now.owner = some owner) :
    Told (past ++ [machine.stepFrom now (.replay turnId owner)]) (now.replay turnId owner).1 := by
  have hreplays : ∀ {used}, Uses (machine.stepFrom now (.replay turnId owner)) used ↔
      used = turnId := by
    intro used
    simp [Uses, eq_comm]
  have hnever : ∀ {other}, ¬ Evicts other (machine.stepFrom now (.replay turnId owner)) := by
    rintro other ⟨⟨_, _, _, _, hop⟩, _⟩
    cases hop
  have hnot : ∀ {other epoch}, ¬ Captures other epoch (machine.stepFrom now (.replay turnId owner)) := by
    rintro other epoch ⟨_, hop, _⟩
    cases hop
  have hsame : ∀ turnId' other,
      (machine.stepFrom now (.replay turnId owner)).op = .replay turnId' other → other = owner := by
    intro turnId' other hop
    cases hop
    rfl
  have hreplay := replay_cases now turnId owner
  rw [select_same howner] at hreplay
  rcases hreplay with ⟨hnone, hreplay⟩ | ⟨index, held, used, hat, hturn, hreplay⟩
  · rw [hreplay]
    refine ⟨?_, ?_, h.none, ?_, ?_⟩
    · intro i j one other mark mark' hone hother hlt
      exact (h.recent hone hother hlt).snoc fun huse =>
        hnone ⟨i, one, mark, hone, hreplays.mp huse⟩
    · apply replies_snoc h.replies
      intro reply hreply
      have hcall : machine.call now (.replay turnId owner) = (now, some ⟨now.epoch, []⟩) := by
        simp only [machine, hreplay]
      rw [Machine.stepFrom_reply, hcall] at hreply
      cases hreply
      exact Nat.le_refl _
    · intro owner' howner'
      obtain rfl := Option.some.inj (howner.symm.trans howner')
      obtain ⟨before, launch, since, hepoch⟩ := h.owned owner howner
      exact ⟨before, launch, since ++ [_], hepoch.snoc rfl id hsame
        (fun hat => .inl ⟨⟨_, _, hat⟩, hnever⟩) fun _ hmissing _ => ⟨hnot, .inr hmissing⟩⟩
    · rw [List.length_append]
      exact ⟨Nat.le_succ_of_le h.bounded.1, Nat.le_succ_of_le h.bounded.2⟩
  · have hlt := (List.getElem?_eq_some_iff.mp hat).1
    rw [hreplay]
    refine ⟨?_, ?_, ?_, ?_, ?_⟩
    · intro i j one other mark mark' hone hother hless
      rcases (at_set rfl hlt).mp hone with ⟨_, _, hmark⟩ | ⟨hi, hone'⟩
      · have hle : mark' ≤ now.uses + 1 := by
          rcases (at_set rfl hlt).mp hother with ⟨_, _, hmark'⟩ | ⟨_, hother'⟩
          · exact Nat.le_of_eq hmark'
          · exact Nat.le_succ_of_le (hgood.used hother').2
        omega
      · have hunused : ¬ Uses (machine.stepFrom now (.replay turnId owner)) one.turnId :=
          fun huse => hi (hgood.once hone' hat ((hreplays.mp huse).trans hturn.symm))
        rcases (at_set rfl hlt).mp hother with ⟨_, hheld, _⟩ | ⟨_, hother'⟩
        · exact .now (hreplays.mpr (by rw [hheld, hturn])) hunused
        · exact (h.recent hone' hother' hless).snoc hunused
    · apply replies_snoc h.replies
      intro reply hreply
      have hcall : (machine.call now (.replay turnId owner)).2 =
          some ⟨now.epoch, held.value.bytes⟩ := by
        simp only [machine, hreplay]
      rw [Machine.stepFrom_reply, hcall] at hreply
      cases hreply
      exact Nat.le_refl _
    · intro hno
      rw [howner] at hno
      cases hno
    · intro owner' howner'
      obtain rfl := Option.some.inj (howner.symm.trans howner')
      obtain ⟨before, launch, since, hepoch⟩ := h.owned owner howner
      refine ⟨before, launch, since ++ [_], hepoch.snoc rfl ?_ hsame ?_ ?_⟩
      · intro _ hempty
        rw [At, hempty] at hat
        cases hat
      · intro i other mark hother
        rcases (at_set rfl hlt).mp hother with ⟨_, hheld, _⟩ | ⟨_, hother'⟩
        · rw [hheld]
          exact .inl ⟨⟨_, _, hat⟩, hnever⟩
        · exact .inl ⟨⟨_, _, hother'⟩, hnever⟩
      · intro other hmissing _
        refine ⟨hnot, .inr ?_⟩
        rintro ⟨i, one, mark, hone, hother⟩
        by_cases hi : i = index
        · subst hi
          refine hmissing ⟨i, held, _, (at_set rfl hlt).mpr (.inl ⟨rfl, rfl, rfl⟩), ?_⟩
          have hsame := hone.symm.trans hat
          simp only [Option.some.injEq, Entry.mk.injEq] at hsame
          rw [← hsame.1, hother]
        · exact hmissing ⟨i, one, mark, (at_set rfl hlt).mpr (.inr ⟨hi, hone⟩), hother⟩
    · rw [List.length_append]
      exact ⟨Nat.le_succ_of_le h.bounded.1, Nat.succ_le_succ h.bounded.2⟩

/-- A capture stores a value or changes nothing. -/
theorem Told.captured (hgood : Good count now) (h : Told past now) (turnId : UInt64) (epoch : Nat)
    (value : Value) (memory : Bool) : Good count (now.capture turnId epoch value memory) ∧
      Told (past ++ [machine.stepFrom now (.capture turnId epoch value memory)])
        (now.capture turnId epoch value memory) := by
  have hsame : ∀ owner turnId' other,
      (machine.stepFrom now (.capture turnId epoch value memory)).op = .replay turnId' other →
        other = owner := by
    intro owner turnId' other hop
    cases hop
  have hnew : ∀ {other epoch'}, Captures other epoch'
      (machine.stepFrom now (.capture turnId epoch value memory)) →
        other = turnId ∧ epoch' = epoch ∧ memory = true ∧ value.bytes ≠ [] := by
    rintro other epoch' ⟨value', hop, hvalue⟩
    cases hop
    exact ⟨rfl, rfl, rfl, hvalue⟩
  have hused : ∀ {other}, Uses (machine.stepFrom now (.capture turnId epoch value memory)) other →
      other = turnId ∧ ¬ now.Holds other := by
    rintro other (⟨_, hop⟩ | ⟨⟨_, _, _, hop⟩, hnone, _⟩)
    · cases hop
    · cases hop
      exact ⟨rfl, hnone⟩
  have hreplies : ∀ old ∈ past ++ [machine.stepFrom now (.capture turnId epoch value memory)],
      ∀ reply, old.reply = some reply → reply.epoch ≤ now.epoch :=
    replies_snoc h.replies nofun
  have hcases := capture_cases now turnId epoch value memory
  generalize hafter : now.capture turnId epoch value memory = next at hcases ⊢
  rcases hcases with ⟨rfl, hdrop⟩ | ⟨hepoch, howned, hvalue, rfl, hnone, target, entry, hentry, hleast, hnext⟩
  · have hkept : ∀ {other},
        ¬ Evicts other (machine.stepFrom next (.capture turnId epoch value memory)) := by
      rintro other ⟨_, hbefore, hgone⟩
      have hreaches : (machine.stepFrom next (.capture turnId epoch value memory)).after = next :=
        hafter
      rw [hreaches] at hgone
      exact hgone hbefore
    refine ⟨hgood, ?_, hreplies, h.none, ?_, ?_⟩
    · intro i j one other mark mark' hone hother hless
      exact (h.recent hone hother hless).snoc fun huse => (hused huse).2 ⟨i, one, mark, hone, rfl⟩
    · intro owner howner
      obtain ⟨before, launch, since, hepoch⟩ := h.owned owner howner
      refine ⟨before, launch, since ++ [_], hepoch.snoc rfl id (hsame owner)
        (fun hat => .inl ⟨⟨_, _, hat⟩, hkept⟩) fun other hmissing hsome => ⟨?_, .inr hmissing⟩⟩
      intro hcapture
      obtain ⟨rfl, hnow, hmemory, hbytes⟩ := hnew hcapture
      rcases hdrop with hno | hno | hno | hno | hno | hno
      · exact hno hnow.symm
      · rw [howner] at hno
        cases hno
      · exact hbytes hno
      · exact hsome hno
      · rw [hmemory] at hno
        cases hno
      · exact hmissing hno
    · rw [List.length_append]
      exact ⟨Nat.le_succ_of_le h.bounded.1, Nat.le_succ_of_le h.bounded.2⟩
  · have hlt : target < now.entries.length := (List.getElem?_eq_some_iff.mp hentry).1
    have hentries : next.entries =
        now.entries.set target ⟨some ⟨turnId, value, now.allocated⟩, now.uses + 1⟩ := by
      rw [hnext]
    have hstored : next.Holds turnId :=
      ⟨target, _, _, (at_set hentries hlt).mpr (.inl ⟨rfl, rfl, rfl⟩), rfl⟩
    have hreaches : (machine.stepFrom now (.capture turnId epoch value true)).after = next := hafter
    have hstores : Uses (machine.stepFrom now (.capture turnId epoch value true)) turnId := by
      refine .inr ⟨⟨_, _, _, rfl⟩, hnone, ?_⟩
      rw [hreaches]
      exact hstored
    refine ⟨?_, ?_, ?_, ?_, ?_, ?_⟩
    · rw [hnext]
      exact hgood.store hnone hentry value
    · intro i j one other mark mark' hone hother hless
      rcases (at_set hentries hlt).mp hone with ⟨_, _, hmark⟩ | ⟨_, hone'⟩
      · have hle : mark' ≤ now.uses + 1 := by
          rcases (at_set hentries hlt).mp hother with ⟨_, _, hmark'⟩ | ⟨_, hother'⟩
          · exact Nat.le_of_eq hmark'
          · exact Nat.le_succ_of_le (hgood.used hother').2
        omega
      · have hunused : ¬ Uses (machine.stepFrom now (.capture turnId epoch value true)) one.turnId :=
          fun huse => (hused huse).2 ⟨i, one, mark, hone', rfl⟩
        rcases (at_set hentries hlt).mp hother with ⟨_, hheld, _⟩ | ⟨_, hother'⟩
        · rw [hheld]
          exact .now hstores hunused
        · exact (h.recent hone' hother' hless).snoc hunused
    · rw [hnext]
      exact hreplies
    · intro hno
      rw [hnext] at hno
      exact absurd hno howned
    · intro owner howner
      have howner' : now.owner = some owner := by rwa [hnext] at howner
      obtain ⟨before, launch, since, hbegan⟩ := h.owned owner howner'
      have hsome : now.entries ≠ [] := by
        intro hempty
        rw [hempty] at hentry
        cases hentry
      refine ⟨before, launch, since ++ [_], hbegan.snoc (by rw [hnext]) (fun _ => hsome)
        (hsame owner) ?_ ?_⟩
      · intro i other mark hother
        rcases (at_set hentries hlt).mp hother with ⟨_, rfl, _⟩ | ⟨hi, hother'⟩
        · exact .inr ⟨hnone, hsome, hvalue, by rw [hepoch]; rfl⟩
        · refine .inl ⟨⟨_, _, hother'⟩, fun hgone => hgone.2.2 ?_⟩
          rw [hreaches]
          exact ⟨i, other, mark, hother, rfl⟩
      · intro other hmissing _
        refine ⟨fun hcapture => hmissing ((hnew hcapture).1 ▸ hstored), ?_⟩
        by_cases hbefore : now.Holds other
        · refine .inl ⟨⟨_, _, _, _, rfl⟩, hbefore, ?_⟩
          rw [hreaches]
          exact hmissing
        · exact .inr hbefore
    · rw [List.length_append, hnext]
      exact ⟨Nat.le_succ_of_le h.bounded.1, Nat.succ_le_succ h.bounded.2⟩

theorem replay_good (h : Good count now) (turnId : UInt64) (owner : Owner) :
    Good count (now.replay turnId owner).1 := by
  rcases replay_cases now turnId owner with ⟨_, hreplay⟩ | ⟨index, held, used, hat, _, hreplay⟩
  · rw [hreplay]
    exact h.select owner
  · rw [hreplay]
    exact (h.select owner).mark hat

/-- **Every run** keeps the table, and what the table holds is told by the run. -/
theorem run_told (count : Nat) (ops : List Op) :
    Good count (machine.last (init count) ops) ∧
      Told (machine.history (init count) ops) (machine.last (init count) ops) := by
  apply machine.history_induction (P := fun past now => Good count now ∧ Told past now)
    ⟨good_init count, told_init count⟩
  rintro past now op ⟨hgood, htold⟩
  cases op with
  | replay turnId owner =>
    refine ⟨replay_good hgood turnId owner, ?_⟩
    by_cases howner : now.owner = some owner
    · exact htold.replayed hgood howner
    · exact htold.launched howner
  | capture turnId epoch value memory => exact htold.captured hgood turnId epoch value memory

/-! ## Sticky routing -/

/-- Where a replayed value comes from: `launch` began the epoch that the replay is in, every launch
since is by the same owner, and `capture` is the first one stored for the Turn since the epoch began
or the Turn was last evicted. -/
def Captured (past : List Call) (turnId : UInt64) (owner : Owner) (reply : Replay) : Prop :=
  ∃ before launch since capture, past = before ++ launch :: since ∧
    Launches owner reply.epoch launch ∧
    (∀ call ∈ before, ∀ earlier, call.reply = some earlier → earlier.epoch < reply.epoch) ∧
    (∀ call ∈ since, ∀ turnId' other, call.op = .replay turnId' other → other = owner) ∧
    First (Captures turnId reply.epoch) (Evicts turnId) since capture ∧
    ∃ value : Value, capture.op = .capture turnId reply.epoch value true ∧
      value.bytes = reply.value

theorem replay_captured (h : Told past now) (hvalue : (now.replay turnId owner).2.value ≠ []) :
    Captured past turnId owner (now.replay turnId owner).2 := by
  rcases replay_cases now turnId owner with ⟨_, hreplay⟩ | ⟨index, held, used, hat, hturn, hreplay⟩
  · rw [hreplay] at hvalue
    exact absurd rfl hvalue
  · have howner : now.owner = some owner := by
      by_contra hother
      rw [select, if_neg hother] at hat
      exact releaseAll_at hat
    rw [select_same howner] at hat hreplay
    rw [hreplay]
    obtain ⟨before, launch, since, hepoch⟩ := h.owned owner howner
    obtain ⟨_, capture, hfirst, hop⟩ := hepoch.held hat
    rw [hturn] at hfirst hop
    exact ⟨before, launch, since, capture, hepoch.split, hepoch.launches, hepoch.first,
      hepoch.same, hfirst, held.value, hop, rfl⟩

/-- A capture evicts only when every entry is held, and then the Turn used least recently. -/
theorem capture_evicts (hgood : Good count now) (h : Told past now) {victim : UInt64}
    {value : Value} {memory : Bool} (hheld : now.Holds victim)
    (hgone : ¬ (now.capture turnId epoch value memory).Holds victim) :
    (∀ entry ∈ now.entries, entry.held ≠ none) ∧
      ∀ other, now.Holds other → other ≠ victim → UsedSince Uses past victim other := by
  rcases capture_cases now turnId epoch value memory with
    ⟨hsame, _⟩ | ⟨_, _, _, _, _, target, entry, hentry, hleast, hnext⟩
  · rw [hsame] at hgone
    exact absurd hheld hgone
  · have hlt := (List.getElem?_eq_some_iff.mp hentry).1
    have hentries : (now.capture turnId epoch value memory).entries =
        now.entries.set target ⟨some ⟨turnId, value, now.allocated⟩, now.uses + 1⟩ := by
      rw [hnext]
    obtain ⟨index, held, used, hat, rfl⟩ := hheld
    have htarget : index = target := by
      by_contra hne
      exact hgone ⟨index, held, used, (at_set hentries hlt).mpr (.inr ⟨hne, hat⟩), rfl⟩
    subst htarget
    obtain rfl : ⟨some held, used⟩ = entry := Option.some.inj (hat.symm.trans hentry)
    refine ⟨?_, ?_⟩
    · intro other hother hempty
      have hle := hleast other hother
      rw [hgood.unused other hother hempty] at hle
      exact absurd (hgood.used hat).1 (Nat.not_lt.mpr hle)
    · rintro other ⟨j, held', used', hat', rfl⟩ hne
      have hle := hleast _ (List.mem_of_getElem? hat')
      have hdistinct : used ≠ used' := by
        rintro rfl
        obtain rfl := hgood.ranked hat hat'
        have heq := hat.symm.trans hat'
        simp only [Option.some.injEq, Entry.mk.injEq, and_true] at heq
        exact hne (by rw [heq])
      exact h.recent hat hat' (Nat.lt_of_le_of_ne hle hdistinct)

/-- **Sticky routing never crosses Turns or owners.** After every run of calls: a replay's value was
captured for its Turn, in the epoch that an earlier launch by the same owner began, and it is the
first one stored since the Turn was last evicted; no Turn has two entries; a capture evicts only
from a full table, and then the Turn whose last replay or stored capture is oldest; every block is
held or was freed, and when the table ends each was freed once. The counters count calls. -/
theorem sticky_routing (count : Nat) (ops : List Op) :
    let past := machine.history (init count) ops
    let now := machine.last (init count) ops
    (∀ turnId owner, (now.replay turnId owner).2.value ≠ [] →
      Captured past turnId owner (now.replay turnId owner).2) ∧
    (∀ i j held held' used used', now.At i held used → now.At j held' used' →
      held.turnId = held'.turnId → i = j) ∧
    (∀ turnId epoch value memory victim, now.Holds victim →
      ¬ (now.capture turnId epoch value memory).Holds victim →
        (∀ entry ∈ now.entries, entry.held ≠ none) ∧
        ∀ other, now.Holds other → other ≠ victim → UsedSince Uses past victim other) ∧
    (now.freed ++ now.entries.flatMap Entry.blocks).Nodup ∧
    now.deinit.freed.Perm (List.range now.allocated) ∧
    now.entries.length = count ∧ now.epoch ≤ ops.length ∧ now.uses ≤ ops.length := by
  intro past now
  obtain ⟨hgood, htold⟩ := run_told count ops
  have hlength : past.length = ops.length := machine.history_length _ _
  refine ⟨fun turnId owner => replay_captured htold, fun i j held held' used used' => hgood.once,
    fun turnId epoch value memory victim => capture_evicts hgood htold,
    hgood.blocks.nodup_iff.mpr List.nodup_range, hgood.released, hgood.length, ?_⟩
  rw [← hlength]
  exact htold.bounded

/-- A call names a Turn. -/
def Names (call : Call) (turnId : UInt64) : Prop :=
  (∃ owner, call.op = .replay turnId owner) ∨
    ∃ epoch value memory, call.op = .capture turnId epoch value memory

/-- A capture of a Turn that has a value is no use of its entry: Turn 1 is evicted though its last
capture came after every call for Turn 2. And a value without memory for it was never there: the
value replayed is not the first that came. -/
theorem sticky_routing_unstored :
    let owner : Owner := Vector.replicate 32 1
    let value (byte : UInt8) : Value := ⟨[byte], Nat.succ_le_succ (Nat.zero_le _)⟩
    let calls : List Op := [.replay 1 owner, .capture 1 1 (value 97) true,
      .capture 2 1 (value 98) true, .capture 1 1 (value 99) true]
    let now := machine.last (init 2) calls
    let short : List Op := [.replay 1 owner, .capture 1 1 (value 97) false,
      .capture 1 1 (value 98) true]
    (now.Holds 1 ∧ now.Holds 2 ∧ ¬ (now.capture 3 1 (value 100) true).Holds 1 ∧
      UsedSince Names (machine.history (init 2) calls) 2 1) ∧
    ((machine.last (init 2) short).replay 1 owner).2.value = [98] := by
  intro owner value calls now short
  have hnow : now.entries = [⟨some ⟨1, value 97, 0⟩, 1⟩, ⟨some ⟨2, value 98, 1⟩, 2⟩] := by
    decide
  have hnext : (now.capture 3 1 (value 100) true).entries =
      [⟨some ⟨3, value 100, 2⟩, 3⟩, ⟨some ⟨2, value 98, 1⟩, 2⟩] := by
    decide
  refine ⟨⟨⟨0, _, _, by rw [At, hnow]; rfl, rfl⟩, ⟨1, _, _, by rw [At, hnow]; rfl, rfl⟩, ?_, ?_⟩, by
    decide⟩
  · rintro ⟨index, held, used, hat, hturn⟩
    rw [At, hnext] at hat
    rcases index with _ | _ | index
    · cases hat
      cases hturn
    · cases hat
      cases hturn
    · cases hat
  · refine ⟨(machine.history (init 2) calls).take 3, _, [], rfl, .inr ⟨1, value 99, true, rfl⟩, ?_⟩
    intro call hcall
    rw [List.mem_singleton.mp hcall]
    rintro (⟨_, hop⟩ | ⟨_, _, _, hop⟩) <;> cases hop

end TurnStates

end Rui.Routing
