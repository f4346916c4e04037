import Rui.Changes.Ring

/-!
# What a change ring remembers

A ring is compared with the log of every entry pushed into it. Entry `i` of
the log sits in slot `i` around the ring until entry `i + capacity` takes it,
and the forgotten horizon is the largest generation lost. Both readers then
read the log.
-/

namespace Rui.Changes

open Library

/-! ## Commits and the log of their entries -/

/-- One call of `record`. -/
structure Commit where
  generation : Nat
  touched : Touched

/-- The ring after a sequence of commits. -/
def Ring.run (ring : Ring) (commits : List Commit) : Ring :=
  commits.foldl (fun ring commit => ring.record commit.generation commit.touched) ring

theorem Ring.run_append (ring : Ring) (commits more : List Commit) :
    ring.run (commits ++ more) = (ring.run commits).run more := List.foldl_append

/-- The entries a commit pushes. -/
def Commit.pushes (commit : Commit) : List Ring.Slot :=
  if commit.touched.everything then []
  else commit.touched.entries.map fun entry => ⟨commit.generation, entry⟩

/-- Every entry pushed, oldest first. -/
def log (commits : List Commit) : List Ring.Slot := commits.flatMap Commit.pushes

/-- The generations under which everything was touched. -/
def loud (commits : List Commit) : List Nat :=
  (commits.filter fun commit => commit.touched.everything).map Commit.generation

@[simp] theorem log_append (commits more : List Commit) :
    log (commits ++ more) = log commits ++ log more := List.flatMap_append

@[simp] theorem log_singleton (commit : Commit) : log [commit] = commit.pushes :=
  List.flatMap_singleton _ _

@[simp] theorem loud_append (commits more : List Commit) :
    loud (commits ++ more) = loud commits ++ loud more := by simp [loud]

/-- The slot that entry `i` of the log takes. -/
def spot (i : Nat) : Fin capacity := ⟨i % capacity, Nat.mod_lt _ capacity_pos⟩

theorem after_spot (i : Nat) : Ring.after (spot i) = spot (i + 1) := by
  simp [Ring.after, spot]

theorem back_spot (i : Nat) : Ring.back (spot (i + 1)) = spot i := by
  have hpos := capacity_pos
  ext
  simp only [Ring.back, spot]
  rw [show (i + 1) % capacity + capacity - 1 = (i + 1) % capacity + (capacity - 1) by omega,
    Nat.mod_add_mod, show i + 1 + (capacity - 1) = i + capacity by omega, Nat.add_mod_right]

theorem spot_add_capacity (i : Nat) : spot (i + capacity) = spot i := by
  ext
  simp [spot]

variable {i since : Nat} {ring : Ring} {entries : List Ring.Slot} {everything : List Nat}
  {slot : Ring.Slot} {commits : List Commit}

/-- Two entries of one slot are at least a whole turn apart. -/
theorem spot_eq_of_lt {j : Nat} (h : spot i = spot j) (hij : i < j) : i + capacity ≤ j := by
  have hmod : j % capacity = i % capacity := (congrArg Fin.val h).symm
  have hdvd : capacity ∣ j - i := Nat.dvd_of_mod_eq_zero (Nat.sub_mod_eq_zero_of_mod_eq hmod)
  have := Nat.le_of_dvd (Nat.sub_pos_of_lt hij) hdvd
  omega

/-! ## The tracking invariant -/

/-- `ring` holds the end of `entries`, and its horizon is exactly what was
lost: the entries overwritten and the commits that touched everything. -/
structure Tracks (ring : Ring) (entries : List Ring.Slot) (everything : List Nat) : Prop where
  next : ring.next = spot entries.length
  len : ring.len = min entries.length capacity
  held : ∀ (i : Nat) (slot : Ring.Slot), entries[i]? = some slot →
    entries.length ≤ i + capacity → ring.slot (spot i) = slot
  horizon : ∀ m, ring.forgottenThrough ≤ m ↔ (∀ g ∈ everything, g ≤ m) ∧
    ∀ (i : Nat) (slot : Ring.Slot), entries[i]? = some slot →
      i + capacity < entries.length → slot.generation ≤ m

theorem tracks_init (sessions : Vector Id capacity) (workspaces : Vector UInt64 capacity) :
    Tracks (Ring.init sessions workspaces) [] [] where
  next := rfl
  len := rfl
  held := by simp
  horizon := by simp [Ring.init]

theorem Tracks.forget (h : Tracks ring entries everything) (generation : Nat) :
    Tracks (ring.forget generation) entries (everything ++ [generation]) where
  next := h.next
  len := h.len
  held := h.held
  horizon m := by
    have hm : (ring.forget generation).forgottenThrough ≤ m ↔
        ring.forgottenThrough ≤ m ∧ generation ≤ m := Nat.max_le
    rw [hm, h.horizon m]
    simp only [List.mem_append, List.mem_singleton, or_imp, forall_and, forall_eq]
    exact and_right_comm

theorem slot_push (ring : Ring) (generation : Nat) (entry : Entry) (index : Fin capacity) :
    (ring.push generation entry).slot index =
      if index = ring.next then ⟨generation, entry⟩ else ring.slot index := by
  by_cases h : index = ring.next
  · subst h
    simp [Ring.slot, Ring.push]
  · have hne : (ring.next : Nat) ≠ index := fun he => h (Fin.ext he.symm)
    simp [Ring.slot, Ring.push, h, hne]

theorem Tracks.push (h : Tracks ring entries everything) (generation : Nat) (entry : Entry) :
    Tracks (ring.push generation entry) (entries ++ [⟨generation, entry⟩]) everything where
  next := by
    rw [List.length_append, List.length_singleton, ← after_spot, ← h.next]
    rfl
  len := by
    have hlen := h.len
    simp only [Ring.push, Ring.makeRoom, List.length_append, List.length_singleton]
    split <;> simp only [Ring.forget] <;> omega
  held i slot hi hwindow := by
    rw [List.length_append, List.length_singleton] at hwindow
    rw [slot_push, h.next]
    rcases Nat.lt_trichotomy i entries.length with hlt | rfl | hgt
    · have hne : spot i ≠ spot entries.length := fun he => by
        have := spot_eq_of_lt he hlt
        omega
      rw [if_neg hne]
      exact h.held i slot (by rwa [List.getElem?_append_left hlt] at hi) (by omega)
    · rw [if_pos rfl]
      simpa using hi
    · have hout := (List.getElem?_eq_some_iff.mp hi).1
      simp only [List.length_append, List.length_singleton] at hout
      omega
  horizon m := by
    have hpos := capacity_pos
    -- An entry is overwritten by this push exactly when the ring is full.
    by_cases hfull : ring.len = capacity
    · have hlen : capacity ≤ entries.length := by have := h.len; omega
      obtain ⟨oldest, holdest⟩ : ∃ slot, entries[entries.length - capacity]? = some slot :=
        ⟨_, List.getElem?_eq_getElem (Nat.sub_lt (Nat.lt_of_lt_of_le hpos hlen) hpos)⟩
      have hgone : (ring.slot ring.next) = oldest := by
        have hspot : spot entries.length = spot (entries.length - capacity) := by
          rw [← spot_add_capacity (entries.length - capacity), Nat.sub_add_cancel hlen]
        rw [h.next, hspot]
        exact h.held _ _ holdest (by omega)
      have hm : (ring.push generation entry).forgottenThrough ≤ m ↔
          ring.forgottenThrough ≤ m ∧ oldest.generation ≤ m := by
        simp only [Ring.push, Ring.makeRoom, dif_pos hfull, ← hgone]
        exact Nat.max_le
      rw [hm, h.horizon m, and_assoc]
      refine and_congr_right fun _ => ⟨fun ⟨hold, hnew⟩ i slot hi hlost => ?_, fun hall => ?_⟩
      · rw [List.length_append, List.length_singleton] at hlost
        rw [List.getElem?_append_left (by omega)] at hi
        rcases Nat.lt_or_eq_of_le (Nat.lt_succ_iff.mp hlost) with hlt | heq
        · exact hold i slot hi hlt
        · obtain rfl : i = entries.length - capacity := by omega
          rw [holdest] at hi
          cases hi
          exact hnew
      · have hext : ∀ (i : Nat) (slot : Ring.Slot), entries[i]? = some slot →
            i + capacity < entries.length + 1 → slot.generation ≤ m := fun i slot hi hlost =>
          hall i slot (by rwa [List.getElem?_append_left (by omega)]) (by simpa using hlost)
        exact ⟨fun i slot hi hlost => hext i slot hi (by omega),
          hext _ _ holdest (by omega)⟩
    · have hlen : entries.length < capacity := by have := h.len; omega
      have hm : (ring.push generation entry).forgottenThrough = ring.forgottenThrough := by
        simp only [Ring.push, Ring.makeRoom, dif_neg hfull]
      rw [hm, h.horizon m]
      refine and_congr_right fun _ => ⟨fun _ i slot _ hlost => ?_, fun _ i slot _ hlost => ?_⟩
      · rw [List.length_append, List.length_singleton] at hlost
        omega
      · omega

theorem Tracks.pushAll (h : Tracks ring entries everything) (generation : Nat) (more : List Entry) :
    Tracks (more.foldl (fun ring entry => ring.push generation entry) ring)
      (entries ++ more.map fun entry => ⟨generation, entry⟩) everything := by
  induction more generalizing ring entries with
  | nil => simpa using h
  | cons entry more ih => simpa using ih (h.push generation entry)

theorem Tracks.record (h : Tracks ring entries everything) (commit : Commit) :
    Tracks (ring.record commit.generation commit.touched) (entries ++ commit.pushes)
      (everything ++ loud [commit]) := by
  by_cases hall : commit.touched.everything
  · simpa [Ring.record, Commit.pushes, loud, hall] using h.forget commit.generation
  · simpa [Ring.record, Commit.pushes, loud, hall] using
      h.pushAll commit.generation commit.touched.entries

/-- **Every run tracks its log.** -/
theorem tracks_run (sessions : Vector Id capacity) (workspaces : Vector UInt64 capacity)
    (commits : List Commit) :
    Tracks ((Ring.init sessions workspaces).run commits) (log commits) (loud commits) := by
  induction commits using List.reverseRecOn with
  | nil => exact tracks_init sessions workspaces
  | append_singleton commits commit ih =>
    rw [log_append, loud_append, Ring.run_append]
    simpa [log, Ring.run] using ih.record commit

/-! ## What the readers read -/

/-- The entries of the log that no later one has overwritten. -/
def Recent (entries : List Ring.Slot) (slot : Ring.Slot) : Prop :=
  ∃ i : Nat, entries[i]? = some slot ∧ entries.length ≤ i + capacity

section

variable (h : Tracks ring entries everything)

include h

/-- While the ring covers `since`, every entry after it is still held. -/
theorem Tracks.recent_of_covers (hc : ring.covers since = true)
    (hs : since < slot.generation) : slot ∈ entries ↔ Recent entries slot := by
  have hle : ring.forgottenThrough ≤ since := by simpa [Ring.covers] using hc
  constructor
  · intro hmem
    obtain ⟨i, hi⟩ := List.mem_iff_getElem?.mp hmem
    refine ⟨i, hi, ?_⟩
    by_cases hlost : i + capacity < entries.length
    · have := ((h.horizon since).mp hle).2 i slot hi hlost
      omega
    · omega
  · rintro ⟨i, hi, _⟩
    exact List.mem_iff_getElem?.mpr ⟨i, hi⟩

theorem Tracks.mem_slots :
    slot ∈ ring.slots ↔ Recent entries slot := by
  have hlen := h.len
  have hpos := capacity_pos
  have hin : ∀ index : Fin capacity,
      index ∈ (List.finRange capacity).take ring.len ↔ (index : Nat) < ring.len := by
    intro index
    rw [List.mem_take_iff_getElem]
    simp only [List.getElem_finRange, List.length_finRange]
    constructor
    · rintro ⟨i, hi, rfl⟩
      exact (Nat.lt_min.mp hi).1
    · intro hi
      exact ⟨index, Nat.lt_min.mpr ⟨hi, index.isLt⟩, rfl⟩
  simp only [Ring.slots, List.mem_map, hin]
  constructor
  · rintro ⟨index, hindex, rfl⟩
    -- The newest entry of the slot: the log ends within a turn of it.
    obtain ⟨i, hi, hturn, hspot⟩ : ∃ i, i < entries.length ∧ entries.length ≤ i + capacity ∧
        spot i = index := by
      have hbelow := Nat.div_mul_le_self (entries.length - 1 - index) capacity
      have habove := Nat.lt_div_mul_add hpos (a := entries.length - 1 - index)
      refine ⟨index + (entries.length - 1 - index) / capacity * capacity, by omega, by omega, ?_⟩
      ext
      rw [spot, Fin.val_mk, Nat.add_mul_mod_self_right, Nat.mod_eq_of_lt index.isLt]
    obtain ⟨slot, hslot⟩ : ∃ slot, entries[i]? = some slot := ⟨_, List.getElem?_eq_getElem hi⟩
    have := h.held i slot hslot hturn
    rw [hspot] at this
    exact ⟨i, by rw [this]; exact hslot, hturn⟩
  · rintro ⟨i, hi, hturn⟩
    have hlt := (List.getElem?_eq_some_iff.mp hi).1
    refine ⟨spot i, ?_, h.held i slot hi hturn⟩
    have hmod : i % capacity ≤ i := Nat.mod_le _ _
    have hcap : i % capacity < capacity := Nat.mod_lt _ hpos
    simp only [spot]
    omega

/-- The backward walk stops at the first entry too old, since every entry
behind it is older. -/
theorem Tracks.walk_iff
    (ordered : entries.Pairwise fun a b => a.generation ≤ b.generation) (session : Id)
    (since through : Nat) {rounds : Nat} (hrounds : rounds ≤ i) (hi : i ≤ entries.length)
    (hturn : entries.length + rounds ≤ i + capacity) :
    ring.walk session since through rounds (spot i) = true ↔
      ∃ (j : Nat) (slot : Ring.Slot), i ≤ j + rounds ∧ j < i ∧ entries[j]? = some slot ∧
        since < slot.generation ∧ slot.generation ≤ through ∧ slot.entry.session = session := by
  induction rounds generalizing i with
  | zero =>
    simp only [Ring.walk, Bool.false_eq_true, false_iff]
    rintro ⟨j, slot, hj, hji, _⟩
    omega
  | succ rounds ih =>
    obtain ⟨i, rfl⟩ : ∃ k, i = k + 1 := ⟨i - 1, by omega⟩
    obtain ⟨slot, hslot⟩ : ∃ slot, entries[i]? = some slot :=
      ⟨_, List.getElem?_eq_getElem (by omega)⟩
    have hheld := h.held i slot hslot (by omega)
    have hgen : ring.generations[spot i] = slot.generation := by rw [← hheld]; rfl
    have hses : ring.sessions[spot i] = slot.entry.session := by rw [← hheld]; rfl
    simp only [Ring.walk, back_spot, hgen, hses]
    by_cases hold : slot.generation ≤ since
    · simp only [if_pos hold, Bool.false_eq_true, false_iff]
      rintro ⟨j, older, _, hji, hj, hnew, _⟩
      rcases Nat.lt_or_eq_of_le (Nat.lt_succ_iff.mp hji) with hlt | rfl
      · obtain ⟨hjn, rfl⟩ := List.getElem?_eq_some_iff.mp hj
        obtain ⟨hin, rfl⟩ := List.getElem?_eq_some_iff.mp hslot
        have := List.pairwise_iff_getElem.mp ordered j i hjn hin hlt
        omega
      · rw [hslot] at hj
        cases hj
        omega
    · rw [if_neg hold]
      split
      · rename_i hhere
        simp only [true_iff]
        exact ⟨i, slot, by omega, by omega, hslot, by omega, hhere.1, hhere.2⟩
      · rename_i hhere
        rw [ih (by omega) (by omega) (by omega)]
        refine ⟨fun ⟨j, s, hj, hji, rest⟩ => ⟨j, s, by omega, by omega, rest⟩, ?_⟩
        rintro ⟨j, s, hj, hji, hs, hnew, hthrough, hsession⟩
        rcases Nat.lt_or_eq_of_le (Nat.lt_succ_iff.mp hji) with hlt | rfl
        · exact ⟨j, s, by omega, hlt, hs, hnew, hthrough, hsession⟩
        · rw [hslot] at hs
          cases hs
          exact absurd ⟨hthrough, hsession⟩ hhere

theorem Tracks.mayHaveChanged_iff
    (ordered : entries.Pairwise fun a b => a.generation ≤ b.generation)
    (hc : ring.covers since = true) (session : Id) (through : Nat) :
    ring.mayHaveChanged session since through = true ↔ ∃ slot ∈ entries,
      since < slot.generation ∧ slot.generation ≤ through ∧ slot.entry.session = session := by
  have hlen := h.len
  simp only [Ring.mayHaveChanged, hc, Bool.not_true, Bool.false_eq_true, if_false, h.next]
  rw [h.walk_iff ordered session since through (by omega) (Nat.le_refl _) (by omega)]
  constructor
  · rintro ⟨j, slot, _, _, hj, rest⟩
    exact ⟨slot, List.mem_iff_getElem?.mpr ⟨j, hj⟩, rest⟩
  · rintro ⟨slot, hmem, hnew, rest⟩
    obtain ⟨j, hj, hturn⟩ := (h.recent_of_covers hc hnew).mp hmem
    have := (List.getElem?_eq_some_iff.mp hj).1
    exact ⟨j, slot, by omega, by omega, hj, hnew, rest⟩

end

/-! ## Bounded insertion -/

theorem keep_eq {limit : Nat} (hlimit : 0 < limit) {out : List Id} (inc : Increasing out)
    (hout : out.length ≤ limit) (id : Id) :
    Ring.keep limit out id = (insertOnce id out).take limit := by
  have hcut := cut_insertOnce id out
  have hparts := (List.takeWhile_append_dropWhile
    (p := fun kept => compare kept id == .lt) (l := out)).symm
  have hbelow : ∀ a ∈ out.takeWhile (fun kept => compare kept id == .lt),
      compare a id = .lt := fun a ha => by simpa using List.mem_takeWhile_imp ha
  simp only [Ring.keep]
  generalize out.takeWhile (fun kept => compare kept id == .lt) = below at *
  generalize out.dropWhile (fun kept => compare kept id == .lt) = rest at *
  generalize insertOnce id out = inserted at *
  subst hparts
  cases hcut with
  | last =>
    rw [List.append_nil] at hout ⊢
    by_cases hfull : below.length = limit
    · -- The last ID kept is below `id`, so a full buffer stays as it is.
      have hlast : below[below.length - 1]?.map (compare id) ≠ some .lt := by
        have hin : below.length - 1 < below.length := by omega
        rw [List.getElem?_eq_getElem hin, Option.map_some,
          Std.OrientedCmp.gt_iff_lt.mpr (hbelow _ (List.getElem_mem hin))]
        simp
      rw [if_pos ⟨hfull, hlast⟩, ← hfull, List.take_left]
    · rw [if_neg (fun h => hfull h.1), if_neg (by simp), Nat.min_eq_left (by omega)]
      rw [List.take_of_length_le (l := below ++ [id]) (by simp; omega)]
      simp
  | again ys =>
    rw [List.take_of_length_le hout]
    split
    · rfl
    · rw [if_pos (by simp)]
  | before y ys above =>
    have hid : compare id y = .lt := Std.OrientedCmp.gt_iff_lt.mp above
    have hlast : ¬ ((below ++ y :: ys).length = limit ∧
        (below ++ y :: ys)[(below ++ y :: ys).length - 1]?.map (compare id) ≠ some .lt) := by
      rintro ⟨_, hlast⟩
      refine hlast ?_
      rw [← List.getLast?_eq_getElem?, List.getLast?_append_of_ne_nil _ (List.cons_ne_nil y ys),
        List.getLast?_eq_some_getLast (List.cons_ne_nil y ys), Option.map_some]
      rcases List.mem_cons.mp (List.getLast_mem (List.cons_ne_nil y ys)) with heq | hmem
      · rw [heq, hid]
      · have hy := List.rel_of_pairwise_cons (List.pairwise_append.mp inc).2.1 hmem
        rw [Std.TransCmp.lt_trans hid hy]
    have hne : y ≠ id := fun h => by simp [h] at above
    have hlen : below.length + (ys.length + 1) ≤ limit := by simpa using hout
    obtain ⟨room, rfl⟩ : ∃ room, limit = below.length + (room + 1) :=
      ⟨limit - below.length - 1, by omega⟩
    rw [if_neg hlast, if_neg (by simpa using hne), List.take_left, List.drop_take,
      List.drop_left, List.take_length_add_append, List.take_succ_cons]
    congr 2
    rw [List.take_eq_take_iff]
    simp only [List.length_append, List.length_cons]
    omega

/-! ## The Sessions changed -/

/-- The Sessions a commit touches in a Workspace, or in any. -/
def Commit.Touches (commit : Commit) (workspace : Option UInt64) (session : Id) : Prop :=
  commit.touched.everything = true ∨ ∃ entry ∈ commit.touched.entries,
    entry.session = session ∧ ∀ key, workspace = some key → entry.workspace = key

/-- Some commit with a generation in (since, through] touched `session`. -/
def TouchedWithin (commits : List Commit) (since through : Nat) (workspace : Option UInt64)
    (session : Id) : Prop :=
  ∃ commit ∈ commits, since < commit.generation ∧ commit.generation ≤ through ∧
    commit.Touches workspace session

/-- `session` comes after `previous`, where there is one. -/
def Follows (previous : Option Id) (session : Id) : Prop :=
  ∀ id, previous = some id → compare session id = .gt

/-- Entry `i` of `count` is overwritten: a later entry takes its slot. -/
def Overwritten (count i : Nat) : Prop := ∃ j, i < j ∧ j < count ∧ spot j = spot i

/-- A commit after `since` touched everything, or one of its entries was
overwritten. -/
def LostSince (commits : List Commit) (since : Nat) : Prop :=
  ∃ earlier commit later, commits = earlier ++ commit :: later ∧ since < commit.generation ∧
    (commit.touched.everything = true ∨ ∃ i, (log earlier).length ≤ i ∧
      i < (log (earlier ++ [commit])).length ∧ Overwritten (log commits).length i)

theorem overwritten_iff {count : Nat} : Overwritten count i ↔ i + capacity < count := by
  constructor
  · rintro ⟨j, hij, hj, hspot⟩
    exact Nat.lt_of_le_of_lt (spot_eq_of_lt hspot.symm hij) hj
  · intro h
    exact ⟨i + capacity, Nat.lt_add_of_pos_right capacity_pos, h, spot_add_capacity i⟩

theorem mem_pushes {commit : Commit} : slot ∈ commit.pushes ↔ commit.touched.everything = false ∧
      slot.generation = commit.generation ∧ slot.entry ∈ commit.touched.entries := by
  cases h : commit.touched.everything with
  | true => simp [Commit.pushes, h]
  | false =>
    simp only [Commit.pushes, h, Bool.false_eq_true, if_false, List.mem_map, true_and]
    constructor
    · rintro ⟨entry, hmem, rfl⟩
      exact ⟨rfl, hmem⟩
    · rintro ⟨hgen, hmem⟩
      exact ⟨slot.entry, hmem, by rw [← hgen]⟩

theorem log_ordered (ordered : commits.Pairwise fun a b => a.generation ≤ b.generation) :
    (log commits).Pairwise fun a b => a.generation ≤ b.generation := by
  refine List.pairwise_flatMap.mpr ⟨fun commit _ => ?_, ordered.imp fun hab a ha b hb => ?_⟩
  · refine List.pairwise_of_forall_mem_list fun a ha b hb => ?_
    rw [(mem_pushes.mp ha).2.1, (mem_pushes.mp hb).2.1]
  · rw [(mem_pushes.mp ha).2.1, (mem_pushes.mp hb).2.1]
    exact hab

/-- A commit that touched everything after `since` is not covered. -/
theorem Tracks.quiet_of_covers (h : Tracks ring (log commits) (loud commits))
    (hc : ring.covers since = true) {commit : Commit} (hmem : commit ∈ commits)
    (hs : since < commit.generation) : commit.touched.everything = false := by
  have hle : ring.forgottenThrough ≤ since := by simpa [Ring.covers] using hc
  cases hall : commit.touched.everything with
  | false => rfl
  | true =>
    have hloud : commit.generation ∈ loud commits :=
      List.mem_map.mpr ⟨commit, List.mem_filter.mpr ⟨hmem, hall⟩, rfl⟩
    have := ((h.horizon since).mp hle).1 _ hloud
    omega

/-- While the ring covers `since`, touching is being in the log. -/
theorem Tracks.touchedWithin_iff (h : Tracks ring (log commits) (loud commits))
    (hc : ring.covers since = true) (through : Nat) (workspace : Option UInt64) (session : Id) :
    TouchedWithin commits since through workspace session ↔ ∃ slot ∈ log commits,
      since < slot.generation ∧ slot.generation ≤ through ∧ slot.entry.session = session ∧
        ∀ key, workspace = some key → slot.entry.workspace = key := by
  constructor
  · rintro ⟨commit, hmem, hs, ht, hall | ⟨entry, hentry, hrest⟩⟩
    · rw [h.quiet_of_covers hc hmem hs] at hall
      exact absurd hall Bool.false_ne_true
    · have hpush : ⟨commit.generation, entry⟩ ∈ commit.pushes :=
        mem_pushes.mpr ⟨h.quiet_of_covers hc hmem hs, rfl, hentry⟩
      exact ⟨_, List.mem_flatMap.mpr ⟨commit, hmem, hpush⟩, hs, ht, hrest⟩
  · rintro ⟨slot, hslot, hs, ht, hrest⟩
    obtain ⟨commit, hmem, hpush⟩ := List.mem_flatMap.mp hslot
    obtain ⟨_, hgen, hentry⟩ := mem_pushes.mp hpush
    rw [hgen] at hs ht
    exact ⟨commit, hmem, hs, ht, .inr ⟨slot.entry, hentry, hrest⟩⟩

theorem wanted_iff {through : Nat} {workspace : Option UInt64} {previous : Option Id} :
    Ring.wanted since through workspace previous slot = true ↔
      since < slot.generation ∧ slot.generation ≤ through ∧
        (∀ key, workspace = some key → slot.entry.workspace = key) ∧
          Follows previous slot.entry.session := by
  cases workspace <;> cases previous <;> simp [Ring.wanted, Follows, and_assoc]

/-- `changed` holds the first IDs among those of the wanted slots. -/
theorem changed_firstOf (ring : Ring) (since through : Nat) (workspace : Option UInt64)
    (previous : Option Id) {limit : Nat} (hlimit : 0 < limit) :
    FirstOf limit (fun id => ∃ slot ∈ ring.slots,
        Ring.wanted since through workspace previous slot = true ∧ id = slot.entry.session)
      (ring.changed since through workspace previous limit) := by
  have hfold := (firstOf_empty limit).foldl ring.slots
    (f := fun out slot =>
      if Ring.wanted since through workspace previous slot then
        Ring.keep limit out slot.entry.session
      else out)
    (T := fun slot id =>
      Ring.wanted since through workspace previous slot = true ∧ id = slot.entry.session) ?_
  · rw [Ring.changed]
    simpa only [false_or] using hfold
  · intro S out slot _ hout
    cases hw : Ring.wanted since through workspace previous slot with
    | true =>
      simp only [if_true, keep_eq hlimit hout.increasing hout.length_le, true_and]
      exact hout.insert fun _ => or_comm
    | false => simpa using hout

theorem not_covers_of_lost (h : Tracks ring (log commits) (loud commits))
    (hlost : LostSince commits since) : ring.covers since = false := by
  obtain ⟨earlier, commit, later, rfl, hs, hall | ⟨i, hfrom, hto, hover⟩⟩ := hlost
  · cases hc : ring.covers since with
    | false => rfl
    | true =>
      have := h.quiet_of_covers hc (by simp) hs
      rw [hall] at this
      exact this
  · cases hc : ring.covers since with
    | false => rfl
    | true =>
      have hle : ring.forgottenThrough ≤ since := by simpa [Ring.covers] using hc
      have hlog : log (earlier ++ commit :: later) =
          log earlier ++ (commit.pushes ++ log later) := by simp [log]
      have hin : i - (log earlier).length < commit.pushes.length := by
        rw [log_append, log_singleton, List.length_append] at hto
        omega
      have hi : (log (earlier ++ commit :: later))[i]? =
          some commit.pushes[i - (log earlier).length] := by
        rw [hlog, List.getElem?_append_right hfrom, List.getElem?_append_left hin,
          List.getElem?_eq_getElem hin]
      have := ((h.horizon since).mp hle).2 i _ hi (overwritten_iff.mp hover)
      rw [(mem_pushes.mp (List.getElem_mem hin)).2.1] at this
      omega

/-- **The ring never omits a change.** While the ring covers `since`, both
readers name exactly the Sessions that the commits after it touched; once a
change after `since` is lost, the ring no longer covers it. -/
theorem ring_names_changes (sessions : Vector Id capacity) (workspaces : Vector UInt64 capacity)
    (commits : List Commit) (ordered : commits.Pairwise fun a b => a.generation ≤ b.generation)
    (since through : Nat) :
    (((Ring.init sessions workspaces).run commits).covers since = true →
      (∀ session,
        ((Ring.init sessions workspaces).run commits).mayHaveChanged session since through = true ↔
          TouchedWithin commits since through none session) ∧
      ∀ (workspace : Option UInt64) (previous : Option Id) (limit : Nat), 0 < limit →
        FirstOf limit
          (fun id => TouchedWithin commits since through workspace id ∧ Follows previous id)
          (((Ring.init sessions workspaces).run commits).changed since through workspace previous
            limit)) ∧
    (LostSince commits since →
      ((Ring.init sessions workspaces).run commits).covers since = false) := by
  have h := tracks_run sessions workspaces commits
  refine ⟨fun hc => ⟨fun session => ?_, fun workspace previous limit hlimit => ?_⟩,
    not_covers_of_lost h⟩
  · rw [h.mayHaveChanged_iff (log_ordered ordered) hc, h.touchedWithin_iff hc]
    simp
  · have hfirst := changed_firstOf ((Ring.init sessions workspaces).run commits) since through
      workspace previous hlimit
    refine hfirst.congr fun id => ?_
    rw [h.touchedWithin_iff hc]
    constructor
    · rintro ⟨slot, hslot, hw, rfl⟩
      obtain ⟨hs, ht, hkey, hfollows⟩ := wanted_iff.mp hw
      exact ⟨⟨slot, (h.recent_of_covers hc hs).mpr (h.mem_slots.mp hslot), hs, ht, rfl, hkey⟩,
        hfollows⟩
    · rintro ⟨⟨slot, hslot, hs, ht, rfl, hkey⟩, hfollows⟩
      exact ⟨slot, h.mem_slots.mpr ((h.recent_of_covers hc hs).mp hslot),
        wanted_iff.mpr ⟨hs, ht, hkey, hfollows⟩, rfl⟩

/-- A Session two commits touch is named once, and covered from the start. -/
theorem ring_names_changes_shared :
    let session : Id := #v[107, 55, 109, 50, 113, 120]
    let commits : List Commit :=
      [⟨1, { entries := [⟨session, 1⟩] }⟩, ⟨1, { entries := [⟨session, 2⟩] }⟩]
    let ring := (Ring.init (Vector.replicate _ session) (Vector.replicate _ 0)).run commits
    ring.covers 0 = true ∧ ring.mayHaveChanged session 0 1 = true ∧
      FirstOf 8 (fun id => TouchedWithin commits 0 1 (some 2) id ∧ Follows none id)
        (ring.changed 0 1 (some 2) none 8) := by
  intro session commits ring
  have hlaws := ring_names_changes (Vector.replicate _ session) (Vector.replicate _ 0) commits
    (by simp [commits]) 0 1
  have hcovers : ring.covers 0 = true := by
    have h := tracks_run (Vector.replicate _ session) (Vector.replicate _ 0) commits
    have hlog : (log commits).length ≤ capacity := by
      rw [capacity_eq]
      decide
    refine decide_eq_true ((h.horizon 0).mpr ⟨fun g hg => absurd hg (by simp [commits, loud]), ?_⟩)
    intro i _ _ hlost
    omega
  obtain ⟨hmay, hchanged⟩ := hlaws.1 hcovers
  exact ⟨hcovers, (hmay session).mpr ⟨_, List.mem_cons_self, by decide, by decide,
    .inr ⟨_, List.mem_cons_self, rfl, by simp⟩⟩, hchanged (some 2) none 8 (by decide)⟩

end Rui.Changes
