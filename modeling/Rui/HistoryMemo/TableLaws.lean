import Rui.HistoryMemo.Table
import Rui.Library.Runs

/-!
# What the table counts

The counter is the sum of the slots' file bytes through every operation and
every fate of its file calls: removals, evictions, rewrites that peak and
writes that end either way. A slot's bytes go down where its removal was
confirmed or its rewrite was committed, and nowhere else.
-/

namespace Rui.HistoryMemo

open Library

variable {n : Nat} {H κ : Type}

theorem sub_eq {a b : Nat} (h : b ≤ a) : sub a b = some (a - b) := if_pos h

/-! ## Sums over slots -/

/-- The bytes that the slots' files may hold. -/
def fileBytes (entries : Fin n → Entry κ) : Nat := ∑ slot, (entries slot).fileBytes

theorem fileBytes_update (entries : Fin n → Entry κ) (slot : Fin n) (entry : Entry κ) :
    fileBytes (Function.update entries slot entry) + (entries slot).fileBytes =
      fileBytes entries + entry.fileBytes := by
  have hold := Finset.add_sum_erase Finset.univ (fun other => (entries other).fileBytes)
    (Finset.mem_univ slot)
  have hnew := Finset.add_sum_erase Finset.univ
    (fun other => (Function.update entries slot entry other).fileBytes) (Finset.mem_univ slot)
  have hsame : ∑ other ∈ Finset.univ.erase slot,
      (Function.update entries slot entry other).fileBytes =
        ∑ other ∈ Finset.univ.erase slot, (entries other).fileBytes := by
    refine Finset.sum_congr rfl fun other hother => ?_
    rw [Function.update_of_ne (Finset.ne_of_mem_erase hother)]
  rw [hsame, Function.update_self] at hnew
  rw [fileBytes, fileBytes, ← hnew, ← hold]
  omega

theorem le_fileBytes (entries : Fin n → Entry κ) (slot : Fin n) :
    (entries slot).fileBytes ≤ fileBytes entries :=
  Finset.single_le_sum (f := fun other => (entries other).fileBytes) (fun _ _ => Nat.zero_le _)
    (Finset.mem_univ slot)

/-! ## Slots -/

variable {entries : Fin n → Entry κ} {session : List UInt8} {slot other except victim : Fin n}
  {memo next : Memo κ} {disk disk' disk₁ disk₂ : Disk n} {now mid later : Table n κ}
  {peak rounds : Nat} {copied : Option (Prefix H κ)} {write : Write n H κ}

theorem sessionSlot_some (h : sessionSlot entries session = some slot) :
    ∃ memo, (entries slot).memo = some memo ∧ memo.key.session = session := by
  have hfound := List.find?_some h
  cases hmemo : (entries slot).memo with
  | none =>
    rw [hmemo] at hfound
    cases hfound
  | some memo =>
    rw [hmemo] at hfound
    exact ⟨memo, rfl, beq_iff_eq.mp hfound⟩

theorem sessionSlot_none (h : sessionSlot entries session = none)
    (hmemo : (entries slot).memo = some memo) : memo.key.session ≠ session := by
  have hnot := List.find?_eq_none.mp h slot (List.mem_finRange slot)
  intro hsession
  apply hnot
  rw [hmemo]
  exact beq_iff_eq.mpr hsession

theorem sessionSlot_congr {entries' : Fin n → Entry κ}
    (h : ∀ slot, (entries' slot).memo = (entries slot).memo) (session : List UInt8) :
    sessionSlot entries' session = sessionSlot entries session := by
  simp only [sessionSlot, h]

theorem chooseFrom_isSome (entries : Fin n → Entry κ) (stranded oldest : Option (Fin n))
    (slots : List (Fin n)) (h : stranded.isSome ∨ oldest.isSome ∨ slots ≠ []) :
    ∃ slot, chooseFrom entries stranded oldest slots = some slot := by
  induction slots generalizing stranded oldest with
  | nil =>
    rw [chooseFrom]
    cases stranded with
    | some slot => exact ⟨slot, rfl⟩
    | none =>
      cases oldest with
      | some slot => exact ⟨slot, rfl⟩
      | none => simp at h
  | cons slot rest ih =>
    rw [chooseFrom]
    split
    · split
      · exact ⟨slot, rfl⟩
      · exact ih _ _ (.inl (by cases stranded <;> rfl))
    · exact ih _ _ (.inr (.inl rfl))

theorem chooseSlot_isSome (hn : n ≠ 0) (entries : Fin n → Entry κ) (session : List UInt8) :
    ∃ slot, chooseSlot entries session = some slot := by
  rw [chooseSlot]
  cases sessionSlot entries session with
  | some slot => exact ⟨slot, rfl⟩
  | none =>
    refine chooseFrom_isSome entries none none _ (.inr (.inr fun hnil => hn ?_))
    rw [← List.length_finRange (n := n), hnil]
    rfl

/-- The chosen slot is the Session's own, where it has one. -/
theorem chooseSlot_session (h : chooseSlot entries session = some slot)
    (hother : sessionSlot entries session = some other) : slot = other := by
  rw [chooseSlot, hother] at h
  exact (Option.some.inj h).symm

theorem victimFrom_spec {slots : List (Fin n)} {result : Option (Fin n)}
    (hresult : ∀ slot, result = some slot → slot ≠ except ∧ (entries slot).memo.isSome)
    (h : victimFrom entries except result slots = some victim) :
    victim ≠ except ∧ (entries victim).memo.isSome := by
  induction slots generalizing result with
  | nil => exact hresult victim h
  | cons slot rest ih =>
    rw [victimFrom] at h
    split at h
    · exact ih hresult h
    · rename_i hslot
      obtain ⟨hne, hsome⟩ := not_or.mp hslot
      have hslot' : slot ≠ except ∧ (entries slot).memo.isSome :=
        ⟨hne, by simpa [Option.isSome_iff_ne_none] using hsome⟩
      refine ih ?_ h
      rintro _ ⟨⟩
      cases result with
      | none => exact hslot'
      | some oldest =>
        rw [older]
        split
        · exact hslot'
        · exact hresult oldest rfl

theorem nextVictim_spec (h : nextVictim entries except = some victim) :
    victim ≠ except ∧ (entries victim).memo.isSome :=
  victimFrom_spec (by rintro _ ⟨⟩) h

/-! ## The accounts -/

/-- The counter is the sum, under the limit; a Session has one memo, which counts its length. -/
structure Counted (now : Table n κ) : Prop where
  bytes : now.bytes = fileBytes now.entries
  limit : now.bytes ≤ now.byteLimit
  single : ∀ slot other memo memo', (now.entries slot).memo = some memo →
    (now.entries other).memo = some memo' → memo.key.session = memo'.key.session → slot = other
  length : ∀ slot memo, (now.entries slot).memo = some memo →
    (now.entries slot).fileBytes = memo.length

/-- A write in progress: its slot holds no memo and counts the peak, and no other slot has its
Session's memo. -/
structure Writing (now : Table n κ) (write : Write n H κ) : Prop where
  memo : (now.entries write.slot).memo = none
  peak : (now.entries write.slot).fileBytes = write.peak
  length : write.memo.length ≤ write.peak
  written : write.written ≤ write.memo.length
  session : ∀ slot memo, (now.entries slot).memo = some memo →
    memo.key.session ≠ write.memo.key.session

/-- What an operation other than a commit does: memos go and none come, those that stay keep their
files, and bytes go where a removal was confirmed. -/
structure Moves (now : Table n κ) (disk : Disk n) (later : Table n κ) (disk' : Disk n) : Prop where
  limit : later.byteLimit = now.byteLimit
  memos : ∀ slot memo, (later.entries slot).memo = some memo →
    (now.entries slot).memo = some memo ∧ disk'.files slot = disk.files slot
  removed : ∃ new, disk'.removed = disk.removed ++ new ∧
    ∀ slot, (later.entries slot).fileBytes < (now.entries slot).fileBytes → slot ∈ new

theorem Moves.refl (now : Table n κ) (h : disk'.removed = disk.removed)
    (hfiles : disk'.files = disk.files) : Moves now disk now disk' where
  limit := rfl
  memos _ _ h := ⟨h, congrFun hfiles _⟩
  removed := ⟨[], by rw [h, List.append_nil], fun _ hlt => absurd hlt (Nat.lt_irrefl _)⟩

theorem Moves.trans (h : Moves now disk mid disk₁) (h' : Moves mid disk₁ later disk₂) :
    Moves now disk later disk₂ where
  limit := h'.limit.trans h.limit
  memos slot memo hmemo := by
    obtain ⟨hmid, hfiles⟩ := h'.memos slot memo hmemo
    obtain ⟨hnow, hfiles'⟩ := h.memos slot memo hmid
    exact ⟨hnow, hfiles.trans hfiles'⟩
  removed := by
    obtain ⟨new, hnew, hslots⟩ := h.removed
    obtain ⟨new', hnew', hslots'⟩ := h'.removed
    refine ⟨new ++ new', by rw [hnew', hnew, List.append_assoc], fun slot hlt => ?_⟩
    rcases Nat.lt_or_ge (mid.entries slot).fileBytes (now.entries slot).fileBytes with hlt' | hge
    · exact List.mem_append_left _ (hslots slot hlt')
    · exact List.mem_append_right _ (hslots' slot (Nat.lt_of_lt_of_le hlt hge))

/-! ## Dropping a slot -/

/-- What a drop does: the memo goes, and the bytes stay or go as its removal was confirmed. -/
structure Dropped (now : Table n κ) (disk : Disk n) (slot : Fin n) (later : Table n κ)
    (disk' : Disk n) : Prop where
  memo : (later.entries slot).memo = none
  others : ∀ other, other ≠ slot → later.entries other = now.entries other
  limit : later.byteLimit = now.byteLimit
  bytes : later.bytes + (now.entries slot).fileBytes =
    now.bytes + (later.entries slot).fileBytes
  outcome : (later.entries slot).fileBytes = (now.entries slot).fileBytes ∧
      disk'.removed = disk.removed ∨
    (later.entries slot).fileBytes = 0 ∧ disk'.removed = disk.removed ++ [slot]
  files : ∀ other, other ≠ slot → disk'.files other = disk.files other

theorem drop_dropped (h : (now.entries slot).fileBytes ≤ now.bytes) (disk : Disk n) :
    ∃ later disk', now.drop disk slot = some (later, disk') ∧ Dropped now disk slot later disk' := by
  have hself : ∀ entry, (now.set slot entry).entries slot = entry :=
    fun entry => Function.update_self ..
  have hother : ∀ entry other, other ≠ slot →
      (now.set slot entry).entries other = now.entries other :=
    fun entry other hne => Function.update_of_ne hne ..
  rw [Table.drop]
  by_cases hzero : (now.entries slot).fileBytes = 0
  · rw [if_pos hzero]
    refine ⟨_, _, rfl, ⟨by rw [hself], hother _, rfl, by rw [hself]; rfl, .inl ⟨by rw [hself], rfl⟩,
      fun _ _ => rfl⟩⟩
  · rw [if_neg hzero, Disk.deleteFile]
    cases disk.fates 0 with
    | ok =>
      simp only
      rw [show (now.set slot { now.entries slot with memo := none }).bytes = now.bytes from rfl,
        sub_eq h]
      have hself' : ∀ entry entry', ((now.set slot entry).set slot entry').entries slot = entry' :=
        fun entry entry' => Function.update_self ..
      refine ⟨_, _, rfl, ⟨?_, ?_, rfl, ?_, .inr ⟨?_, rfl⟩, ?_⟩⟩
      · exact congrArg Entry.memo (hself' _ _)
      · intro other hne
        exact (Function.update_of_ne hne ..).trans (hother _ other hne)
      · show now.bytes - (now.entries slot).fileBytes + (now.entries slot).fileBytes =
          now.bytes + (((now.set slot _).set slot _).entries slot).fileBytes
        rw [hself']
        exact Nat.sub_add_cancel h
      · exact congrArg Entry.fileBytes (hself' _ _)
      · intro other hne
        exact Function.update_of_ne hne ..
    | failed left =>
      refine ⟨_, _, rfl, ⟨by rw [hself], hother _, rfl, by rw [hself]; rfl, .inl ⟨by rw [hself], rfl⟩,
        ?_⟩⟩
      intro other hne
      exact Function.update_of_ne hne ..

section

variable (h : Dropped now disk slot later disk')

include h

theorem Dropped.entries_eq :
    later.entries = Function.update now.entries slot (later.entries slot) := by
  funext other
  by_cases heq : other = slot
  · rw [heq, Function.update_self]
  · rw [h.others other heq, Function.update_of_ne heq]

theorem Dropped.memos (other : Fin n) (memo : Memo κ)
    (hmemo : (later.entries other).memo = some memo) :
    other ≠ slot ∧ later.entries other = now.entries other := by
  have hne : other ≠ slot := by
    rintro rfl
    exact nomatch h.memo.symm.trans hmemo
  exact ⟨hne, h.others other hne⟩

theorem Dropped.fileBytes_le :
    (later.entries slot).fileBytes ≤ (now.entries slot).fileBytes := by
  rcases h.outcome with ⟨hsame, -⟩ | ⟨hzero, -⟩
  · exact Nat.le_of_eq hsame
  · rw [hzero]
    exact Nat.zero_le _

theorem Dropped.moves : Moves now disk later disk' where
  limit := h.limit
  memos other memo hmemo := by
    obtain ⟨hne, hsame⟩ := h.memos other memo hmemo
    exact ⟨hsame ▸ hmemo, h.files other hne⟩
  removed := by
    have hslot : ∀ other, (later.entries other).fileBytes < (now.entries other).fileBytes →
        other = slot := by
      intro other hlt
      apply Decidable.byContradiction
      intro hne
      rw [h.others other hne] at hlt
      exact Nat.lt_irrefl _ hlt
    rcases h.outcome with ⟨hsame, hremoved⟩ | ⟨-, hremoved⟩
    · refine ⟨[], by rw [hremoved, List.append_nil], fun other hlt => ?_⟩
      obtain rfl := hslot other hlt
      omega
    · refine ⟨[slot], hremoved, fun other hlt => ?_⟩
      rw [hslot other hlt]
      exact List.mem_singleton_self _

end

/-- **A drop keeps the accounts.** -/
theorem Counted.drop (h : Counted now) (hdropped : Dropped now disk slot later disk') :
    Counted later where
  bytes := by
    have hsum := fileBytes_update now.entries slot (later.entries slot)
    rw [← hdropped.entries_eq, ← h.bytes] at hsum
    have := hdropped.bytes
    omega
  limit := by
    have := hdropped.bytes
    have := hdropped.fileBytes_le
    have := h.limit
    rw [hdropped.limit]
    omega
  single slot other memo memo' hmemo hmemo' := by
    rw [(hdropped.memos slot memo hmemo).2] at hmemo
    rw [(hdropped.memos other memo' hmemo').2] at hmemo'
    exact h.single slot other memo memo' hmemo hmemo'
  length slot memo hmemo := by
    have hsame := (hdropped.memos slot memo hmemo).2
    rw [hsame] at hmemo ⊢
    exact h.length slot memo hmemo

theorem Counted.le_bytes (h : Counted now) (slot : Fin n) :
    (now.entries slot).fileBytes ≤ now.bytes := h.bytes ▸ le_fileBytes now.entries slot

theorem clear_memos
    (h : ((now.set slot { now.entries slot with memo := none }).entries other).memo = some memo) :
    (now.set slot { now.entries slot with memo := none }).entries other = now.entries other := by
  have hne : other ≠ slot := by
    rintro rfl
    have hself : (now.set other { now.entries other with memo := none }).entries other =
      { now.entries other with memo := none } := Function.update_self ..
    rw [hself] at h
    cases h
  exact Function.update_of_ne hne ..

theorem Counted.clear (h : Counted now) (slot : Fin n) :
    Counted (now.set slot { now.entries slot with memo := none }) where
  bytes := by
    have hsum : fileBytes (Function.update now.entries slot
        { now.entries slot with memo := none }) + (now.entries slot).fileBytes =
        fileBytes now.entries + (now.entries slot).fileBytes := fileBytes_update ..
    exact h.bytes.trans (Nat.add_right_cancel hsum).symm
  limit := h.limit
  single other other' memo memo' hmemo hmemo' := by
    rw [clear_memos hmemo] at hmemo
    rw [clear_memos hmemo'] at hmemo'
    exact h.single other other' memo memo' hmemo hmemo'
  length other memo hmemo := by
    have hsame := clear_memos hmemo
    rw [hsame] at hmemo ⊢
    exact h.length other memo hmemo

/-- **Retrying removals keeps the accounts and every memo.** By induction over the slots. -/
theorem retry_counted (h : Counted now) (disk : Disk n) (slots : List (Fin n)) :
    ∃ later disk', now.retry disk slots = some (later, disk') ∧ Counted later ∧
      Moves now disk later disk' ∧ ∀ slot, (later.entries slot).memo = (now.entries slot).memo := by
  induction slots generalizing now disk with
  | nil => exact ⟨now, disk, rfl, h, .refl now rfl rfl, fun _ => rfl⟩
  | cons slot rest ih =>
    rw [Table.retry]
    by_cases hstranded : (now.entries slot).memo.isNone ∧ (now.entries slot).fileBytes ≠ 0
    · obtain ⟨mid, disk₁, hdrop, hdropped⟩ := drop_dropped (h.le_bytes slot) disk
      obtain ⟨later, disk₂, hretry, hcounted, hmoves, hmemos⟩ := ih (h.drop hdropped) disk₁
      rw [if_pos hstranded, hdrop]
      refine ⟨later, disk₂, hretry, hcounted, hdropped.moves.trans hmoves, fun other => ?_⟩
      rw [hmemos other]
      by_cases heq : other = slot
      · rw [heq, hdropped.memo, Option.isNone_iff_eq_none.mp hstranded.1]
      · rw [hdropped.others other heq]
    · rw [if_neg hstranded]
      exact ih h disk

/-! ## Evictions -/

/-- How many slots hold a memo. -/
def memoCount (entries : Fin n → Entry κ) : Nat :=
  (Finset.univ.filter fun slot => (entries slot).memo.isSome).card

theorem memoCount_le (entries : Fin n → Entry κ) : memoCount entries ≤ n := by
  have := Finset.card_le_univ (Finset.univ.filter fun slot => (entries slot).memo.isSome = true)
  rwa [Fintype.card_fin] at this

theorem Dropped.memoCount_lt (h : Dropped now disk slot later disk')
    (hmemo : (now.entries slot).memo.isSome) : memoCount later.entries < memoCount now.entries := by
  refine Finset.card_lt_card (Finset.ssubset_iff_of_subset ?_ |>.mpr ⟨slot, ?_, ?_⟩)
  · intro other hother
    obtain ⟨memo, hsome⟩ := Option.isSome_iff_exists.mp (Finset.mem_filter.mp hother).2
    rw [(h.memos other memo hsome).2] at hsome
    exact Finset.mem_filter.mpr ⟨Finset.mem_univ _, Option.isSome_iff_exists.mpr ⟨memo, hsome⟩⟩
  · exact Finset.mem_filter.mpr ⟨Finset.mem_univ _, hmemo⟩
  · intro hother
    have hsome := (Finset.mem_filter.mp hother).2
    rw [h.memo] at hsome
    cases hsome

theorem evict_victim {old : Nat} (hold : old ≤ now.bytes)
    (hfits : ¬now.bytes - old + peak ≤ now.byteLimit)
    (hvictim : nextVictim now.entries slot = some victim)
    (hdrop : now.drop disk victim = some (mid, disk₁)) :
    Table.evict slot old peak (rounds + 1) now disk =
      if (mid.entries victim).fileBytes ≠ 0 then some (mid, disk₁, false)
      else Table.evict slot old peak rounds mid disk₁ := by
  rw [Table.evict, sub_eq hold]
  refine (if_neg hfits).trans ?_
  rw [hvictim]
  simp only [hdrop]
  rfl

/-- **Evictions keep the accounts, and end.** By induction over the rounds, each of which takes a
memo. -/
theorem evict_counted (h : Counted now) (disk : Disk n) (peak : Nat)
    (hrounds : memoCount now.entries < rounds) : ∃ later disk' fits,
      Table.evict slot (now.entries slot).fileBytes peak rounds now disk =
        some (later, disk', fits) ∧
      Counted later ∧ Moves now disk later disk' ∧ later.entries slot = now.entries slot ∧
      disk'.files slot = disk.files slot ∧
      (fits = true →
        later.bytes - (now.entries slot).fileBytes + peak ≤ later.byteLimit) := by
  induction rounds generalizing now disk with
  | zero => exact absurd hrounds (Nat.not_lt_zero _)
  | succ rounds ih =>
    by_cases hfits : now.bytes - (now.entries slot).fileBytes + peak ≤ now.byteLimit
    · refine ⟨now, disk, true, ?_, h, .refl now rfl rfl, rfl, rfl, fun _ => hfits⟩
      rw [Table.evict, sub_eq (h.le_bytes slot)]
      exact if_pos hfits
    · cases hvictim : nextVictim now.entries slot with
      | none =>
        refine ⟨now, disk, false, ?_, h, .refl now rfl rfl, rfl, rfl, fun hno => nomatch hno⟩
        rw [Table.evict, sub_eq (h.le_bytes slot), hvictim]
        exact if_neg hfits
      | some victim =>
        obtain ⟨hne, hsome⟩ := nextVictim_spec hvictim
        obtain ⟨mid, disk₁, hdrop, hdropped⟩ := drop_dropped (h.le_bytes victim) disk
        have hslot : mid.entries slot = now.entries slot := hdropped.others slot (Ne.symm hne)
        rw [evict_victim (h.le_bytes slot) hfits hvictim hdrop]
        by_cases hleft : (mid.entries victim).fileBytes = 0
        · have hcount := hdropped.memoCount_lt hsome
          obtain ⟨later, disk₂, fits, hevict, hcounted, hmoves, hsame, hfiles, hbound⟩ :=
            ih (h.drop hdropped) disk₁ (by omega)
          rw [hslot] at hevict hbound
          rw [if_neg (not_not_intro hleft)]
          exact ⟨later, disk₂, fits, hevict, hcounted, hdropped.moves.trans hmoves,
            hsame.trans hslot, hfiles.trans (hdropped.files slot (Ne.symm hne)), hbound⟩
        · exact ⟨mid, disk₁, false, if_pos hleft, h.drop hdropped, hdropped.moves, hslot,
            hdropped.files slot (Ne.symm hne), fun hno => nomatch hno⟩

/-! ## Beginning a write -/

/-- What becomes of the file a write opens: the bytes it keeps, and nothing behind them. -/
structure Opened (hashing : Hashing H) (disk : Disk n) (write opened : Write n H κ)
    (disk' : Disk n) : Prop where
  slot : opened.slot = write.slot
  memo : opened.memo = write.memo
  spanStart : opened.spanStart = write.spanStart
  peak : opened.peak = write.peak
  start : opened.written = write.written ∧ opened.hasher = write.hasher ∨
    opened.written = 0 ∧ opened.hasher = hashing.init
  length : opened.written ≤ (disk.bytes write.slot).length
  file : disk'.files write.slot = some ((disk.bytes write.slot).take opened.written)

/-- Opening a file touches no other and confirms no removal. -/
structure Elsewhere (disk : Disk n) (slot : Fin n) (disk' : Disk n) : Prop where
  files : ∀ other, other ≠ slot → disk'.files other = disk.files other
  removed : disk'.removed = disk.removed

theorem Elsewhere.trans (h : Elsewhere disk slot disk₁) (h' : Elsewhere disk₁ slot disk₂) :
    Elsewhere disk slot disk₂ where
  files other hne := (h'.files other hne).trans (h.files other hne)
  removed := h'.removed.trans h.removed

theorem Elsewhere.called (disk : Disk n) (slot : Fin n) : Elsewhere disk slot disk.called :=
  ⟨fun _ _ => rfl, rfl⟩

theorem Elsewhere.put (disk : Disk n) (slot : Fin n) (file : Option (List UInt8)) :
    Elsewhere disk slot (disk.called.put slot file) :=
  ⟨fun _ hne => Function.update_of_ne hne .., rfl⟩

theorem put_files (disk : Disk n) (slot : Fin n) (file : Option (List UInt8)) :
    (disk.put slot file).files slot = file := Function.update_self ..

theorem openWrite_opened (hashing : Hashing H) (disk : Disk n) (write : Write n H κ) :
    ∃ opened disk', Table.openWrite hashing disk write = (opened, disk') ∧
      Elsewhere disk write.slot disk' ∧
      ∀ write', opened = some write' → Opened hashing disk write write' disk' := by
  rw [Table.openWrite, Disk.createFile]
  cases disk.fates 0 with
  | failed left => exact ⟨none, _, rfl, .put disk write.slot left, nofun⟩
  | ok =>
    simp only
    generalize hdisk₁ : disk.called.put write.slot (some (disk.bytes write.slot)) = disk₁
    have hcreated : Elsewhere disk write.slot disk₁ := hdisk₁ ▸ .put disk write.slot _
    have hfile : disk₁.files write.slot = some (disk.bytes write.slot) :=
      hdisk₁ ▸ put_files disk.called write.slot _
    have hbytes : disk₁.bytes write.slot = disk.bytes write.slot := by
      rw [Disk.bytes, hfile]
      rfl
    -- the write that keeps what the file still has
    have hkeep : ∃ kept disk₂, Table.keepPrefix hashing disk₁ write = (kept, disk₂) ∧
        Elsewhere disk₁ write.slot disk₂ ∧ disk₂.files = disk₁.files ∧
        ∀ write', kept = some write' → write'.slot = write.slot ∧ write'.memo = write.memo ∧
          write'.spanStart = write.spanStart ∧ write'.peak = write.peak ∧
          (write'.written = write.written ∧ write'.hasher = write.hasher ∨
            write'.written = 0 ∧ write'.hasher = hashing.init) ∧
          (write'.written = 0 ∨ write'.written = (disk.bytes write.slot).length) := by
      rw [Table.keepPrefix]
      by_cases hzero : write.written = 0
      · rw [if_pos hzero]
        refine ⟨_, _, rfl, ⟨fun _ _ => rfl, rfl⟩, rfl, ?_⟩
        rintro _ ⟨⟩
        exact ⟨rfl, rfl, rfl, rfl, .inl ⟨rfl, rfl⟩, .inl hzero⟩
      · rw [if_neg hzero, Disk.length]
        cases disk₁.fates 0 with
        | failed left => exact ⟨none, _, rfl, .called disk₁ write.slot, rfl, nofun⟩
        | ok =>
          refine ⟨_, _, rfl, .called disk₁ write.slot, rfl, ?_⟩
          rintro _ ⟨⟩
          rw [hbytes]
          by_cases hlength : (disk.bytes write.slot).length = write.written
          · rw [if_pos hlength]
            exact ⟨rfl, rfl, rfl, rfl, .inl ⟨rfl, rfl⟩, .inr hlength.symm⟩
          · rw [if_neg hlength]
            exact ⟨rfl, rfl, rfl, rfl, .inr ⟨rfl, rfl⟩, .inl rfl⟩
    obtain ⟨kept, disk₂, hkeep, hkept, hfiles, hsame⟩ := hkeep
    rw [hkeep]
    cases kept with
    | none => exact ⟨none, disk₂, rfl, hcreated.trans hkept, nofun⟩
    | some kept =>
      obtain ⟨hslot, hmemo, hspan, hpeak, hstart, hlength⟩ := hsame kept rfl
      have hbytes₂ : disk₂.bytes kept.slot = disk.bytes write.slot := by
        rw [Disk.bytes, hfiles, hslot]
        exact hbytes
      simp only [Disk.setLength]
      cases disk₂.fates 0 with
      | failed left =>
        exact ⟨none, _, rfl, (hcreated.trans hkept).trans (hslot ▸ .put disk₂ kept.slot left), nofun⟩
      | ok =>
        refine ⟨_, _, rfl, (hcreated.trans hkept).trans (hslot ▸ .put disk₂ kept.slot _), ?_⟩
        rintro _ ⟨⟩
        have hle : kept.written ≤ (disk.bytes write.slot).length := by
          rcases hlength with hzero | hall
          · rw [hzero]
            exact Nat.zero_le _
          · exact Nat.le_of_eq hall
        refine ⟨hslot, hmemo, hspan, hpeak, hstart, hle, ?_⟩
        rw [hbytes₂, List.length_take, Nat.min_eq_left hle, Nat.sub_self, List.replicate_zero,
          List.append_nil, ← hslot]
        exact put_files disk₂.called kept.slot _

theorem Moves.at (hlimit : later.byteLimit = now.byteLimit)
    (hmemo : (later.entries slot).memo = none)
    (hothers : ∀ other, other ≠ slot → later.entries other = now.entries other)
    (hbytes : (now.entries slot).fileBytes ≤ (later.entries slot).fileBytes)
    (hdisk : Elsewhere disk slot disk') : Moves now disk later disk' where
  limit := hlimit
  memos other memo h := by
    have hne : other ≠ slot := by
      rintro rfl
      exact nomatch hmemo.symm.trans h
    exact ⟨hothers other hne ▸ h, hdisk.files other hne⟩
  removed := by
    refine ⟨[], by rw [hdisk.removed, List.append_nil], fun other hlt => ?_⟩
    by_cases heq : other = slot
    · subst heq
      omega
    · rw [hothers other heq] at hlt
      exact absurd hlt (Nat.lt_irrefl _)

/-- A slot that holds no memo may count more, up to the limit. -/
theorem Counted.raise (h : Counted now) (hmemo : (now.entries slot).memo = none)
    (hlimit : now.bytes - (now.entries slot).fileBytes + peak ≤ now.byteLimit) :
    Counted { now.set slot { now.entries slot with fileBytes := peak } with
      bytes := now.bytes - (now.entries slot).fileBytes + peak } := by
  generalize hentry : { now.entries slot with fileBytes := peak } = entry
  have hpeak : entry.fileBytes = peak := by rw [← hentry]
  have hother : ∀ other memo, (Function.update now.entries slot entry other).memo = some memo →
      Function.update now.entries slot entry other = now.entries other := by
    intro other memo hsome
    apply Function.update_of_ne
    rintro rfl
    rw [Function.update_self, ← hentry] at hsome
    exact nomatch hmemo.symm.trans hsome
  constructor
  case bytes =>
    have hsum := fileBytes_update now.entries slot entry
    have hle := h.le_bytes slot
    have hbytes := h.bytes
    show now.bytes - (now.entries slot).fileBytes + peak =
      fileBytes (Function.update now.entries slot entry)
    omega
  case limit => exact hlimit
  case single =>
    intro other other' memo memo' hmemo hmemo'
    have hsame : (now.entries other).memo = some memo := hother other memo hmemo ▸ hmemo
    have hsame' : (now.entries other').memo = some memo' := hother other' memo' hmemo' ▸ hmemo'
    exact h.single other other' memo memo' hsame hsame'
  case length =>
    intro other memo hmemo
    have hsame : (now.entries other).memo = some memo := hother other memo hmemo ▸ hmemo
    exact (congrArg Entry.fileBytes (hother other memo hmemo)).trans (h.length other memo hsame)

theorem giveUp_counted (h : Counted now) (disk : Disk n) (slot : Fin n) :
    ∃ later disk', (now.giveUp disk slot : Option (_ × _ × Option (Write n H κ))) =
        some (later, disk', none) ∧
      Counted later ∧ Moves now disk later disk' := by
  obtain ⟨later, disk', hdrop, hdropped⟩ := drop_dropped (h.le_bytes slot) disk
  refine ⟨later, disk', ?_, h.drop hdropped, hdropped.moves⟩
  rw [Table.giveUp, hdrop]
  rfl

/-- **A write begins within the limit, or its slot is dropped.** -/
theorem reserve_counted (hashing : Hashing H) (h : Counted now) (disk : Disk n)
    (write : Write n H κ) (hmemo : (now.entries write.slot).memo = none)
    (hpeak : max (now.entries write.slot).fileBytes write.memo.length = write.peak)
    (hlimit : now.bytes - (now.entries write.slot).fileBytes + write.peak ≤ now.byteLimit)
    (hwritten : write.written ≤ write.memo.length)
    (hsession : ∀ slot memo, (now.entries slot).memo = some memo →
      memo.key.session ≠ write.memo.key.session) : ∃ later disk' opened,
      now.reserve hashing disk (now.entries write.slot).fileBytes write =
        some (later, disk', opened) ∧
      Counted later ∧ Moves now disk later disk' ∧
      ∀ write', opened = some write' →
        Writing later write' ∧ Opened hashing disk write write' disk' := by
  have hcounted := h.raise hmemo hlimit
  rw [Table.reserve, sub_eq (h.le_bytes write.slot)]
  simp only [Option.bind_eq_bind, Option.bind_some]
  generalize hmid : ({ now.set write.slot { now.entries write.slot with fileBytes := write.peak } with
    bytes := now.bytes - (now.entries write.slot).fileBytes + write.peak } : Table n κ) = mid
    at hcounted
  have hentry : mid.entries write.slot = { now.entries write.slot with fileBytes := write.peak } := by
    rw [← hmid]
    exact Function.update_self ..
  have hothers : ∀ other, other ≠ write.slot → mid.entries other = now.entries other := by
    intro other hne
    rw [← hmid]
    exact Function.update_of_ne hne ..
  have hnone : (mid.entries write.slot).memo = none := by
    rw [hentry]
    exact hmemo
  have hcount : (mid.entries write.slot).fileBytes = write.peak := by rw [hentry]
  obtain ⟨opened, disk₁, hopen, helsewhere, hopened⟩ := openWrite_opened hashing disk write
  have hmoves : Moves now disk mid disk₁ := by
    refine .at (by rw [← hmid]; rfl) hnone hothers ?_ helsewhere
    rw [hcount, ← hpeak]
    exact Nat.le_max_left _ _
  rw [hopen]
  cases opened with
  | none =>
    obtain ⟨later, disk₂, hgive, hcounted', hmoves'⟩ :=
      giveUp_counted (H := H) hcounted disk₁ write.slot
    exact ⟨later, disk₂, none, hgive, hcounted', hmoves.trans hmoves', fun _ hno => nomatch hno⟩
  | some write' =>
    refine ⟨mid, disk₁, some write', rfl, hcounted, hmoves, ?_⟩
    rintro _ ⟨⟩
    have hfacts := hopened write' rfl
    refine ⟨⟨?_, ?_, ?_, ?_, ?_⟩, hfacts⟩
    · rw [hfacts.slot]
      exact hnone
    · rw [hfacts.slot, hfacts.peak]
      exact hcount
    · rw [hfacts.memo, hfacts.peak, ← hpeak]
      exact Nat.le_max_right _ _
    · rw [hfacts.memo]
      rcases hfacts.start with ⟨hsame, -⟩ | ⟨hzero, -⟩
      · rw [hsame]
        exact hwritten
      · rw [hzero]
        exact Nat.zero_le _
    · intro slot memo hsome
      rw [hfacts.memo]
      have hne : slot ≠ write.slot := by
        rintro rfl
        exact nomatch hnone.symm.trans hsome
      rw [hothers slot hne] at hsome
      exact hsession slot memo hsome

/-- A write that began: what it keeps of its slot's file and of the copied memo's digest state. -/
structure Begun (hashing : Hashing H) (disk : Disk n) (next : Memo κ) (spanStart append : Nat)
    (copied : Option (Prefix H κ)) (write : Write n H κ) (disk' : Disk n) : Prop where
  memo : write.memo = next
  spanStart : write.spanStart = spanStart
  start : write.written = append ∧ write.hasher =
      (if append ≠ 0 then (copied.map Prefix.hasher).getD hashing.init else hashing.init) ∨
    write.written = 0 ∧ write.hasher = hashing.init
  length : write.written ≤ (disk.bytes write.slot).length
  file : disk'.files write.slot = some ((disk.bytes write.slot).take write.written)

theorem beginAt_counted [DecidableEq κ] (hashing : Hashing H) (h : Counted now) (disk : Disk n)
    (spanStart : Nat) {append : Nat} (copied : Option (Prefix H κ))
    (hsession : ∀ other memo, other ≠ slot → (now.entries other).memo = some memo →
      memo.key.session ≠ next.key.session) (happend : append ≤ next.length) : ∃ later disk' write,
      Table.beginAt hashing now disk slot next spanStart append copied =
        some (later, disk', write) ∧
      Counted later ∧ Moves now disk later disk' ∧
      ∀ write', write = some write' → Writing later write' ∧ write'.slot = slot ∧
        Begun hashing disk next spanStart append copied write' disk' := by
  rw [Table.beginAt]
  generalize hwrite : (⟨slot, next, spanStart, append, max (now.entries slot).fileBytes next.length,
    if append ≠ 0 then (copied.map Prefix.hasher).getD hashing.init else hashing.init⟩ :
      Write n H κ) = write
  have hcleared := h.clear slot
  generalize hmid : now.set slot { now.entries slot with memo := none } = mid at hcleared
  have hentry : mid.entries slot = { now.entries slot with memo := none } := by
    rw [← hmid]
    exact Function.update_self ..
  have hothers : ∀ other, other ≠ slot → mid.entries other = now.entries other := by
    intro other hne
    rw [← hmid]
    exact Function.update_of_ne hne ..
  have hmoves : Moves now disk mid disk := by
    refine .at (by rw [← hmid]; rfl) ?_ hothers ?_ ⟨fun _ _ => rfl, rfl⟩
    · rw [hentry]
    · rw [hentry]
  have hrounds : memoCount mid.entries < n + 1 := Nat.lt_succ_of_le (memoCount_le _)
  obtain ⟨late, disk₁, fits, hevict, hcounted, hmoves₁, hsame, hfiles, hbound⟩ :=
    evict_counted hcleared disk (max (now.entries slot).fileBytes next.length) hrounds
  have hlate : late.entries slot = { now.entries slot with memo := none } := hsame.trans hentry
  rw [hentry] at hevict hbound
  simp only [hevict, Option.bind_eq_bind, Option.bind_some]
  cases fits with
  | false =>
    obtain ⟨later, disk₂, hgive, hcounted', hmoves₂⟩ := giveUp_counted (H := H) hcounted disk₁ slot
    exact ⟨later, disk₂, none, hgive, hcounted', (hmoves.trans hmoves₁).trans hmoves₂,
      fun _ hno => nomatch hno⟩
  | true =>
    have hslot : write.slot = slot := by rw [← hwrite]
    have hbytes : (late.entries write.slot).fileBytes = (now.entries slot).fileBytes := by
      rw [hslot, hlate]
    have hpeak : max (late.entries write.slot).fileBytes write.memo.length = write.peak := by
      rw [hbytes, ← hwrite]
    obtain ⟨later, disk₂, opened, hreserve, hcounted', hmoves₂, hopened⟩ :=
      reserve_counted hashing hcounted disk₁ write (by rw [hslot, hlate]) hpeak
        (by rw [hbytes, ← hwrite]; exact hbound rfl) (by rw [← hwrite]; exact happend) (by
          intro other memo hmemo
          rw [← hwrite]
          have hmid' := (hmoves₁.memos other memo hmemo).1
          have hne : other ≠ slot := by
            rintro rfl
            rw [hentry] at hmid'
            cases hmid'
          rw [hothers other hne] at hmid'
          exact hsession other memo hne hmid')
    rw [hbytes] at hreserve
    refine ⟨later, disk₂, opened, hreserve, hcounted', (hmoves.trans hmoves₁).trans hmoves₂, ?_⟩
    intro write' hsome
    obtain ⟨hwriting, hfacts⟩ := hopened write' hsome
    have hslot' : write'.slot = slot := hfacts.slot.trans hslot
    have hdisk : disk₁.bytes slot = disk.bytes slot := by rw [Disk.bytes, Disk.bytes, hfiles]
    refine ⟨hwriting, hslot', ?_, ?_, ?_, ?_, ?_⟩
    · rw [hfacts.memo, ← hwrite]
    · rw [hfacts.spanStart, ← hwrite]
    · have hstart := hfacts.start
      rw [← hwrite] at hstart
      exact hstart
    · have hlength := hfacts.length
      rwa [hslot, hdisk, ← hslot'] at hlength
    · have hfile := hfacts.file
      rwa [hslot, hdisk, ← hslot'] at hfile

theorem eql_iff (key other : Key) : key.eql other = true ↔ key = other := by
  cases key
  cases other
  simp only [Key.eql, Bool.and_eq_true, beq_iff_eq, Key.mk.injEq, and_assoc]

theorem identical_iff [DecidableEq κ] (memo other : Memo κ) :
    memo.identical other = true ↔ memo = other := by
  cases memo
  cases other
  simp only [Memo.identical, Bool.and_eq_true, beq_iff_eq, eql_iff, Memo.mk.injEq, and_assoc]

/-- The memo that a request copied is its span's prefix. -/
def Fits (next : Memo κ) (copied : Option (Prefix H κ)) : Prop :=
  ∀ before, copied = some before → before.memo.length ≤ next.length

theorem appendOffset_le [DecidableEq κ] (h : Fits next copied) (held : Option (Memo κ)) :
    appendOffset held (copied.map Prefix.memo) ≤ next.length := by
  cases copied with
  | none => exact Nat.zero_le _
  | some before =>
    cases held with
    | none => exact Nat.zero_le _
    | some current =>
      rw [Option.map_some, appendOffset]
      split
      · exact h before rfl
      · exact Nat.zero_le _

/-- **A write begins, or keeps nothing, and the accounts hold.** -/
theorem begin_counted [DecidableEq κ] (hashing : Hashing H) (h : Counted now) (disk : Disk n)
    (next : Memo κ) (spanStart : Nat)
    (hheld : Table.stillHeld (now.held next.key.session) copied = true) (hfits : Fits next copied) :
    ∃ later disk' write,
      now.begin hashing disk next spanStart copied = some (later, disk', write) ∧
      Counted later ∧ Moves now disk later disk' ∧
      ∀ write', write = some write' → Writing later write' ∧
        (∀ slot, sessionSlot now.entries next.key.session = some slot → write'.slot = slot) ∧
        ∃ disk₁, Begun hashing disk₁ next spanStart
          (appendOffset (now.held next.key.session) (copied.map Prefix.memo)) copied write' disk' ∧
          ∀ slot memo, (now.entries slot).memo = some memo → disk₁.files slot = disk.files slot := by
  rw [Table.begin]
  by_cases hn : n = 0
  · rw [if_pos hn]
    exact ⟨now, disk, none, rfl, h, .refl now rfl rfl, fun _ hno => nomatch hno⟩
  · rw [if_neg hn]
    obtain ⟨mid, disk₁, hretry, hcounted, hmoves, hmemos⟩ :=
      retry_counted h disk (List.finRange n)
    have hslots := sessionSlot_congr hmemos next.key.session
    have hfiles : ∀ slot memo, (now.entries slot).memo = some memo →
        disk₁.files slot = disk.files slot := by
      intro slot memo hmemo
      exact (hmoves.memos slot memo (by rw [hmemos slot]; exact hmemo)).2
    have hheld' : ((sessionSlot now.entries next.key.session).bind fun slot =>
        (mid.entries slot).memo) = now.held next.key.session := by
      rw [Table.held]
      exact congrArg _ (funext fun slot => hmemos slot)
    simp only [hretry, Option.bind_eq_bind, Option.bind_some, hslots, hheld', hheld, if_true]
    by_cases hlong : mid.byteLimit < next.length
    · rw [if_pos hlong]
      cases hcurrent : sessionSlot now.entries next.key.session with
      | none => exact ⟨mid, disk₁, none, rfl, hcounted, hmoves, fun _ hno => nomatch hno⟩
      | some slot =>
        obtain ⟨later, disk₂, hgive, hcounted', hmoves'⟩ :=
          giveUp_counted (H := H) hcounted disk₁ slot
        exact ⟨later, disk₂, none, hgive, hcounted', hmoves.trans hmoves',
          fun _ hno => nomatch hno⟩
    · rw [if_neg hlong]
      obtain ⟨slot, hchoose⟩ := chooseSlot_isSome hn mid.entries next.key.session
      have hsession : ∀ other memo, other ≠ slot → (mid.entries other).memo = some memo →
          memo.key.session ≠ next.key.session := by
        intro other memo hne hmemo hsame
        cases hcurrent : sessionSlot mid.entries next.key.session with
        | none => exact sessionSlot_none hcurrent hmemo hsame
        | some current =>
          obtain ⟨memo', hmemo', hsame'⟩ := sessionSlot_some hcurrent
          have heq := hcounted.single other current memo memo' hmemo hmemo'
            (hsame.trans hsame'.symm)
          exact hne (heq.trans (chooseSlot_session hchoose hcurrent).symm)
      obtain ⟨later, disk₂, write, hbegin, hcounted', hmoves', hwrite⟩ :=
        beginAt_counted hashing hcounted disk₁ spanStart copied hsession
          (appendOffset_le hfits (now.held next.key.session))
      rw [hchoose]
      refine ⟨later, disk₂, write, hbegin, hcounted', hmoves.trans hmoves', ?_⟩
      intro write' hsome
      obtain ⟨hwriting, hslot, hbegun⟩ := hwrite write' hsome
      refine ⟨hwriting, ?_, disk₁, hbegun, hfiles⟩
      intro current hcurrent
      rw [hslot]
      exact chooseSlot_session hchoose (hslots.trans hcurrent)

/-! ## The other operations -/

theorem slotOf_some [DecidableEq κ] (h : now.slotOf memo = some slot) :
    (now.entries slot).memo = some memo ∧
      sessionSlot now.entries memo.key.session = some slot := by
  rw [Table.slotOf] at h
  obtain ⟨found, hfound, h⟩ := Option.bind_eq_some_iff.mp h
  obtain ⟨current, hcurrent, h⟩ := Option.bind_eq_some_iff.mp h
  split at h
  · rename_i hidentical
    obtain rfl := Option.some.inj h
    rw [identical_iff] at hidentical
    exact ⟨hidentical ▸ hcurrent, hfound⟩
  · cases h

/-- An operation leaves the slots without a memo, and their files. -/
def LeavesFree (now : Table n κ) (disk : Disk n) (later : Table n κ) (disk' : Disk n) : Prop :=
  ∀ slot, (now.entries slot).memo = none →
    later.entries slot = now.entries slot ∧ disk'.files slot = disk.files slot

theorem Dropped.leavesFree (h : Dropped now disk₁ slot later disk')
    (hmemo : (now.entries slot).memo = some memo) (hfiles : disk₁.files = disk.files) :
    LeavesFree now disk later disk' := by
  intro other hnone
  have hne : other ≠ slot := by
    rintro rfl
    exact nomatch hnone.symm.trans hmemo
  exact ⟨h.others other hne, (h.files other hne).trans (congrFun hfiles other)⟩

/-- A memo that is dropped, or not: what `forget` does to the table. -/
theorem forget_counted [DecidableEq κ] (h : Counted now) (disk : Disk n) (memo : Memo κ) :
    ∃ later disk', now.forget disk memo = some (later, disk') ∧ Counted later ∧
      Moves now disk later disk' ∧ LeavesFree now disk later disk' := by
  rw [Table.forget]
  cases hslot : now.slotOf memo with
  | none => exact ⟨now, disk, rfl, h, .refl now rfl rfl, fun _ _ => ⟨rfl, rfl⟩⟩
  | some slot =>
    obtain ⟨later, disk', hdrop, hdropped⟩ := drop_dropped (h.le_bytes slot) disk
    exact ⟨later, disk', hdrop, h.drop hdropped, hdropped.moves,
      hdropped.leavesFree (slotOf_some hslot).1 rfl⟩

theorem openFile_eq (disk : Disk n) (slot : Fin n) :
    ∃ opened, disk.openFile slot = (opened, disk.called) := by
  rw [Disk.openFile]
  cases disk.fates 0 with
  | ok => exact ⟨_, rfl⟩
  | failed left => exact ⟨_, rfl⟩

theorem length_eq (disk : Disk n) (slot : Fin n) :
    ∃ length, disk.length slot = (length, disk.called) ∧
      ∀ count, length = some count → count = (disk.bytes slot).length := by
  rw [Disk.length]
  cases disk.fates 0 with
  | ok => exact ⟨_, rfl, fun _ h => (Option.some.inj h).symm⟩
  | failed left => exact ⟨none, rfl, fun _ h => nomatch h⟩

/-- What an opened memo's file is known to be. -/
structure Opens [DecidableEq κ] (now : Table n κ) (disk : Disk n) (memo : Memo κ) (slot : Fin n)
    (later : Table n κ) (disk' : Disk n) : Prop where
  table : later = now
  files : disk'.files = disk.files
  found : now.slotOf memo = some slot
  length : (disk.bytes slot).length = memo.length

theorem openMemo_counted [DecidableEq κ] (h : Counted now) (disk : Disk n) (memo : Memo κ) :
    ∃ later disk' file, now.openMemo disk memo = some (later, disk', file) ∧ Counted later ∧
      Moves now disk later disk' ∧ LeavesFree now disk later disk' ∧
      ∀ slot, file = some slot → Opens now disk memo slot later disk' := by
  have hlose : ∀ (slot : Fin n) (disk₁ : Disk n), now.slotOf memo = some slot →
      disk₁.removed = disk.removed → disk₁.files = disk.files →
      ∃ later disk' file, now.lose disk₁ slot = some (later, disk', file) ∧
        Counted later ∧ Moves now disk later disk' ∧ LeavesFree now disk later disk' ∧
        ∀ slot, file = some slot → Opens now disk memo slot later disk' := by
    intro slot disk₁ hslot hremoved hfiles
    obtain ⟨later, disk', hdrop, hdropped⟩ := drop_dropped (h.le_bytes slot) disk₁
    refine ⟨later, disk', none, ?_, h.drop hdropped, ?_,
      hdropped.leavesFree (slotOf_some hslot).1 hfiles, fun _ hno => nomatch hno⟩
    · rw [Table.lose, hdrop]
      rfl
    · exact (Moves.refl now hremoved hfiles).trans hdropped.moves
  rw [Table.openMemo]
  cases hslot : now.slotOf memo with
  | none =>
    exact ⟨now, disk, none, rfl, h, .refl now rfl rfl, fun _ _ => ⟨rfl, rfl⟩,
      fun _ hno => nomatch hno⟩
  | some slot =>
    obtain ⟨opened, hopen⟩ := openFile_eq disk slot
    obtain ⟨length, hlength, hcount⟩ := length_eq disk.called slot
    simp only [hopen]
    cases opened with
    | false => exact hlose slot _ hslot rfl rfl
    | true =>
      simp only [hlength]
      by_cases hexact : length = some memo.length
      · rw [if_pos hexact]
        refine ⟨now, _, some slot, rfl, h, .refl now rfl rfl, fun _ _ => ⟨rfl, rfl⟩, ?_⟩
        rintro _ ⟨⟩
        exact ⟨rfl, rfl, hslot, (hcount _ hexact).symm⟩
      · rw [if_neg hexact]
        exact hlose slot _ hslot rfl rfl

/-- A chunk that fits leaves the table alone and goes on with its write. -/
structure Goes (write write' : Write n H κ) : Prop where
  slot : write'.slot = write.slot
  memo : write'.memo = write.memo
  spanStart : write'.spanStart = write.spanStart
  peak : write'.peak = write.peak
  written : write'.written ≤ write'.memo.length

theorem Goes.writing {write' : Write n H κ} (h : Goes write write') (hwriting : Writing now write) :
    Writing now write' := by
  refine ⟨?_, ?_, ?_, h.written, ?_⟩
  · rw [h.slot]
    exact hwriting.memo
  · rw [h.slot, h.peak]
    exact hwriting.peak
  · rw [h.memo, h.peak]
    exact hwriting.length
  · rw [h.memo]
    exact hwriting.session

theorem appendChunk_goes (hashing : Hashing H) (disk : Disk n)
    (hwritten : write.written ≤ write.memo.length) {bytes : List UInt8}
    (hbytes : bytes.length ≤ write.memo.length - write.written) : ∃ disk' write' wrote,
      Table.appendChunk hashing disk write bytes = some (disk', write', wrote) ∧
      Goes write write' ∧ Elsewhere disk write.slot disk' := by
  rw [Table.appendChunk, sub_eq hwritten]
  simp only [Option.bind_eq_bind, Option.bind_some]
  rw [if_pos hbytes, Disk.writePositionalAll]
  cases disk.fates 0 with
  | ok =>
    refine ⟨_, _, true, rfl, ⟨rfl, rfl, rfl, rfl, ?_⟩, .put disk write.slot _⟩
    show write.written + bytes.length ≤ write.memo.length
    omega
  | failed left => exact ⟨_, _, false, rfl, ⟨rfl, rfl, rfl, rfl, hwritten⟩, .put disk write.slot _⟩

theorem writeChunk_goes (hashing : Hashing H) (disk : Disk n)
    (hwritten : write.written ≤ write.memo.length) (request : List UInt8) (limit window : Nat) :
    ∃ disk' write' count,
      Table.writeChunk hashing disk write request limit window = some (disk', write', count) ∧
      Goes write write' ∧ Elsewhere disk write.slot disk' := by
  rw [Table.writeChunk, sub_eq hwritten]
  simp only [Option.bind_eq_bind, Option.bind_some]
  rw [Disk.readPositionalAll]
  cases disk.fates 0 with
  | failed left =>
    exact ⟨_, _, none, rfl, ⟨rfl, rfl, rfl, rfl, hwritten⟩, .called disk write.slot⟩
  | ok =>
    simp only
    generalize hread : (request.drop (write.spanStart + write.written)).take
      (min (min (write.memo.length - write.written) limit) window) = bytes
    by_cases hcount : bytes.length = min (min (write.memo.length - write.written) limit) window
    · rw [if_neg (not_not_intro hcount)]
      obtain ⟨disk', write', wrote, happend, hgoes, helsewhere⟩ :=
        appendChunk_goes hashing disk.called hwritten (show bytes.length ≤ _ by omega)
      rw [happend]
      exact ⟨_, _, _, rfl, hgoes, (Elsewhere.called disk write.slot).trans helsewhere⟩
    · rw [if_pos hcount]
      exact ⟨_, _, none, rfl, ⟨rfl, rfl, rfl, rfl, hwritten⟩, .called disk write.slot⟩

/-- What a commit does: its slot holds the memo and counts its length. -/
structure Committed (hashing : Hashing H) (now : Table n κ) (write : Write n H κ)
    (later : Table n κ) : Prop where
  limit : later.byteLimit = now.byteLimit
  memo : (later.entries write.slot).memo =
    some { write.memo with digest := hashing.final write.hasher }
  others : ∀ other, other ≠ write.slot → later.entries other = now.entries other

theorem commit_counted (hashing : Hashing H) (h : Counted now) (hwriting : Writing now write)
    (hdone : write.done = true) : ∃ later, now.commit hashing write = some later ∧ Counted later ∧
      Committed hashing now write later := by
  have hpeak := hwriting.peak
  have hlength := hwriting.length
  have hle := h.le_bytes write.slot
  rw [hpeak] at hle
  rw [Table.commit, if_pos hdone, sub_eq hlength]
  simp only [Option.bind_eq_bind, Option.bind_some]
  rw [sub_eq (show write.peak - write.memo.length ≤ now.bytes by omega)]
  generalize hentry : ({
    fileBytes := write.memo.length
    used := now.uses + 1
    memo := some { write.memo with digest := hashing.final write.hasher } } : Entry κ) = entry
  have hbytes : entry.fileBytes = write.memo.length := by rw [← hentry]
  have hmemo : entry.memo = some { write.memo with digest := hashing.final write.hasher } := by
    rw [← hentry]
  have hself : Function.update now.entries write.slot entry write.slot = entry :=
    Function.update_self ..
  have hothers : ∀ other, other ≠ write.slot →
      Function.update now.entries write.slot entry other = now.entries other :=
    fun other hne => Function.update_of_ne hne ..
  -- a memo of the new table is the written one, or an old one of another Session
  have hcases : ∀ slot memo, (Function.update now.entries write.slot entry slot).memo = some memo →
      slot = write.slot ∧ memo = { write.memo with digest := hashing.final write.hasher } ∨
        slot ≠ write.slot ∧ (now.entries slot).memo = some memo := by
    intro slot memo hsome
    by_cases heq : slot = write.slot
    · rw [heq, hself, hmemo] at hsome
      exact .inl ⟨heq, (Option.some.inj hsome).symm⟩
    · rw [hothers slot heq] at hsome
      exact .inr ⟨heq, hsome⟩
  refine ⟨_, rfl, ⟨?_, ?_, ?_, ?_⟩, rfl, (congrArg Entry.memo hself).trans hmemo, hothers⟩
  · have hsum := fileBytes_update now.entries write.slot entry
    have hnow := h.bytes
    show now.bytes - (write.peak - write.memo.length) =
      fileBytes (Function.update now.entries write.slot entry)
    omega
  · exact Nat.le_trans (Nat.sub_le _ _) h.limit
  · intro slot other memo memo' hslot hother hsame
    rcases hcases slot memo hslot with ⟨rfl, rfl⟩ | ⟨hne, hold⟩
    · rcases hcases other memo' hother with ⟨rfl, -⟩ | ⟨-, hold'⟩
      · rfl
      · exact absurd hsame.symm (hwriting.session other memo' hold')
    · rcases hcases other memo' hother with ⟨rfl, rfl⟩ | ⟨-, hold'⟩
      · exact absurd hsame (hwriting.session slot memo hold)
      · exact h.single slot other memo memo' hold hold' hsame
  · intro slot memo hslot
    show (Function.update now.entries write.slot entry slot).fileBytes = memo.length
    rcases hcases slot memo hslot with ⟨rfl, rfl⟩ | ⟨hne, hold⟩
    · rw [hself, hbytes]
    · rw [hothers slot hne]
      exact h.length slot memo hold

/-! ## Every run -/

/-- A table, the disk under it, and the write in progress, if one is. -/
structure Keeper (n : Nat) (H κ : Type) where
  table : Table n κ
  disk : Disk n
  writing : Option (Write n H κ)

/-- What is asked of a table. A file may also change behind it. -/
inductive Op (n : Nat) (H κ : Type)
  | held (session : List UInt8)
  | openMemo (memo : Memo κ)
  | forget (memo : Memo κ)
  | begin (next : Memo κ) (spanStart : Nat) (copied : Option (Prefix H κ))
  | writeChunk (request : List UInt8) (limit window : Nat)
  | appendChunk (bytes : List UInt8)
  | commit
  | abandon
  | damage (slot : Fin n) (file : Option (List UInt8))

variable [DecidableEq κ] (hashing : Hashing H)

/-- One operation, or `none` where the program would stop. -/
def Keeper.apply (self : Keeper n H κ) : Op n H κ → Option (Keeper n H κ)
  | .held _ => some self
  | .openMemo memo => do
    let (table, disk, _) ← self.table.openMemo self.disk memo
    some { self with table, disk }
  | .forget memo => do
    let (table, disk) ← self.table.forget self.disk memo
    some { self with table, disk }
  | .begin next spanStart copied => do
    let (table, disk, writing) ← self.table.begin hashing self.disk next spanStart copied
    some { table, disk, writing }
  | .writeChunk request limit window => do
    let write ← self.writing
    let (disk, write, _) ← Table.writeChunk hashing self.disk write request limit window
    some { self with disk, writing := some write }
  | .appendChunk bytes => do
    let write ← self.writing
    let (disk, write, _) ← Table.appendChunk hashing self.disk write bytes
    some { self with disk, writing := some write }
  | .commit => do
    let write ← self.writing
    let table ← self.table.commit hashing write
    some { self with table, writing := none }
  | .abandon => do
    let write ← self.writing
    let (table, disk) ← self.table.abandon self.disk write
    some { table, disk, writing := none }
  | .damage slot file => some { self with disk := self.disk.put slot file }

/-- What the callers promise: one write at a time, begun with a memo still held that is a prefix of
the new span, given bytes of the span alone, and committed when it is done. -/
def Allowed (now : Keeper n H κ) : Op n H κ → Prop
  | .begin next _ copied => now.writing = none ∧
      Table.stillHeld (now.table.held next.key.session) copied = true ∧ Fits next copied
  | .writeChunk .. => now.writing.isSome
  | .appendChunk bytes => ∃ write, now.writing = some write ∧
      bytes.length ≤ write.memo.length - write.written
  | .commit => ∃ write, now.writing = some write ∧ write.done = true
  | .abandon => now.writing.isSome
  | _ => True

/-- The accounts of a table and of the write in progress. -/
structure Sound (now : Keeper n H κ) : Prop where
  counted : Counted now.table
  writing : ∀ write, now.writing = some write → Writing now.table write

/-- What an operation does to the counted bytes of each slot: they go down where its removal was
confirmed during the operation, or as its write was committed. -/
def Releases (now : Keeper n H κ) (op : Op n H κ) (later : Keeper n H κ) : Prop :=
  ∃ new, later.disk.removed = now.disk.removed ++ new ∧
    ∀ slot, (later.table.entries slot).fileBytes < (now.table.entries slot).fileBytes →
      slot ∈ new ∨ op = .commit ∧ ∃ write, now.writing = some write ∧ write.slot = slot

variable {op : Op n H κ}

omit [DecidableEq κ] in
theorem Moves.releases {now later : Keeper n H κ}
    (h : Moves now.table now.disk later.table later.disk) : Releases now op later := by
  obtain ⟨new, hnew, hslots⟩ := h.removed
  exact ⟨new, hnew, fun slot hlt => .inl (hslots slot hlt)⟩

omit [DecidableEq κ] in
/-- Memos that only go leave a write in progress as it is, where its slot is not dropped. -/
theorem Writing.moves (h : Writing now write) (hmoves : Moves now disk later disk')
    (hslot : later.entries write.slot = now.entries write.slot) : Writing later write where
  memo := by
    rw [hslot]
    exact h.memo
  peak := by
    rw [hslot]
    exact h.peak
  length := h.length
  written := h.written
  session slot memo hmemo := h.session slot memo (hmoves.memos slot memo hmemo).1

/-- An empty table over any disk. -/
def Keeper.start (byteLimit : Nat) (disk : Disk n) : Keeper n H κ :=
  { table := { byteLimit }, disk, writing := none }

omit [DecidableEq κ] in
theorem start_sound (byteLimit : Nat) (disk : Disk n) :
    Sound (Keeper.start byteLimit disk : Keeper n H κ) where
  counted := {
    bytes := (Finset.sum_eq_zero fun _ _ => rfl).symm
    limit := Nat.zero_le _
    single := fun _ _ _ _ hno => nomatch hno
    length := fun _ _ hno => nomatch hno }
  writing _ hno := nomatch hno

/-- A hasher that adds up its bytes. -/
def Hashing.sums : Hashing Nat where
  init := 0
  update sum bytes := sum + (bytes.map UInt8.toNat).sum
  final sum := sum
  hash bytes := (bytes.map UInt8.toNat).sum
  final_updates pieces := by
    have hgo : ∀ (pieces : List (List UInt8)) (sum : Nat),
        pieces.foldl (fun sum bytes => sum + (bytes.map UInt8.toNat).sum) sum =
          sum + (pieces.flatten.map UInt8.toNat).sum := by
      intro pieces
      induction pieces with
      | nil => exact fun _ => rfl
      | cons bytes pieces ih =>
        intro sum
        rw [List.foldl_cons, ih, List.flatten_cons, List.map_append, List.sum_append,
          Nat.add_assoc]
    rw [hgo, Nat.zero_add]

end Rui.HistoryMemo
