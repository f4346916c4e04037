import Rui.HistoryMemo.Span
import Rui.HistoryMemo.TableLaws

/-!
# A memo's file is the span it stands for

Through every chunk the file holds the span's first bytes and the hasher has
seen exactly these, whether the write started over or behind a copied memo;
so a commit leaves the span in the file and its hash in the table, and what is
copied later is that span.
-/

namespace Rui.HistoryMemo

open Library

variable {n : Nat} {H κ : Type}

/-! ## Digest states -/

/-- A digest state that has seen these bytes, in some pieces. -/
def Hashed (hashing : Hashing H) (hasher : H) (bytes : List UInt8) : Prop :=
  ∃ pieces : List (List UInt8), pieces.foldl hashing.update hashing.init = hasher ∧
    pieces.flatten = bytes

variable {hashing : Hashing H}

theorem Hashed.init : Hashed hashing hashing.init [] := ⟨[], rfl, rfl⟩

variable {hasher : H} {bytes content copied rest : List UInt8} {disk disk' : Disk n} {key : Key}
  {admission count : Nat} {limits : List Nat} {write : Write n H κ} {memo : Memo κ}
  {now later : Preparation n H κ} {table : Table n κ}

theorem Hashed.update (h : Hashed hashing hasher bytes) (more : List UInt8) :
    Hashed hashing (hashing.update hasher more) (bytes ++ more) := by
  obtain ⟨pieces, rfl, rfl⟩ := h
  exact ⟨pieces ++ [more], by simp, by simp⟩

theorem Hashed.final (h : Hashed hashing hasher bytes) :
    hashing.final hasher = hashing.hash bytes := by
  obtain ⟨pieces, rfl, rfl⟩ := h
  exact hashing.final_updates pieces

/-! ## Copies -/

theorem eq_of_append_length (h : content = copied ++ rest)
    (hlength : copied.length = content.length) : copied = content := by
  rw [h, List.length_append] at hlength
  rw [h, List.eq_nil_of_length_eq_zero (by omega : rest.length = 0), List.append_nil]

/-- What a copy ends with, it read from the file in order. By induction over the reads. -/
theorem advanceMemoCopy_copied (slot : Fin n) (limits : List Nat)
    (hcontent : content = copied ++ rest) (hdisk : disk.bytes slot = content)
    (hhashed : Hashed hashing hasher copied) :
    ∃ ended disk', advanceMemoCopy hashing slot content.length limits disk hasher copied =
        (ended, disk') ∧ disk'.files = disk.files ∧ disk'.removed = disk.removed ∧
      ∀ hasher' bytes, ended = .copied hasher' bytes →
        bytes = content ∧ Hashed hashing hasher' content := by
  induction limits generalizing disk hasher copied rest with
  | nil =>
    rw [advanceMemoCopy]
    refine ⟨_, _, rfl, rfl, rfl, fun hasher' bytes hcopied => ?_⟩
    split at hcopied
    · rename_i hlength
      cases hcopied
      have hall := eq_of_append_length hcontent hlength
      exact ⟨hall, hall ▸ hhashed⟩
    · cases hcopied
  | cons limit limits ih =>
    rw [advanceMemoCopy]
    by_cases hlength : copied.length = content.length
    · rw [if_pos hlength]
      refine ⟨_, _, rfl, rfl, rfl, ?_⟩
      rintro _ _ ⟨⟩
      have hall := eq_of_append_length hcontent hlength
      exact ⟨hall, hall ▸ hhashed⟩
    · rw [if_neg hlength, Disk.readPositionalAll]
      cases disk.fates 0 with
      | failed left => exact ⟨.lost, _, rfl, rfl, rfl, fun _ _ hno => (by cases hno)⟩
      | ok =>
        have hread : (disk.bytes slot).drop copied.length = rest := by
          rw [hdisk, hcontent, List.drop_left]
        simp only [hread]
        generalize min limit (content.length - copied.length) = count
        by_cases hnil : rest.take count = []
        · rw [if_pos hnil]
          exact ⟨.lost, _, rfl, rfl, rfl, fun _ _ hno => (by cases hno)⟩
        · rw [if_neg hnil]
          have hsplit : content = copied ++ rest.take count ++ rest.drop count := by
            rw [List.append_assoc, List.take_append_drop, hcontent]
          exact ih hsplit hdisk (hhashed.update _)

/-- A memo serves its own key alone, and a view that contains its own. -/
theorem serves_iff (memo : Memo κ) (key : Key) (admission : Nat) :
    memo.serves key admission = true ↔ memo.key = key ∧ memo.admissionPosition ≤ admission := by
  rw [Memo.serves, Bool.and_eq_true, eql_iff, decide_eq_true_iff]

/-- What a preparation copied. -/
structure Copies (hashing : Hashing H) (now : Table n κ) (disk : Disk n) (key : Key)
    (admission : Nat) (before : Prefix H κ) (bytes : List UInt8) (later : Table n κ)
    (disk' : Disk n) : Prop where
  key : before.memo.key = key
  admission : before.memo.admissionPosition ≤ admission
  hashed : Hashed hashing before.hasher bytes
  length : bytes.length = before.memo.length
  held : ∃ slot, (now.entries slot).memo = some before.memo ∧ disk.bytes slot = bytes
  table : later = now
  files : disk'.files = disk.files

theorem startSpan_copies [DecidableEq κ] {now later : Table n κ} (h : Counted now)
    {copied : Option (Prefix H κ × List UInt8)}
    (hstart : startSpan hashing now disk key admission limits = some (later, disk', copied)) :
    Counted later ∧ Moves now disk later disk' ∧ ∀ before bytes, copied = some (before, bytes) →
      Copies hashing now disk key admission before bytes later disk' := by
  rw [startSpan] at hstart
  cases hheld : now.held key.session with
  | none =>
    rw [hheld] at hstart
    cases hstart
    exact ⟨h, .refl now rfl rfl, fun _ _ hno => (by cases hno)⟩
  | some memo =>
    rw [hheld] at hstart
    by_cases hserves : memo.serves key admission = true
    · simp only [hserves, if_true] at hstart
      obtain ⟨mid, disk₁, file, hopen, hcounted, hmoves, -, hopens⟩ :=
        openMemo_counted h disk memo
      simp only [hopen, Option.bind_eq_bind, Option.bind_some] at hstart
      cases file with
      | none =>
        cases hstart
        exact ⟨hcounted, hmoves, fun _ _ hno => (by cases hno)⟩
      | some slot =>
        obtain ⟨rfl, hfiles, hfound, hlength⟩ := hopens slot rfl
        obtain ⟨hmemo, -⟩ := slotOf_some hfound
        have hbytes : disk₁.bytes slot = disk.bytes slot := by rw [Disk.bytes, Disk.bytes, hfiles]
        obtain ⟨ended, disk₂, hcopy, hfiles', hremoved', hcopied⟩ :=
          advanceMemoCopy_copied slot limits (List.nil_append (disk.bytes slot)).symm hbytes
            (show Hashed hashing hashing.init [] from .init)
        simp only [← hlength, hcopy] at hstart
        have hmoves' : Moves mid disk mid disk₂ := hmoves.trans (.refl mid hremoved' hfiles')
        have hlose : ∀ {later disk' copied}, ((mid.forget disk₂ memo).bind fun r =>
            some (r.1, r.2, (none : Option (Prefix H κ × List UInt8)))) =
              some (later, disk', copied) →
            Counted later ∧ Moves mid disk later disk' ∧ copied = none := by
          intro later disk' copied hforget
          obtain ⟨table, disk₃, hforget', hcounted', hmoves₂, -⟩ := forget_counted hcounted disk₂ memo
          rw [hforget'] at hforget
          cases hforget
          exact ⟨hcounted', hmoves'.trans hmoves₂, rfl⟩
        cases ended with
        | unfinished =>
          cases hstart
          exact ⟨hcounted, hmoves', fun _ _ hno => (by cases hno)⟩
        | lost =>
          obtain ⟨hcounted', hmoves₂, rfl⟩ := hlose hstart
          exact ⟨hcounted', hmoves₂, fun _ _ hno => (by cases hno)⟩
        | copied hasher bytes =>
          obtain ⟨rfl, hhashed⟩ := hcopied hasher bytes rfl
          by_cases hdigest : hashing.final hasher = memo.digest
          · simp only [if_pos hdigest] at hstart
            cases hstart
            refine ⟨hcounted, hmoves', ?_⟩
            rintro _ _ ⟨⟩
            obtain ⟨hkey, hadmission⟩ := (serves_iff memo key admission).mp hserves
            exact ⟨hkey, hadmission, hhashed, hlength, ⟨slot, hmemo, rfl⟩, rfl,
              hfiles'.trans hfiles⟩
          · simp only [if_neg hdigest] at hstart
            obtain ⟨hcounted', hmoves₂, rfl⟩ := hlose hstart
            exact ⟨hcounted', hmoves₂, fun _ _ hno => (by cases hno)⟩
    · simp only [hserves] at hstart
      cases hstart
      exact ⟨h, .refl now rfl rfl, fun _ _ hno => (by cases hno)⟩

/-! ## Chunks -/

/-- A span's file and digest state, as far as it is written. -/
structure Keeps (hashing : Hashing H) (disk : Disk n) (kept : Keeping n H κ) : Prop where
  file : disk.files kept.write.slot = some (kept.span.take kept.write.written)
  hashed : Hashed hashing kept.write.hasher (kept.span.take kept.write.written)

/-- The window of the request behind what is written. -/
def Keeping.window (kept : Keeping n H κ) (count : Nat) : List UInt8 :=
  (kept.request.drop (kept.write.spanStart + kept.write.written)).take count

theorem Keeping.window_eq (kept : Keeping n H κ)
    (h : kept.write.written + count ≤ kept.write.memo.length) :
    kept.span.take (kept.write.written + count) =
      kept.span.take kept.write.written ++ kept.window count := by
  have hwithin : count ≤ kept.write.memo.length - kept.write.written := by omega
  rw [List.take_add, Keeping.window, Keeping.span, List.drop_take, List.drop_drop]
  congr 1
  rw [List.take_take, Nat.min_eq_left hwithin]

/-- **A chunk extends the file and the digest state by the same bytes.** -/
theorem appendChunk_keeps {kept : Keeping n H κ} {wrote : Bool} (h : Keeps hashing disk kept)
    (hspan : kept.span.length = kept.write.memo.length)
    (hcount : kept.write.written + count ≤ kept.write.memo.length)
    (happend : Table.appendChunk hashing disk kept.write (kept.window count) =
      some (disk', write, wrote)) (hwrote : wrote = true) (failed : Bool) :
    Keeps hashing disk' { kept with write, failed } := by
  have hlength : (kept.window count).length = count := by
    have hboth := congrArg List.length (kept.window_eq hcount)
    rw [List.length_append, List.length_take, List.length_take, hspan] at hboth
    omega
  rw [Table.appendChunk, sub_eq (by omega : kept.write.written ≤ kept.write.memo.length)]
    at happend
  simp only [Option.bind_eq_bind, Option.bind_some] at happend
  rw [if_pos (by omega), Disk.writePositionalAll] at happend
  cases hfate : disk.fates 0 with
  | failed left =>
    rw [hfate] at happend
    cases happend
    cases hwrote
  | ok =>
    rw [hfate] at happend
    cases happend
    have hfile : disk.bytes kept.write.slot = kept.span.take kept.write.written := by
      rw [Disk.bytes, h.file]
      rfl
    have hwritten : (kept.span.take kept.write.written).length = kept.write.written := by
      rw [List.length_take, hspan]
      omega
    have hnext : kept.span.take (kept.write.written + (kept.window count).length) =
        kept.span.take kept.write.written ++ kept.window count := by
      rw [hlength]
      exact kept.window_eq hcount
    constructor
    · show (disk.called.put kept.write.slot _).files kept.write.slot =
        some (kept.span.take (kept.write.written + (kept.window count).length))
      rw [put_files, hnext, hfile, List.take_of_length_le (Nat.le_of_eq hwritten), hwritten,
        Nat.sub_self, List.replicate_zero, List.append_nil, List.drop_eq_nil_of_le (by omega),
        List.append_nil]
    · show Hashed hashing (hashing.update kept.write.hasher (kept.window count))
        (kept.span.take (kept.write.written + (kept.window count).length))
      rw [hnext]
      exact h.hashed.update _

theorem writeChunk_keeps {kept : Keeping n H κ} {limit window : Nat} {count : Option Nat}
    (h : Keeps hashing disk kept) (hspan : kept.span.length = kept.write.memo.length)
    (hwritten : kept.write.written ≤ kept.write.memo.length)
    (hchunk : Table.writeChunk hashing disk kept.write kept.request limit window =
      some (disk', write, count)) (hcount : count.isNone = false) (failed : Bool) :
    Keeps hashing disk' { kept with write, failed } := by
  rw [Table.writeChunk, sub_eq hwritten] at hchunk
  simp only [Option.bind_eq_bind, Option.bind_some] at hchunk
  generalize hmin : min (min (kept.write.memo.length - kept.write.written) limit) window = most
    at hchunk
  rw [Disk.readPositionalAll] at hchunk
  cases hfate : disk.fates 0 with
  | failed left =>
    rw [hfate] at hchunk
    cases hchunk
    cases hcount
  | ok =>
    rw [hfate] at hchunk
    simp only at hchunk
    by_cases hread : ((kept.request.drop (kept.write.spanStart + kept.write.written)).take
        most).length = most
    · rw [if_neg (not_not_intro hread)] at hchunk
      obtain ⟨⟨disk₁, write₁, wrote⟩, happend, hchunk⟩ := Option.bind_eq_some_iff.mp hchunk
      cases wrote with
      | false =>
        cases hchunk
        cases hcount
      | true =>
        cases hchunk
        have hcalled : Keeps hashing disk.called kept := ⟨h.file, h.hashed⟩
        exact appendChunk_keeps hcalled hspan (by omega) happend rfl failed
    · rw [if_pos hread] at hchunk
      cases hchunk
      cases hcount

/-! ## Every step -/

variable [DecidableEq κ]

abbrev SpanEvent (n : Nat) (H κ : Type) := Step (Preparation n H κ) (SpanStep n H κ)

/-- The memo that a commit keeps: its facts, and the hash of its span. -/
def Keeping.kept (hashing : Hashing H) (self : Keeping n H κ) : Memo κ :=
  { self.write.memo with digest := hashing.hash self.span }

/-- A memo was kept by a commit of the history, whose span its file still is. -/
def Stands (hashing : Hashing H) (history : List (SpanEvent n H κ)) (disk : Disk n)
    (slot : Fin n) (memo : Memo κ) : Prop :=
  ∃ e ∈ history, ∃ kept, e.label = .commit kept ∧ memo = kept.kept hashing ∧
    kept.span.length = memo.length ∧ disk.files slot = some kept.span

/-- A span in progress was begun by a step of the history: this memo, at this offset of this
request. -/
def Began (history : List (SpanEvent n H κ)) (kept : Keeping n H κ) : Prop :=
  ∃ e ∈ history, ∃ begun, e.label = .begin kept.write.memo ∧ e.after.keeping = some begun ∧
    begun.request = kept.request ∧ begun.write.spanStart = kept.write.spanStart

/-- What a preparation knows of its table, its copy, and the span it keeps. -/
structure SpanInv (hashing : Hashing H) (history : List (SpanEvent n H κ))
    (now : Preparation n H κ) : Prop where
  counted : Counted now.table
  stands : ∀ slot memo, (now.table.entries slot).memo = some memo →
    Stands hashing history now.disk slot memo
  copied : ∀ before bytes, now.copied = some (before, bytes) →
    Hashed hashing before.hasher bytes ∧ bytes.length = before.memo.length ∧
      ∀ slot, (now.table.entries slot).memo = some before.memo →
        now.disk.files slot = some bytes
  alone : ∀ kept, now.keeping = some kept → now.copied = none
  keeping : ∀ kept, now.keeping = some kept → Writing now.table kept.write ∧
    kept.span.length = kept.write.memo.length ∧ Began history kept ∧
    (kept.failed = false → Keeps hashing now.disk kept)

variable {history : List (SpanEvent n H κ)}

omit [DecidableEq κ] in
theorem Stands.mono {slot : Fin n} (h : Stands hashing history disk slot memo)
    (hfiles : disk'.files slot = disk.files slot) (e : SpanEvent n H κ) :
    Stands hashing (history ++ [e]) disk' slot memo := by
  obtain ⟨e', he', kept, hlabel, hmemo, hlength, hfile⟩ := h
  exact ⟨e', List.mem_append_left _ he', kept, hlabel, hmemo, hlength, hfiles.trans hfile⟩

omit [DecidableEq κ] in
theorem Began.mono {kept : Keeping n H κ} (h : Began history kept) (e : SpanEvent n H κ) :
    Began (history ++ [e]) kept := by
  obtain ⟨e', he', begun, hlabel, hafter, hrequest, hstart⟩ := h
  exact ⟨e', List.mem_append_left _ he', begun, hlabel, hafter, hrequest, hstart⟩

omit [DecidableEq κ] in
theorem SpanInv.moves (h : SpanInv hashing history now) (hcounted : Counted table)
    (hmoves : Moves now.table now.disk table disk)
    (hfree : LeavesFree now.table now.disk table disk) (e : SpanEvent n H κ) :
    SpanInv hashing (history ++ [e]) { now with table, disk } where
  counted := hcounted
  stands slot memo hmemo := by
    obtain ⟨hold, hfiles⟩ := hmoves.memos slot memo hmemo
    exact (h.stands slot memo hold).mono hfiles e
  copied before bytes hcopied := by
    obtain ⟨hhashed, hlength, hfile⟩ := h.copied before bytes hcopied
    refine ⟨hhashed, hlength, fun slot hmemo => ?_⟩
    obtain ⟨hold, hfiles⟩ := hmoves.memos slot _ hmemo
    exact hfiles.trans (hfile slot hold)
  alone := h.alone
  keeping kept hkept := by
    obtain ⟨hwriting, hspan, hbegan, hkeeps⟩ := h.keeping kept hkept
    obtain ⟨hentry, hfiles⟩ := hfree kept.write.slot hwriting.memo
    refine ⟨hwriting.moves hmoves hentry, hspan, hbegan.mono e, fun hgoing => ?_⟩
    obtain ⟨hfile, hhashed⟩ := hkeeps hgoing
    exact ⟨hfiles.trans hfile, hhashed⟩

omit [DecidableEq κ] in
theorem SpanInv.chunk (h : SpanInv hashing history now) {kept : Keeping n H κ}
    (hkept : now.keeping = some kept) {failed : Bool} (hgoes : Goes kept.write write)
    (helsewhere : Elsewhere now.disk kept.write.slot disk)
    (hkeeps : failed = false → Keeps hashing disk { kept with write, failed }) (e : SpanEvent n H κ) :
    SpanInv hashing (history ++ [e])
      { now with disk, keeping := some { kept with write, failed } } := by
  obtain ⟨hwriting, hspan, hbegan, -⟩ := h.keeping kept hkept
  have hother : ∀ slot memo, (now.table.entries slot).memo = some memo →
      disk.files slot = now.disk.files slot := by
    intro slot memo hmemo
    apply helsewhere.files
    rintro rfl
    exact nomatch hwriting.memo.symm.trans hmemo
  constructor
  case counted => exact h.counted
  case stands =>
    intro slot memo hmemo
    exact (h.stands slot memo hmemo).mono (hother slot memo hmemo) e
  case copied =>
    intro before bytes hcopied
    obtain ⟨hhashed, hlength, hfile⟩ := h.copied before bytes hcopied
    exact ⟨hhashed, hlength, fun slot hmemo => (hother slot _ hmemo).trans (hfile slot hmemo)⟩
  case alone => exact fun _ _ => h.alone kept hkept
  case keeping =>
    rintro _ ⟨⟩
    refine ⟨hgoes.writing hwriting, ?_, ?_, hkeeps⟩
    · show ((kept.request.drop write.spanStart).take write.memo.length).length = write.memo.length
      rw [hgoes.spanStart, hgoes.memo]
      exact hspan
    · obtain ⟨e', he', begun, hlabel, hafter, hrequest, hstart⟩ := hbegan.mono e
      exact ⟨e', he', begun, hlabel.trans (congrArg _ hgoes.memo.symm), hafter, hrequest,
        hstart.trans hgoes.spanStart.symm⟩

/-- A begin that answers asserted that the copied memo is still held. -/
theorem begin_stillHeld {now : Table n κ} (h : Counted now) (hn : n ≠ 0) {next : Memo κ}
    {spanStart : Nat} {copied : Option (Prefix H κ)}
    {result : Table n κ × Disk n × Option (Write n H κ)}
    (hbegin : now.begin hashing disk next spanStart copied = some result) :
    Table.stillHeld (now.held next.key.session) copied = true := by
  obtain ⟨mid, disk₁, hretry, -, -, hmemos⟩ := retry_counted h disk (List.finRange n)
  have hheld : ((sessionSlot mid.entries next.key.session).bind fun slot =>
      (mid.entries slot).memo) = now.held next.key.session := by
    rw [Table.held, sessionSlot_congr hmemos]
    exact congrArg _ (funext fun slot => hmemos slot)
  rw [Table.begin, if_neg hn] at hbegin
  simp only [hretry, Option.bind_eq_bind, Option.bind_some, hheld] at hbegin
  apply Decidable.byContradiction
  intro hno
  rw [if_neg hno] at hbegin
  cases hbegin

/-- An offset to append at is the copied memo's length, where that memo is held. -/
theorem appendOffset_pos {held : Option (Memo κ)} {copied : Option (Memo κ)}
    (h : appendOffset held copied ≠ 0) :
    ∃ memo, held = some memo ∧ copied = some memo ∧ appendOffset held copied = memo.length := by
  cases copied with
  | none => exact absurd rfl h
  | some memo =>
    cases held with
    | none => exact absurd rfl h
    | some current =>
      rw [appendOffset] at h ⊢
      by_cases hsame : current.identical memo = true
      · obtain rfl := (identical_iff current memo).mp hsame
        exact ⟨current, rfl, rfl, if_pos hsame⟩
      · rw [if_neg hsame] at h
        exact absurd rfl h

omit [DecidableEq κ] in
theorem held_some {now : Table n κ} {session : List UInt8} (h : now.held session = some memo) :
    ∃ slot, sessionSlot now.entries session = some slot ∧
      (now.entries slot).memo = some memo := Option.bind_eq_some_iff.mp h

/-- **A write that begins keeps the span's first bytes**: those of the copied memo, or none. -/
theorem begin_keeps (h : SpanInv hashing history now) {next : Memo κ}
    (front written behind : List UInt8)
    (hlength : next.length = (((now.copied.map Prod.snd).getD []) ++ written).length)
    {disk₁ : Disk n}
    (hslot : ∀ slot, sessionSlot now.table.entries next.key.session = some slot → write.slot = slot)
    (hbegun : Begun hashing disk₁ next front.length
      (appendOffset (now.table.held next.key.session)
        ((now.copied.map Prod.fst).map Prefix.memo)) (now.copied.map Prod.fst) write disk')
    (hfiles : ∀ slot memo, (now.table.entries slot).memo = some memo →
      disk₁.files slot = now.disk.files slot) :
    (⟨write, front ++ (((now.copied.map Prod.snd).getD []) ++ written) ++ behind, false⟩ :
        Keeping n H κ).span = ((now.copied.map Prod.snd).getD []) ++ written ∧
      Keeps hashing disk'
        ⟨write, front ++ (((now.copied.map Prod.snd).getD []) ++ written) ++ behind, false⟩ := by
  have hspan : (⟨write, front ++ (((now.copied.map Prod.snd).getD []) ++ written) ++ behind,
      false⟩ : Keeping n H κ).span = ((now.copied.map Prod.snd).getD []) ++ written := by
    show ((front ++ (_ ++ written) ++ behind).drop write.spanStart).take write.memo.length = _
    rw [hbegun.spanStart, hbegun.memo, hlength, List.append_assoc, List.drop_left, List.take_left]
  refine ⟨hspan, ?_⟩
  have hover : write.written = 0 → write.hasher = hashing.init → Keeps hashing disk'
      ⟨write, front ++ (((now.copied.map Prod.snd).getD []) ++ written) ++ behind, false⟩ := by
    intro hzero hhasher
    constructor
    · show disk'.files write.slot = some (List.take write.written _)
      rw [hbegun.file, hzero]
      rfl
    · show Hashed hashing write.hasher (List.take write.written _)
      rw [hhasher, hzero]
      exact .init
  rcases hbegun.start with ⟨hwritten, hhasher⟩ | ⟨hzero, hhasher⟩
  · by_cases happend : appendOffset (now.table.held next.key.session)
        ((now.copied.map Prod.fst).map Prefix.memo) = 0
    · rw [if_neg (not_not_intro happend)] at hhasher
      exact hover (hwritten.trans happend) hhasher
    · rw [if_pos happend] at hhasher
      obtain ⟨memo, hheld, hcopied, hoffset⟩ := appendOffset_pos happend
      cases hnow : now.copied with
      | none =>
        rw [hnow] at hcopied
        cases hcopied
      | some pair =>
        obtain ⟨before, bytes⟩ := pair
        rw [hnow] at hcopied hhasher hspan
        obtain rfl := Option.some.inj hcopied
        obtain ⟨hhashed, hbytes, hfile⟩ := h.copied before bytes hnow
        obtain ⟨slot, hfound, hmemo⟩ := held_some hheld
        have hfile' : disk₁.bytes write.slot = bytes := by
          rw [hslot slot hfound, Disk.bytes, hfiles slot _ hmemo, hfile slot hmemo]
          rfl
        have hall : write.written = bytes.length := (hwritten.trans hoffset).trans hbytes.symm
        have htake : List.take write.written (bytes ++ written) = bytes := by
          rw [hall, List.take_left]
        constructor
        · show disk'.files write.slot = some (List.take write.written (Keeping.span _))
          rw [hspan]
          show _ = some (List.take write.written (bytes ++ written))
          rw [htake, hbegun.file, hfile', hall, List.take_length]
        · show Hashed hashing write.hasher (List.take write.written (Keeping.span _))
          rw [hspan]
          show Hashed hashing write.hasher (List.take write.written (bytes ++ written))
          rw [htake, hhasher]
          exact hhashed
  · exact hover hzero hhasher

theorem SpanInv.begin (h : SpanInv hashing history now) {next : Memo κ}
    {write : Option (Write n H κ)} (front written behind : List UInt8)
    (hlength : next.length = (((now.copied.map Prod.snd).getD []) ++ written).length)
    (hbegin : now.table.begin hashing now.disk next front.length (now.copied.map Prod.fst) =
      some (table, disk, write))
    (hlater : later = { table, disk, copied := none, keeping := write.map fun write =>
      ⟨write, front ++ (((now.copied.map Prod.snd).getD []) ++ written) ++ behind, false⟩ }) :
    SpanInv hashing (history ++ [⟨now, .begin next, later⟩]) later := by
  subst hlater
  have hstands : ∀ {table : Table n κ} {disk : Disk n}, Moves now.table now.disk table disk →
      ∀ e slot memo, (table.entries slot).memo = some memo →
        Stands hashing (history ++ [e]) disk slot memo := by
    intro table disk hmoves e slot memo hmemo
    obtain ⟨hold, hfiles⟩ := hmoves.memos slot memo hmemo
    exact (h.stands slot memo hold).mono hfiles e
  by_cases hn : n = 0
  · rw [Table.begin, if_pos hn] at hbegin
    cases hbegin
    exact ⟨h.counted, hstands (.refl _ rfl rfl) _, by intros; contradiction,
      by intros; contradiction, by intros; contradiction⟩
  · have hfits : Fits next (now.copied.map Prod.fst) := by
      intro before hbefore
      cases hnow : now.copied with
      | none =>
        rw [hnow] at hbefore
        cases hbefore
      | some pair =>
        obtain ⟨before', bytes⟩ := pair
        rw [hnow] at hbefore hlength
        obtain rfl := Option.some.inj hbefore
        rw [← (h.copied before' bytes hnow).2.1, hlength]
        show bytes.length ≤ (bytes ++ written).length
        rw [List.length_append]
        exact Nat.le_add_right _ _
    obtain ⟨table', disk', write', hbegin', hcounted, hmoves, hwrite⟩ :=
      begin_counted hashing h.counted now.disk next front.length
        (begin_stillHeld h.counted hn hbegin) hfits
    obtain ⟨rfl, rfl, rfl⟩ : table' = table ∧ disk' = disk ∧ write' = write := by
      have := Option.some.inj (hbegin'.symm.trans hbegin)
      exact ⟨congrArg Prod.fst this, congrArg (·.2.1) this, congrArg (·.2.2) this⟩
    refine ⟨hcounted, hstands hmoves _, by intros; contradiction, fun _ _ => rfl, ?_⟩
    intro kept hkept
    cases write' with
    | none => cases hkept
    | some write =>
      obtain rfl := Option.some.inj hkept
      obtain ⟨hwriting, hslot, disk₁, hbegun, hfiles⟩ := hwrite write rfl
      obtain ⟨hspan, hkeeps⟩ := begin_keeps h front written behind hlength hslot hbegun hfiles
      refine ⟨hwriting, ?_, ?_, fun _ => hkeeps⟩
      · rw [hspan, ← hlength]
        exact (congrArg Memo.length hbegun.memo).symm
      · exact ⟨_, List.mem_append_right _ (List.mem_singleton_self _), _,
          congrArg _ hbegun.memo.symm, rfl, rfl, rfl⟩

section

variable (h : SpanInv hashing history now)

include h

omit [DecidableEq κ] in
/-- **A commit keeps the span**: its file is the span, and its digest the span's hash. -/
theorem commit_kept {kept : Keeping n H κ}
    (hkept : now.keeping = some kept) (hgoing : kept.failed = false)
    (hcommit : now.table.commit hashing kept.write = some table) :
    Counted table ∧ (table.entries kept.write.slot).memo = some (kept.kept hashing) ∧
      (∀ other, other ≠ kept.write.slot → table.entries other = now.table.entries other) ∧
      now.disk.files kept.write.slot = some kept.span := by
  obtain ⟨hwriting, hspan, -, hkeeps⟩ := h.keeping kept hkept
  have hdone : kept.write.done = true := by
    apply Decidable.byContradiction
    intro hno
    rw [Table.commit, if_neg hno] at hcommit
    cases hcommit
  have hall : kept.span.take kept.write.written = kept.span := by
    apply List.take_of_length_le
    rw [hspan, ← beq_iff_eq.mp hdone]
  obtain ⟨hfile, hhashed⟩ := hkeeps hgoing
  rw [hall] at hfile hhashed
  obtain ⟨table', hcommit', hcounted, hcommitted⟩ :=
    commit_counted hashing h.counted hwriting hdone
  obtain rfl := Option.some.inj (hcommit'.symm.trans hcommit)
  refine ⟨hcounted, ?_, hcommitted.others, hfile⟩
  rw [hcommitted.memo, hhashed.final]
  rfl

omit [DecidableEq κ] in
theorem SpanInv.commit {kept : Keeping n H κ}
    (hkept : now.keeping = some kept) (hgoing : kept.failed = false)
    (hcommit : now.table.commit hashing kept.write = some table) (later : Preparation n H κ)
    (hlater : later = { now with table, keeping := none }) :
    SpanInv hashing (history ++ [⟨now, .commit kept, later⟩]) later := by
  subst hlater
  obtain ⟨hcounted, hmemo, hothers, hfile⟩ := commit_kept h hkept hgoing hcommit
  have hcopied := h.alone kept hkept
  refine ⟨hcounted, ?_, ?_, nofun, nofun⟩
  · intro slot memo hsome
    by_cases heq : slot = kept.write.slot
    · subst heq
      obtain rfl := Option.some.inj (hmemo.symm.trans hsome)
      exact ⟨_, List.mem_append_right _ (List.mem_singleton_self _), kept, rfl, rfl,
        (h.keeping kept hkept).2.1, hfile⟩
    · rw [hothers slot heq] at hsome
      exact (h.stands slot memo hsome).mono rfl _
  · intro before bytes hsome
    exact nomatch hcopied.symm.trans hsome

omit [DecidableEq κ] in
theorem SpanInv.abandon {kept : Keeping n H κ}
    (hkept : now.keeping = some kept)
    (habandon : now.table.abandon now.disk kept.write = some (table, disk)) (e : SpanEvent n H κ) :
    SpanInv hashing (history ++ [e]) { now with table, disk, keeping := none } := by
  obtain ⟨later, disk', hdrop, hdropped⟩ :=
    drop_dropped (h.counted.le_bytes kept.write.slot) now.disk
  cases hdrop.symm.trans habandon
  refine ⟨h.counted.drop hdropped, ?_, ?_, nofun, nofun⟩
  · intro slot memo hmemo
    obtain ⟨hold, hfiles⟩ := hdropped.moves.memos slot memo hmemo
    exact (h.stands slot memo hold).mono hfiles e
  · intro before bytes hsome
    exact nomatch (h.alone kept hkept).symm.trans hsome

/-- What a preparation copied is the span of the memo it copied. -/
theorem SpanInv.copy {copied : Option (Prefix H κ × List UInt8)}
    (hfree : now.keeping = none)
    (hstart : startSpan hashing now.table now.disk key admission limits =
      some (table, disk, copied)) (e : SpanEvent n H κ) :
    SpanInv hashing (history ++ [e]) { now with table, disk, copied } := by
  obtain ⟨hcounted, hmoves, hcopies⟩ := startSpan_copies h.counted hstart
  refine ⟨hcounted, ?_, ?_, ?_, ?_⟩
  · intro slot memo hmemo
    obtain ⟨hold, hfiles⟩ := hmoves.memos slot memo hmemo
    exact (h.stands slot memo hold).mono hfiles e
  · intro before bytes hsome
    have hcopy := hcopies before bytes hsome
    refine ⟨hcopy.hashed, hcopy.length, fun slot hmemo => ?_⟩
    obtain ⟨held, hheld, hbytes⟩ := hcopy.held
    obtain ⟨hold, hfiles⟩ := hmoves.memos slot _ hmemo
    obtain rfl := h.counted.single slot held _ _ hold hheld rfl
    obtain ⟨-, -, kept, -, -, -, hfile⟩ := h.stands slot _ hold
    rw [Disk.bytes, hfile] at hbytes
    rw [hfiles, hfile]
    exact congrArg some hbytes
  · intro kept hkept
    cases hfree.symm.trans hkept
  · intro kept hkept
    cases hfree.symm.trans hkept

theorem SpanInv.next {step : SpanStep n H κ}
    (hnext : NextSpan hashing now step later) :
    SpanInv hashing (history ++ [⟨now, step, later⟩]) later := by
  cases hnext with
  | openMemo hopen =>
    rename_i memo table disk file
    obtain ⟨later, disk', file', hopen', hcounted, hmoves, hfree, -⟩ :=
      openMemo_counted h.counted now.disk memo
    cases hopen'.symm.trans hopen
    exact h.moves hcounted hmoves hfree _
  | forget hforget =>
    rename_i memo table disk
    obtain ⟨later, disk', hforget', hcounted, hmoves, hfree⟩ :=
      forget_counted h.counted now.disk memo
    cases hforget'.symm.trans hforget
    exact h.moves hcounted hmoves hfree _
  | copy hfree hstart => exact h.copy hfree hstart _
  | begin front written behind hfree hlength hbegin =>
    exact h.begin front written behind hlength hbegin rfl
  | writeChunk hkept hgoing hchunk =>
    rename_i kept limit window disk write count
    obtain ⟨hwriting, hspan, -, hkeeps⟩ := h.keeping kept hkept
    obtain ⟨disk', write', count', hchunk', hgoes, helsewhere⟩ :=
      writeChunk_goes hashing now.disk hwriting.written kept.request limit window
    cases hchunk'.symm.trans hchunk
    exact h.chunk hkept hgoes helsewhere
      (fun hok => writeChunk_keeps (hkeeps hgoing) hspan hwriting.written hchunk hok _) _
  | appendChunk hkept hgoing hfits happend =>
    rename_i kept count disk write wrote
    obtain ⟨hwriting, hspan, -, hkeeps⟩ := h.keeping kept hkept
    have hlength : (kept.window count).length ≤ kept.write.memo.length - kept.write.written := by
      rw [Keeping.window, List.length_take]
      omega
    obtain ⟨disk', write', wrote', happend', hgoes, helsewhere⟩ :=
      appendChunk_goes hashing now.disk hwriting.written hlength
    cases happend'.symm.trans happend
    refine h.chunk hkept hgoes helsewhere (fun hok => ?_) _
    exact appendChunk_keeps (hkeeps hgoing) hspan hfits happend (by simpa using hok) _
  | commit hkept hgoing hcommit => exact h.commit hkept hgoing hcommit _ rfl
  | abandon hkept habandon => exact h.abandon hkept habandon _

end

theorem span_inv {byteLimit : Nat} (h : Run (NextSpan hashing) (.start byteLimit disk) history now) :
    SpanInv hashing history now := by
  induction h with
  | start =>
    have hsound := start_sound (H := H) (κ := κ) byteLimit disk
    exact ⟨hsound.counted, nofun, nofun, nofun, nofun⟩
  | step _ hnext ih => exact ih.next hnext

/-! ## The laws -/

/-- What holds of every run of the preparations over a table. -/
structure SpanLaws (hashing : Hashing H) (history : List (SpanEvent n H κ))
    (now : Preparation n H κ) : Prop where
  /-- After a commit the file is the bytes of the request that the write began with, from the
  span's start on and as many as the memo's length, and the digest is their hash. -/
  committed : ∀ past e future kept, history = past ++ e :: future → e.label = .commit kept →
    Began past kept ∧ kept.span.length = kept.write.memo.length ∧
      e.after.disk.files kept.write.slot = some kept.span ∧
      (e.after.table.entries kept.write.slot).memo =
        some { kept.write.memo with digest := hashing.hash kept.span }
  /-- A memo is copied by a preparation of its own key whose view contains its own, and what is
  copied is the span that an earlier commit kept. -/
  served : ∀ past e future key admission memo, history = past ++ e :: future →
    e.label = .copy key admission (some memo) →
    memo.key = key ∧ memo.admissionPosition ≤ admission ∧
      ∃ e' ∈ past, ∃ kept hasher, e'.label = .commit kept ∧
        memo = { kept.write.memo with digest := hashing.hash kept.span } ∧
        e.after.copied = some (⟨memo, hasher⟩, kept.span)
  /-- A memo that is held has its span in its slot's file. -/
  held : ∀ slot memo, (now.table.entries slot).memo = some memo →
    Stands hashing history now.disk slot memo

/-- **Files stand for the requests they were kept from**, through every run and every fate of its
file calls. -/
theorem span_laws {byteLimit : Nat} {disk : Disk n} {history : List (SpanEvent n H κ)}
    {now : Preparation n H κ} (h : Run (NextSpan hashing) (.start byteLimit disk) history now) :
    SpanLaws hashing history now := by
  constructor
  case committed =>
    rintro past ⟨before, label, after⟩ future kept rfl hlabel
    obtain ⟨hpast, (hnext : NextSpan hashing before label after), -⟩ := h.split_step
    have hinv : SpanInv hashing past before := span_inv hpast
    cases hnext with
    | commit hkept hgoing hcommit =>
      cases hlabel
      obtain ⟨-, hmemo, -, hfile⟩ := commit_kept hinv hkept hgoing hcommit
      obtain ⟨-, hspan, hbegan, -⟩ := hinv.keeping _ hkept
      exact ⟨hbegan, hspan, hfile, hmemo⟩
    | _ => cases hlabel
  case served =>
    rintro past ⟨before, label, after⟩ future key admission memo rfl hlabel
    obtain ⟨hpast, (hnext : NextSpan hashing before label after), -⟩ := h.split_step
    have hinv : SpanInv hashing past before := span_inv hpast
    cases hnext with
    | copy hfree hstart =>
      rename_i limits table disk copied
      simp only [SpanStep.copy.injEq] at hlabel
      obtain ⟨rfl, rfl, hserved⟩ := hlabel
      obtain ⟨⟨before', bytes⟩, rfl, rfl⟩ := Option.map_eq_some_iff.mp hserved
      obtain ⟨-, -, hcopies⟩ := startSpan_copies hinv.counted hstart
      have hcopy := hcopies before' bytes rfl
      obtain ⟨slot, hmemo, hbytes⟩ := hcopy.held
      obtain ⟨e', he', kept, hlabel', hmemo', -, hfile⟩ := hinv.stands slot _ hmemo
      rw [Disk.bytes, hfile] at hbytes
      refine ⟨hcopy.key, hcopy.admission, e', he', kept, before'.hasher, hlabel', hmemo', ?_⟩
      show some (before', bytes) = some (before', kept.span)
      rw [show kept.span = bytes from hbytes]
    | _ => cases hlabel
  case held => exact (span_inv h).stands

/-- A span of two bytes kept, copied, and extended by a third in a table of one slot. -/
theorem span_laws_extended :
    ∃ (history : List (SpanEvent 1 Nat Unit)) (now : Preparation 1 Nat Unit),
      Run (NextSpan .sums) (.start 8 ⟨fun _ => none, fun _ => .ok, []⟩) history now ∧
        SpanLaws .sums history now ∧ now.disk.files 0 = some [1, 2, 3] := by
  have hrun : ∃ (history : List (SpanEvent 1 Nat Unit)) (now : Preparation 1 Nat Unit),
      Run (NextSpan .sums) (.start 8 ⟨fun _ => none, fun _ => .ok, []⟩) history now ∧
        now.disk.files 0 = some [1, 2, 3] := by
    have begun : NextSpan .sums
        (.start 8 ⟨fun _ => none, fun _ => .ok, []⟩ : Preparation 1 Nat Unit)
        (.begin ⟨⟨[97], [], none⟩, 2, 1, 0, (), 2, 0⟩) _ := .begin [91] [1, 2] [93] rfl rfl rfl
    have written := (Run.single begun).step (.writeChunk rfl rfl
      (show Table.writeChunk .sums _ _ _ 2 16 = some _ from rfl))
    have kept := written.step (.commit rfl rfl rfl)
    have copied := kept.step (.copy rfl
      (show startSpan .sums _ _ ⟨[97], [], none⟩ 3 [1, 5] = some _ from rfl))
    have again := copied.step (show NextSpan .sums _
      (.begin ⟨⟨[97], [], none⟩, 3, 2, 0, (), 3, 0⟩) _ from .begin [91] [3] [93] rfl rfl rfl)
    have extended := again.step (.writeChunk rfl rfl
      (show Table.writeChunk .sums _ _ _ 2 16 = some _ from rfl))
    exact ⟨_, _, extended.step (.commit rfl rfl rfl), rfl⟩
  obtain ⟨history, now, h, hfile⟩ := hrun
  exact ⟨history, now, h, span_laws h, hfile⟩

end Rui.HistoryMemo
