import Mathlib

/-!
# The history memo table

One memo for each Session, its bytes in one scratch file for each table slot.
The table counts what its files may hold and evicts the least recently used
memo to stay under its limit. Every file call may fail, and a call that fails
may leave anything in its file.

A subtraction that would underflow and an assertion that does not hold stop
the program: here the operation answers `none`.
-/

namespace Rui.HistoryMemo

/-! ## The digest -/

/-- A streaming hasher and the hash of the bytes it was given. -/
structure Hashing (H : Type) where
  init : H
  update : H → List UInt8 → H
  final : H → Nat
  hash : List UInt8 → Nat
  final_updates : ∀ pieces : List (List UInt8), final (pieces.foldl update init) = hash pieces.flatten

/-! ## Files -/

/-- What becomes of a file call: it succeeds, or it fails and leaves something. -/
inductive Fate
  | ok
  | failed (left : Option (List UInt8))

/-- The files of the slots, the fates of the calls to come, and the slots whose file was confirmed
to be gone. -/
structure Disk (n : Nat) where
  files : Fin n → Option (List UInt8)
  fates : Nat → Fate
  removed : List (Fin n) := []

namespace Disk

variable {n : Nat}

def called (self : Disk n) : Disk n := { self with fates := fun call => self.fates (call + 1) }

def put (self : Disk n) (slot : Fin n) (file : Option (List UInt8)) : Disk n :=
  { self with files := Function.update self.files slot file }

/-- The bytes of a file that is open. -/
def bytes (self : Disk n) (slot : Fin n) : List UInt8 := (self.files slot).getD []

/-- Whether the file is confirmed to be removed, or absent. -/
def deleteFile (self : Disk n) (slot : Fin n) : Bool × Disk n :=
  match self.fates 0 with
  | .ok => (true, { self.called.put slot none with removed := self.removed ++ [slot] })
  | .failed left => (false, self.called.put slot left)

/-- Creates the file where it is absent, and truncates nothing. -/
def createFile (self : Disk n) (slot : Fin n) : Bool × Disk n :=
  match self.fates 0 with
  | .ok => (true, self.called.put slot (some (self.bytes slot)))
  | .failed left => (false, self.called.put slot left)

def openFile (self : Disk n) (slot : Fin n) : Bool × Disk n :=
  match self.fates 0 with
  | .ok => ((self.files slot).isSome, self.called)
  | .failed _ => (false, self.called)

def length (self : Disk n) (slot : Fin n) : Option Nat × Disk n :=
  match self.fates 0 with
  | .ok => (some (self.bytes slot).length, self.called)
  | .failed _ => (none, self.called)

/-- Cuts the file, or fills it up with zeros. -/
def setLength (self : Disk n) (slot : Fin n) (length : Nat) : Bool × Disk n :=
  match self.fates 0 with
  | .ok =>
    let kept := (self.bytes slot).take length
    (true, self.called.put slot (some (kept ++ List.replicate (length - kept.length) 0)))
  | .failed left => (false, self.called.put slot left)

def writePositionalAll (self : Disk n) (slot : Fin n) (bytes : List UInt8) (offset : Nat) :
    Bool × Disk n :=
  match self.fates 0 with
  | .ok =>
    let before := (self.bytes slot).take offset
    (true, self.called.put slot (some (before ++ List.replicate (offset - before.length) 0 ++
      bytes ++ (self.bytes slot).drop (offset + bytes.length))))
  | .failed left => (false, self.called.put slot left)

/-- Bytes of a file at an offset, fewer where it ends. -/
def readPositionalAll (self : Disk n) (file : List UInt8) (count offset : Nat) :
    Option (List UInt8) × Disk n :=
  match self.fates 0 with
  | .ok => (some ((file.drop offset).take count), self.called)
  | .failed _ => (none, self.called)

end Disk

/-! ## Memos -/

structure Key where
  session : List UInt8
  model : List UInt8
  anchor : Option Nat
  deriving DecidableEq, Repr

def Key.eql (self other : Key) : Bool :=
  self.session == other.session && self.model == other.model && self.anchor == other.anchor

/-- One Session's index entry. The span bytes are in the slot's file. -/
structure Memo (κ : Type) where
  key : Key
  /-- Admission position of the Operation whose view produced the span. -/
  admissionPosition : Nat
  /-- Last history position the span covers. -/
  historyPosition : Nat
  toolGroupCursor : Nat
  /-- The codec's encoder state where the span ends. -/
  carry : κ
  /-- Exact span length; the file must have exactly this length. -/
  length : Nat
  /-- Digest of the span's bytes, set by `commit`. -/
  digest : Nat
  deriving DecidableEq, Repr

/-- The memo reproduces the prefix of a request with this key whose view ends at `admission`. -/
def Memo.serves {κ : Type} (self : Memo κ) (key : Key) (admission : Nat) : Bool :=
  self.key.eql key && self.admissionPosition ≤ admission

/-- The same memo: every recorded fact, not just its Session. -/
def Memo.identical {κ : Type} [DecidableEq κ] (self other : Memo κ) : Bool :=
  self.key.eql other.key && self.admissionPosition == other.admissionPosition &&
    self.historyPosition == other.historyPosition &&
    self.toolGroupCursor == other.toolGroupCursor && self.carry == other.carry &&
    self.length == other.length && self.digest == other.digest

/-- The memo a request copied as its span's prefix, with the digest state after those bytes. -/
structure Prefix (H κ : Type) where
  memo : Memo κ
  hasher : H

/-- A span being written into its slot's file, one bounded chunk at a time. -/
structure Write (n : Nat) (H κ : Type) where
  slot : Fin n
  memo : Memo κ
  /-- Request offset of the span's first byte. -/
  spanStart : Nat
  /-- Span bytes already in the file, starting with any kept prefix. -/
  written : Nat
  /-- The slot's counted file bytes while it is rewritten. -/
  peak : Nat
  hasher : H

def Write.done {n : Nat} {H κ : Type} (self : Write n H κ) : Bool :=
  self.written == self.memo.length

/-- Where a new span's file write starts: after the held memo's bytes when that exact memo was
copied as the span's prefix, else from the start. -/
def appendOffset {κ : Type} [DecidableEq κ] (held copied : Option (Memo κ)) : Nat :=
  match copied, held with
  | some memo, some current => if current.identical memo then memo.length else 0
  | _, _ => 0

/-! ## The table -/

/-- A table slot. Its file bytes are counted until its removal is confirmed. -/
structure Entry (κ : Type) where
  memo : Option (Memo κ) := none
  fileBytes : Nat := 0
  used : Nat := 0

structure Table (n : Nat) (κ : Type) where
  entries : Fin n → Entry κ := fun _ => {}
  byteLimit : Nat
  bytes : Nat := 0
  uses : Nat := 0

/-- A subtraction that stops the program where it would underflow. -/
def sub (a b : Nat) : Option Nat := if b ≤ a then some (a - b) else none

section Slots

variable {n : Nat} {κ : Type}

/-- The slot holding `session`'s memo, if any. -/
def sessionSlot (entries : Fin n → Entry κ) (session : List UInt8) : Option (Fin n) :=
  (List.finRange n).find? fun slot => (entries slot).memo.any (·.key.session == session)

/-- The older of a slot and the oldest so far. -/
def older (entries : Fin n → Entry κ) (slot : Fin n) : Option (Fin n) → Fin n
  | none => slot
  | some oldest => if (entries slot).used < (entries oldest).used then slot else oldest

/-- The loop of `chooseSlot`. -/
def chooseFrom (entries : Fin n → Entry κ) (stranded oldest : Option (Fin n)) :
    List (Fin n) → Option (Fin n)
  | [] => stranded <|> oldest
  | slot :: rest =>
    if (entries slot).memo.isNone then
      if (entries slot).fileBytes = 0 then some slot
      else chooseFrom entries (stranded <|> some slot) oldest rest
    else chooseFrom entries stranded (some (older entries slot oldest)) rest

/-- The slot that receives a new memo for `session`: its current slot, else an empty slot, else an
unconfirmed removal, else the least recently used one. -/
def chooseSlot (entries : Fin n → Entry κ) (session : List UInt8) : Option (Fin n) :=
  match sessionSlot entries session with
  | some slot => some slot
  | none => chooseFrom entries none none (List.finRange n)

/-- The loop of `nextVictim`. -/
def victimFrom (entries : Fin n → Entry κ) (except : Fin n) (result : Option (Fin n)) :
    List (Fin n) → Option (Fin n)
  | [] => result
  | slot :: rest =>
    if slot = except ∨ (entries slot).memo.isNone then victimFrom entries except result rest
    else victimFrom entries except (some (older entries slot result)) rest

/-- The least recently used memo other than `except`. -/
def nextVictim (entries : Fin n → Entry κ) (except : Fin n) : Option (Fin n) :=
  victimFrom entries except none (List.finRange n)

end Slots

namespace Table

variable {n : Nat} {H κ : Type}

def set (self : Table n κ) (slot : Fin n) (entry : Entry κ) : Table n κ :=
  { self with entries := Function.update self.entries slot entry }

/-- The Session's memo, if any. -/
def held (self : Table n κ) (session : List UInt8) : Option (Memo κ) :=
  (sessionSlot self.entries session).bind fun slot => (self.entries slot).memo

/-- Drop the slot's memo and reclaim its file. Confirmed removal or absence releases the slot's
bytes once; any other failure keeps them counted. -/
def drop (self : Table n κ) (disk : Disk n) (slot : Fin n) : Option (Table n κ × Disk n) :=
  let entry := self.entries slot
  let self := self.set slot { entry with memo := none }
  if entry.fileBytes = 0 then some (self, disk)
  else
    match disk.deleteFile slot with
    | (false, disk) => some (self, disk)
    | (true, disk) => do
      let bytes ← sub self.bytes entry.fileBytes
      some ({ self.set slot { entry with memo := none, fileBytes := 0 } with bytes }, disk)

variable [DecidableEq κ]

def slotOf (self : Table n κ) (memo : Memo κ) : Option (Fin n) := do
  let slot ← sessionSlot self.entries memo.key.session
  let current ← (self.entries slot).memo
  if current.identical memo then some slot else none

omit [DecidableEq κ] in
/-- `open` loses the memo. -/
def lose (self : Table n κ) (disk : Disk n) (slot : Fin n) :
    Option (Table n κ × Disk n × Option (Fin n)) := do
  let (self, disk) ← self.drop disk slot
  some (self, disk, none)

/-- Open the file of `memo`. A file that is missing, unreadable or not exactly the recorded length
loses the memo. -/
def openMemo (self : Table n κ) (disk : Disk n) (memo : Memo κ) :
    Option (Table n κ × Disk n × Option (Fin n)) :=
  match self.slotOf memo with
  | none => some (self, disk, none)
  | some slot =>
    match disk.openFile slot with
    | (false, disk) => self.lose disk slot
    | (true, disk) =>
      match disk.length slot with
      | (length, disk) =>
        if length = some memo.length then some (self, disk, some slot) else self.lose disk slot

/-- Drop `memo` if the table still holds it, and remove its file. -/
def forget (self : Table n κ) (disk : Disk n) (memo : Memo κ) : Option (Table n κ × Disk n) :=
  match self.slotOf memo with
  | none => some (self, disk)
  | some slot => self.drop disk slot

/-- Retry unconfirmed removals. -/
def retry (self : Table n κ) (disk : Disk n) : List (Fin n) → Option (Table n κ × Disk n)
  | [] => some (self, disk)
  | slot :: rest =>
    if (self.entries slot).memo.isNone ∧ (self.entries slot).fileBytes ≠ 0 then do
      let (self, disk) ← self.drop disk slot
      retry self disk rest
    else retry self disk rest

/-- Evict until `slot` may count `peak` bytes instead of `old`; says whether it may. Each round
evicts a memo, so a table of `n` slots has at most `n` rounds. -/
def evict (slot : Fin n) (old peak : Nat) :
    Nat → Table n κ → Disk n → Option (Table n κ × Disk n × Bool)
  | 0, _, _ => none
  | rounds + 1, self, disk => do
    let others ← sub self.bytes old
    if others + peak ≤ self.byteLimit then some (self, disk, true)
    else
      match nextVictim self.entries slot with
      | none => some (self, disk, false)
      | some victim => do
        let (self, disk) ← self.drop disk victim
        -- Only unconfirmed removals remain: keep the bound.
        if (self.entries victim).fileBytes ≠ 0 then some (self, disk, false)
        else evict slot old peak rounds self disk

variable (hashing : Hashing H)

/-- A file that no longer has the prefix's length is rewritten whole. -/
def keepPrefix (disk : Disk n) (write : Write n H κ) : Option (Write n H κ) × Disk n :=
  if write.written = 0 then (some write, disk)
  else
    match disk.length write.slot with
    | (none, disk) => (none, disk)
    | (some length, disk) =>
      (some (if length = write.written then write
        else { write with written := 0, hasher := hashing.init }), disk)

/-- Open the slot's file for `write`, keeping its first `written` bytes. -/
def openWrite (disk : Disk n) (write : Write n H κ) : Option (Write n H κ) × Disk n :=
  match disk.createFile write.slot with
  | (false, disk) => (none, disk)
  | (true, disk) =>
    match keepPrefix hashing disk write with
    | (none, disk) => (none, disk)
    | (some write, disk) =>
      match disk.setLength write.slot write.written with
      | (false, disk) => (none, disk)
      | (true, disk) => (some write, disk)

omit [DecidableEq κ] in
/-- `begin` keeps nothing: the slot's file is reclaimed. -/
def giveUp (self : Table n κ) (disk : Disk n) (slot : Fin n) :
    Option (Table n κ × Disk n × Option (Write n H κ)) := do
  let (self, disk) ← self.drop disk slot
  some (self, disk, none)

/-- `begin` with room for the peak: reserve it and open the slot's file. -/
def reserve (self : Table n κ) (disk : Disk n) (old : Nat) (write : Write n H κ) :
    Option (Table n κ × Disk n × Option (Write n H κ)) := do
  let others ← sub self.bytes old
  let self := { self.set write.slot { self.entries write.slot with fileBytes := write.peak } with
    bytes := others + write.peak }
  match openWrite hashing disk write with
  | (some write, disk) => some (self, disk, some write)
  | (none, disk) => self.giveUp disk write.slot

/-- `begin` from the choice of the slot on. -/
def beginAt (self : Table n κ) (disk : Disk n) (slot : Fin n) (next : Memo κ)
    (spanStart append : Nat) (copied : Option (Prefix H κ)) :
    Option (Table n κ × Disk n × Option (Write n H κ)) := do
  -- While it is rewritten the file holds at most the larger length.
  let old := (self.entries slot).fileBytes
  let peak := max old next.length
  let write : Write n H κ :=
    { slot, memo := next, spanStart, written := append, peak
      hasher := if append ≠ 0 then (copied.map Prefix.hasher).getD hashing.init
        else hashing.init }
  let (self, disk, fits) ←
    evict slot old peak (n + 1) (self.set slot { self.entries slot with memo := none }) disk
  if fits then self.reserve hashing disk old write else self.giveUp disk slot

/-- The assertion of `begin`: the table still holds the memo this request copied. -/
def stillHeld (held : Option (Memo κ)) : Option (Prefix H κ) → Bool
  | none => true
  | some copied => held.any fun memo => memo.identical copied.memo

/-- Start keeping `next` for the Session whose span starts at `spanStart` of the request: reserve
its slot and bytes and open its file. -/
def begin (self : Table n κ) (disk : Disk n) (next : Memo κ) (spanStart : Nat)
    (copied : Option (Prefix H κ)) : Option (Table n κ × Disk n × Option (Write n H κ)) :=
  if n = 0 then some (self, disk, none)
  else do
    let (self, disk) ← self.retry disk (List.finRange n)
    let current := sessionSlot self.entries next.key.session
    let held := current.bind fun slot => (self.entries slot).memo
    if stillHeld held copied then
      if self.byteLimit < next.length then
        match current with
        | none => some (self, disk, none)
        | some slot => self.giveUp disk slot
      else do
        let slot ← chooseSlot self.entries next.key.session
        beginAt hashing self disk slot next spanStart
          (appendOffset held (copied.map Prefix.memo)) copied
    else none

/-- Append span bytes the caller already read from the request; says whether they were written. -/
def appendChunk (disk : Disk n) (write : Write n H κ) (bytes : List UInt8) :
    Option (Disk n × Write n H κ × Bool) := do
  let left ← sub write.memo.length write.written
  if bytes.length ≤ left then
    let write := { write with hasher := hashing.update write.hasher bytes }
    match disk.writePositionalAll write.slot bytes write.written with
    | (false, disk) => some (disk, write, false)
    | (true, disk) => some (disk, { write with written := write.written + bytes.length }, true)
  else none

/-- Copy the span's next bytes, at most `limit` and `window`, from the request; answers how many,
or that a call failed. -/
def writeChunk (disk : Disk n) (write : Write n H κ) (request : List UInt8) (limit window : Nat) :
    Option (Disk n × Write n H κ × Option Nat) := do
  let left ← sub write.memo.length write.written
  let count := min (min left limit) window
  match disk.readPositionalAll request count (write.spanStart + write.written) with
  | (none, disk) => some (disk, write, none)
  | (some bytes, disk) =>
    if bytes.length ≠ count then some (disk, write, none)
    else do
      let (disk, write, wrote) ← appendChunk hashing disk write bytes
      some (disk, write, if wrote then some count else none)

/-- Keep the completely written span as its Session's memo. -/
def commit (self : Table n κ) (write : Write n H κ) : Option (Table n κ) :=
  if write.done then do
    let released ← sub write.peak write.memo.length
    let bytes ← sub self.bytes released
    some { self.set write.slot
        { fileBytes := write.memo.length
          used := self.uses + 1
          memo := some { write.memo with digest := hashing.final write.hasher } } with
      bytes
      uses := self.uses + 1 }
  else none

/-- Keep nothing of an unfinished span and reclaim its file. -/
def abandon (self : Table n κ) (disk : Disk n) (write : Write n H κ) :
    Option (Table n κ × Disk n) := self.drop disk write.slot

end Table

end Rui.HistoryMemo
