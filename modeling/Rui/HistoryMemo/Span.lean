import Rui.HistoryMemo.Table
import Rui.Library.Runs

/-!
# The spans a preparation copies and keeps

A preparation copies the memo that serves its request into the request, goes
on writing the span behind it, seals the request, and keeps its span as the
Session's next memo. Preparations are serial, and no file changes behind the
table here.
-/

namespace Rui.HistoryMemo

open Library

variable {n : Nat} {H κ : Type}

/-- How a copy of a memo's bytes ends. -/
inductive CopyEnd (H : Type)
  | copied (hasher : H) (bytes : List UInt8)
  | lost
  | unfinished

/-- Copies a memo's next bytes, one read for each limit, hashing them. A short file or a read
failure loses the memo. -/
def advanceMemoCopy (hashing : Hashing H) (slot : Fin n) (length : Nat) :
    List Nat → Disk n → H → List UInt8 → CopyEnd H × Disk n
  | [], disk, hasher, copied =>
    (if copied.length = length then .copied hasher copied else .unfinished, disk)
  | limit :: limits, disk, hasher, copied =>
    if copied.length = length then (.copied hasher copied, disk)
    else
      match disk.readPositionalAll (disk.bytes slot) (min limit (length - copied.length))
        copied.length with
      | (none, disk) => (.lost, disk)
      | (some bytes, disk) =>
        if bytes = [] then (.lost, disk)
        else advanceMemoCopy hashing slot length limits disk (hashing.update hasher bytes)
          (copied ++ bytes)

variable [DecidableEq κ]

/-- Copies the memo that serves `key` into the request's span, and answers what it copied. -/
def startSpan (hashing : Hashing H) (table : Table n κ) (disk : Disk n) (key : Key)
    (admission : Nat) (limits : List Nat) :
    Option (Table n κ × Disk n × Option (Prefix H κ × List UInt8)) :=
  match table.held key.session with
  | none => some (table, disk, none)
  | some memo =>
    if memo.serves key admission then do
      let (table, disk, file) ← table.openMemo disk memo
      match file with
      | none => some (table, disk, none)
      | some slot =>
        match advanceMemoCopy hashing slot memo.length limits disk hashing.init [] with
        | (.copied hasher bytes, disk) =>
          if hashing.final hasher = memo.digest then
            some (table, disk, some (⟨memo, hasher⟩, bytes))
          else do
            let (table, disk) ← table.forget disk memo
            some (table, disk, none)
        | (.lost, disk) => do
          let (table, disk) ← table.forget disk memo
          some (table, disk, none)
        | (.unfinished, disk) => some (table, disk, none)
    else some (table, disk, none)

/-- A span being kept: its write, the sealed request it is read from, and whether a call of it
failed. -/
structure Keeping (n : Nat) (H κ : Type) where
  write : Write n H κ
  request : List UInt8
  failed : Bool

/-- The bytes of the request that a write keeps. -/
def Keeping.span (self : Keeping n H κ) : List UInt8 :=
  (self.request.drop self.write.spanStart).take self.write.memo.length

/-- The table, the memo this preparation copied, and the span it keeps. -/
structure Preparation (n : Nat) (H κ : Type) where
  table : Table n κ
  disk : Disk n
  copied : Option (Prefix H κ × List UInt8)
  keeping : Option (Keeping n H κ)

inductive SpanStep (n : Nat) (H κ : Type)
  | openMemo (memo : Memo κ)
  | forget (memo : Memo κ)
  | copy (key : Key) (admission : Nat) (served : Option (Memo κ))
  | begin (next : Memo κ)
  | write
  | commit (kept : Keeping n H κ)
  | abandon

variable (hashing : Hashing H)

/-- One step of the preparations over a table. -/
inductive NextSpan (now : Preparation n H κ) :
    SpanStep n H κ → Preparation n H κ → Prop
  | openMemo {memo : Memo κ} {table : Table n κ} {disk : Disk n} {file : Option (Fin n)}
    (h : now.table.openMemo now.disk memo = some (table, disk, file)) :
    NextSpan now (.openMemo memo) { now with table, disk }
  | forget {memo : Memo κ} {table : Table n κ} {disk : Disk n}
    (h : now.table.forget now.disk memo = some (table, disk)) :
    NextSpan now (.forget memo) { now with table, disk }
  /-- A preparation starts its span. -/
  | copy {key : Key} {admission : Nat} {limits : List Nat} {table : Table n κ} {disk : Disk n}
    {copied : Option (Prefix H κ × List UInt8)} (free : now.keeping = none)
    (h : startSpan hashing now.table now.disk key admission limits = some (table, disk, copied)) :
    NextSpan now (.copy key admission (copied.map (·.1.memo))) { now with table, disk, copied }
  /-- The request is sealed: the span is what was copied and what was written behind it. -/
  | begin {next : Memo κ} {table : Table n κ} {disk : Disk n} {write : Option (Write n H κ)}
    (front written behind : List UInt8) (free : now.keeping = none)
    (length : next.length = (((now.copied.map Prod.snd).getD []) ++ written).length)
    (h : now.table.begin hashing now.disk next front.length (now.copied.map Prod.fst) =
      some (table, disk, write)) :
    NextSpan now (.begin next)
      { table, disk, copied := none
        keeping := write.map fun write =>
          ⟨write, front ++ (((now.copied.map Prod.snd).getD []) ++ written) ++ behind, false⟩ }
  | writeChunk {kept : Keeping n H κ} {limit window : Nat} {disk : Disk n} {write : Write n H κ}
    {count : Option Nat} (keeping : now.keeping = some kept) (going : kept.failed = false)
    (h : Table.writeChunk hashing now.disk kept.write kept.request limit window =
      some (disk, write, count)) :
    NextSpan now .write
      { now with disk, keeping := some { kept with write, failed := count.isNone } }
  /-- The prefix check hands a window of the request on. -/
  | appendChunk {kept : Keeping n H κ} {count : Nat} {disk : Disk n} {write : Write n H κ}
    {wrote : Bool} (keeping : now.keeping = some kept) (going : kept.failed = false)
    (fits : kept.write.written + count ≤ kept.write.memo.length)
    (h : Table.appendChunk hashing now.disk kept.write
      ((kept.request.drop (kept.write.spanStart + kept.write.written)).take count) =
        some (disk, write, wrote)) :
    NextSpan now .write { now with disk, keeping := some { kept with write, failed := !wrote } }
  | commit {kept : Keeping n H κ} {table : Table n κ} (keeping : now.keeping = some kept)
    (going : kept.failed = false) (h : now.table.commit hashing kept.write = some table) :
    NextSpan now (.commit kept) { now with table, keeping := none }
  | abandon {kept : Keeping n H κ} {table : Table n κ} {disk : Disk n}
    (keeping : now.keeping = some kept)
    (h : now.table.abandon now.disk kept.write = some (table, disk)) :
    NextSpan now .abandon { now with table, disk, keeping := none }

/-- An empty table over any disk. -/
def Preparation.start (byteLimit : Nat) (disk : Disk n) : Preparation n H κ :=
  { table := { byteLimit }, disk, copied := none, keeping := none }

end Rui.HistoryMemo
