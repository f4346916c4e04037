import Rui.Library.Tally

/-!
# The Host's register of Session environments

`SessionEnvironments.zig`: one entry for each Session, equal environments
interned once, and room made by dropping what the fewest Sessions name. Each
locked section is a function of the table. It has no result where the source
would trip an assertion, unwrap a null or count below zero.
-/

namespace Rui.SessionEnvironments

def maxSessions : Nat := 4096
def maxValues : Nat := 128
def maxValueBytes : Nat := 1024 * 1024

/-- `protocol.max_environment_bytes`. -/
def maxEnvironmentBytes : Nat := 64 * 1024

/-! ## Sessions and ranks -/

/-- `session_id.alphabet`. -/
def sessionAlphabet : List UInt8 :=
  "0123456789abcdefghjkmnpqrstvwxyz".toList.map fun letter => letter.toNat.toUInt8

def sessionIdBytes : Nat := 6

/-- `protocol.validSessionId`. -/
def validSessionId (value : List UInt8) : Bool :=
  value.length = sessionIdBytes && value.all fun byte => sessionAlphabet.contains byte

/-- A Session's id, as every caller has checked it. -/
structure Session where
  bytes : List UInt8
  valid : validSessionId bytes = true

inductive Origin
  | peer
  | person
  deriving DecidableEq

/-- `@backingInt`. -/
def Origin.backing : Origin → Nat
  | .peer => 0
  | .person => 1

/-- `environment.Rank`: which Message an environment came with. -/
structure Rank where
  origin : Origin
  admission : Nat
  deriving DecidableEq

def Rank.outranks (self other : Rank) : Bool :=
  if self.origin ≠ other.origin then self.origin.backing > other.origin.backing
  else self.admission > other.admission

/-! ## The table -/

structure Entry where
  session : List UInt8
  value : Nat
  origin : Origin
  admission : Nat
  used : Nat

namespace Entry

/-- `std.mem.zeroes(Entry)`, and every entry never written. -/
def zero : Entry := ⟨List.replicate sessionIdBytes 0, 0, .peer, 0, 0⟩

def rank (self : Entry) : Rank := ⟨self.origin, self.admission⟩

def unused (self : Entry) : Bool := self.session.head? == some 0

end Entry

/-- `Interned`: one environment's bytes in their allocation, which `id` names. -/
structure Interned where
  id : Nat
  refs : Nat
  bytes : List UInt8
  capacity : Nat
  used : Nat

/-- `Offer`: a value the table may take, and the values it released. -/
structure Offer where
  candidate : Option Interned
  released : List Interned

structure Table where
  entries : List Entry
  values : List (Option Interned)
  valueCount : Nat
  valueBytes : Nat
  uses : Nat

namespace Table

/-- `init`. -/
def empty : Table := ⟨[], List.replicate maxValues none, 0, 0, 0⟩

/-- The entry at a place; those past `len` are zero pages. -/
def entry (self : Table) (index : Nat) : Entry := self.entries.getD index .zero

def value (self : Table) (index : Nat) : Option Interned := (self.values[index]?).join

def setEntry (self : Table) (index : Nat) (entry : Entry) : Table :=
  { self with entries := self.entries.set index entry }

def setValue (self : Table) (index : Nat) (value : Option Interned) : Table :=
  { self with values := self.values.set index value }

def find (self : Table) (session : List UInt8) : Option Nat :=
  self.entries.findIdx? fun entry => entry.session == session

def equalValue (self : Table) (bytes : List UInt8) : Option Nat :=
  self.values.findIdx? fun value => value.any fun held => held.bytes == bytes

/-- Drops one entry's reference; a value no entry names joins `released`. -/
def release (self : Table) (index : Nat) (prepared : Offer) : Option (Table × Offer) := do
  let held ← self.value index
  if held.refs = 0 then none
  else if held.refs ≠ 1 then
    some (self.setValue index (some { held with refs := held.refs - 1 }), prepared)
  else if self.valueCount = 0 ∨ self.valueBytes < held.capacity then none
  else
    some ({ self.setValue index none with
        valueCount := self.valueCount - 1
        valueBytes := self.valueBytes - held.capacity },
      { prepared with released := { held with refs := 0 } :: prepared.released })

/-! ## Room for a value -/

/-- One turn of the search for a value to drop. -/
def pick (values : List (Option Interned)) (dropped : List Nat)
    (victim : Option (Nat × Interned)) (index : Nat) : Option (Nat × Interned) :=
  match (values[index]?).join with
  | none => victim
  | some held =>
    if index ∈ dropped then victim
    else
      match victim with
      | none => some (index, held)
      | some best =>
        if held.refs > best.2.refs ∨ held.refs = best.2.refs ∧ held.used ≥ best.2.used then victim
        else some (index, held)

/-- The value that the fewest Sessions name, the least recently used of those. -/
def leastNamed (values : List (Option Interned)) (dropped : List Nat) : Option (Nat × Interned) :=
  (List.range values.length).foldl (pick values dropped) none

/-- `while (count == max_values or bytes + capacity > max_value_bytes)`: the
values dropped, and what is left of the counts. -/
def choose (values : List (Option Interned)) (capacity : Nat) :
    Nat → Nat → List Nat → Option (List Nat × Nat × Nat)
  | 0, bytes, dropped =>
    if 0 = maxValues ∨ bytes + capacity > maxValueBytes then none else some (dropped, 0, bytes)
  | count + 1, bytes, dropped =>
    if count + 1 = maxValues ∨ bytes + capacity > maxValueBytes then
      (leastNamed values dropped).bind fun victim =>
        if bytes < victim.2.capacity then none
        else choose values capacity count (bytes - victim.2.capacity) (victim.1 :: dropped)
    else some (dropped, count + 1, bytes)

/-- One pass over the entries: every Session naming a dropped value. -/
def sweep (dropped : List Nat) : List Nat → Table → Offer → Option (Table × Offer)
  | [], self, prepared => some (self, prepared)
  | index :: rest, self, prepared =>
    if (self.entry index).unused ∨ (self.entry index).value ∉ dropped then
      sweep dropped rest self prepared
    else
      (self.release (self.entry index).value prepared).bind fun r =>
        sweep dropped rest (r.1.setEntry index .zero) r.2

def makeRoom (self : Table) (capacity : Nat) (prepared : Offer) : Option (Table × Offer) :=
  (choose self.values capacity self.valueCount self.valueBytes []).bind fun chosen =>
    if chosen.1 = [] then some (self, prepared)
    else
      (sweep chosen.1 (List.range self.entries.length) self prepared).bind fun r =>
        if r.1.valueCount = chosen.2.1 ∧ r.1.valueBytes = chosen.2.2 then some r else none

/-! ## Offers and copies -/

/-- One turn of `oldest`. -/
def older (self : Table) (result : Option Nat) (index : Nat) : Option Nat :=
  if (self.entry index).unused then result
  else
    match result with
    | none => some index
    | some best => if (self.entry index).used < (self.entry best).used then some index else result

def oldest (self : Table) : Option Nat :=
  (List.range self.entries.length).foldl self.older none

/-- An unused entry, or the least recently used one, emptied. -/
def freePlace (self : Table) (prepared : Offer) : Option (Table × Offer × Nat) :=
  match self.entries.findIdx? Entry.unused with
  | some index => some (self, prepared, index)
  | none =>
    if self.entries.length < maxSessions then
      some ({ self with entries := self.entries ++ [.zero] }, prepared, self.entries.length)
    else do
      let victim ← self.oldest
      let r ← self.release (self.entry victim).value prepared
      some (r.1, r.2, victim)

/-- `if (value) |index| self.values[index].?.refs += 1`. -/
def hold (self : Table) (value : Option Nat) : Option Table :=
  match value with
  | none => some self
  | some index => do
    let held ← self.value index
    some (self.setValue index (some { held with refs := held.refs + 1 }))

/-- The Session's own entry no longer names a value. -/
def forget (self : Table) (found : Option Nat) (prepared : Offer) : Option (Table × Offer) :=
  match found with
  | none => some (self, prepared)
  | some index => do
    let r ← self.release (self.entry index).value prepared
    some (r.1.setEntry index .zero, r.2)

/-- `if (value == null)`: room for the candidate, and the table takes it. -/
def install (self : Table) (value : Option Nat) (candidate : Interned) (prepared : Offer) :
    Option (Table × Offer × Nat) :=
  match value with
  | some index => some (self, prepared, index)
  | none => do
    let r ← self.makeRoom candidate.capacity prepared
    let index ← r.1.values.findIdx? Option.isNone
    some ({ r.1.setValue index (some { candidate with refs := 1 }) with
        valueCount := r.1.valueCount + 1
        valueBytes := r.1.valueBytes + candidate.capacity },
      { r.2 with candidate := none }, index)

/-- `self.values[value.?].?.used = self.uses`. -/
def touch (self : Table) (value : Nat) : Option Table := do
  let held ← self.value value
  some (self.setValue value (some { held with used := self.uses }))

/-- The Session's entry, at its old place or at a free one. -/
def place (self : Table) (found : Option Nat) (prepared : Offer) : Option (Table × Offer × Nat) :=
  match found with
  | some index => some (self, prepared, index)
  | none => self.freePlace prepared

def offer (self : Table) (session : Session) (rank : Rank) (prepared : Offer) :
    Option (Table × Offer) := do
  let candidate ← prepared.candidate
  let found := self.find session.bytes
  if found.any fun index => !rank.outranks (self.entry index).rank then some (self, prepared)
  else
    -- An equal value is held before anything is released, so it survives.
    let value := self.equalValue candidate.bytes
    let table ← { self with uses := self.uses + 1 }.hold value
    let forgot ← table.forget found prepared
    let held ← forgot.1.install value candidate forgot.2
    let used ← held.1.touch held.2.2
    let placed ← used.place found held.2.1
    some (placed.1.setEntry placed.2.2
      ⟨session.bytes, held.2.2, rank.origin, rank.admission, placed.1.uses⟩, placed.2.1)

/-- What one turn of `copy`'s loop found under the lock. -/
inductive Look
  | missing
  | length (length : Nat)
  | bytes (bytes : List UInt8)
  deriving DecidableEq

/-- One turn of `copy`'s loop, with a buffer of `length` bytes. -/
def look (self : Table) (session : Session) (length : Nat) : Option (Look × Table) :=
  match self.find session.bytes with
  | none => some (.missing, self)
  | some index => do
    let held ← self.value (self.entry index).value
    if held.bytes.length ≠ length then some (.length held.bytes.length, self)
    else
      let table := { self with uses := self.uses + 1 }
      let used := table.setEntry index { table.entry index with used := table.uses }
      let touched ← used.touch (table.entry index).value
      some (.bytes held.bytes, touched)

end Table

end Rui.SessionEnvironments
