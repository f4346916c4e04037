import Rui.Library.Smallest

/-!
# The change ring

Which Sessions may have changed since a commit generation (`change_ring.zig`):
the Sessions a commit touched, the fixed ring that records them, and its two
readers. Generations are only compared, so they are natural numbers here.
-/

namespace Rui.Changes

/-- Entries kept: the most recent (Session, generation) pairs. -/
def capacity : Nat := 4096

theorem capacity_eq : capacity = 4096 := rfl

theorem capacity_pos : 0 < capacity := by decide

attribute [irreducible] capacity

def idBytes : Nat := 6

abbrev Id := Vector UInt8 idBytes

/-- One changed Session, with the key the Store gives its Workspace. -/
structure Entry where
  session : Id
  workspace : UInt64
  deriving DecidableEq, Repr

/-! ## The Sessions a commit touches -/

def Touched.max : Nat := 4

/-- The Sessions one entry point changed. -/
structure Touched where
  entries : List Entry := []
  count_le : entries.length ≤ Touched.max := by decide
  everything : Bool := false
  deriving Repr

namespace Touched

def contains (self : Touched) (id : List UInt8) : Bool :=
  self.entries.any fun entry => entry.session.toList == id

/-- Whether touching `id` needs a new entry; a fifth Session, or what is not a
Session ID, touches everything. -/
def needsEntry (self : Touched) (id : List UInt8) : Bool × Touched :=
  if self.everything ∨ self.contains id then (false, self)
  else if id.length ≠ idBytes ∨ self.entries.length = max then
    (false, { self with everything := true })
  else (true, self)

/-- Adds the entry `needsEntry` asked for; its assertion is `room`. -/
def add (self : Touched) (entry : Entry)
    (room : self.entries.length < max ∧ ¬ self.contains entry.session.toList) : Touched :=
  { self with
    entries := self.entries ++ [entry]
    count_le := by rw [List.length_append]; exact room.1 }

/-- A yes from `needsEntry` is the assertion of `add`. -/
theorem room_of_needsEntry {self : Touched} {entry : Entry}
    (h : (self.needsEntry entry.session.toList).1 = true) :
    self.entries.length < max ∧ ¬ self.contains entry.session.toList := by
  have hle := self.count_le
  simp only [needsEntry] at h
  split at h
  · simp at h
  · rename_i hmiss
    split at h
    · simp at h
    · rename_i hroom
      exact ⟨by omega, fun hin => hmiss (.inr hin)⟩

end Touched

/-! ## The ring -/

/-- A ring: one column per field, as the source keeps them. -/
structure Ring where
  generations : Vector Nat capacity
  sessions : Vector Id capacity
  workspaces : Vector UInt64 capacity
  next : Fin capacity
  len : Nat
  len_le : len ≤ capacity
  forgottenThrough : Nat

namespace Ring

/-- A new ring. Its generations are zero; what the other columns hold is
undefined, so it is a parameter. -/
def init (sessions : Vector Id capacity) (workspaces : Vector UInt64 capacity) : Ring where
  generations := Vector.replicate capacity 0
  sessions := sessions
  workspaces := workspaces
  next := ⟨0, capacity_pos⟩
  len := 0
  len_le := Nat.zero_le _
  forgottenThrough := 0

/-- Records that any Session may have changed at `generation`. -/
def forget (self : Ring) (generation : Nat) : Ring :=
  { self with forgottenThrough := max self.forgottenThrough generation }

/-- The slot one further on, around the ring. -/
def after (index : Fin capacity) : Fin capacity :=
  ⟨(index + 1) % capacity, Nat.mod_lt _ capacity_pos⟩

/-- The slot one back, around the ring. -/
def back (index : Fin capacity) : Fin capacity :=
  ⟨(index + capacity - 1) % capacity, Nat.mod_lt _ capacity_pos⟩

/-- Room for one more entry: the slot it takes is new, or its entry is
overwritten and its generation forgotten. -/
def makeRoom (self : Ring) : Ring :=
  if h : self.len = capacity then self.forget self.generations[self.next]
  else { self with len := self.len + 1, len_le := by have := self.len_le; omega }

def push (self : Ring) (generation : Nat) (entry : Entry) : Ring :=
  { self.makeRoom with
    generations := self.generations.set self.next generation
    sessions := self.sessions.set self.next entry.session
    workspaces := self.workspaces.set self.next entry.workspace
    next := after self.next }

/-- Records the Sessions one commit changed, under its generation. -/
def record (self : Ring) (generation : Nat) (touched : Touched) : Ring :=
  if touched.everything then self.forget generation
  else touched.entries.foldl (fun ring entry => ring.push generation entry) self

/-- Whether every change after `since` is still recorded. -/
def covers (self : Ring) (since : Nat) : Bool := decide (self.forgottenThrough ≤ since)

/-! ## The readers -/

/-- The loop of `mayHaveChanged`, with `rounds` entries left behind `index`. -/
def walk (self : Ring) (session : Id) (since through : Nat) : Nat → Fin capacity → Bool
  | 0, _ => false
  | rounds + 1, index =>
    let index := back index
    let generation := self.generations[index]
    if generation ≤ since then false
    else if generation ≤ through ∧ self.sessions[index] = session then true
    else walk self session since through rounds index

/-- Whether this Session may have changed in (since, through]. -/
def mayHaveChanged (self : Ring) (session : Id) (since through : Nat) : Bool :=
  if !self.covers since then true else self.walk session since through self.len self.next

/-- What a slot holds. -/
structure Slot where
  generation : Nat
  entry : Entry
  deriving DecidableEq, Repr

def slot (self : Ring) (index : Fin capacity) : Slot :=
  ⟨self.generations[index], self.sessions[index], self.workspaces[index]⟩

/-- The slots in use, in slot order. -/
def slots (self : Ring) : List Slot := ((List.finRange capacity).take self.len).map self.slot

/-- Whether `changed` looks further at a slot. -/
def wanted (since through : Nat) (workspace : Option UInt64) (previous : Option Id)
    (slot : Slot) : Bool :=
  decide (since < slot.generation) && decide (slot.generation ≤ through) &&
    (match workspace with
    | none => true
    | some key => slot.entry.workspace == key) &&
    match previous with
    | none => true
    | some previous => compare slot.entry.session previous == .gt

/-- Insertion into the sorted prefix `out` of a buffer of `limit` IDs, keeping
the smallest. -/
def keep (limit : Nat) (out : List Id) (id : Id) : List Id :=
  let count := out.length
  if count = limit ∧ (out[count - 1]?.map (compare id)) ≠ some .lt then out
  else
    let index := (out.takeWhile fun kept => compare kept id == .lt).length
    if out[index]? = some id then out
    else
      let kept := min count (limit - 1)
      out.take index ++ id :: (out.take kept).drop index

/-- The first `limit` distinct Sessions after `previous`, in ID order, changed
in (since, through] in `workspace`, or in any Workspace when there is none. -/
def changed (self : Ring) (since through : Nat) (workspace : Option UInt64)
    (previous : Option Id) (limit : Nat) : List Id :=
  self.slots.foldl
    (fun out slot =>
      if wanted since through workspace previous slot then keep limit out slot.entry.session
      else out) []

end Ring

end Rui.Changes
