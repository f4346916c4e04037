import Rui.Library.Machine

/-!
# The routing values of a provider's Turns

`TurnStates` of `turn_states.zig`: at most one value for each Turn, for one owner at a time. The
allocator is part of the table here, so that what is freed can be told.
-/

namespace Rui.Routing

/-- `provider.max_turn_state_bytes`. -/
def maxTurnStateBytes : Nat := 4096

abbrev Owner := Vector UInt8 32

/-- A routing value, as the transport has checked it. -/
structure Value where
  bytes : List UInt8
  length_le : bytes.length ≤ maxTurnStateBytes := by decide
  deriving DecidableEq, Repr

/-- A value a Turn holds, in a block of the allocator's. -/
structure Held where
  turnId : UInt64
  value : Value
  block : Nat
  deriving DecidableEq, Repr

structure Entry where
  held : Option Held := none
  used : Nat := 0
  deriving DecidableEq, Repr

/-- What `replay` answers. -/
structure Replay where
  epoch : Nat
  value : List UInt8
  deriving DecidableEq, Repr

/-- A table, the number of blocks allocated and the blocks freed, oldest first. -/
structure TurnStates where
  entries : List Entry := []
  owner : Option Owner := none
  epoch : Nat := 0
  uses : Nat := 0
  allocated : Nat := 0
  freed : List Nat := []
  deriving DecidableEq, Repr

/-- Whether a Turn's value is in an entry. -/
def Entry.holds (self : Entry) (turnId : UInt64) : Bool := self.held.any fun held => held.turnId == turnId

/-- The block to free when an entry is released. -/
def Entry.blocks (self : Entry) : List Nat := (self.held.map Held.block).toList

namespace TurnStates

/-- A table over zeroed entries. -/
def init (count : Nat) : TurnStates := { entries := List.replicate count {} }

def find (self : TurnStates) (turnId : UInt64) : Option Nat :=
  self.entries.findIdx? fun entry => entry.holds turnId

/-- Releases every occupied entry; an unused one stays untouched. -/
def releaseAll (self : TurnStates) : TurnStates :=
  { self with
    entries := self.entries.map fun entry => if entry.held.isSome then {} else entry
    freed := self.freed ++ self.entries.flatMap Entry.blocks }

/-- Another owner drops every value and begins an epoch. -/
def select (self : TurnStates) (owner : Owner) : TurnStates :=
  if self.owner = some owner then self
  else { self.releaseAll with owner := some owner, epoch := self.epoch + 1, uses := 0 }

def replay (self : TurnStates) (turnId : UInt64) (owner : Owner) : TurnStates × Replay :=
  let self := self.select owner
  match self.find turnId with
  | none => (self, ⟨self.epoch, []⟩)
  | some index =>
    let entry := self.entries.getD index {}
    ({ self with
        uses := self.uses + 1
        entries := self.entries.set index { entry with used := self.uses + 1 } },
      ⟨self.epoch, (entry.held.map fun held => held.value.bytes).getD []⟩)

/-- The first of the entries used least recently. -/
def oldest (self : TurnStates) : Nat :=
  (List.range self.entries.length).foldl
    (fun oldest index =>
      if (self.entries.getD index {}).used < (self.entries.getD oldest {}).used then index else oldest) 0

/-- `memory` is whether the allocator has a block for the value. -/
def capture (self : TurnStates) (turnId : UInt64) (epoch : Nat) (value : Value) (memory : Bool) :
    TurnStates :=
  if epoch ≠ self.epoch ∨ self.owner = none ∨ value.bytes = [] ∨ self.entries = [] then self
  else
    let target := (self.find turnId).getD self.oldest
    let entry := self.entries.getD target {}
    if entry.holds turnId then self
    else if memory = false then self
    else
      { self with
        uses := self.uses + 1
        allocated := self.allocated + 1
        freed := self.freed ++ entry.blocks
        entries := self.entries.set target ⟨some ⟨turnId, value, self.allocated⟩, self.uses + 1⟩ }

def deinit (self : TurnStates) : TurnStates := self.releaseAll

/-! ## Its calls -/

inductive Op where
  | replay (turnId : UInt64) (owner : Owner)
  | capture (turnId : UInt64) (epoch : Nat) (value : Value) (memory : Bool)
  deriving DecidableEq, Repr

def machine : Library.Machine TurnStates Op (Option Replay) where
  call
  | self, .replay turnId owner => ((self.replay turnId owner).1, some (self.replay turnId owner).2)
  | self, .capture turnId epoch value memory => (self.capture turnId epoch value memory, none)

end TurnStates

end Rui.Routing
