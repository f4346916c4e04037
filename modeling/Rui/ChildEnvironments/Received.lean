import Rui.Library.Ascii
import Rui.Library.Checks
import Rui.Library.Search
import Rui.Library.Slices
import Rui.Library.SortedBy

/-!
# Environments as values

`received` of `environment.zig`: a client's environment, checked and cleaned in place, with its
names sorted to find a repeat.
-/

namespace Rui.ChildEnvironments

open Library

inductive Failure
  | invalidEnvironment
  /-- An assertion failed, or something missing was used. -/
  | unreachable
  deriving DecidableEq, Repr

def nul : UInt8 := 0

def equals : UInt8 := ascii '='

/-- Names Rui's overlay owns. -/
def ruiPrefix : List UInt8 := text "RUI_"

/-- `std.mem.startsWith`. -/
def startsWith (bytes lead : List UInt8) : Bool := lead.isPrefixOf bytes

def forwards (name value : List UInt8) : Bool :=
  name.length ≠ 0 && !startsWith name ruiPrefix && !name.contains equals && !name.contains nul &&
    !value.contains nul

/-- The bytes the entry takes in a value. -/
def entryBytes (name value : List UInt8) : Nat := name.length + 1 + value.length + 1

/-- `std.mem.copyForwards` into a buffer, from one place of it on. -/
def copyForwards (bytes : List UInt8) (place : Nat) (source : List UInt8) : List UInt8 :=
  bytes.take place ++ source ++ bytes.drop (place + source.length)

/-- Where `received` stands in the buffer. -/
structure Scan where
  bytes : List UInt8
  kept : Nat := 0
  count : Nat := 0
  start : Nat := 0

/-- One entry of the buffer. -/
def Scan.take (self : Scan) : Except Failure Scan :=
  match indexOfPos [nul] self.bytes self.start with
  | none => .error .unreachable
  | some stop =>
    let entry := slice self.bytes self.start stop
    match indexOf [equals] entry with
    | none => .error .invalidEnvironment
    | some 0 => .error .invalidEnvironment
    | some cut =>
      let name := entry.take cut
      let value := entry.drop (cut + 1)
      if forwards name value then
        .ok {
          bytes := copyForwards self.bytes self.kept (slice self.bytes self.start (stop + 1))
          kept := self.kept + entryBytes name value
          count := self.count + 1
          start := stop + 1 }
      else .ok { self with start := stop + 1 }

/-- The loop of `received`; an entry takes a byte or more, so that it ends. -/
def Scan.run : Nat → Scan → Except Failure Scan
  | 0, self => if self.start < self.bytes.length then .error .unreachable else .ok self
  | fuel + 1, self =>
    if self.start < self.bytes.length then self.take >>= run fuel else .ok self

/-- Where the entries of a value start, from one place on. -/
def starts (value : List UInt8) : Nat → Nat → Except Failure (List Nat)
  | 0, _ => .ok []
  | count + 1, next =>
    match indexOfPos [nul] value next with
    | none => .error .unreachable
    | some stop => (starts value count (stop + 1)).map (next :: ·)

def entryName (value : List UInt8) (start : Nat) : Except Failure (List UInt8) :=
  match indexOfPos [equals] value start with
  | none => .error .unreachable
  | some stop => .ok (slice value start stop)

/-- Bytes in the order of `std.mem.lessThan`. -/
def rank (bytes : List UInt8) : List Nat := bytes.map UInt8.toNat

/-- The names sorted; the sort is over their starts, which are read for nothing else. -/
def sortedNames (value : List UInt8) (count : Nat) : Except Failure (List (List UInt8)) := do
  let places ← starts value count 0
  let names ← places.mapM (entryName value)
  return names.insertionSort fun a b => rank a ≤ rank b

/-- `received`. -/
def received (bytes : List UInt8) : Except Failure (List UInt8) := do
  if bytes.length ≠ 0 ∧ bytes.getLast? ≠ some nul then throw .invalidEnvironment
  let scan ← Scan.run bytes.length { bytes }
  let value := scan.bytes.take scan.kept
  let names ← sortedNames value scan.count
  if names.IsChain (· ≠ ·) then return value else throw .invalidEnvironment

end Rui.ChildEnvironments
