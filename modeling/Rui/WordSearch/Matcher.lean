import Rui.Library.Ascii
import Rui.Library.Utf8

/-!
# Word search

Bounded streaming byte search: a query of 1 to 256 bytes, folded in ASCII case
only, is looked for in bytes that come in any windows. The first three hits are
kept, each with a snippet of at most 160 bytes that is cut once the bytes it
shows, and three more, have been read.
-/

namespace Rui.WordSearch
open Library

def fold (byte : UInt8) : UInt8 := if ascii 'A' ≤ byte ∧ byte ≤ ascii 'Z' then byte + 32 else byte

def maxQuery : Nat := 256

def maxHits : Nat := 3

def snippetBytes : Nat := 160

def ringBytes : Nat := 512

/-- Bytes read past a snippet's end before it is cut. -/
def lookahead : Nat := 3

structure Hit where
  snippet : List UInt8 := []
  offset : Nat := 0
  length : Nat := 0
  rawOffset : Nat := 0
  deriving DecidableEq, Repr

/-- A hit, where its snippet starts, and whether it has been cut. -/
structure Found where
  hit : Hit
  start : Nat
  done : Bool := false
  deriving DecidableEq, Repr

structure Matcher where
  query : List UInt8
  carry : List UInt8 := []
  /-- The last bytes read, each at its offset in the ring. -/
  raw : Vector UInt8 ringBytes := .replicate ringBytes 0
  total : Nat := 0
  found : List Found := []

namespace Matcher

/-- The shell validates the query. -/
def init (query : List UInt8) : Matcher := { query := query.map fold }

def count (self : Matcher) : Nat := self.found.length

def byteAt (self : Matcher) (p : Nat) : UInt8 :=
  self.raw.get ⟨p % ringBytes, Nat.mod_lt _ (by decide)⟩

/-- What is read from `p`: the bytes of a valid character, or one byte that is none. -/
def sequenceAt (self : Matcher) (p : Nat) : Option (List UInt8) :=
  match utf8ByteSequenceLength (self.byteAt p) with
  | none => none
  | some size =>
    let sequence := (List.range size).map fun j => self.byteAt (p + j)
    if size ≤ self.total - p ∧ (utf8Decode sequence).isSome then some sequence else none

/-- The loop of `cut`: what is shown first, and the bytes shown. `fuel` is at least `end - p`. -/
def shownFrom (self : Matcher) (start stop : Nat) :
    Nat → Nat → Option Nat → List UInt8 → Option Nat × List UInt8
  | 0, _, shown, bytes => (shown, bytes)
  | fuel + 1, p, shown, bytes =>
    if p < stop then
      let sequence := self.sequenceAt p
      let width := (sequence.map List.length).getD 1
      if start ≤ p then
        if sequence.isSome ∧ stop < p + width then (shown, bytes)
        else self.shownFrom start stop fuel (p + width) (some (shown.getD p))
          (bytes ++ sequence.getD [ascii '?'])
      else self.shownFrom start stop fuel (p + width) shown bytes
    else (shown, bytes)

/-- A snippet: a valid character is kept whole, and every other byte shows as '?'. Decoding
starts up to three bytes before it, where a character crossing its start can begin. -/
def cut (self : Matcher) (each : Found) : Found :=
  let stop := min self.total (each.start + snippetBytes)
  let (shown, bytes) := self.shownFrom each.start stop stop (each.start - 3) none []
  let first := shown.getD stop
  let offset := min bytes.length (each.hit.rawOffset - first)
  { each with
    hit := { each.hit with
      snippet := bytes
      offset
      length := min (bytes.length - offset) (self.query.length - (first - each.hit.rawOffset)) }
    done := true }

/-- Where the snippet of a hit starts: long queries show no bytes before them. -/
def startOf (self : Matcher) (pos : Nat) : Nat :=
  pos - min pos (if self.query.length ≤ 120 then 40 else 0)

/-- One byte is read. -/
def read (self : Matcher) (byte : UInt8) : Matcher :=
  let self := { self with
    raw := self.raw.set (self.total % ringBytes) byte (Nat.mod_lt _ (by decide))
    total := self.total + 1
    carry := self.carry ++ [fold byte] }
  if self.carry.length = self.query.length then
    let pos := self.total - self.query.length
    { self with
      found := if self.count < maxHits ∧ self.carry = self.query
        then self.found ++ [⟨{ rawOffset := pos }, self.startOf pos, false⟩] else self.found
      carry := self.carry.drop 1 }
  else self

/-- The snippets whose bytes are all there are cut. -/
def cutReady (self : Matcher) : Matcher :=
  { self with found := self.found.map fun each =>
      if !each.done && each.start + snippetBytes + lookahead ≤ self.total then self.cut each
      else each }

def feed (self : Matcher) (bytes : List UInt8) : Matcher :=
  bytes.foldl (fun self byte => (self.read byte).cutReady) self

def finish (self : Matcher) : Matcher :=
  { self with found := self.found.map fun each => if each.done then each else self.cut each }

def hits (self : Matcher) : List Hit := self.found.map (·.hit)

example : ((init (text "aa")).feed (text "x aaAA tail")).finish.hits.map (·.rawOffset) = [2, 3, 4] := by
  decide +kernel

end Matcher

end Rui.WordSearch
