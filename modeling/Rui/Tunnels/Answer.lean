import Rui.Library.Decimal
import Rui.Library.Scanner

/-!
# The answer to CONNECT

`Answer` of `h2/proxy.zig`: a proxy's answer read as it arrives, interim answers before it
included, in at most `max_bytes`.
-/

namespace Rui.Tunnels

open Library

def cr : UInt8 := ascii '\r'

def lf : UInt8 := ascii '\n'

inductive Phase
  | version
  | status
  | reason
  | fields
  deriving DecidableEq, Repr

/-- Where the reading of one answer stands. -/
structure Scan where
  status : Nat := 0
  phase : Phase := .version
  /-- Bytes of the version, or of the status, read so far. -/
  part : Nat := 0
  /-- Of the CR LF CR LF that ends the fields, the bytes just matched. -/
  ending : Nat := 0
  deriving DecidableEq, Repr

structure Answer where
  consumed : Nat := 0
  scan : Scan := {}
  deriving DecidableEq, Repr

/-- `max_bytes`. -/
def maxBytes : Nat := 8192

inductive Step
  | more
  /-- The answer ended `used` bytes into these. -/
  | done (status used : Nat)
  | malformed
  deriving DecidableEq, Repr

/-- What one byte does: the answer may end, with its status. -/
abbrev Byte := Scanned Scan Nat

/-- "HTTP/1.", after which a digit and a space come. -/
def versionLead : List UInt8 := text "HTTP/1."

/-- A line's end may have ended the status line: what follows is a field, or the end. -/
def Scan.ended (self : Scan) (ending : Nat) : Byte :=
  .goes { self with ending, phase := if ending = 2 then .fields else self.phase }

def Scan.readLine (self : Scan) (byte : UInt8) : Byte :=
  if byte = cr then self.ended (if self.ending = 2 then 3 else 1)
  else if byte = lf then
    if self.ending = 1 then self.ended 2
    else if self.ending = 3 then
      -- 101 switches protocols, which a tunnel cannot.
      if self.status ≥ 200 ∨ self.status = 101 then .done self.status else .goes {}
    else .malformed
  else if self.ending = 1 ∨ self.ending = 3 then .malformed
  else self.ended 0

def Scan.readVersion (self : Scan) (byte : UInt8) : Byte :=
  if self.part < versionLead.length then
    if versionLead[self.part]? ≠ some byte then .malformed
    else .goes { self with part := self.part + 1 }
  else if self.part = versionLead.length then
    if isDigit byte = false then .malformed else .goes { self with part := self.part + 1 }
  else if byte ≠ ascii ' ' then .malformed
  else .goes { self with phase := .status, part := 0 }

/-- Three digits, then a space or the line's end. -/
def Scan.readStatus (self : Scan) (byte : UInt8) : Byte :=
  if self.part < 3 then
    if isDigit byte = false then .malformed
    else .goes { self with status := self.status * 10 + digitValue byte, part := self.part + 1 }
  else if byte = ascii ' ' then .goes { self with phase := .reason }
  else if byte = cr then .goes { self with phase := .reason, ending := 1 }
  else .malformed

def Scan.read (self : Scan) (byte : UInt8) : Byte :=
  match self.phase with
  | .version => self.readVersion byte
  | .status => self.readStatus byte
  | .reason => self.readLine byte
  | .fields => self.readLine byte

/-- `feed`, from the byte at `index` on. -/
def Answer.feedFrom (self : Answer) (index : Nat) : List UInt8 → Step × Answer
  | [] => (.more, self)
  | byte :: rest =>
    if self.consumed = maxBytes then (.malformed, self)
    else match self.scan.read byte with
      | .goes scan => feedFrom ⟨self.consumed + 1, scan⟩ (index + 1) rest
      | .done status => (.done status (index + 1), ⟨self.consumed + 1, self.scan⟩)
      | .malformed => (.malformed, ⟨self.consumed + 1, self.scan⟩)

def Answer.feed (self : Answer) (bytes : List UInt8) : Step × Answer := self.feedFrom 0 bytes

/-- What is known after these chunks, given one by one until the answer ends; `used` counts from
the first of them. -/
def Answer.feedAll (self : Answer) (before : Nat) : List (List UInt8) → Step
  | [] => .more
  | chunk :: rest =>
    match self.feed chunk with
    | (.more, next) => next.feedAll (before + chunk.length) rest
    | (.done status used, _) => .done status (before + used)
    | (.malformed, _) => .malformed

end Rui.Tunnels
