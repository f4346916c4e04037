import Rui.Library.Ascii
import Rui.Library.Search

/-!
# Scrolling a conversation

The lines of a prepared text and the moves over their rows (`ConversationViewport.zig`). How many
rows a line takes is the terminal's business: a layout says it.
-/

namespace Rui.Viewport

open Library

def newline : UInt8 := 10

/-- A row of laid-out text: the line that starts at `offset`, and the row within its wrapping. -/
structure Position where
  offset : Nat := 0
  row : Nat := 0
  deriving DecidableEq, Repr

def Position.order (a b : Position) : Ordering :=
  match compare a.offset b.offset with
  | .eq => compare a.row b.row
  | lines => lines

def Position.min (a b : Position) : Position := if a.order b = .gt then b else a

/-- How many rows each line takes at the current width: one at least. -/
structure Layout where
  rows : Nat → Nat
  pos : ∀ offset, 0 < rows offset

/-! ## Lines -/

/-- The last place of a byte among the first `length`. -/
def lastIndexOfScalar (text : List UInt8) (byte : UInt8) : Nat → Option Nat
  | 0 => none
  | length + 1 => if text[length]? = some byte then some length else lastIndexOfScalar text byte length

/-- Where the line starting at `offset` ends: its newline or the text's end. -/
def lineEnd (text : List UInt8) (offset : Nat) : Nat :=
  (indexOfPos [newline] text offset).getD text.length

def nextLine (text : List UInt8) (offset : Nat) : Option Nat :=
  let next := lineEnd text offset + 1
  if next < text.length then some next else none

def previousLine (text : List UInt8) (offset : Nat) : Option Nat :=
  if offset = 0 then none
  else some (((lastIndexOfScalar text newline (offset - 1)).map (· + 1)).getD 0)

/-- The rows `printLine` says. The one line of an empty text prints nothing, which is one row. -/
def lineRows (text : List UInt8) (layout : Layout) (offset : Nat) : Nat :=
  if text = [] then 1 else layout.rows offset

/-! ## Moves -/

def lastRow (text : List UInt8) (layout : Layout) : Position :=
  if text = [] then {}
  else
    let last := (previousLine text
      (if text.getLast? = some newline then text.length else text.length + 1)).getD 0
    { offset := last, row := lineRows text layout last - 1 }

/-- Keeps a position inside the current text and wrapping. -/
def clamp (text : List UInt8) (layout : Layout) (position : Position) : Position :=
  if position.offset ≥ text.length then lastRow text layout
  else { position with row := min position.row (lineRows text layout position.offset - 1) }

theorem nextLine_lt {text : List UInt8} {offset next : Nat} (h : nextLine text offset = some next) :
    offset < next ∧ next < text.length := by
  simp only [nextLine] at h
  split at h
  · next hlt =>
    obtain rfl := Option.some.inj h
    refine ⟨Nat.lt_succ_of_le ?_, hlt⟩
    rw [lineEnd] at hlt ⊢
    cases hend : indexOfPos [newline] text offset with
    | none =>
      rw [hend, Option.getD_none] at hlt
      omega
    | some place => exact ((indexOfPos_eq_some (List.cons_ne_nil _ _)).mp hend).1
  · cases h

theorem previousLine_lt {text : List UInt8} {offset previous : Nat}
    (h : previousLine text offset = some previous) : previous < offset := by
  have hplace : ∀ {place length}, lastIndexOfScalar text newline length = some place →
      place < length := by
    intro place length hlast
    induction length with
    | zero => cases hlast
    | succ length ih =>
      rw [lastIndexOfScalar] at hlast
      split at hlast
      · rw [← Option.some.inj hlast]
        exact Nat.lt_succ_self _
      · exact Nat.lt_succ_of_lt (ih hlast)
  rw [previousLine] at h
  split at h
  · cases h
  · next hzero =>
    obtain rfl := Option.some.inj h
    cases hlast : lastIndexOfScalar text newline (offset - 1) with
    | none => exact Nat.pos_of_ne_zero hzero
    | some place =>
      have := hplace hlast
      simp only [Option.map_some, Option.getD_some]
      omega

/-- The loop of `down`. -/
def downFrom (text : List UInt8) (layout : Layout) (position : Position) (remaining : Nat) :
    Position :=
  if remaining = 0 then position
  else
    let used := lineRows text layout position.offset
    if remaining < used - position.row then { position with row := position.row + remaining }
    else
      match _h : nextLine text position.offset with
      | none => { position with row := used - 1 }
      | some next => downFrom text layout { offset := next } (remaining - (used - position.row))
termination_by text.length - position.offset
decreasing_by
  have := nextLine_lt _h
  omega

def down (text : List UInt8) (layout : Layout) (position : Position) (moves : Nat) : Position :=
  downFrom text layout (clamp text layout position) moves

/-- The loop of `up`. -/
def upFrom (text : List UInt8) (layout : Layout) (position : Position) (remaining : Nat) :
    Position :=
  if remaining > position.row then
    match h : previousLine text position.offset with
    | none => { offset := position.offset }
    | some previous =>
      upFrom text layout { offset := previous, row := lineRows text layout previous - 1 }
        (remaining - (position.row + 1))
  else { position with row := position.row - remaining }
termination_by position.offset
decreasing_by exact previousLine_lt h

def up (text : List UInt8) (layout : Layout) (position : Position) (moves : Nat) : Position :=
  upFrom text layout (clamp text layout position) moves

/-- The first row that shows the last `height` rows. -/
def bottom (text : List UInt8) (layout : Layout) (height : Nat) : Position :=
  up text layout (lastRow text layout) (height - 1)

/-- The first row in view. Without a held position the latest rows are. -/
def first (text : List UInt8) (layout : Layout) (top : Option Position) (height : Nat) : Position :=
  match top with
  | none => bottom text layout height
  | some top => (clamp text layout top).min (bottom text layout height)

/-- Moves by `rows`; returns the position held then. -/
def browse (text : List UInt8) (layout : Layout) (top : Option Position) (downwards : Bool)
    (rows height : Nat) (firstUnseen : Option Position) : Position :=
  let current := first text layout top height
  if downwards = false then up text layout current rows
  else
    let moved := (down text layout current rows).min (bottom text layout height)
    firstUnseen.elim moved moved.min

end Rui.Viewport
