import Mathlib

/-!
# The floor of a compaction that makes room

`history_floor.zig`: a walk over a Session's drop units, newest first, that finds for
each level the floor just below the oldest unit it keeps. Numbers of the source are
`u64`; a sum or a product that may pass the largest saturates.
-/

namespace Rui.HistoryFloor

abbrev levels : Nat := 3

def bytesPerToken : Nat := 4

/-- The largest `u64`. -/
def largest : Nat := 2 ^ 64 - 1

def addSaturating (a b : Nat) : Nat := min (a + b) largest

def mulSaturating (a b : Nat) : Nat := min (a * b) largest

/-- The bytes level `level` (1 to `levels`) aims a compaction request at. -/
def target (window reservation level : Nat) : Nat :=
  mulSaturating (window - reservation) bytesPerToken >>> (2 * (level - 1))

/-- The deeper floor a compaction goes to next, and its level. -/
structure Choice where
  floor : Nat
  level : Nat
  deriving DecidableEq, Repr

/-- A drop unit: where it begins, and the bytes the request sends for it. -/
structure Row where
  start : Nat
  size : Nat
  deriving DecidableEq, Repr

/-- The floors found so far, where 0 is none yet. Level `i + 1` is at `i`. -/
structure Walk where
  targets : Fin levels → Nat
  floors : Fin levels → Nat := fun _ => 0
  total : Nat := 0
  units : Nat := 0
  cursor : Nat
  pageRows : Nat := 0

namespace Walk

def init (window reservation boundary : Nat) : Walk :=
  { targets := fun i => target window reservation (i + 1), cursor := boundary }

/-- Takes the next older unit; false once level 1's floor is found. There is no walk
where the unit does not begin below the last: the source asserts it. -/
def take (walk : Walk) (start size : Nat) : Option (Walk × Bool) :=
  if start < walk.cursor then
    let newer := walk.cursor
    let taken := { walk with
      cursor := start
      total := addSaturating walk.total size
      units := walk.units + 1 }
    if taken.units = 1 then some (taken, true)
    else
      let found := { taken with
        floors := fun i =>
          if taken.floors i = 0 ∧ taken.targets i < taken.total then newer - 1
          else taken.floors i }
      some (found, decide (found.floors 0 = 0))
  else none

def done (walk : Walk) : Bool := decide (walk.floors 0 ≠ 0)

/-- The first level past `past` whose floor drops more than `previous`. -/
def deeper (walk : Walk) (past previous : Nat) : Option Choice :=
  let rec go : List (Fin levels) → Option Choice
    | [] => none
    | i :: rest =>
      if past ≤ i ∧ previous < walk.floors i then some ⟨walk.floors i, i + 1⟩ else go rest
  go (List.finRange levels)

def visit (walk : Walk) (row : Row) : Option (Walk × Bool) :=
  { walk with pageRows := walk.pageRows + 1 }.take row.start row.size

/-- The rows of one page, until a visit says to stop. -/
def page (walk : Walk) : List Row → Option Walk
  | [] => some walk
  | row :: rest => (walk.visit row).bind fun visited =>
    if visited.2 then visited.1.page rest else some visited.1

/-- Pages, one after another, until the walk is done. -/
def feed (walk : Walk) : List (List Row) → Option Walk
  | [] => some walk
  | rows :: pages =>
    if walk.done then some walk
    else ({ walk with pageRows := 0 }.page rows).bind fun next => next.feed pages

end Walk

/-! ## Reading pages -/

def pageRows : Nat := 16

/-- The page of the units that begin below `below`, newest first. -/
def readUnits (stored : List Row) (below : Nat) : List Row :=
  (stored.filter fun row => decide (row.start < below)).take pageRows

/-- Pages are read below the walk's cursor until it is done or a page is short. The
loop turns at most `fuel` times. -/
def Walk.read (stored : List Row) : Nat → Walk → Option Walk
  | 0, _ => none
  | fuel + 1, walk =>
    if walk.done then some walk
    else ({ walk with pageRows := 0 }.page (readUnits stored walk.cursor)).bind fun next =>
      if next.pageRows < HistoryFloor.pageRows then some next else next.read stored fuel

/-- What the walk starts from: the overflowed compaction's own floor and level, its
base's floor, and what it was admitted with. -/
structure Facts where
  admissionPosition : Nat
  historyFloor : Option Nat
  historyLevel : Option Nat
  baseFloor : Option Nat
  firstMessage : Nat
  outputReservation : Nat
  contextWindow : Nat

/-- A deeper floor, with what the dropped entries are counted from. -/
structure Room where
  choice : Choice
  previous : Nat
  firstMessage : Nat

def Facts.previous (facts : Facts) : Nat :=
  facts.historyFloor.getD (facts.baseFloor.getD 0)

/-- The floor and level the next compaction goes to, where one drops more. The outer
option is the loop's fuel. -/
def deeperFloor (facts : Facts) (stored : List Row) (fuel : Nat) : Option (Option Room) :=
  let past := facts.historyLevel.getD 0
  if levels ≤ past then some none
  else
    (Walk.read stored fuel (.init facts.contextWindow facts.outputReservation
      facts.admissionPosition)).map fun walk =>
        (walk.deeper past facts.previous).map fun choice =>
          ⟨choice, facts.previous, facts.firstMessage⟩

end Rui.HistoryFloor
