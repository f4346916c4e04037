import Rui.ChildEnvironments.ReceivedLaws

/-!
# A child's environment

`childBlock` and `leadPath` of `environment.zig`.
-/

namespace Rui.ChildEnvironments

open Library

/-- What the Host reads once at start. -/
structure HostFacts where
  /-- The running `rui`'s directory, where it is known. -/
  executableDir : Option (List UInt8)
  systemPath : List UInt8
  home : Option (List UInt8)

/-- Rui's own variables for one Bash call. -/
structure Identity where
  address : List UInt8
  store : List UInt8
  /-- Empty when the Action has no handle. -/
  senderHandle : List UInt8
  runtimeDir : Option (List UInt8) := none

/-- `variable`. -/
def variableOf (name value : List UInt8) : List UInt8 := name ++ equals :: value

def colon : UInt8 := ascii ':'

/-- What `leadPath` writes after `PATH=`. -/
def ledPath (directory : Option (List UInt8)) (path : List UInt8) : List UInt8 :=
  match directory with
  | none => path
  | some lead =>
    if lead.contains colon then path
    else lead ++ (if path = [] then []
      else ((path.splitOn colon).filter (· ≠ lead)).flatMap (colon :: ·))

def leadPath (directory : Option (List UInt8)) (path : List UInt8) : List UInt8 :=
  variableOf (text "PATH") (ledPath directory path)

/-- The block while it is filled: `length` entries of `capacity`, the first of them PATH's, which
comes last. -/
structure Filling where
  capacity : Nat
  others : List (List UInt8) := []

def Filling.length (self : Filling) : Nat := 1 + self.others.length

/-- `block[length] = entry`; `none` where the index is out of bounds. -/
def Filling.put (self : Filling) (entry : List UInt8) : Option Filling :=
  if self.length < self.capacity then some { self with others := self.others ++ [entry] } else none

/-- The entries of the base, from some place on: PATH's value is noted, the others are put. An
entry takes a byte or more, so that it ends. -/
def Filling.inherit (value : List UInt8) :
    Nat → Nat → Filling → List UInt8 → Option (Filling × List UInt8)
  | 0, start, self, path => if start < value.length then none else some (self, path)
  | fuel + 1, start, self, path =>
    if start < value.length then
      (indexOfPos [nul] value start).bind fun stop =>
        let entry := slice value start stop
        if startsWith entry ruiPrefix then none
        else if startsWith entry (text "PATH=") then
          inherit value fuel (stop + 1) self (entry.drop (text "PATH=").length)
        else (self.put entry).bind fun next => inherit value fuel (stop + 1) next path
    else some (self, path)

/-- The base's entries, or the Host's HOME. -/
def Filling.based (self : Filling) (base : Option (List UInt8)) (facts : HostFacts) :
    Option (Filling × List UInt8) :=
  match base, facts.home with
  | some value, _ => inherit value value.length 0 self facts.systemPath
  | none, some home => (self.put (variableOf (text "HOME") home)).map (·, facts.systemPath)
  | none, none => some (self, facts.systemPath)

/-- Put only where there is something to put. -/
def Filling.putIf (self : Filling) (entry : Option (List UInt8)) : Option Filling :=
  match entry with
  | some entry => self.put entry
  | none => some self

def Identity.handleEntry (self : Identity) : Option (List UInt8) :=
  if self.senderHandle.length ≠ 0 then
    some (variableOf (text "RUI_SENDER_HANDLE") self.senderHandle)
  else none

def Identity.runtimeEntry (self : Identity) : Option (List UInt8) :=
  self.runtimeDir.map (variableOf (text "RUI_RUNTIME_DIR"))

/-- `childBlock`; `none` where an index is out of bounds or an assertion fails. -/
def childBlock (base : Option (List UInt8)) (facts : HostFacts) (identity : Identity) :
    Option (List (List UInt8)) := do
  let inherited := match base with
    | some value => value.count nul
    | none => 0
  let block : Filling := { capacity := inherited + 5 + (if identity.runtimeDir.isSome then 1 else 0) }
  let (block, path) ← block.based base facts
  let first := leadPath facts.executableDir path
  let block ← block.put (variableOf (text "RUI_ADDRESS") identity.address)
  let block ← block.put (variableOf (text "RUI_STORE") identity.store)
  let block ← block.putIf identity.handleEntry
  let block ← block.putIf identity.runtimeEntry
  -- The terminator may be the allocation's own.
  if block.length ≤ block.capacity then some (first :: block.others) else none

end Rui.ChildEnvironments
