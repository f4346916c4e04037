import Rui.Library.Utf8
import Rui.Retries.RetryAfter
import Rui.Routing.TurnStates

/-!
# Response headers

What a Transfer keeps of its response's header blocks: `HeaderContext` and `Observed` of
`provider.zig`.
-/

namespace Rui.Transfers

open Library

/-! ## Names -/

inductive Provider where
  | codex | openai
  deriving DecidableEq, Repr

/-- `codec_abi.ObservedHeaders`: the names a codec has observed; an empty one names nothing. -/
structure ObservedHeaders where
  requestId : List UInt8 := []
  model : List UInt8 := []
  alternateModel : List UInt8 := []
  turnState : List UInt8 := []
  deriving DecidableEq, Repr

/-- Where a routing value is filed. -/
structure TurnStateKey where
  provider : Provider
  turnId : UInt64
  epoch : Nat
  deriving DecidableEq, Repr

/-- The names, and whether routing values have a sink. -/
structure HeaderObservation where
  names : ObservedHeaders := {}
  turnState : Bool := false
  deriving DecidableEq, Repr

/-- `Observed.Name`. -/
inductive Name where
  | requestId | model | alternateModel
  deriving DecidableEq, Repr

def maxModelBytes : Nat := 256

def capacity : Name → Nat
  | .requestId => 256
  | .model => maxModelBytes
  | .alternateModel => maxModelBytes

/-! ## The observed values -/

inductive FieldError where
  | invalidValue | outOfMemory
  deriving DecidableEq, Repr

structure Span where
  start : UInt16 := 0
  len : UInt16 := 0
  deriving DecidableEq, Repr

/-- The values observed, back to back in one buffer. -/
structure Observed where
  bytes : List UInt8 := []
  spans : Name → Span := fun _ => {}

namespace Observed

def get (self : Observed) (name : Name) : List UInt8 :=
  (self.bytes.drop (self.spans name).start.toNat).take (self.spans name).len.toNat

/-- `memory` is whether the buffer can grow, if it has to. -/
def put (self : Observed) (name : Name) (value : List UInt8) (memory : Bool) :
    Except FieldError Observed :=
  if value.length = 0 ∨ value.length > capacity name ∨ utf8Validate value = false then
    .error .invalidValue
  else if (self.spans name).len ≠ 0 then
    if self.get name = value then .ok self else .error .invalidValue
  else if memory = false then .error .outOfMemory
  else
    .ok { bytes := self.bytes ++ value
          spans := Function.update self.spans name
            ⟨UInt16.ofNat self.bytes.length, UInt16.ofNat value.length⟩ }

end Observed

/-! ## The header rules -/

/-- A response header, and whether there is memory for its value. -/
structure Field where
  name : List UInt8
  value : List UInt8
  memory : Bool := true
  deriving DecidableEq, Repr

inductive Kind where
  | interim | final | trailers
  deriving DecidableEq, Repr

/-- A header block, and the clock when it comes. -/
structure Head where
  kind : Kind
  status : Nat
  fields : List Field
  nowSeconds : Int

inductive Verdict where
  | accept | refuse
  deriving DecidableEq, Repr

/-- What `captured` holds is what the sink was handed. -/
structure HeaderContext where
  observed : Observed := {}
  turnState : Option TurnStateKey := none
  turnStateSeen : Bool := false
  successfulBlock : Bool := false
  retryAfterMs : Nat := 0
  retryAfterDeadlineMs : Int := 0
  hasRetryAfterMs : Bool := false
  hasRetryAfterDeadlineMs : Bool := false
  localFailure : Bool := false
  captured : List (TurnStateKey × Routing.Value) := []

/-- What a field is, by its name. -/
inductive Role where
  | retryAfter | turnState | observed (name : Name)
  deriving DecidableEq, Repr

def role (names : ObservedHeaders) (name : List UInt8) : Option Role :=
  if name = text "retry-after" then some .retryAfter
  else if names.turnState ≠ [] ∧ name = names.turnState then some .turnState
  else if names.requestId ≠ [] ∧ name = names.requestId then some (.observed .requestId)
  else if names.model ≠ [] ∧ name = names.model then some (.observed .model)
  else if names.alternateModel ≠ [] ∧ name = names.alternateModel then
    some (.observed .alternateModel)
  else none

/-- The header a role stands for; an empty one stands for none. -/
def Role.header (names : ObservedHeaders) : Role → List UInt8
  | .retryAfter => text "retry-after"
  | .turnState => names.turnState
  | .observed .requestId => names.requestId
  | .observed .model => names.model
  | .observed .alternateModel => names.alternateModel

/-- The roles in the order their headers are compared. -/
def Role.order : List Role :=
  [.retryAfter, .turnState, .observed .requestId, .observed .model, .observed .alternateModel]

/-- **A field has the first role whose header it is.** -/
theorem role_eq (names : ObservedHeaders) (name : List UInt8) :
    role names name = Role.order.find? fun one => one.header names ≠ [] ∧ name = one.header names := by
  have hstep : ∀ (p : Role → Prop) [DecidablePred p] (one : Role) (rest : List Role),
      (one :: rest).find? (fun one => decide (p one)) =
        if p one then some one else rest.find? fun one => decide (p one) := by
    intro p _ one rest
    rw [List.find?_cons]
    by_cases hone : p one <;> simp [hone]
  have hnone : text "retry-after" ≠ [] := by decide
  simp only [Role.order, hstep, List.find?_nil]
  simp only [role, Role.header, ne_eq, hnone, not_false_eq_true, true_and]
  refine if_congr Iff.rfl rfl (if_congr Iff.rfl rfl (if_congr Iff.rfl rfl (if_congr Iff.rfl rfl ?_)))
  exact if_congr Iff.rfl rfl rfl

/-- A printable ASCII byte. -/
def isPrintable (byte : UInt8) : Bool := 0x20 ≤ byte && byte ≤ 0x7e

/-- A routing value as it may be filed. -/
def routingValue (value : List UInt8) : Option Routing.Value :=
  if h : value.length ≠ 0 ∧ value.length ≤ Routing.maxTurnStateBytes ∧ value.all isPrintable then
    some ⟨value, h.2.1⟩
  else none

namespace HeaderContext

/-- The largest delay. -/
def largestDelay (self : HeaderContext) : Option Nat :=
  if self.hasRetryAfterMs then some self.retryAfterMs else none

/-- The latest deadline. -/
def latestDeadline (self : HeaderContext) : Option Int :=
  if self.hasRetryAfterDeadlineMs then some self.retryAfterDeadlineMs else none

def block (self : HeaderContext) (kind : Kind) (status : Nat) : HeaderContext :=
  { self with successfulBlock := decide (kind = .final ∧ status ≥ 200 ∧ status < 300) }

def retryAfter (self : HeaderContext) (value : List UInt8) (nowSeconds : Int) : HeaderContext :=
  match Retries.parseRetryAfter value nowSeconds with
  | some (.delayMs delay) =>
    { self with retryAfterMs := max self.retryAfterMs delay, hasRetryAfterMs := true }
  | some (.deadlineMs deadline) =>
    { self with
      retryAfterDeadlineMs := max self.retryAfterDeadlineMs deadline
      hasRetryAfterDeadlineMs := true }
  | none => self

def routing (self : HeaderContext) (observation : HeaderObservation) (value : List UInt8) :
    HeaderContext :=
  if self.successfulBlock = false ∨ self.turnStateSeen = true then self
  else
    let seen := { self with turnStateSeen := true }
    match routingValue value, self.turnState with
    | some value, some key =>
      if observation.turnState then { seen with captured := seen.captured ++ [(key, value)] }
      else seen
    | _, _ => seen

def field (self : HeaderContext) (observation : HeaderObservation) (field : Field)
    (nowSeconds : Int) : Except FieldError HeaderContext :=
  let value := trim field.value
  match role observation.names field.name with
  | some .retryAfter => .ok (self.retryAfter value nowSeconds)
  | some .turnState => .ok (self.routing observation value)
  | some (.observed name) => do
    let observed ← self.observed.put name value field.memory
    return { self with observed := observed }
  | none => .ok self

/-- The loop of `observe` over a block's fields. -/
def fields (observation : HeaderObservation) (nowSeconds : Int) (self : HeaderContext) :
    List Field → HeaderContext × Verdict
  | [] => (self, .accept)
  | field :: rest =>
    match self.field observation field nowSeconds with
    | .ok next => fields observation nowSeconds next rest
    | .error err => ({ self with localFailure := self.localFailure || err == .outOfMemory }, .refuse)

def head (observation : HeaderObservation) (self : HeaderContext) (head : Head) :
    HeaderContext × Verdict :=
  fields observation head.nowSeconds (self.block head.kind head.status) head.fields

/-- A response's blocks: none comes after one that was refused. -/
def heads (observation : HeaderObservation) (self : HeaderContext) :
    List Head → HeaderContext × Verdict
  | [] => (self, .accept)
  | head :: rest =>
    match self.head observation head with
    | (next, .accept) => heads observation next rest
    | (next, .refuse) => (next, .refuse)

end HeaderContext

end Rui.Transfers
