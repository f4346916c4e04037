import Rui.Retries.HttpDateForms

/-!
# The provider's wait

`parseRetryAfter` of `transport_policy.zig` reads a Retry-After field as a delay or a
deadline, and `retry_policy.zig` places the next attempt after it. Times are `i64`, waits
and delays `u64`.
-/

namespace Rui.Retries

open Library

def largestU64 : Nat := 2 ^ 64 - 1

def largestI64 : Int := 2 ^ 63 - 1

def FitsI64 (n : Int) : Prop := -2 ^ 63 ≤ n ∧ n ≤ largestI64

instance (n : Int) : Decidable (FitsI64 n) := inferInstanceAs (Decidable (_ ∧ _))

/-- A result of checked arithmetic. -/
def checked (n : Int) : Option Int := if FitsI64 n then some n else none

/-! ## The field -/

inductive RetryAfter
  | delayMs (delay : Nat)
  | deadlineMs (deadline : Int)
  deriving DecidableEq, Repr

def maxRetryAfterBytes : Nat := 128

def parseRetryAfter (value : List UInt8) (nowSeconds : Int) : Option RetryAfter :=
  if value.length = 0 ∨ maxRetryAfterBytes < value.length then none
  else match parseInt largestU64 value with
    | some seconds =>
      let delay := seconds * 1000
      if largestU64 < delay then none
      else if largestI64 < delay then none
      else do
        let nowMs ← checked (nowSeconds * 1000)
        let _ ← checked (nowMs + delay)
        some (.delayMs delay)
    | none => do
      let dueSeconds ← parseHttpDate value nowSeconds
      let deadline ← checked (dueSeconds * 1000)
      some (.deadlineMs deadline)

/-! ## The policy -/

namespace Policy

/-- Waits before the attempts 2, 3 and 4. -/
abbrev Waits := Fin 3 → Nat

def maximumAttempts : Nat := 3 + 1

structure Input where
  waits : Waits
  retryAfterMs : Option Nat
  retryAfterDeadlineMs : Option Int

inductive Decision
  | scheduleAt (due : Int)
  | exhausted
  deriving DecidableEq, Repr

inductive Failure
  | invalidAttemptOrdinal | invalidRetryWait | overflow
  deriving DecidableEq, Repr

/-- A wait that an `i64` holds. -/
def ValidWait (wait : Nat) : Prop := 0 < wait ∧ (wait : Int) ≤ largestI64

instance (wait : Nat) : Decidable (ValidWait wait) := inferInstanceAs (Decidable (_ ∧ _))

/-- Every wait must name a deadline from `now`. -/
def validateWaits (waits : Waits) (now : Int) : Except Failure Unit :=
  if ∀ i, ValidWait (waits i) ∧ FitsI64 (now + waits i) then .ok () else .error .invalidRetryWait

/-- The wait after this attempt. -/
def attemptWait (waits : Waits) (ordinal : Nat) : Nat :=
  waits ⟨(ordinal - 1) % 3, Nat.mod_lt _ (Nat.succ_pos 2)⟩

def saturatingAdd (a b : Int) : Int := max (-2 ^ 63) (min (a + b) largestI64)

/-- `random` is one draw. The provider's floors come before the jitter. -/
def decide (attemptOrdinal : Nat) (input : Input) (now : Int) (random : Nat) :
    Except Failure Decision :=
  if attemptOrdinal = 0 ∨ maximumAttempts < attemptOrdinal then .error .invalidAttemptOrdinal
  else if ¬ ∀ i, ValidWait (input.waits i) then .error .invalidRetryWait
  else if input.retryAfterMs.any fun (delay : Nat) => Decidable.decide (largestI64 < delay) then
    .error .invalidRetryWait
  else if attemptOrdinal = maximumAttempts then .ok .exhausted
  else
    let wait := attemptWait input.waits attemptOrdinal
    match checked (now + wait) with
    | none => .error .overflow
    | some backoff =>
      let provider := input.retryAfterMs.elim backoff fun (delay : Nat) =>
        max backoff ((checked (now + delay)).getD backoff)
      let due := max provider (input.retryAfterDeadlineMs.getD 0)
      .ok (.scheduleAt (saturatingAdd due (1 + random % max 1 (wait / 4) : Nat)))

end Policy

/-- What a failed attempt hands to the policy. -/
def RetryAfter.input (constraint : RetryAfter) (waits : Policy.Waits) : Policy.Input :=
  match constraint with
  | .delayMs delay => ⟨waits, some delay, none⟩
  | .deadlineMs deadline => ⟨waits, none, some deadline⟩

/-! ## Faithful constraints -/

/-- RFC 9110's delta-seconds. -/
def IsDeltaSeconds (value : List UInt8) : Prop := value ≠ [] ∧ ∀ byte ∈ value, isDigit byte = true

def IsHttpDate (value : List UInt8) : Prop :=
  ∃ (stamp : Stamp) (form : Form), 0 ≤ stamp.date.year ∧ stamp.date.year ≤ 9999 ∧
    stamp.Spells form value

/-- The provider's moment, where an `i64` holds it. -/
def RetryAfter.due (settled : Int) : RetryAfter → Option Int
  | .delayMs delay => checked (settled + delay)
  | .deadlineMs deadline => some deadline

/-- The configured wait or the provider's moment, whichever is later. -/
def RetryAfter.latest (constraint : RetryAfter) (settled : Int) (wait : Nat) : Int :=
  (constraint.due settled).elim (settled + wait) (max (settled + wait))

/-- What a constraint makes of every settlement from the receipt on. -/
def RetryAfter.Settles (constraint : RetryAfter) (nowSeconds : Int) : Prop :=
  ∀ (waits : Policy.Waits) (ordinal : Nat) (settled : Int) (random : Nat),
    (∀ i, Policy.ValidWait (waits i)) → nowSeconds * 1000 ≤ settled → FitsI64 settled →
    Policy.decide ordinal (constraint.input waits) settled random ≠ .error .invalidRetryWait ∧
    (Policy.validateWaits waits settled = .ok () → 1 ≤ ordinal →
      ordinal ≤ Policy.maximumAttempts →
      ∃ decision, Policy.decide ordinal (constraint.input waits) settled random = .ok decision) ∧
    ∀ due, Policy.decide ordinal (constraint.input waits) settled random =
        .ok (.scheduleAt due) →
      settled < due ∧
      constraint.latest settled (Policy.attemptWait waits ordinal) ≤ due ∧
      due ≤ constraint.latest settled (Policy.attemptWait waits ordinal) +
        (max 1 (Policy.attemptWait waits ordinal / 4) : Nat) ∧
      (constraint.latest settled (Policy.attemptWait waits ordinal) < due ∨ due = largestI64)

/-- What a constraint says of the field that it was read from. -/
structure RetryAfter.Faithful (constraint : RetryAfter) (value : List UInt8)
    (nowSeconds : Int) : Prop where
  delay : ∀ delay, constraint = .delayMs delay ↔
    IsDeltaSeconds value ∧ delay = decimalValue value * 1000
  date : (∃ deadline, constraint = .deadlineMs deadline) ↔ IsHttpDate value
  moment : ∀ deadline, constraint = .deadlineMs deadline →
    ∃ (stamp : Stamp) (form : Form), stamp.Spells form value ∧ deadline = stamp.seconds * 1000
  settles : constraint.Settles nowSeconds

/-- The field has no sign and no underscore where it says a number that is read, and the
delay does not end before 1970. -/
def PlainSeconds (value : List UInt8) (nowSeconds : Int) : Prop :=
  value.length ≤ maxRetryAfterBytes → ∀ seconds, Numeral value seconds →
    (seconds : Int) * 1000 ≤ largestI64 → FitsI64 (nowSeconds * 1000) →
    FitsI64 (nowSeconds * 1000 + seconds * 1000) →
    IsDeltaSeconds value ∧ 0 ≤ nowSeconds + seconds

end Rui.Retries
