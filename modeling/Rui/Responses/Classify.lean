import Rui.Responses.Words

/-!
# The error body classifier

`classify` of `codecs/responses.zig`: an HTTP error body read once, as calls of
the JSON reader. The classifier notes the body's `error` object and counts each
member it knows, so that what appears twice counts for nothing.
-/

namespace Rui.Responses

open Library Library.Json Rui.Json

/-! ## Codes -/

/-- What the person can do about a request the provider will not serve. -/
inductive Refusal | quota | plan | policy | modelUnavailable
  deriving DecidableEq, Repr

/-- The provider codes that resending the same request cannot fix. -/
inductive RefusalCode
  | insufficientQuota
  | creditBalanceExhausted
  | organizationSpendLimitExceeded
  | projectSpendLimitExceeded
  | usageLimitReached
  | usageNotIncluded
  | cyberPolicy
  | bioPolicy
  | misalignmentPolicyViolation
  | invalidPrompt
  | modelNotFound
  deriving DecidableEq, Repr

namespace RefusalCode

def spell : RefusalCode → List UInt8
  | insufficientQuota => text "insufficient_quota"
  | creditBalanceExhausted => text "credit_balance_exhausted"
  | organizationSpendLimitExceeded => text "organization_spend_limit_exceeded"
  | projectSpendLimitExceeded => text "project_spend_limit_exceeded"
  | usageLimitReached => text "usage_limit_reached"
  | usageNotIncluded => text "usage_not_included"
  | cyberPolicy => text "cyber_policy"
  | bioPolicy => text "bio_policy"
  | misalignmentPolicyViolation => text "misalignment_policy_violation"
  | invalidPrompt => text "invalid_prompt"
  | modelNotFound => text "model_not_found"

def all : List RefusalCode :=
  [insufficientQuota, creditBalanceExhausted, organizationSpendLimitExceeded,
    projectSpendLimitExceeded, usageLimitReached, usageNotIncluded, cyberPolicy, bioPolicy,
    misalignmentPolicyViolation, invalidPrompt, modelNotFound]

def refusal : RefusalCode → Refusal
  | insufficientQuota | creditBalanceExhausted | organizationSpendLimitExceeded
  | projectSpendLimitExceeded | usageLimitReached => .quota
  | usageNotIncluded => .plan
  | cyberPolicy | bioPolicy | misalignmentPolicyViolation | invalidPrompt => .policy
  | modelNotFound => .modelUnavailable

end RefusalCode

def refusalOf (code : List UInt8) : Option Refusal :=
  (stringToEnum RefusalCode.spell RefusalCode.all code).map RefusalCode.refusal

def contextLengthExceeded : List UInt8 := text "context_length_exceeded"

/-! ## What a body names -/

/-- What a body says for the person to read, as ranges of its strings. -/
structure Report where
  code : Option Range := none
  message : Option Range := none
  deriving DecidableEq, Repr

structure ErrorBody where
  contextOverflow : Bool := false
  refusal : Option Refusal := none
  resetsAt : Option Nat := none
  report : Report := {}
  deriving DecidableEq, Repr

namespace ClassifyScratch

/-- The members of a body. -/
inductive Outer | error | message | detail
  deriving DecidableEq, Repr

def Outer.spell : Outer → List UInt8
  | error => text "error"
  | message => text "message"
  | detail => text "detail"

/-- The members of its error object. -/
inductive Inner | code | type | message | detail | resetsAt
  deriving DecidableEq, Repr

def Inner.spell : Inner → List UInt8
  | code => text "code"
  | type => text "type"
  | message => text "message"
  | detail => text "detail"
  | resetsAt => text "resets_at"

/-- `count` says how often a member appears, no further than three; `range` holds
its last value when that is a string. -/
structure Member where
  count : Nat := 0
  isString : Bool := false
  range : Range := ⟨0, 0⟩
  deriving DecidableEq, Repr

namespace Member

def string (member : Member) : Option Range := if member.isString then some member.range else none

def set (member : Member) (range : Range) : Member :=
  { member with isString := true, range := range }

def start (member : Member) : Member :=
  { member with count := min 3 (member.count + 1), isString := false }

end Member

/-- `message`, else `detail`; a message that is not a string is left out. -/
def messageOf (message detail : Member) : Option Range :=
  if message.count = 1 then message.string
  else if detail.count = 1 then detail.string
  else none

end ClassifyScratch

open ClassifyScratch in
/-- The classifier between two calls: `outer` and `inner` are the named members
being read, and `code` is empty unless the error object's last code is a string
that the reader keeps whole. -/
structure ClassifyScratch where
  outer : Option Outer := none
  inner : Option Inner := none
  errorObject : Bool := false
  envelope : Outer → Member := fun _ => {}
  failure : Inner → Member := fun _ => {}
  code : List UInt8 := []
  resetsAt : Option Nat := none

namespace ClassifyScratch

/-- Whether the reader is among the members of the body's error object. -/
def inError (scratch : ClassifyScratch) : Bool :=
  decide (scratch.outer = some .error) && scratch.errorObject

/-- The member that a key names, when the reader keeps the key whole. -/
def Outer.of (kept : Text) : Option Outer :=
  kept.slice.bind (stringToEnum Outer.spell [.error, .message, .detail])

def Inner.of (kept : Text) : Option Inner :=
  kept.slice.bind (stringToEnum Inner.spell [.code, .type, .message, .detail, .resetsAt])

def key (scratch : ClassifyScratch) (kept : Text) (depth : Nat) : ClassifyScratch :=
  match depth with
  | 1 => { scratch with outer := Outer.of kept }
  | 2 => if scratch.inError then { scratch with inner := Inner.of kept } else scratch
  | _ => scratch

def beginOuter (scratch : ClassifyScratch) (kind : Kind) (outer : Outer) : ClassifyScratch :=
  { scratch with
    envelope := Function.update scratch.envelope outer (scratch.envelope outer).start
    errorObject := if outer = .error then decide (kind = .object) else scratch.errorObject }

def beginInner (scratch : ClassifyScratch) (inner : Inner) : ClassifyScratch :=
  { scratch with
    failure := Function.update scratch.failure inner (scratch.failure inner).start
    code := if inner = .code then [] else scratch.code
    resetsAt := if inner = .resetsAt then none else scratch.resetsAt }

def begins (scratch : ClassifyScratch) (kind : Kind) (depth : Nat) : ClassifyScratch :=
  match depth with
  | 1 => scratch.outer.elim scratch (scratch.beginOuter kind)
  | 2 => if scratch.inError then scratch.inner.elim scratch scratch.beginInner else scratch
  | _ => scratch

def endOuter (scratch : ClassifyScratch) (token : Token) (outer : Outer) : ClassifyScratch :=
  match token with
  | .string _ contents => { scratch with
      envelope := Function.update scratch.envelope outer ((scratch.envelope outer).set contents) }
  | _ => scratch

def endInner (scratch : ClassifyScratch) (token : Token) (inner : Inner) : ClassifyScratch :=
  match token with
  | .string kept contents => { scratch with
      failure := Function.update scratch.failure inner ((scratch.failure inner).set contents)
      code := if inner = .code then kept.slice.getD scratch.code else scratch.code }
  | .number integer _ =>
    { scratch with resetsAt := if inner = .resetsAt then integer else scratch.resetsAt }
  | _ => scratch

def ends (scratch : ClassifyScratch) (token : Token) (depth : Nat) : ClassifyScratch :=
  match depth with
  | 1 => scratch.outer.elim scratch (scratch.endOuter token)
  | 2 => if scratch.inError then scratch.inner.elim scratch (scratch.endInner token) else scratch
  | _ => scratch

def hear (scratch : ClassifyScratch) : Call → ClassifyScratch
  | .key kept _ depth => scratch.key kept depth
  | .begins kind depth _ _ => scratch.begins kind depth
  | .ends token depth _ => scratch.ends token depth

/-- What a code makes of a failure that has it once. -/
def findCode (scratch : ClassifyScratch) : ErrorBody :=
  if (scratch.failure .code).count = 1 ∧ scratch.code ≠ [] then
    if scratch.code = contextLengthExceeded then { contextOverflow := true }
    else match refusalOf scratch.code with
      | some refusal => {
          refusal := some refusal
          resetsAt := if (scratch.failure .resetsAt).count = 1 then scratch.resetsAt else none }
      | none => {}
  else {}

/-- An error object's type stands in for a code that is absent, empty or not a
string. -/
def reportCode (scratch : ClassifyScratch) : Option Range :=
  let code := scratch.failure .code
  let kind := scratch.failure .type
  if code.count = 1 ∧ code.isString ∧ code.range.length ≠ 0 then some code.range
  else if kind.count = 1 then kind.string
  else none

def find (scratch : ClassifyScratch) : ErrorBody :=
  let failure := scratch.envelope .error
  if failure.count = 0 then
    { report := { message := messageOf (scratch.envelope .message) (scratch.envelope .detail) } }
  else if failure.count > 1 ∨ ¬ scratch.errorObject then {}
  else { scratch.findCode with report := {
    code := scratch.reportCode
    message := messageOf (scratch.failure .message) (scratch.failure .detail) } }

end ClassifyScratch

/-- Reads an HTTP error body. Only a whole valid body and members that appear
once count. -/
def classify (body : List UInt8) : ErrorBody :=
  let reading := Reader.read body
  match reading.result with
  | .ok _ => (reading.calls.foldl ClassifyScratch.hear {}).find
  | .error _ => {}

end Rui.Responses
