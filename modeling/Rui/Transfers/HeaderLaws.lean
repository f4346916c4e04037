import Rui.Retries.RetryAfterLaws
import Rui.Transfers.Headers

/-!
# What the headers tell

The evidence a Transfer keeps, told by the fields its response brought: the largest of the waits,
the first routing value, and one value for each observed name.
-/

namespace Rui.Transfers

open Library

/-! ## The buffer -/

/-- A value that may be recorded under a name. -/
def ValidValue (name : Name) (value : List UInt8) : Prop :=
  value ≠ [] ∧ value.length ≤ capacity name ∧ utf8Validate value = true

/-- **The buffer holds the values and nothing else**, each in a span of its own. -/
structure Laid (observed : Observed) : Prop where
  total : observed.bytes.length = (observed.spans .requestId).len.toNat +
    (observed.spans .model).len.toNat + (observed.spans .alternateModel).len.toNat
  within : ∀ name, (observed.spans name).start.toNat + (observed.spans name).len.toNat ≤
    observed.bytes.length
  apart : ∀ name other, name ≠ other → (observed.spans name).len ≠ 0 →
    (observed.spans other).len ≠ 0 →
    (observed.spans name).start.toNat + (observed.spans name).len.toNat ≤
        (observed.spans other).start.toNat ∨
      (observed.spans other).start.toNat + (observed.spans other).len.toNat ≤
        (observed.spans name).start.toNat
  small : ∀ name, (observed.spans name).len.toNat ≤ capacity name
  valid : ∀ name, observed.get name ≠ [] → utf8Validate (observed.get name) = true

theorem laid_empty : Laid {} where
  total := rfl
  within := fun _ => Nat.le_refl _
  apart := fun _ _ _ h => absurd rfl h
  small := fun _ => Nat.zero_le _
  valid := fun _ h => absurd rfl h

theorem capacity_eq (name : Name) : capacity name = 256 := by cases name <;> rfl

namespace Laid

variable {observed : Observed}

/-- The buffer is as long as three values at most. -/
theorem length_le (h : Laid observed) : observed.bytes.length ≤ 768 := by
  have hrequest := h.small .requestId
  have hmodel := h.small .model
  have hother := h.small .alternateModel
  rw [capacity_eq] at hrequest hmodel hother
  rw [h.total]
  omega

theorem length_get (h : Laid observed) (name : Name) :
    (observed.get name).length = (observed.spans name).len.toNat := by
  have hwithin := h.within name
  rw [Observed.get, List.length_take, List.length_drop]
  omega

variable {name : Name}

theorem get_eq_nil (h : Laid observed) :
    observed.get name = [] ↔ (observed.spans name).len = 0 := by
  rw [← List.length_eq_zero_iff, h.length_get, ← UInt16.toNat_inj, UInt16.toNat_zero]

theorem validValue (h : Laid observed) (hsome : observed.get name ≠ []) :
    ValidValue name (observed.get name) :=
  ⟨hsome, (h.length_get name).trans_le (h.small name), h.valid name hsome⟩

theorem grow (h : Laid observed) {next : Observed} {value : List UInt8}
    (hbytes : next.bytes = observed.bytes ++ value)
    (hstart : (next.spans name).start.toNat = observed.bytes.length)
    (hlen : (next.spans name).len.toNat = value.length)
    (hother : ∀ other, other ≠ name → next.spans other = observed.spans other)
    (hnone : (observed.spans name).len = 0) (hvalue : ValidValue name value) :
    Laid next ∧ next.get name = value ∧
      ∀ other, other ≠ name → next.get other = observed.get other := by
  have hget : ∀ other, other ≠ name → next.get other = observed.get other := by
    intro other hne
    have hwithin := h.within other
    rw [Observed.get, Observed.get, hother other hne, hbytes,
      List.drop_append_of_le_length (by omega),
      List.take_append_of_le_length (by rw [List.length_drop]; omega)]
  have hnew : next.get name = value := by
    rw [Observed.get, hstart, hlen, hbytes, List.drop_left, List.take_length]
  refine ⟨⟨?_, ?_, ?_, ?_, ?_⟩, hnew, hget⟩
  · have htotal := h.total
    have hzero : (observed.spans name).len.toNat = 0 := by
      rw [hnone]
      rfl
    rw [hbytes, List.length_append]
    cases name with
    | requestId =>
      rw [hlen, hother .model (by decide), hother .alternateModel (by decide)]
      omega
    | model =>
      rw [hlen, hother .requestId (by decide), hother .alternateModel (by decide)]
      omega
    | alternateModel =>
      rw [hlen, hother .requestId (by decide), hother .model (by decide)]
      omega
  · intro other
    rw [hbytes, List.length_append]
    by_cases hname : other = name
    · rw [hname, hstart, hlen]
    · have hwithin := h.within other
      rw [hother other hname]
      omega
  · intro one other hne hone hsecond
    by_cases hname : one = name
    · subst hname
      rw [hother other (Ne.symm hne), hstart]
      exact .inr (h.within other)
    · by_cases hname' : other = name
      · subst hname'
        rw [hother one hne, hstart]
        exact .inl (h.within one)
      · rw [hother one hname, hother other hname'] at *
        exact h.apart one other hne hone hsecond
  · intro other
    by_cases hname : other = name
    · rw [hname, hlen]
      exact hvalue.2.1
    · rw [hother other hname]
      exact h.small other
  · intro other hne
    by_cases hname : other = name
    · rw [hname, hnew]
      exact hvalue.2.2
    · rw [hget other hname] at hne ⊢
      exact h.valid other hne

end Laid

/-- **What `put` does**: an invalid value or another one than there is is refused, so is one without
memory; the value that is there stays, and a new one goes behind the others. -/
theorem put_cases {observed : Observed} (h : Laid observed) (name : Name) (value : List UInt8)
    (memory : Bool) :
    (observed.put name value memory = .error .invalidValue ∧
      (¬ ValidValue name value ∨ observed.get name ≠ [] ∧ observed.get name ≠ value)) ∨
    (observed.put name value memory = .error .outOfMemory ∧ ValidValue name value ∧
      observed.get name = [] ∧ memory = false) ∨
    (observed.put name value memory = .ok observed ∧ ValidValue name value ∧
      observed.get name = value) ∨
    ∃ next, observed.put name value memory = .ok next ∧ Laid next ∧ ValidValue name value ∧
      observed.get name = [] ∧ next.get name = value ∧
      ∀ other, other ≠ name → next.get other = observed.get other := by
  rw [Observed.put]
  by_cases hvalid : value.length = 0 ∨ value.length > capacity name ∨ utf8Validate value = false
  · rw [if_pos hvalid]
    refine .inl ⟨rfl, .inl ?_⟩
    rintro ⟨hne, hlength, hutf8⟩
    rcases hvalid with hzero | hlong | hbad
    · exact hne (List.length_eq_zero_iff.mp hzero)
    · omega
    · rw [hutf8] at hbad
      cases hbad
  rw [if_neg hvalid]
  simp only [not_or, Bool.not_eq_false, Nat.not_lt] at hvalid
  have hvalue : ValidValue name value :=
    ⟨fun hnil => hvalid.1 (by rw [hnil]; rfl), hvalid.2.1, hvalid.2.2⟩
  by_cases hsome : (observed.spans name).len ≠ 0
  · rw [if_pos hsome]
    have hne : observed.get name ≠ [] := fun hnil => hsome (h.get_eq_nil.mp hnil)
    split
    · next hsame => exact .inr (.inr (.inl ⟨rfl, hvalue, hsame⟩))
    · next hother => exact .inl ⟨rfl, .inr ⟨hne, hother⟩⟩
  rw [if_neg hsome]
  have hnone : observed.get name = [] := h.get_eq_nil.mpr (not_not.mp hsome)
  cases memory with
  | false => exact .inr (.inl ⟨rfl, hvalue, hnone, rfl⟩)
  | true =>
    have hbuffer := h.length_le
    have hlength := hvalue.2.1
    rw [capacity_eq] at hlength
    obtain ⟨next, hnext⟩ : ∃ next : Observed, next = ⟨observed.bytes ++ value,
      Function.update observed.spans name
        ⟨UInt16.ofNat observed.bytes.length, UInt16.ofNat value.length⟩⟩ := ⟨_, rfl⟩
    have hspan : next.spans name =
        ⟨UInt16.ofNat observed.bytes.length, UInt16.ofNat value.length⟩ := by
      rw [hnext]
      exact Function.update_self _ _ _
    have hstart : (next.spans name).start.toNat = observed.bytes.length := by
      rw [hspan, UInt16.toNat_ofNat_of_lt' (by rw [UInt16.size]; omega)]
    have hlen : (next.spans name).len.toNat = value.length := by
      rw [hspan, UInt16.toNat_ofNat_of_lt' (by rw [UInt16.size]; omega)]
    obtain ⟨hlaid, hget, hothers⟩ := h.grow (by rw [hnext]) hstart hlen
      (fun other hne => by rw [hnext]; exact Function.update_of_ne hne _ _) (not_not.mp hsome) hvalue
    exact .inr (.inr (.inr ⟨next, by rw [hnext]; rfl, hlaid, hvalue, hnone, hget, hothers⟩))

/-! ## The fields that came -/

/-- A field that was read, with what its block told. -/
structure Read where
  successful : Bool
  nowSeconds : Int
  field : Field

def Head.successful (head : Head) : Bool :=
  decide (head.kind = .final ∧ head.status ≥ 200 ∧ head.status < 300)

def Head.reads (head : Head) : List Read :=
  head.fields.map fun field => ⟨head.successful, head.nowSeconds, field⟩

namespace Read

def value (self : Read) : List UInt8 := trim self.field.value

/-- The wait a field asks for. -/
def constraint (names : ObservedHeaders) (self : Read) : Option Retries.RetryAfter :=
  if role names self.field.name = some .retryAfter then
    Retries.parseRetryAfter self.value self.nowSeconds
  else none

def delay (names : ObservedHeaders) (self : Read) : Option Nat :=
  match self.constraint names with
  | some (.delayMs delay) => some delay
  | _ => none

def deadline (names : ObservedHeaders) (self : Read) : Option Int :=
  match self.constraint names with
  | some (.deadlineMs deadline) => some deadline
  | _ => none

/-- A field of the routing name in a successful final block. -/
def routes (names : ObservedHeaders) (self : Read) : Bool :=
  self.successful && role names self.field.name == some .turnState

/-- A field of an observed name. -/
def names (names : ObservedHeaders) (name : Name) (self : Read) : Bool :=
  role names self.field.name == some (.observed name)

end Read

/-- The waits asked for. -/
structure Waits (names : ObservedHeaders) (taken : List Read) (context : HeaderContext) : Prop where
  delay : context.largestDelay = (taken.filterMap (Read.delay names)).max?
  deadline : context.latestDeadline = (taken.filterMap (Read.deadline names)).max?
  zero : context.hasRetryAfterMs = false → context.retryAfterMs = 0
  epoch : context.hasRetryAfterDeadlineMs = false → context.retryAfterDeadlineMs = 0

/-- What the sink is to be handed: the first routing value, where it may be filed. -/
def filed (observation : HeaderObservation) (key : Option TurnStateKey) (first : Option Read) :
    List (TurnStateKey × Routing.Value) :=
  match first.bind fun read => routingValue read.value, key with
  | some value, some key => if observation.turnState then [(key, value)] else []
  | _, _ => []

/-- The routing value. -/
structure Routed (observation : HeaderObservation) (key : Option TurnStateKey) (taken : List Read)
    (context : HeaderContext) : Prop where
  filedAs : context.turnState = key
  seen : context.turnStateSeen = (taken.find? (Read.routes observation.names)).isSome
  captured : context.captured =
    filed observation key (taken.find? (Read.routes observation.names))

/-- One value for each observed name. -/
structure Recorded (names : ObservedHeaders) (taken : List Read) (observed : Observed) : Prop where
  laid : Laid observed
  values : ∀ name, ∀ read ∈ taken, read.names names name = true →
    ValidValue name read.value ∧ observed.get name = read.value
  came : ∀ name, observed.get name ≠ [] → ∃ read ∈ taken, read.names names name = true

/-- **The evidence of the fields taken.** -/
structure Evidence (observation : HeaderObservation) (key : Option TurnStateKey) (taken : List Read)
    (context : HeaderContext) : Prop where
  waits : Waits observation.names taken context
  routed : Routed observation key taken context
  recorded : Recorded observation.names taken context.observed

theorem evidence_start (observation : HeaderObservation) (key : Option TurnStateKey) :
    Evidence observation key [] { turnState := key } where
  waits := ⟨rfl, rfl, fun _ => rfl, fun _ => rfl⟩
  routed := ⟨rfl, rfl, rfl⟩
  recorded := ⟨laid_empty, nofun, fun _ h => absurd rfl h⟩

variable {α β : Type}

theorem max?_snoc [LinearOrder α] (values : List α) (value : α) :
    (values ++ [value]).max? = some (values.max?.elim value fun most => max most value) := by
  cases values with
  | nil => rfl
  | cons first rest =>
    rw [List.cons_append, List.max?_cons', List.max?_cons', List.foldl_append]
    rfl

/-- A deadline is not before 1970. -/
theorem deadline_nonneg {value : List UInt8} {nowSeconds deadline : Int}
    (h : Retries.parseRetryAfter value nowSeconds = some (.deadlineMs deadline)) : 0 ≤ deadline := by
  obtain ⟨due, hdue, rfl, _⟩ := Retries.parseRetryAfter_deadline h
  obtain ⟨stamp, _, hyear, _, rfl, _⟩ := Retries.spells_of_parseHttpDate hdue
  have hpos := Retries.Stamp.seconds_nonneg hyear
  omega

/-! ## One field -/

section Fields

variable {observation : HeaderObservation} {key : Option TurnStateKey} {taken : List Read}
  {context next : HeaderContext} {read : Read}

theorem Waits.other {names : ObservedHeaders} (h : Waits names taken context)
    (hrole : role names read.field.name ≠ some .retryAfter)
    (hdelay : next.largestDelay = context.largestDelay)
    (hdeadline : next.latestDeadline = context.latestDeadline)
    (hzero : next.hasRetryAfterMs = false → next.retryAfterMs = 0)
    (hepoch : next.hasRetryAfterDeadlineMs = false → next.retryAfterDeadlineMs = 0) :
    Waits names (taken ++ [read]) next := by
  have hconstraint : read.constraint names = none := if_neg hrole
  have hnone : read.delay names = none := by rw [Read.delay, hconstraint]
  have hnone' : read.deadline names = none := by rw [Read.deadline, hconstraint]
  refine ⟨?_, ?_, hzero, hepoch⟩
  · rw [hdelay, h.delay, List.filterMap_append, List.filterMap_cons_none hnone, List.filterMap_nil,
      List.append_nil]
  · rw [hdeadline, h.deadline, List.filterMap_append, List.filterMap_cons_none hnone',
      List.filterMap_nil, List.append_nil]

/-- **A Retry-After field** raises the largest delay or the latest deadline. -/
theorem Waits.retryAfter {names : ObservedHeaders} (h : Waits names taken context)
    (hrole : role names read.field.name = some .retryAfter) :
    Waits names (taken ++ [read]) (context.retryAfter read.value read.nowSeconds) := by
  have hconstraint : read.constraint names =
      Retries.parseRetryAfter read.value read.nowSeconds := if_pos hrole
  rw [HeaderContext.retryAfter]
  cases hparsed : Retries.parseRetryAfter read.value read.nowSeconds with
  | none =>
    have hnone : read.delay names = none := by rw [Read.delay, hconstraint, hparsed]
    have hnone' : read.deadline names = none := by rw [Read.deadline, hconstraint, hparsed]
    refine ⟨?_, ?_, h.zero, h.epoch⟩
    · rw [h.delay, List.filterMap_append, List.filterMap_cons_none hnone, List.filterMap_nil,
        List.append_nil]
    · rw [h.deadline, List.filterMap_append, List.filterMap_cons_none hnone', List.filterMap_nil,
        List.append_nil]
  | some constraint =>
    cases constraint with
    | delayMs delay =>
      have hsome : read.delay names = some delay := by rw [Read.delay, hconstraint, hparsed]
      have hnone : read.deadline names = none := by rw [Read.deadline, hconstraint, hparsed]
      refine ⟨?_, ?_, nofun, h.epoch⟩
      · rw [List.filterMap_append, List.filterMap_cons_some hsome, List.filterMap_nil, max?_snoc,
          ← h.delay]
        simp only [HeaderContext.largestDelay, if_true]
        split
        · rfl
        · next hfirst => rw [h.zero (Bool.not_eq_true _ ▸ hfirst), Nat.zero_max, Option.elim_none]
      · rw [List.filterMap_append, List.filterMap_cons_none hnone, List.filterMap_nil,
          List.append_nil]
        exact h.deadline
    | deadlineMs deadline =>
      have hnone : read.delay names = none := by rw [Read.delay, hconstraint, hparsed]
      have hsome : read.deadline names = some deadline := by
        rw [Read.deadline, hconstraint, hparsed]
      refine ⟨?_, ?_, h.zero, nofun⟩
      · rw [List.filterMap_append, List.filterMap_cons_none hnone, List.filterMap_nil,
          List.append_nil]
        exact h.delay
      · rw [List.filterMap_append, List.filterMap_cons_some hsome, List.filterMap_nil, max?_snoc,
          ← h.deadline]
        simp only [HeaderContext.latestDeadline, if_true]
        split
        · rfl
        · next hfirst =>
          rw [h.epoch (Bool.not_eq_true _ ▸ hfirst), max_eq_right (deadline_nonneg hparsed),
            Option.elim_none]

theorem Routed.other (h : Routed observation key taken context)
    (hroutes : read.routes observation.names = false ∨ context.turnStateSeen = true)
    (hkey : next.turnState = context.turnState) (hseen : next.turnStateSeen = context.turnStateSeen)
    (hcaptured : next.captured = context.captured) :
    Routed observation key (taken ++ [read]) next := by
  have hfind : (taken ++ [read]).find? (Read.routes observation.names) =
      taken.find? (Read.routes observation.names) := by
    rw [List.find?_append]
    rcases hroutes with hno | hyes
    · simp [hno]
    · rw [h.seen, Option.isSome_iff_exists] at hyes
      obtain ⟨first, hfirst⟩ := hyes
      rw [hfirst]
      rfl
  exact ⟨hkey.trans h.filedAs, by rw [hfind, hseen, h.seen], by rw [hfind, hcaptured, h.captured]⟩

theorem retryAfter_eq (context : HeaderContext) (value : List UInt8) (nowSeconds : Int) :
    ∃ delay deadline hasDelay hasDeadline, context.retryAfter value nowSeconds =
      { context with
        retryAfterMs := delay
        retryAfterDeadlineMs := deadline
        hasRetryAfterMs := hasDelay
        hasRetryAfterDeadlineMs := hasDeadline } := by
  rw [HeaderContext.retryAfter]
  split
  · exact ⟨_, _, _, _, rfl⟩
  · exact ⟨_, _, _, _, rfl⟩
  · exact ⟨_, _, _, _, rfl⟩

theorem routing_eq (observation : HeaderObservation) (context : HeaderContext)
    (value : List UInt8) : ∃ seen captured, context.routing observation value =
      { context with turnStateSeen := seen, captured := captured } := by
  rw [HeaderContext.routing]
  split
  · exact ⟨_, _, rfl⟩
  · dsimp only
    split
    · split
      · exact ⟨_, _, rfl⟩
      · exact ⟨_, _, rfl⟩
    · exact ⟨_, _, rfl⟩

/-- **A field of the routing name**: the first in a successful final block is the one filed. -/
theorem Routed.routing (h : Routed observation key taken context)
    (hrole : role observation.names read.field.name = some .turnState)
    (hblock : context.successfulBlock = read.successful) :
    Routed observation key (taken ++ [read]) (context.routing observation read.value) := by
  have hroutes : read.routes observation.names = read.successful := by simp [Read.routes, hrole]
  rw [HeaderContext.routing]
  split
  · next hlate =>
    refine h.other ?_ rfl rfl rfl
    rw [hroutes, ← hblock]
    exact hlate
  · next hfirst =>
    simp only [not_or, Bool.not_eq_false, Bool.not_eq_true] at hfirst
    obtain ⟨hsuccess, hunseen⟩ := hfirst
    have hnone : taken.find? (Read.routes observation.names) = none := by
      rw [h.seen, Option.isSome_eq_false_iff, Option.isNone_iff_eq_none] at hunseen
      exact hunseen
    have hfind : (taken ++ [read]).find? (Read.routes observation.names) = some read := by
      rw [List.find?_append, hnone]
      simp [hroutes, ← hblock, hsuccess]
    have hempty : context.captured = [] := by
      rw [h.captured, hnone]
      rfl
    have hkey := h.filedAs
    cases hvalue : routingValue read.value with
    | none => exact ⟨hkey, by rw [hfind]; rfl, by simp [hfind, filed, hvalue, hempty]⟩
    | some value =>
      cases hplace : context.turnState with
      | none =>
        rw [hplace] at hkey
        exact ⟨hkey, by rw [hfind]; rfl, by simp [hfind, filed, hempty, ← hkey]⟩
      | some place =>
        rw [hplace] at hkey
        dsimp only
        by_cases hsink : observation.turnState = true
        · rw [if_pos hsink]
          exact ⟨hkey, by rw [hfind]; rfl, by simp [hfind, filed, hvalue, hempty, hsink, ← hkey]⟩
        · rw [if_neg hsink]
          exact ⟨hkey, by rw [hfind]; rfl, by simp [hfind, filed, hvalue, hempty, hsink, ← hkey]⟩

variable {observed : Observed}

theorem Recorded.other {names : ObservedHeaders} (h : Recorded names taken observed)
    (hrole : ∀ name, read.names names name = false) :
    Recorded names (taken ++ [read]) observed := by
  refine ⟨h.laid, fun name other hother hname => ?_, fun name hsome => ?_⟩
  · rcases List.mem_append.mp hother with hold | hnew
    · exact h.values name other hold hname
    · rw [List.mem_singleton.mp hnew, hrole] at hname
      cases hname
  · obtain ⟨other, hother, hname⟩ := h.came name hsome
    exact ⟨other, List.mem_append_left _ hother, hname⟩

/-- Why a field of an observed name is refused. -/
def Refused (names : ObservedHeaders) (observed : Observed) (read : Read) (err : FieldError) : Prop :=
  ∃ name, read.names names name = true ∧
    match err with
    | .invalidValue => ¬ ValidValue name read.value ∨
        (observed.get name ≠ [] ∧ observed.get name ≠ read.value)
    | .outOfMemory => ValidValue name read.value ∧ observed.get name = [] ∧
        read.field.memory = false

/-- **A field of an observed name** is recorded or refused. -/
theorem Recorded.put {names : ObservedHeaders} {name : Name} (h : Recorded names taken observed)
    (hrole : role names read.field.name = some (.observed name)) :
    (∃ next, observed.put name read.value read.field.memory = .ok next ∧
      Recorded names (taken ++ [read]) next) ∨
    ∃ err, observed.put name read.value read.field.memory = .error err ∧
      Refused names observed read err := by
  have hname : ∀ {other}, read.names names other = true ↔ other = name := by
    intro other
    rw [Read.names, hrole, beq_iff_eq, Option.some_inj, Role.observed.injEq]
    exact eq_comm
  have hself : read.names names name = true := hname.mpr rfl
  rcases put_cases h.laid name read.value read.field.memory with
    ⟨hput, hwhy⟩ | ⟨hput, hvalid, hnone, hmemory⟩ | ⟨hput, hvalid, hsame⟩ |
    ⟨next, hput, hlaid, hvalid, hnone, hget, hothers⟩
  · exact .inr ⟨_, hput, name, hself, hwhy⟩
  · exact .inr ⟨_, hput, name, hself, hvalid, hnone, hmemory⟩
  · refine .inl ⟨observed, hput, h.laid, fun other one hone hnamed => ?_, fun other hsome => ?_⟩
    · rcases List.mem_append.mp hone with hold | hnew
      · exact h.values other one hold hnamed
      · obtain rfl := List.mem_singleton.mp hnew
        obtain rfl := hname.mp hnamed
        exact ⟨hvalid, hsame⟩
    · obtain ⟨one, hone, hnamed⟩ := h.came other hsome
      exact ⟨one, List.mem_append_left _ hone, hnamed⟩
  · refine .inl ⟨next, hput, hlaid, fun other one hone hnamed => ?_, fun other hsome => ?_⟩
    · rcases List.mem_append.mp hone with hold | hnew
      · obtain ⟨hone, hvalue⟩ := h.values other one hold hnamed
        refine ⟨hone, ?_⟩
        by_cases heq : other = name
        · subst heq
          exact absurd (hvalue.symm.trans hnone) hone.1
        · rw [hothers other heq, hvalue]
      · obtain rfl := List.mem_singleton.mp hnew
        obtain rfl := hname.mp hnamed
        exact ⟨hvalid, hget⟩
    · by_cases heq : other = name
      · exact ⟨read, List.mem_append_right _ (List.mem_singleton_self _), hname.mpr heq⟩
      · rw [hothers other heq] at hsome
        obtain ⟨one, hone, hnamed⟩ := h.came other hsome
        exact ⟨one, List.mem_append_left _ hone, hnamed⟩

/-- **One field** is taken into the evidence, or refused. -/
theorem Evidence.field (h : Evidence observation key taken context)
    (hblock : context.successfulBlock = read.successful) :
    (∃ next, context.field observation read.field read.nowSeconds = .ok next ∧
      Evidence observation key (taken ++ [read]) next ∧
      next.successfulBlock = context.successfulBlock ∧ next.localFailure = context.localFailure) ∨
    ∃ err, context.field observation read.field read.nowSeconds = .error err ∧
      Refused observation.names context.observed read err := by
  rw [HeaderContext.field]
  have hvalue : trim read.field.value = read.value := rfl
  rw [hvalue]
  cases hrole : role observation.names read.field.name with
  | none =>
    have hroutes : read.routes observation.names = false := by simp [Read.routes, hrole]
    refine .inl ⟨context, rfl, ⟨?_, ?_, ?_⟩, rfl, rfl⟩
    · exact h.waits.other (by rw [hrole]; nofun) rfl rfl h.waits.zero h.waits.epoch
    · exact h.routed.other (.inl hroutes) rfl rfl rfl
    · exact h.recorded.other fun name => by simp [Read.names, hrole]
  | some which =>
    cases which with
    | retryAfter =>
      have hroutes : read.routes observation.names = false := by simp [Read.routes, hrole]
      have hwaits := h.waits.retryAfter hrole
      obtain ⟨delay, deadline, hasDelay, hasDeadline, hnext⟩ :=
        retryAfter_eq context read.value read.nowSeconds
      refine .inl ⟨_, rfl, ?_⟩
      rw [hnext] at hwaits ⊢
      refine ⟨⟨hwaits, ?_, ?_⟩, rfl, rfl⟩
      · exact h.routed.other (.inl hroutes) rfl rfl rfl
      · exact h.recorded.other fun name => by simp [Read.names, hrole]
    | turnState =>
      have hrouted := h.routed.routing hrole hblock
      obtain ⟨seen, captured, hrouting⟩ := routing_eq observation context read.value
      refine .inl ⟨_, rfl, ?_⟩
      rw [hrouting] at hrouted ⊢
      refine ⟨⟨?_, hrouted, ?_⟩, rfl, rfl⟩
      · exact h.waits.other (by rw [hrole]; nofun) rfl rfl h.waits.zero h.waits.epoch
      · exact h.recorded.other fun name => by simp [Read.names, hrole]
    | observed name =>
      have hroutes : read.routes observation.names = false := by simp [Read.routes, hrole]
      rcases h.recorded.put hrole with ⟨next, hput, hrecorded⟩ | ⟨err, hput, hrefused⟩
      · refine .inl ⟨{ context with observed := next }, by simp [hput], ⟨?_, ?_, hrecorded⟩, rfl, rfl⟩
        · exact h.waits.other (by rw [hrole]; nofun) rfl rfl h.waits.zero h.waits.epoch
        · exact h.routed.other (.inl hroutes) rfl rfl rfl
      · exact .inr ⟨err, by simp [hput], hrefused⟩

end Fields

/-! ## The blocks -/

/-- **What the fields read come to**: all are taken, or the first refused ends it. -/
def Outcome (observation : HeaderObservation) (key : Option TurnStateKey) (reads : List Read)
    (context : HeaderContext) : Verdict → Prop
  | .accept => Evidence observation key reads context ∧ context.localFailure = false
  | .refuse => ∃ taken bad rest err, reads = taken ++ bad :: rest ∧
      Evidence observation key taken context ∧
      Refused observation.names context.observed bad err ∧
      context.localFailure = (err == .outOfMemory)

section Blocks

variable {observation : HeaderObservation} {key : Option TurnStateKey} {taken : List Read}
  {context : HeaderContext}

theorem Evidence.fail (h : Evidence observation key taken context) (failure : Bool) :
    Evidence observation key taken { context with localFailure := failure } where
  waits := ⟨h.waits.delay, h.waits.deadline, h.waits.zero, h.waits.epoch⟩
  routed := ⟨h.routed.filedAs, h.routed.seen, h.routed.captured⟩
  recorded := h.recorded

theorem Evidence.block (h : Evidence observation key taken context) (kind : Kind) (status : Nat) :
    Evidence observation key taken (context.block kind status) where
  waits := ⟨h.waits.delay, h.waits.deadline, h.waits.zero, h.waits.epoch⟩
  routed := ⟨h.routed.filedAs, h.routed.seen, h.routed.captured⟩
  recorded := h.recorded

/-- **The fields of a block**, by induction on them. -/
theorem Evidence.fields {successful : Bool} (nowSeconds : Int) (fields : List Field)
    (h : Evidence observation key taken context) (hfailure : context.localFailure = false)
    (hblock : context.successfulBlock = successful) :
    let run := HeaderContext.fields observation nowSeconds context fields
    Outcome observation key (taken ++ fields.map fun field => ⟨successful, nowSeconds, field⟩)
      run.1 run.2 := by
  induction fields generalizing context taken with
  | nil =>
    rw [List.map_nil, List.append_nil]
    exact ⟨h, hfailure⟩
  | cons field rest ih =>
    have hread : context.successfulBlock = (⟨successful, nowSeconds, field⟩ : Read).successful :=
      hblock
    rw [HeaderContext.fields, List.map_cons]
    rcases h.field hread with ⟨next, hfield, hnext, hkept, hsound⟩ | ⟨err, hfield, hrefused⟩
    · rw [hfield, List.append_cons]
      exact ih hnext (hsound.trans hfailure) (hkept.trans hblock)
    · rw [hfield]
      refine ⟨taken, _, _, err, rfl, h.fail _, hrefused, ?_⟩
      dsimp only
      rw [hfailure, Bool.false_or]

/-- **The blocks of a response**, by induction on them. -/
theorem Evidence.heads (heads : List Head) (h : Evidence observation key taken context)
    (hfailure : context.localFailure = false) :
    let run := HeaderContext.heads observation context heads
    Outcome observation key (taken ++ heads.flatMap Head.reads) run.1 run.2 := by
  induction heads generalizing context taken with
  | nil =>
    rw [List.flatMap_nil, List.append_nil]
    exact ⟨h, hfailure⟩
  | cons head rest ih =>
    have hhead := (h.block head.kind head.status).fields head.nowSeconds head.fields hfailure rfl
    rw [HeaderContext.heads, List.flatMap_cons, ← List.append_assoc]
    dsimp only at hhead
    change Outcome observation key (taken ++ head.reads) (context.head observation head).1
      (context.head observation head).2 at hhead
    rcases hrun : context.head observation head with ⟨next, verdict⟩
    rw [hrun] at hhead
    cases verdict with
    | accept => exact ih hhead.1 hhead.2
    | refuse =>
      obtain ⟨before, bad, after, err, hreads, hevidence, hrefused, hfailed⟩ := hhead
      refine ⟨before, bad, after ++ rest.flatMap Head.reads, err, ?_, hevidence, hrefused, hfailed⟩
      rw [hreads, List.append_assoc, List.cons_append]

end Blocks

/-! ## Any response -/

/-- The largest of the values told, in whatever order they came. -/
theorem max?_filterMap_iff [LinearOrder β] (told : α → Option β) (taken : List α) (most : β) :
    (taken.filterMap told).max? = some most ↔
      IsGreatest {value | ∃ one ∈ taken, told one = some value} most := by
  rw [List.max?_eq_some_iff]
  simp only [IsGreatest, mem_upperBounds, Set.mem_ofPred_eq, List.mem_filterMap]

theorem max?_filterMap_none [LinearOrder β] (told : α → Option β) (taken : List α) :
    (taken.filterMap told).max? = none ↔ ∀ one ∈ taken, told one = none := by
  rw [List.max?_eq_none_iff, List.filterMap_eq_nil_iff]

theorem mem_filed {observation : HeaderObservation} {key : Option TurnStateKey} {first : Option Read}
    {place : TurnStateKey} {value : Routing.Value} :
    (place, value) ∈ filed observation key first ↔
      key = some place ∧ observation.turnState = true ∧
        ∃ read, first = some read ∧ routingValue read.value = some value := by
  unfold filed
  rw [← Option.bind_eq_some_iff]
  cases hvalue : first.bind fun read => routingValue read.value with
  | none => simp
  | some filedValue =>
    cases key with
    | none => simp
    | some filedAs =>
      dsimp only
      split
      · next hsink =>
        simp only [List.mem_singleton, Prod.mk.injEq, Option.some_inj, hsink, true_and,
          eq_comm (a := place), eq_comm (a := value)]
      · next hsink => simp [hsink]

theorem length_filed_le (observation : HeaderObservation) (key : Option TurnStateKey)
    (first : Option Read) : (filed observation key first).length ≤ 1 := by
  unfold filed
  split
  · split
    · exact Nat.le_refl 1
    · exact Nat.zero_le 1
  · exact Nat.zero_le 1

/-- A value is filed when it is some printable ASCII, and not too long. -/
theorem routingValue_iff {bytes : List UInt8} {value : Routing.Value} :
    routingValue bytes = some value ↔ value.bytes = bytes ∧ 1 ≤ bytes.length ∧
      bytes.length ≤ Routing.maxTurnStateBytes ∧
      ∀ byte ∈ bytes, 0x20 ≤ byte ∧ byte ≤ 0x7e := by
  have hall : bytes.all isPrintable = true ↔ ∀ byte ∈ bytes, 0x20 ≤ byte ∧ byte ≤ 0x7e := by
    simp only [List.all_eq_true, isPrintable, Bool.and_eq_true, decide_eq_true_eq]
  rw [routingValue, ← hall, Nat.one_le_iff_ne_zero]
  split
  · next hvalue =>
    rw [Option.some_inj]
    constructor
    · rintro rfl
      exact ⟨rfl, hvalue⟩
    · rintro ⟨rfl, _⟩
      rfl
  · next hvalue => exact ⟨nofun, fun h => absurd h.2 hvalue⟩

/-- **The evidence of a response's headers**, whatever blocks and fields it brought: all its fields
are taken, or all before the first that is refused. -/
theorem header_evidence (observation : HeaderObservation) (key : Option TurnStateKey)
    (heads : List Head) :
    let names := observation.names
    let run := HeaderContext.heads observation { turnState := key } heads
    ∃ taken rest, heads.flatMap Head.reads = taken ++ rest ∧
      (match run.2 with
        | .accept => rest = [] ∧ run.1.localFailure = false
        | .refuse => ∃ bad later err, rest = bad :: later ∧
            Refused names run.1.observed bad err ∧ run.1.localFailure = (err == .outOfMemory)) ∧
      (∀ most, run.1.largestDelay = some most ↔
        IsGreatest {delay | ∃ read ∈ taken, read.delay names = some delay} most) ∧
      (run.1.largestDelay = none ↔ ∀ read ∈ taken, read.delay names = none) ∧
      (∀ most, run.1.latestDeadline = some most ↔
        IsGreatest {deadline | ∃ read ∈ taken, read.deadline names = some deadline} most) ∧
      (run.1.latestDeadline = none ↔ ∀ read ∈ taken, read.deadline names = none) ∧
      run.1.captured.length ≤ 1 ∧
      (∀ place value, (place, value) ∈ run.1.captured ↔
        key = some place ∧ observation.turnState = true ∧
          ∃ first, taken.find? (Read.routes names) = some first ∧ value.bytes = first.value ∧
            1 ≤ first.value.length ∧ first.value.length ≤ 4096 ∧
            ∀ byte ∈ first.value, 0x20 ≤ byte ∧ byte ≤ 0x7e) ∧
      (∀ name, run.1.observed.get name = [] ∧ (∀ read ∈ taken, read.names names name = false) ∨
        ValidValue name (run.1.observed.get name) ∧ (∃ read ∈ taken, read.names names name = true) ∧
          ∀ read ∈ taken, read.names names name = true → read.value = run.1.observed.get name) ∧
      run.1.observed.bytes.length ≤ 768 ∧
      (∀ name, (run.1.observed.spans name).start.toNat + (run.1.observed.spans name).len.toNat ≤
        run.1.observed.bytes.length) ∧
      ∀ name other, name ≠ other → (run.1.observed.spans name).len ≠ 0 →
        (run.1.observed.spans other).len ≠ 0 →
        (run.1.observed.spans name).start.toNat + (run.1.observed.spans name).len.toNat ≤
            (run.1.observed.spans other).start.toNat ∨
          (run.1.observed.spans other).start.toNat + (run.1.observed.spans other).len.toNat ≤
            (run.1.observed.spans name).start.toNat := by
  dsimp only
  have hrun := (evidence_start observation key).heads heads rfl
  rw [List.nil_append] at hrun
  dsimp only at hrun
  generalize HeaderContext.heads observation { turnState := key } heads = run at hrun
  obtain ⟨taken, rest, hreads, hevidence, hend⟩ : ∃ taken rest,
      heads.flatMap Head.reads = taken ++ rest ∧ Evidence observation key taken run.1 ∧
      match run.2 with
        | .accept => rest = [] ∧ run.1.localFailure = false
        | .refuse => ∃ bad later err, rest = bad :: later ∧
            Refused observation.names run.1.observed bad err ∧
            run.1.localFailure = (err == .outOfMemory) := by
    cases hverdict : run.2 with
    | accept =>
      rw [hverdict] at hrun
      exact ⟨_, [], (List.append_nil _).symm, hrun.1, rfl, hrun.2⟩
    | refuse =>
      rw [hverdict] at hrun
      obtain ⟨taken, bad, later, err, hreads, hevidence, hrefused, hfailed⟩ := hrun
      exact ⟨taken, bad :: later, hreads, hevidence, bad, later, err, rfl, hrefused, hfailed⟩
  obtain ⟨hwaits, hrouted, hrecorded⟩ := hevidence
  refine ⟨taken, rest, hreads, hend, ?_, ?_, ?_, ?_, ?_, ?_, ?_, hrecorded.laid.length_le,
    hrecorded.laid.within, hrecorded.laid.apart⟩
  · intro most
    rw [hwaits.delay, max?_filterMap_iff]
  · rw [hwaits.delay, max?_filterMap_none]
  · intro most
    rw [hwaits.deadline, max?_filterMap_iff]
  · rw [hwaits.deadline, max?_filterMap_none]
  · rw [hrouted.captured]
    exact length_filed_le _ _ _
  · intro place value
    simp only [hrouted.captured, mem_filed, routingValue_iff, Routing.maxTurnStateBytes]
  · intro name
    by_cases hname : run.1.observed.get name = []
    · refine .inl ⟨hname, fun read hread => Bool.eq_false_iff.mpr fun hnamed => ?_⟩
      obtain ⟨hvalid, hvalue⟩ := hrecorded.values name read hread hnamed
      exact hvalid.1 (hvalue.symm.trans hname)
    · exact .inr ⟨hrecorded.laid.validValue hname, hrecorded.came name hname,
        fun read hread hnamed => (hrecorded.values name read hread hnamed).2.symm⟩

end Rui.Transfers
