import Rui.Json.ReaderSound
import Rui.Json.Spelling
import Rui.Library.JsonCompact
import Rui.Responses.Classify

/-!
# What an error body comes to

The classifier over a parsed body. What it finds is a function of the values
that `error` has in the body, and that `code` and `resets_at` have in a single
error object; the rest of the body only has to be well formed and not too deep.
-/

namespace Rui.Responses

open Library Library.Json Rui.Json

/-! ## What counts -/

/-- The values that a key has. -/
def held (key : List UInt8) (members : List (List UInt8 × Json.Value)) : List Json.Value :=
  members.filterMap fun member => if member.1 = key then some member.2 else none

/-- The value of a key that appears once. -/
def only (key : List UInt8) (members : List (List UInt8 × Json.Value)) : Option Json.Value :=
  match held key members with
  | [value] => some value
  | _ => none

/-- The members of the body's error object. -/
def errorObjectOf (document : Document) : Option (List (List UInt8 × Json.Value)) :=
  match only (text "error") (membersValue document.members) with
  | some (.object members) => some members
  | _ => none

/-- The error object's single string `code`. -/
def codeOf (failure : List (List UInt8 × Json.Value)) : Option (List UInt8) :=
  match only (text "code") failure with
  | some (.string bytes) => some bytes
  | _ => none

/-- The error object's single plain integer `resets_at`. -/
def resetOf (failure : List (List UInt8 × Json.Value)) : Option Nat :=
  match only (text "resets_at") failure with
  | some (.number number) => plainInteger number
  | _ => none

/-- What decides what to do about a failed request. -/
structure Findings where
  contextOverflow : Bool := false
  refusal : Option Refusal := none
  resetsAt : Option Nat := none
  deriving DecidableEq, Repr

def ErrorBody.findings (body : ErrorBody) : Findings :=
  ⟨body.contextOverflow, body.refusal, body.resetsAt⟩

/-- The findings that a body's error object has. -/
def findingsOf (failure : Option (List (List UInt8 × Json.Value))) : Findings :=
  match failure with
  | none => {}
  | some failure =>
    { contextOverflow := decide (codeOf failure = some contextLengthExceeded)
      refusal := (codeOf failure).bind refusalOf
      resetsAt := if ((codeOf failure).bind refusalOf).isSome then resetOf failure else none }

theorem held_append (key : List UInt8) (members more : List (List UInt8 × Json.Value)) :
    held key (members ++ more) = held key members ++ held key more :=
  List.filterMap_append

theorem held_single (key name : List UInt8) (value : Json.Value) :
    held key [(name, value)] = if name = key then [value] else [] := by
  by_cases hname : name = key <;> simp [held, hname]

theorem only_perm {key : List UInt8} {members members' : List (List UInt8 × Json.Value)}
    (h : (held key members).Perm (held key members')) : only key members = only key members' := by
  rw [only, only]
  generalize held key members = values at h
  generalize held key members' = values' at h
  rcases values with _ | ⟨value, _ | ⟨next, values⟩⟩
  · rw [List.nil_perm.mp h]
  · rw [List.singleton_perm.mp h]
  · have hlength := h.length_eq
    rcases values' with _ | ⟨value', _ | ⟨next', values'⟩⟩
    · rfl
    · simp at hlength
    · rfl

/-! ## Calls by depth -/

/-- The depth that a call is made at. -/
def depthOf : Call → Nat
  | .key _ _ depth => depth
  | .begins _ depth _ _ => depth
  | .ends _ depth _ => depth

/-- What a value's end tells. -/
def tokenOf (contents : Range) : Json.Value → Token
  | .object _ => .object
  | .array _ => .array
  | .string bytes => .string (.of bytes) contents
  | .number number => .number (plainInteger number) (digitsClass number)
  | .literal literal => .literal literal

def kindOf (value : Json.Value) : Kind := (tokenOf ⟨0, 0⟩ value).kind

variable {depth : Nat}

theorem memberCalls_depth {members : List (Member Tree)}
    (hvalues : ∀ member ∈ members, ∀ offset inArray,
      ∀ call ∈ valueCalls member.value depth offset inArray, depth ≤ depthOf call) (offset : Nat) :
    ∀ call ∈ memberCalls members depth offset, depth ≤ depthOf call := by
  induction members generalizing offset with
  | nil => simp [memberCalls]
  | cons member members ih =>
    rw [memberCalls_cons]
    intro call hcall
    simp only [List.mem_cons, List.mem_append] at hcall
    rcases hcall with rfl | hcall | hcall
    · exact Nat.le_refl _
    · exact hvalues member List.mem_cons_self _ _ call hcall
    · exact ih (fun m hm => hvalues m (List.mem_cons_of_mem _ hm)) _ call hcall

theorem elementCalls_depth {elements : List (Element Tree)}
    (hvalues : ∀ element ∈ elements, ∀ offset inArray,
      ∀ call ∈ valueCalls element.value depth offset inArray, depth ≤ depthOf call) (offset : Nat) :
    ∀ call ∈ elementCalls elements depth offset, depth ≤ depthOf call := by
  induction elements generalizing offset with
  | nil => simp [elementCalls]
  | cons element elements ih =>
    rw [elementCalls_cons]
    intro call hcall
    rcases List.mem_append.mp hcall with hcall | hcall
    · exact hvalues element List.mem_cons_self _ _ call hcall
    · exact ih (fun e he => hvalues e (List.mem_cons_of_mem _ he)) _ call hcall

theorem valueCalls_depth (tree : Tree) (depth offset : Nat) (inArray : Bool) :
    ∀ call ∈ valueCalls tree depth offset inArray, depth ≤ depthOf call := by
  induction tree using Tree.induction generalizing depth offset inArray with
  | object inner members ih =>
    intro call hcall
    simp only [valueCalls, List.mem_cons, List.mem_append, List.not_mem_nil, or_false] at hcall
    rcases hcall with rfl | hcall | rfl
    · exact Nat.le_refl _
    · exact Nat.le_of_succ_le
        (memberCalls_depth (fun m hm => ih m hm (depth + 1)) _ call hcall)
    · exact Nat.le_refl _
  | array inner elements ih =>
    intro call hcall
    simp only [valueCalls, List.mem_cons, List.mem_append, List.not_mem_nil, or_false] at hcall
    rcases hcall with rfl | hcall | rfl
    · exact Nat.le_refl _
    · exact Nat.le_of_succ_le
        (elementCalls_depth (fun e he => ih e he (depth + 1)) _ call hcall)
    · exact Nat.le_refl _
  | string pieces =>
    intro call hcall
    simp only [valueCalls, List.mem_cons, List.not_mem_nil, or_false] at hcall
    rcases hcall with rfl | rfl <;> exact Nat.le_refl _
  | number number =>
    intro call hcall
    simp only [valueCalls, List.mem_cons, List.not_mem_nil, or_false] at hcall
    rcases hcall with rfl | rfl <;> exact Nat.le_refl _
  | literal literal =>
    intro call hcall
    simp only [valueCalls, List.mem_cons, List.not_mem_nil, or_false] at hcall
    rcases hcall with rfl | rfl <;> exact Nat.le_refl _

theorem valueCalls_shape (tree : Tree) (depth offset : Nat) (inArray : Bool) :
    ∃ inside contents stop, valueCalls tree depth offset inArray =
        .begins (kindOf tree.value) depth offset inArray ::
          (inside ++ [.ends (tokenOf contents tree.value) depth stop]) ∧
      ∀ call ∈ inside, depth + 1 ≤ depthOf call := by
  cases tree with
  | object inner members =>
    exact ⟨_, ⟨0, 0⟩, _, rfl,
      memberCalls_depth (fun m _ => valueCalls_depth m.value _) _⟩
  | array inner elements =>
    exact ⟨_, ⟨0, 0⟩, _, rfl,
      elementCalls_depth (fun e _ => valueCalls_depth e.value _) _⟩
  | string pieces => exact ⟨[], _, _, rfl, by simp⟩
  | number number => exact ⟨[], ⟨0, 0⟩, _, rfl, by simp⟩
  | literal literal => exact ⟨[], ⟨0, 0⟩, _, rfl, by simp⟩

namespace ClassifyScratch

/-! ## Hearing calls -/

def hearAll (scratch : ClassifyScratch) (calls : List Call) : ClassifyScratch :=
  calls.foldl hear scratch

@[simp] theorem hearAll_nil (scratch : ClassifyScratch) : scratch.hearAll [] = scratch := rfl

@[simp] theorem hearAll_cons (scratch : ClassifyScratch) (call : Call) (calls : List Call) :
    scratch.hearAll (call :: calls) = (scratch.hear call).hearAll calls := rfl

@[simp] theorem hearAll_append (scratch : ClassifyScratch) (calls more : List Call) :
    scratch.hearAll (calls ++ more) = (scratch.hearAll calls).hearAll more :=
  List.foldl_append

variable {scratch next : ClassifyScratch} {inner : Inner} {envelope : Outer → Member}
  {members : List (List UInt8 × Json.Value)}

theorem hear_deep {call : Call} (htwo : 2 ≤ depthOf call)
    (hin : depthOf call = 2 → scratch.inError = false) : scratch.hear call = scratch := by
  obtain ⟨deeper, hdepth⟩ := Nat.exists_eq_add_of_le htwo
  cases deeper with
  | zero =>
    have hout := hin hdepth
    cases call with
    | key kept contents depth => simp_all [depthOf, hear, key]
    | begins kind depth offset inArray => simp_all [depthOf, hear, begins]
    | ends token depth offset => simp_all [depthOf, hear, ends]
  | succ deeper =>
    have hthree : depthOf call = deeper + 3 := by omega
    cases call with
    | key kept contents depth =>
      obtain rfl : depth = deeper + 3 := hthree
      rfl
    | begins kind depth offset inArray =>
      obtain rfl : depth = deeper + 3 := hthree
      rfl
    | ends token depth offset =>
      obtain rfl : depth = deeper + 3 := hthree
      rfl

theorem hearAll_deep {calls : List Call} {depth : Nat} (htwo : 2 ≤ depth)
    (hin : depth = 2 → scratch.inError = false) (hcalls : ∀ call ∈ calls, depth ≤ depthOf call) :
    scratch.hearAll calls = scratch := by
  induction calls with
  | nil => rfl
  | cons call calls ih =>
    have hcall := hcalls call List.mem_cons_self
    have hsame : scratch.hear call = scratch :=
      hear_deep (Nat.le_trans htwo hcall) fun h => hin (by omega)
    rw [hearAll_cons, hsame]
    exact ih fun call h => hcalls call (List.mem_cons_of_mem _ h)

/-! ## Members of the error object -/

/-- What the classifier keeps of a code. -/
def keptCode : Json.Value → List UInt8
  | .string bytes => (Text.of bytes).slice.getD []
  | _ => []

def plainOf : Json.Value → Option Nat
  | .number number => plainInteger number
  | _ => none

/-- What the last of some values comes to. -/
def lastOf {α : Type} (of : Json.Value → α) (none : α) (values : List Json.Value) : α :=
  (values.getLast?.map of).getD none

/-- The classifier has heard these members of one error object. -/
structure Failing (members : List (List UInt8 × Json.Value)) (scratch : ClassifyScratch) :
    Prop where
  codes : (scratch.failure .code).count = min 3 (held Inner.code.spell members).length
  resets : (scratch.failure .resetsAt).count = min 3 (held Inner.resetsAt.spell members).length
  code : scratch.code = lastOf keptCode [] (held Inner.code.spell members)
  reset : scratch.resetsAt = lastOf plainOf none (held Inner.resetsAt.spell members)

theorem Inner.spell_inj {other : Inner} : inner.spell = other.spell ↔ inner = other := by
  refine ⟨?_, by rintro rfl; rfl⟩
  cases inner <;> cases other <;> decide

variable {outer : Outer} {α : Type} {key : List UInt8} {failure : List (List UInt8 × Json.Value)}

theorem Outer.spell_inj {other : Outer} : outer.spell = other.spell ↔ outer = other := by
  refine ⟨?_, by rintro rfl; rfl⟩
  cases outer <;> cases other <;> decide

theorem Inner.of_text (bytes : List UInt8) :
    (∃ inner, Inner.of (.of bytes) = some inner ∧ inner.spell = bytes) ∨
      Inner.of (.of bytes) = none ∧ ∀ inner : Inner, inner.spell ≠ bytes := by
  rw [Inner.of, stringToEnum_slice (by decide)]
  cases hnamed : stringToEnum Inner.spell [.code, .type, .message, .detail, .resetsAt] bytes with
  | some inner => exact .inl ⟨inner, rfl, spell_of_stringToEnum hnamed⟩
  | none =>
    refine .inr ⟨rfl, ?_⟩
    rintro inner rfl
    revert hnamed
    cases inner <;> decide

theorem Outer.of_text (bytes : List UInt8) :
    (∃ outer, Outer.of (.of bytes) = some outer ∧ outer.spell = bytes) ∨
      Outer.of (.of bytes) = none ∧ ∀ outer : Outer, outer.spell ≠ bytes := by
  rw [Outer.of, stringToEnum_slice (by decide)]
  cases hnamed : stringToEnum Outer.spell [.error, .message, .detail] bytes with
  | some outer => exact .inl ⟨outer, rfl, spell_of_stringToEnum hnamed⟩
  | none =>
    refine .inr ⟨rfl, ?_⟩
    rintro outer rfl
    revert hnamed
    cases outer <;> decide

/-- The classifier among the members of the body's error object. -/
structure InFailure (envelope : Outer → Member) (scratch : ClassifyScratch) : Prop where
  outer : scratch.outer = some .error
  object : scratch.errorObject = true
  envelope : scratch.envelope = envelope

theorem InFailure.inError (h : InFailure envelope scratch) : scratch.inError = true := by
  simp [ClassifyScratch.inError, h.outer, h.object]

theorem begins_inner (hin : scratch.inError = true) (hinner : scratch.inner = some inner)
    (kind : Kind) : scratch.begins kind 2 = scratch.beginInner inner := by
  rw [begins, if_pos hin, hinner, Option.elim_some]

theorem ends_inner (hin : scratch.inError = true) (hinner : scratch.inner = some inner)
    (token : Token) : scratch.ends token 2 = scratch.endInner token inner := by
  rw [ends, if_pos hin, hinner, Option.elim_some]

theorem innerValue (scratch : ClassifyScratch) (inner : Inner) (contents : Range)
    (value : Json.Value) :
    let next := (scratch.beginInner inner).endInner (tokenOf contents value) inner
    (∀ other, (next.failure other).count = if inner = other
      then min 3 ((scratch.failure other).count + 1) else (scratch.failure other).count) ∧
    next.code = (if inner = .code then keptCode value else scratch.code) ∧
    next.resetsAt = (if inner = .resetsAt then plainOf value else scratch.resetsAt) ∧
    next.outer = scratch.outer ∧ next.errorObject = scratch.errorObject ∧
    next.envelope = scratch.envelope ∧ next.inner = scratch.inner := by
  refine ⟨?_, ?_, ?_, ?_⟩
  · intro other
    by_cases hother : inner = other
    · subst hother
      cases value <;> simp [beginInner, endInner, tokenOf, Member.start, Member.set]
    · have hne : other ≠ inner := fun h => hother h.symm
      cases value <;> simp [beginInner, endInner, tokenOf, hother, hne]
  · by_cases hcode : inner = .code <;>
      cases value <;> simp [beginInner, endInner, tokenOf, keptCode, hcode]
  · by_cases hreset : inner = .resetsAt <;>
      cases value <;> simp [beginInner, endInner, tokenOf, plainOf, hreset]
  · cases value <;> simp [beginInner, endInner, tokenOf]

theorem lastOf_append (of : Json.Value → α) (none : α) (values : List Json.Value)
    (value : Json.Value) : lastOf of none (values ++ [value]) = of value := by
  simp [lastOf]

theorem min_three_succ (count : Nat) : min 3 (min 3 count + 1) = min 3 (count + 1) := by omega

theorem hear_inner (hin : InFailure envelope scratch) (member : Json.Member Tree) (contents : Range)
    (offset : Nat) : let next := scratch.hearAll (.key (.of (decoded member.key)) contents 2 ::
      valueCalls member.value 2 offset false)
    InFailure envelope next ∧ ∀ members, Failing members scratch →
      Failing (members ++ [(decoded member.key, member.value.value)]) next := by
  let named : ClassifyScratch := { scratch with inner := Inner.of (.of (decoded member.key)) }
  have hkey : scratch.hear (.key (.of (decoded member.key)) contents 2) = named := by
    simp [hear, key, hin.inError, named]
  have hnamed : InFailure envelope named := ⟨hin.outer, hin.object, hin.envelope⟩
  obtain ⟨inside, spot, stop, hcalls, hinside⟩ := valueCalls_shape member.value 2 offset false
  rw [hcalls, hearAll_cons, hkey, hearAll_cons, hearAll_append, hearAll_deep (by omega)
    (by omega) hinside, hearAll_cons, hearAll_nil]
  rcases Inner.of_text (decoded member.key) with ⟨inner, hof, hspell⟩ | ⟨hof, hspell⟩
  · have hbegin : named.hear (.begins (kindOf member.value.value) 2 offset false) =
        named.beginInner inner := begins_inner hnamed.inError hof (kindOf member.value.value)
    have hbegun : InFailure envelope (named.beginInner inner) :=
      ⟨hin.outer, hin.object, hin.envelope⟩
    have hend : (named.beginInner inner).hear (.ends (tokenOf spot member.value.value) 2 stop) =
        (named.beginInner inner).endInner (tokenOf spot member.value.value) inner :=
      ends_inner hbegun.inError hof (tokenOf spot member.value.value)
    rw [hbegin, hend]
    obtain ⟨hcounts, hcode, hreset, houter, hobject, henvelope, _⟩ :=
      innerValue named inner spot member.value.value
    refine ⟨⟨houter.trans hin.outer, hobject.trans hin.object, henvelope.trans hin.envelope⟩,
      fun members h => ⟨?_, ?_, ?_, ?_⟩⟩
    · rw [hcounts, held_append, held_single, ← hspell]
      by_cases hinner : inner = .code
      · simp [hinner, named, h.codes, min_three_succ]
      · simp [Inner.spell_inj, hinner, named, h.codes]
    · rw [hcounts, held_append, held_single, ← hspell]
      by_cases hinner : inner = .resetsAt
      · simp [hinner, named, h.resets, min_three_succ]
      · simp [Inner.spell_inj, hinner, named, h.resets]
    · rw [hcode, held_append, held_single, ← hspell]
      by_cases hinner : inner = .code
      · simp [hinner, lastOf_append]
      · simp [Inner.spell_inj, hinner, named, h.code]
    · rw [hreset, held_append, held_single, ← hspell]
      by_cases hinner : inner = .resetsAt
      · simp [hinner, lastOf_append]
      · simp [Inner.spell_inj, hinner, named, h.reset]
  · have hbegin : named.hear (.begins (kindOf member.value.value) 2 offset false) = named := by
      simp [hear, begins, named, hof]
    have hend : named.hear (.ends (tokenOf spot member.value.value) 2 stop) = named := by
      simp [hear, ends, named, hof]
    rw [hbegin, hend]
    have hother : ∀ (inner : Inner) (members : List (List UInt8 × Json.Value)),
        held inner.spell (members ++ [(decoded member.key, member.value.value)]) =
          held inner.spell members := by
      intro inner members
      rw [held_append, held_single, if_neg (hspell inner).symm, List.append_nil]
    refine ⟨hnamed, fun members h => ⟨?_, ?_, ?_, ?_⟩⟩
    · rw [hother, ← h.codes]
    · rw [hother, ← h.resets]
    · rw [hother, ← h.code]
    · rw [hother, ← h.reset]

theorem hear_failure (members : List (Json.Member Tree)) :
    ∀ {scratch : ClassifyScratch} (offset : Nat), InFailure envelope scratch →
      InFailure envelope (scratch.hearAll (memberCalls members 2 offset)) ∧
        ∀ heard, Failing heard scratch → Failing (heard ++ membersValue members)
          (scratch.hearAll (memberCalls members 2 offset)) := by
  induction members with
  | nil =>
    intro scratch offset hin
    refine ⟨by simpa [memberCalls] using hin, fun heard h => ?_⟩
    simpa [memberCalls] using h
  | cons member members ih =>
    intro scratch offset hin
    obtain ⟨hnextIn, hnext⟩ := hear_inner hin member
      ⟨offset + member.lead.bytes.length + 1, (raw member.key).length⟩ (offset + valueStart member)
    obtain ⟨hrestIn, hrest⟩ := ih (offset + (memberText member).length + 1) hnextIn
    rw [memberCalls_cons, ← List.cons_append, hearAll_append]
    refine ⟨hrestIn, fun heard h => ?_⟩
    rw [membersValue_cons]
    simpa only [List.append_assoc, List.cons_append, List.nil_append] using hrest _ (hnext heard h)

/-! ## Members of the body -/

def isObject : Json.Value → Bool
  | .object _ => true
  | _ => false

/-- The classifier has heard these members of the body. -/
structure Bodied (members : List (List UInt8 × Json.Value)) (scratch : ClassifyScratch) :
    Prop where
  errors : (scratch.envelope .error).count = min 3 (held Outer.error.spell members).length
  fresh : held Outer.error.spell members = [] → Failing [] scratch
  object : ∀ value, held Outer.error.spell members = [value] →
    scratch.errorObject = isObject value
  failing : ∀ failure, held Outer.error.spell members = [.object failure] →
    Failing failure scratch

theorem Failing.congr (h : Failing members scratch) (hfailure : next.failure = scratch.failure)
    (hcode : next.code = scratch.code) (hreset : next.resetsAt = scratch.resetsAt) :
    Failing members next :=
  ⟨by rw [hfailure, h.codes], by rw [hfailure, h.resets], by rw [hcode, h.code],
    by rw [hreset, h.reset]⟩

theorem Bodied.other (h : Bodied members scratch) {name : List UInt8}
    (hname : name ≠ Outer.error.spell) (value : Json.Value)
    (herrors : (next.envelope .error).count = (scratch.envelope .error).count)
    (hobject : next.errorObject = scratch.errorObject) (hfailure : next.failure = scratch.failure)
    (hcode : next.code = scratch.code) (hreset : next.resetsAt = scratch.resetsAt) :
    Bodied (members ++ [(name, value)]) next := by
  have hheld : held Outer.error.spell (members ++ [(name, value)]) =
      held Outer.error.spell members := by
    rw [held_append, held_single, if_neg hname, List.append_nil]
  refine ⟨?_, ?_, ?_, ?_⟩
  · rw [hheld, herrors, h.errors]
  · rw [hheld]
    exact fun hnone => (h.fresh hnone).congr hfailure hcode hreset
  · rw [hheld, hobject]
    exact h.object
  · rw [hheld]
    exact fun failure hone => (h.failing failure hone).congr hfailure hcode hreset

theorem Bodied.error (h : Bodied members scratch) (value : Json.Value)
    (herrors : (next.envelope .error).count = min 3 ((scratch.envelope .error).count + 1))
    (hobject : next.errorObject = isObject value)
    (hfailing : Failing [] scratch → ∀ failure, value = .object failure → Failing failure next) :
    Bodied (members ++ [(Outer.error.spell, value)]) next := by
  have hheld : held Outer.error.spell (members ++ [(Outer.error.spell, value)]) =
      held Outer.error.spell members ++ [value] := by
    rw [held_append, held_single, if_pos rfl]
  have hsingle : ∀ value', held Outer.error.spell members ++ [value] = [value'] →
      held Outer.error.spell members = [] ∧ value = value' := by
    intro value' hone
    rcases hmembers : held Outer.error.spell members with _ | ⟨first, rest⟩
    · rw [hmembers] at hone
      simpa using hone
    · rw [hmembers] at hone
      simp at hone
  refine ⟨?_, ?_, ?_, ?_⟩
  · rw [hheld, herrors, h.errors, min_three_succ, List.length_append, List.length_singleton]
  · rw [hheld]
    simp
  · rw [hheld]
    intro value' hone
    rw [hobject, (hsingle value' hone).2]
  · rw [hheld]
    intro failure hone
    obtain ⟨hnone, hvalue⟩ := hsingle _ hone
    exact hfailing (h.fresh hnone) failure hvalue

theorem Bodied.init : Bodied [] {} := by
  refine ⟨rfl, fun _ => ⟨rfl, rfl, rfl, rfl⟩, ?_, ?_⟩
  · rintro value ⟨⟩
  · rintro failure ⟨⟩

/-- The end of a value does not count it again. -/
theorem endOuter_count (scratch : ClassifyScratch) (token : Token) (outer other : Outer) :
    ((scratch.endOuter token outer).envelope other).count = (scratch.envelope other).count := by
  by_cases hother : other = outer
  · subst hother
    cases token <;> simp [endOuter, Member.set]
  · cases token <;> simp [endOuter, hother]

theorem endOuter_object (scratch : ClassifyScratch) (token : Token) (outer : Outer) :
    (scratch.endOuter token outer).errorObject = scratch.errorObject := by
  cases token <;> rfl

theorem beginOuter_count (scratch : ClassifyScratch) (kind : Kind) (outer : Outer) :
    ((scratch.beginOuter kind outer).envelope outer).count =
      min 3 ((scratch.envelope outer).count + 1) := by
  simp [beginOuter, Member.start]

theorem outerValue (scratch : ClassifyScratch) (houter : outer ≠ .error) (kind : Kind)
    (token : Token) : let next := (scratch.beginOuter kind outer).endOuter token outer
    (next.envelope .error).count = (scratch.envelope .error).count ∧
      next.errorObject = scratch.errorObject ∧ next.failure = scratch.failure ∧
      next.code = scratch.code ∧ next.resetsAt = scratch.resetsAt := by
  cases token <;> simp [beginOuter, endOuter, houter, houter.symm]

theorem hear_error {named : ClassifyScratch} (h : Bodied members named)
    (houter : named.outer = some .error) (tree : Tree) (offset : Nat) :
    Bodied (members ++ [(Outer.error.spell, tree.value)])
      (named.hearAll (valueCalls tree 1 offset false)) := by
  have hbegin : ∀ kind, named.hear (.begins kind 1 offset false) =
      named.beginOuter kind .error := fun kind => by
    rw [hear, begins, houter, Option.elim_some]
  have hend : ∀ (scratch : ClassifyScratch) token stop, scratch.outer = some .error →
      scratch.hear (.ends token 1 stop) = scratch.endOuter token .error := by
    intro scratch token stop hnamed
    rw [hear, ends, hnamed, Option.elim_some]
  by_cases htree : ∃ inner inside, tree = .object inner inside
  · obtain ⟨inner, inside, rfl⟩ := htree
    let begun := named.beginOuter .object .error
    have hin : InFailure begun.envelope begun := ⟨houter, by simp [begun, beginOuter], rfl⟩
    obtain ⟨hheardIn, hheard⟩ := hear_failure inside (offset + 1 + inner.bytes.length) hin
    rw [valueCalls, hearAll_cons, hbegin, hearAll_append, hearAll_cons, hearAll_nil,
      hend _ _ _ hheardIn.outer]
    -- The end of an object changes nothing.
    refine h.error _ ?_ hheardIn.object ?_
    · rw [endOuter_count, hheardIn.envelope, beginOuter_count]
    · rintro hfresh failure ⟨⟩
      have hbegun : Failing [] begun := hfresh.congr rfl rfl rfl
      exact hheard [] hbegun
  · have hkind : kindOf tree.value ≠ .object := by
      cases tree with
      | object inner inside => exact absurd ⟨inner, inside, rfl⟩ htree
      | array inner elements => simp [Tree.value, kindOf, tokenOf, Token.kind]
      | string pieces => simp [Tree.value, kindOf, tokenOf, Token.kind]
      | number number => simp [Tree.value, kindOf, tokenOf, Token.kind]
      | literal literal => simp [Tree.value, kindOf, tokenOf, Token.kind]
    have hobject : isObject tree.value = false := by
      cases tree with
      | object inner inside => exact absurd ⟨inner, inside, rfl⟩ htree
      | array | string | number | literal => rfl
    obtain ⟨inside, contents, stop, hcalls, hinside⟩ := valueCalls_shape tree 1 offset false
    let begun := named.beginOuter (kindOf tree.value) .error
    have hout : begun.inError = false := by simp [begun, inError, beginOuter, hkind]
    rw [hcalls, hearAll_cons, hbegin, hearAll_append,
      hearAll_deep (by omega) (fun _ => hout) hinside, hearAll_cons, hearAll_nil,
      hend begun _ _ houter]
    refine h.error _ ?_ ?_ ?_
    · rw [endOuter_count, beginOuter_count]
    · rw [endOuter_object, hobject]
      simp [begun, beginOuter, hkind]
    · intro _ failure hvalue
      rw [hvalue] at hobject
      cases hobject

theorem hear_outer (h : Bodied members scratch) (member : Json.Member Tree) (contents : Range)
    (offset : Nat) : Bodied (members ++ [(decoded member.key, member.value.value)])
      (scratch.hearAll (.key (.of (decoded member.key)) contents 1 ::
        valueCalls member.value 1 offset false)) := by
  let named : ClassifyScratch := { scratch with outer := Outer.of (.of (decoded member.key)) }
  have hkey : scratch.hear (.key (.of (decoded member.key)) contents 1) = named := rfl
  have hnamed : Bodied members named :=
    ⟨h.errors, fun hnone => (h.fresh hnone).congr rfl rfl rfl, h.object,
      fun failure hone => (h.failing failure hone).congr rfl rfl rfl⟩
  rw [hearAll_cons, hkey]
  obtain ⟨inside, spot, stop, hcalls, hinside⟩ := valueCalls_shape member.value 1 offset false
  rcases Outer.of_text (decoded member.key) with ⟨outer, hof, hspell⟩ | ⟨hof, hspell⟩
  · by_cases hone : outer = .error
    · subst hone
      rw [← hspell]
      exact hear_error hnamed hof member.value offset
    · have hbegin : named.hear (.begins (kindOf member.value.value) 1 offset false) =
          named.beginOuter (kindOf member.value.value) outer := by
        rw [hear, begins, show named.outer = some outer from hof, Option.elim_some]
      let begun := named.beginOuter (kindOf member.value.value) outer
      have hout : begun.inError = false := by simp [begun, inError, beginOuter, named, hof, hone]
      have hend : begun.hear (.ends (tokenOf spot member.value.value) 1 stop) =
          begun.endOuter (tokenOf spot member.value.value) outer := by
        rw [hear, ends, show begun.outer = some outer from hof, Option.elim_some]
      rw [hcalls, hearAll_cons, hbegin, hearAll_append,
        hearAll_deep (by omega) (fun _ => hout) hinside, hearAll_cons, hearAll_nil, hend]
      obtain ⟨herrors, hobject, hfailure, hcode, hreset⟩ := outerValue named hone
        (kindOf member.value.value) (tokenOf spot member.value.value)
      refine hnamed.other ?_ _ herrors hobject hfailure hcode hreset
      rw [← hspell]
      exact fun hsame => hone (Outer.spell_inj.mp hsame)
  · have hnone : named.outer = none := hof
    have hbegin : named.hear (.begins (kindOf member.value.value) 1 offset false) = named := by
      rw [hear, begins, hnone, Option.elim_none]
    have hend : named.hear (.ends (tokenOf spot member.value.value) 1 stop) = named := by
      rw [hear, ends, hnone, Option.elim_none]
    have hout : named.inError = false := by simp [inError, hnone]
    rw [hcalls, hearAll_cons, hbegin, hearAll_append,
      hearAll_deep (by omega) (fun _ => hout) hinside, hearAll_cons, hearAll_nil, hend]
    exact hnamed.other (hspell .error).symm _ rfl rfl rfl rfl rfl

theorem hear_members (members : List (Json.Member Tree)) :
    ∀ {heard : List (List UInt8 × Json.Value)} {scratch : ClassifyScratch} (offset : Nat),
      Bodied heard scratch → Bodied (heard ++ membersValue members)
        (scratch.hearAll (memberCalls members 1 offset)) := by
  induction members with
  | nil =>
    intro heard scratch offset h
    simpa [memberCalls] using h
  | cons member members ih =>
    intro heard scratch offset h
    have hnext := hear_outer h member
      ⟨offset + member.lead.bytes.length + 1, (raw member.key).length⟩ (offset + valueStart member)
    have hrest := ih (offset + (memberText member).length + 1) hnext
    rw [memberCalls_cons, ← List.cons_append, hearAll_append, membersValue_cons]
    simpa only [List.append_assoc, List.cons_append, List.nil_append] using hrest

theorem hear_document (document : Document) :
    Bodied (membersValue document.members) (hearAll {} (documentCalls document)) := by
  have hzero : ∀ scratch : ClassifyScratch, ∀ kind offset inArray,
      scratch.hear (.begins kind 0 offset inArray) = scratch := fun _ _ _ _ => rfl
  have hend : ∀ scratch : ClassifyScratch, ∀ token stop,
      scratch.hear (.ends token 0 stop) = scratch := fun _ _ _ => rfl
  have hheard := hear_members document.members
    (document.lead.bytes.length + 1 + document.inner.bytes.length) Bodied.init
  rw [documentCalls, Document.root, valueCalls, hearAll_cons, hzero, hearAll_append,
    hearAll_cons, hend, hearAll_nil]
  simpa only [List.nil_append] using hheard

/-! ## What is found -/

/-- The code the classifier keeps is the code, unless the reader cuts it short. -/
theorem keptCode_string (bytes : List UInt8) :
    keptCode (.string bytes) = bytes ∨ keptCode (.string bytes) = [] ∧
      bytes ≠ contextLengthExceeded ∧ refusalOf bytes = none := by
  rw [keptCode, Text.slice_of]
  by_cases hshort : bytes.length ≤ maxTextBytes
  · rw [if_pos hshort]
    exact .inl rfl
  · rw [if_neg hshort]
    refine .inr ⟨rfl, ?_, ?_⟩
    · rintro rfl
      exact hshort (by decide)
    · have hnone : (Text.of bytes).slice.bind (stringToEnum RefusalCode.spell RefusalCode.all) =
          stringToEnum RefusalCode.spell RefusalCode.all bytes :=
        stringToEnum_slice (by decide) bytes
      rw [Text.slice_of, if_neg hshort, Option.bind_none] at hnone
      rw [refusalOf, ← hnone]
      rfl

/-- What a member that appears once holds. -/
theorem sole_eq (of : Json.Value → α) (none : α) (values : List Json.Value) :
    (∃ value, values = [value] ∧ min 3 values.length = 1 ∧ lastOf of none values = of value) ∨
      min 3 values.length ≠ 1 ∧ ∀ value, values ≠ [value] := by
  rcases values with _ | ⟨value, _ | ⟨next, values⟩⟩
  · exact .inr ⟨by simp, by simp⟩
  · exact .inl ⟨value, rfl, by simp, rfl⟩
  · refine .inr ⟨?_, by simp⟩
    rw [List.length_cons, List.length_cons]
    omega

theorem only_eq_none (h : ∀ value, held key members ≠ [value]) : only key members = none := by
  rw [only]
  split
  · exact absurd ‹_› (h _)
  · rfl

theorem only_eq_some {value : Json.Value} (h : held key members = [value]) :
    only key members = some value := by
  rw [only, h]

theorem Failing.reset_eq (h : Failing failure scratch) :
    (if (scratch.failure .resetsAt).count = 1 then scratch.resetsAt else none) =
      resetOf failure := by
  rw [h.resets, h.reset, resetOf]
  rcases sole_eq plainOf none (held Inner.resetsAt.spell failure) with
    ⟨value, hvalue, hcount, hlast⟩ | ⟨hcount, hmany⟩
  · have honly : only (text "resets_at") failure = some value := only_eq_some hvalue
    rw [if_pos hcount, hlast, honly]
    cases value <;> rfl
  · have honly : only (text "resets_at") failure = none := only_eq_none hmany
    rw [if_neg hcount, honly]

theorem context_ne_nil : contextLengthExceeded ≠ [] := by decide

theorem refusalOf_context : refusalOf contextLengthExceeded = none := by decide

theorem findCode_eq (h : Failing failure scratch) :
    scratch.findCode.findings = findingsOf (some failure) := by
  rw [findCode, h.reset_eq, h.codes, h.code, findingsOf, codeOf]
  rcases sole_eq keptCode [] (held Inner.code.spell failure) with
    ⟨value, hvalue, hcount, hlast⟩ | ⟨hcount, hmany⟩
  · have honly : only (text "code") failure = some value := only_eq_some hvalue
    rw [hcount, hlast, honly]
    cases value with
    | string bytes =>
      rcases keptCode_string bytes with hkept | ⟨hkept, hcontext, hrefusal⟩
      · rw [hkept]
        by_cases hempty : bytes = []
        · subst hempty
          rfl
        · by_cases hcontext : bytes = contextLengthExceeded
          · simp [hcontext, refusalOf_context, ErrorBody.findings, context_ne_nil]
          · cases hrefusal : refusalOf bytes <;>
              simp [hempty, hcontext, hrefusal, ErrorBody.findings]
      · simp [hkept, hcontext, hrefusal, ErrorBody.findings]
    | object members => simp [keptCode, ErrorBody.findings]
    | array elements => simp [keptCode, ErrorBody.findings]
    | number number => simp [keptCode, ErrorBody.findings]
    | literal literal => simp [keptCode, ErrorBody.findings]
  · have honly : only (text "code") failure = none := only_eq_none hmany
    rw [if_neg (fun hboth => hcount hboth.1), honly]
    rfl

theorem find_eq {document : Document} (h : Bodied (membersValue document.members) scratch) :
    scratch.find.findings = findingsOf (errorObjectOf document) := by
  have hkey : text "error" = Outer.error.spell := rfl
  rw [find, h.errors, errorObjectOf, only, hkey]
  rcases herrors : held Outer.error.spell (membersValue document.members) with
    _ | ⟨value, _ | ⟨next, values⟩⟩
  · rfl
  · have hobject := h.object value herrors
    cases value with
    | object failure =>
      simpa [hobject, isObject, ErrorBody.findings] using findCode_eq (h.failing failure herrors)
    | array elements => simp [hobject, isObject, findingsOf, ErrorBody.findings]
    | string bytes => simp [hobject, isObject, findingsOf, ErrorBody.findings]
    | number number => simp [hobject, isObject, findingsOf, ErrorBody.findings]
    | literal literal => simp [hobject, isObject, findingsOf, ErrorBody.findings]
  · have hmany : 1 < min 3 (values.length + 1 + 1) := by omega
    rw [List.length_cons, List.length_cons, if_neg (by omega), if_pos (.inl hmany)]
    rfl

end ClassifyScratch

/-! ## The classifier -/

theorem classify_document (document : Document) (hdepth : document.root.depth ≤ maxDepth) :
    (classify document.render).findings = findingsOf (errorObjectOf document) := by
  obtain ⟨haccepts, hcalls⟩ := read_accepts document.render
  obtain ⟨after, hresult⟩ := haccepts.mpr ⟨document, rfl, hdepth⟩
  simp only [classify, hresult, (hcalls document rfl hdepth).1]
  exact ClassifyScratch.find_eq (ClassifyScratch.hear_document document)

theorem classify_other {body : List UInt8}
    (h : ¬ ∃ document : Document, document.render = body ∧ document.root.depth ≤ maxDepth) :
    classify body = {} := by
  rw [classify]
  cases hresult : (Reader.read body).result with
  | ok after => exact absurd ((read_accepts body).1.mp ⟨after, hresult⟩) h
  | error e => simp

/-- **The classifier.** A body that is not one whole object, or is too deep, names
nothing, nor does one whose `error` is not a single object. Otherwise the error
object's single `code` and `resets_at` decide, and members that leave what those
names hold, in whatever order, change nothing. -/
theorem classify_reads :
    (∀ body, (¬ ∃ document : Document, document.render = body ∧
        document.root.depth ≤ maxDepth) → classify body = {}) ∧
      ∀ document : Document, document.root.depth ≤ maxDepth →
        let found := classify document.render
        (errorObjectOf document = none → found.findings = {}) ∧
        (∀ failure, errorObjectOf document = some failure →
          (found.contextOverflow = true ↔ codeOf failure = some contextLengthExceeded) ∧
          found.refusal = (codeOf failure).bind refusalOf ∧
          found.resetsAt = if found.refusal.isSome then resetOf failure else none) ∧
        ∀ other : Document, other.root.depth ≤ maxDepth →
          ((held (text "error") (membersValue document.members)).Perm
              (held (text "error") (membersValue other.members)) →
            (classify other.render).findings = found.findings) ∧
          ∀ failure changed, errorObjectOf document = some failure → errorObjectOf other = some changed →
            (held (text "code") failure).Perm (held (text "code") changed) →
            (held (text "resets_at") failure).Perm (held (text "resets_at") changed) →
            (classify other.render).findings = found.findings := by
  refine ⟨fun body h => classify_other h, fun document hdepth => ?_⟩
  have hfound := classify_document document hdepth
  refine ⟨?_, ?_, fun other hother => ⟨?_, ?_⟩⟩
  · intro hnone
    rw [hfound, hnone]
    rfl
  · intro failure hfailure
    rw [hfailure] at hfound
    have hoverflow := congrArg Findings.contextOverflow hfound
    have hrefusal := congrArg Findings.refusal hfound
    have hreset := congrArg Findings.resetsAt hfound
    simp only [ErrorBody.findings, findingsOf] at hoverflow hrefusal hreset
    exact ⟨by rw [hoverflow, decide_eq_true_iff], hrefusal, by rw [hreset, hrefusal]⟩
  · intro hperm
    rw [hfound, classify_document other hother, errorObjectOf, errorObjectOf, only_perm hperm]
  · intro failure changed hfailure hchanged hcode hreset
    rw [hfound, classify_document other hother, hfailure, hchanged, findingsOf, findingsOf,
      codeOf, codeOf, resetOf, resetOf, only_perm hcode, only_perm hreset]

/-! ## Depth -/

/-- Arrays in arrays. -/
def nested : Nat → Tree
  | 0 => .array .none []
  | count + 1 => .array .none [⟨.none, nested count, .none⟩]

theorem nested_render (count : Nat) :
    ∃ rest, (nested count).render = List.replicate (count + 1) (ascii '[') ++ rest := by
  induction count with
  | zero => exact ⟨[ascii ']'], rfl⟩
  | succ count ih =>
    obtain ⟨rest, hrender⟩ := ih
    refine ⟨rest ++ [ascii ']'], ?_⟩
    simp [nested, Tree.render, renderElements, hrender, Space.none, List.replicate_succ]

/-- The reader refuses arrays that go below its depth. -/
theorem brackets_fail (count : Nat) (rest : List UInt8) : ∀ {reader : Reader},
    Reader.ValueDue reader.state → maxDepth < reader.depth + count →
      ∃ e, (reader.readBytes (List.replicate (count + 1) (ascii '[') ++ rest)).result =
        .error e := by
  induction count with
  | zero =>
    intro reader hstate hdeep
    rw [Nat.add_zero] at hdeep
    have hne : reader.state ≠ .string := by rcases hstate with h | h <;> simp [h]
    refine ⟨.error .jsonTooDeep, ?_⟩
    rw [List.replicate_one, List.singleton_append, Reader.readBytes_cons hne,
      Reader.step_value hstate (by decide) (by decide), Reader.beginValue, if_pos hdeep,
      Told.fail_andThen, Told.fail_result]
  | succ count ih =>
    intro reader hstate hdeep
    have hne : reader.state ≠ .string := by rcases hstate with h | h <;> simp [h]
    rw [List.replicate_succ, List.cons_append, Reader.readBytes_cons hne,
      Reader.step_value hstate (by decide) (by decide), Reader.beginValue]
    by_cases hnow : reader.depth > maxDepth
    · exact ⟨.error .jsonTooDeep, by rw [if_pos hnow, Told.fail_andThen, Told.fail_result]⟩
    · let opened := (reader.openContainer true).advance 1
      have hopened : maxDepth < opened.depth + count := by
        simp only [opened, Reader.depth, Reader.advance, Reader.openContainer, List.length_cons]
        simp only [Reader.depth] at hdeep
        omega
      obtain ⟨e, hfails⟩ := ih (.inr rfl : Reader.ValueDue opened.state) hopened
      refine ⟨e, ?_⟩
      rw [if_neg hnow, if_neg (by decide), if_pos rfl, Told.tell_andThen, Told.ok_andThen,
        Told.tell_result]
      exact hfails

theorem deep_fails (count : Nat) (hdeep : maxDepth < count + 1) (rest : List UInt8) :
    ∃ e, (Reader.read (ascii '{' :: (quoted [] ++ ascii ':' ::
      (List.replicate (count + 1) (ascii '[') ++ rest)))).result = .error e := by
  let opened := (Reader.openContainer {} false).advance 1
  have hopened : Reader.KeyDue opened.state := .inr rfl
  obtain ⟨named, hnamed, hkey⟩ := Reader.reads_key hopened []
  let due := Reader.advance { named with state := .value } 1
  have hdue : due.depth = 1 := by
    simp [due, opened, Reader.advance, Reader.depth, Reader.openContainer, hnamed.arrays]
  obtain ⟨e, hfails⟩ := brackets_fail count rest (.inl rfl : Reader.ValueDue due.state) (by omega)
  have hcolon : named.step (ascii ':') = .ok { named with state := .value } := by
    have hspace : isSpace (ascii ':') = false := by decide
    simp [Reader.step, hnamed.state, Reader.unlessSpace, hspace]
  have hresult : (Reader.readBytes {} (ascii '{' :: (quoted [] ++ ascii ':' ::
      (List.replicate (count + 1) (ascii '[') ++ rest)))).result = .error e := by
    have hopen : Reader.step {} (ascii '{') = .tell [.begins .object 0 0 false]
        (.ok (Reader.openContainer {} false)) := rfl
    rw [Reader.readBytes_cons (by decide), hopen, Told.tell_andThen, Told.ok_andThen,
      Told.tell_result, hkey _ trivial, Told.tell_result,
      Reader.readBytes_cons (by rw [hnamed.state]; decide), hcolon, Told.ok_andThen]
    exact hfails
  exact ⟨e, by rw [Reader.read, Told.andThen, hresult]⟩

/-- A whole object whose error says that the context overflowed, beside arrays
deeper than the reader goes. -/
def deepBody : Document where
  lead := .none
  inner := .none
  members := [pair [] (nested maxDepth), pair (spelled "error".toList) (object
    [pair (spelled "code".toList) (.string (spelled "context_length_exceeded".toList))])]
  trail := .none

/-- The depth of the rest of a body counts too. -/
theorem classify_deep : (errorObjectOf deepBody).bind codeOf = some contextLengthExceeded ∧
    (classify deepBody.render).contextOverflow = false := by
  refine ⟨by decide +kernel, ?_⟩
  obtain ⟨rest, hnested⟩ := nested_render maxDepth
  have hrender : ∃ behind, deepBody.render = ascii '{' :: (quoted [] ++ ascii ':' ::
      (List.replicate (maxDepth + 1) (ascii '[') ++ behind)) := by
    refine ⟨rest ++ (renderMembers deepBody.members.tail).cons (ascii ',') ++ [ascii '}'], ?_⟩
    simp only [deepBody, Document.render, Document.root, Tree.render, renderMembers_eq,
      List.map_cons, pair_render, commas, hnested, Space.none, List.nil_append, List.append_nil,
      List.append_assoc, List.cons_append]
    rfl
  obtain ⟨behind, hrender⟩ := hrender
  obtain ⟨e, hfails⟩ := deep_fails maxDepth (Nat.lt_succ_self _) behind
  rw [classify, hrender, hfails]

end Rui.Responses
