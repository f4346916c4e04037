import Rui.Json.Reader

/-!
# What a handler should hear

The calls for a parsed document, in the order of its text: each value begins
and ends once, each member is a key and then its value. The ranges are those
of the document that `render` writes.
-/

namespace Rui.Json

open Library Library.Json

/-- What the reader keeps of a string whose characters are `bytes`. -/
def Text.of (bytes : List UInt8) : Text := ⟨bytes.take maxTextBytes, bytes.length⟩

/-- A number's value, when it is a plain nonnegative integer that fits a machine
word. -/
def plainInteger (number : Number) : Option Nat :=
  if number.negative ∨ number.fraction.isSome ∨ number.exponent.isSome then none
  else if natValue number.whole.bytes < 2 ^ 64 then some (natValue number.whole.bytes)
  else none

/-- How a number differs from such an integer: a sign first, then too many
digits, then a fraction or exponent. -/
def digitsClass (number : Number) : DigitsClass :=
  if number.negative then .negative
  else if 2 ^ 64 ≤ natValue number.whole.bytes then .overflow
  else if number.fraction.isSome ∨ number.exponent.isSome then .fractional
  else .plain

mutual

/-- The calls for a value at `depth` whose first byte is at `offset`. A value
ends at its last byte, a number one past it. -/
def valueCalls : Tree → Nat → Nat → Bool → List Call
  | .object inner members, depth, offset, inArray =>
    .begins .object depth offset inArray ::
      (memberCalls members (depth + 1) (offset + 1 + inner.bytes.length) ++
        [.ends .object depth
          (offset + 1 + inner.bytes.length + (renderMembers members).length)])
  | .array inner elements, depth, offset, inArray =>
    .begins .array depth offset inArray ::
      (elementCalls elements (depth + 1) (offset + 1 + inner.bytes.length) ++
        [.ends .array depth
          (offset + 1 + inner.bytes.length + (renderElements elements).length)])
  | .string pieces, depth, offset, inArray =>
    [.begins .string depth offset inArray,
      .ends (.string (.of (decoded pieces)) ⟨offset + 1, (raw pieces).length⟩) depth
        (offset + 1 + (raw pieces).length)]
  | .number number, depth, offset, inArray =>
    [.begins .number depth offset inArray,
      .ends (.number (plainInteger number) (digitsClass number)) depth
        (offset + number.raw.length)]
  | .literal literal, depth, offset, inArray =>
    [.begins .literal depth offset inArray,
      .ends (.literal literal) depth (offset + (literal.raw.length - 1))]

/-- The calls for members at `depth` whose text starts at `offset`. -/
def memberCalls : List (Member Tree) → Nat → Nat → List Call
  | [], _, _ => []
  | ⟨lead, key, beforeColon, afterColon, value, trail⟩ :: members, depth, offset =>
    let contents := offset + lead.bytes.length + 1
    let start := contents + (raw key).length + 1 + beforeColon.bytes.length + 1 +
      afterColon.bytes.length
    .key (.of (decoded key)) ⟨contents, (raw key).length⟩ depth ::
      (valueCalls value depth start false ++
        memberCalls members depth (start + value.render.length + trail.bytes.length + 1))

/-- The calls for elements at `depth` whose text starts at `offset`. -/
def elementCalls : List (Element Tree) → Nat → Nat → List Call
  | [], _, _ => []
  | ⟨lead, value, trail⟩ :: elements, depth, offset =>
    let start := offset + lead.bytes.length
    valueCalls value depth start true ++
      elementCalls elements depth (start + value.render.length + trail.bytes.length + 1)

end

/-- The calls for a document. -/
def documentCalls (document : Document) : List Call :=
  valueCalls document.root 0 document.lead.bytes.length false

/-! ## Kept text -/

namespace Text

theorem append_append (self : Text) (bytes more : List UInt8) :
    (self.append bytes).append more = self.append (bytes ++ more) := by
  simp only [append, List.append_assoc, List.take_append, List.length_append, Nat.sub_sub,
    Nat.add_assoc]

@[simp] theorem append_nil (self : Text) : self.append [] = self := by
  simp [append]

theorem empty_append (bytes : List UInt8) : ({} : Text).append bytes = .of bytes := by
  simp [append, of]

theorem slice_of (bytes : List UInt8) :
    (of bytes).slice = if bytes.length ≤ maxTextBytes then some bytes else none := by
  by_cases hshort : bytes.length ≤ maxTextBytes
  · simp [slice, of, hshort, List.take_of_length_le]
  · simp [slice, of, hshort]

end Text

/-! ## Members and elements -/

/-- A member without what separates it from the next. -/
def memberText (member : Member Tree) : List UInt8 :=
  member.lead.bytes ++ quoted member.key ++ member.beforeColon.bytes ++
    ascii ':' :: member.afterColon.bytes ++ member.value.render ++ member.trail.bytes

/-- Where the value of a member starts in its text. -/
def valueStart (member : Member Tree) : Nat :=
  member.lead.bytes.length + 1 + (raw member.key).length + 1 + member.beforeColon.bytes.length + 1 +
    member.afterColon.bytes.length

theorem memberText_length (member : Member Tree) : (memberText member).length =
    valueStart member + member.value.render.length + member.trail.bytes.length := by
  simp only [memberText, valueStart, quoted, List.length_append, List.length_cons, List.length_nil]
  omega

theorem renderMembers_cons (member : Member Tree) (members : List (Member Tree)) :
    renderMembers (member :: members) = memberText member ++
      if members.isEmpty then [] else ascii ',' :: renderMembers members := rfl

theorem memberCalls_cons (member : Member Tree) (members : List (Member Tree))
    (depth offset : Nat) : memberCalls (member :: members) depth offset =
      .key (.of (decoded member.key))
          ⟨offset + member.lead.bytes.length + 1, (raw member.key).length⟩ depth ::
        (valueCalls member.value depth (offset + valueStart member) false ++
          memberCalls members depth (offset + (memberText member).length + 1)) := by
  rw [memberText_length]
  simp only [memberCalls, valueStart, Nat.add_assoc]

/-- An element without what separates it from the next. -/
def elementText (element : Element Tree) : List UInt8 :=
  element.lead.bytes ++ element.value.render ++ element.trail.bytes

theorem elementText_length (element : Element Tree) : (elementText element).length =
    element.lead.bytes.length + element.value.render.length + element.trail.bytes.length := by
  simp only [elementText, List.length_append]

theorem renderElements_cons (element : Element Tree) (elements : List (Element Tree)) :
    renderElements (element :: elements) = elementText element ++
      if elements.isEmpty then [] else ascii ',' :: renderElements elements := rfl

theorem elementCalls_cons (element : Element Tree) (elements : List (Element Tree))
    (depth offset : Nat) : elementCalls (element :: elements) depth offset =
      valueCalls element.value depth (offset + element.lead.bytes.length) true ++
        elementCalls elements depth (offset + (elementText element).length + 1) := by
  rw [elementText_length]
  simp only [elementCalls, Nat.add_assoc]

/-! ## Ranges -/

/-- A range names the contents of a string of the document, and `text` is what
is kept of it. -/
def StringAt (bytes : List UInt8) (text : Text) (contents : Range) : Prop :=
  ∃ (pieces : List Piece) (before after : List UInt8), bytes = before ++ quoted pieces ++ after ∧
    contents = ⟨before.length + 1, (raw pieces).length⟩ ∧ text = .of (decoded pieces)

/-- The ranges that a call names are those of strings. -/
def Call.InPlace (bytes : List UInt8) : Call → Prop
  | .key text contents _ => StringAt bytes text contents
  | .ends (.string text contents) _ _ => StringAt bytes text contents
  | _ => True

/-- The calls of a tree name strings wherever its text stands. -/
def InPlaces (tree : Tree) : Prop :=
  ∀ (depth : Nat) (inArray : Bool) (before after : List UInt8),
    ∀ call ∈ valueCalls tree depth before.length inArray,
      call.InPlace (before ++ tree.render ++ after)

theorem memberCalls_inPlace (depth : Nat) {members : List (Member Tree)}
    (hvalues : ∀ member ∈ members, InPlaces member.value) (before after : List UInt8) :
    ∀ call ∈ memberCalls members depth before.length,
      call.InPlace (before ++ renderMembers members ++ after) := by
  induction members generalizing before with
  | nil => simp [memberCalls]
  | cons member members ih =>
    rw [memberCalls_cons, renderMembers_cons]
    let behind := if members.isEmpty then [] else ascii ',' :: renderMembers members
    intro call hcall
    simp only [List.mem_cons, List.mem_append] at hcall
    rcases hcall with rfl | hcall | hcall
    · refine ⟨member.key, before ++ member.lead.bytes, member.beforeColon.bytes ++
        (ascii ':' :: member.afterColon.bytes ++ (member.value.render ++ (member.trail.bytes ++
          (behind ++ after)))), ?_, by rw [List.length_append], rfl⟩
      simp only [memberText, behind, List.append_assoc, List.cons_append]
    · let front := before ++ (member.lead.bytes ++ (quoted member.key ++
        (member.beforeColon.bytes ++ ascii ':' :: member.afterColon.bytes)))
      have hfront : front.length = before.length + valueStart member := by
        simp only [front, valueStart, quoted, List.length_append, List.length_cons, List.length_nil]
        omega
      rw [← hfront] at hcall
      have hvalue := hvalues member List.mem_cons_self depth false front
        (member.trail.bytes ++ (behind ++ after)) call hcall
      simpa only [front, memberText, behind, List.append_assoc, List.cons_append] using hvalue
    · cases members with
      | nil => simp [memberCalls] at hcall
      | cons next members =>
        let front := before ++ (memberText member ++ [ascii ','])
        have hfront : front.length = before.length + (memberText member).length + 1 := by
          simp only [front, List.length_append, List.length_cons, List.length_nil]
          omega
        rw [← hfront] at hcall
        have hrest := ih (fun m hm => hvalues m (List.mem_cons_of_mem _ hm)) front call hcall
        simpa only [front, List.isEmpty_cons, Bool.false_eq_true, if_false, List.append_assoc,
          List.cons_append, List.nil_append] using hrest

theorem elementCalls_inPlace (depth : Nat) {elements : List (Element Tree)}
    (hvalues : ∀ element ∈ elements, InPlaces element.value) (before after : List UInt8) :
    ∀ call ∈ elementCalls elements depth before.length,
      call.InPlace (before ++ renderElements elements ++ after) := by
  induction elements generalizing before with
  | nil => simp [elementCalls]
  | cons element elements ih =>
    rw [elementCalls_cons, renderElements_cons]
    let behind := if elements.isEmpty then [] else ascii ',' :: renderElements elements
    intro call hcall
    rcases List.mem_append.mp hcall with hcall | hcall
    · rw [← List.length_append] at hcall
      have hvalue := hvalues element List.mem_cons_self depth true (before ++ element.lead.bytes)
        (element.trail.bytes ++ (behind ++ after)) call hcall
      simpa only [elementText, behind, List.append_assoc] using hvalue
    · cases elements with
      | nil => simp [elementCalls] at hcall
      | cons next elements =>
        let front := before ++ (elementText element ++ [ascii ','])
        have hfront : front.length = before.length + (elementText element).length + 1 := by
          simp only [front, List.length_append, List.length_cons, List.length_nil]
          omega
        rw [← hfront] at hcall
        have hrest := ih (fun e he => hvalues e (List.mem_cons_of_mem _ he)) front call hcall
        simpa only [front, List.isEmpty_cons, Bool.false_eq_true, if_false, List.append_assoc,
          List.cons_append, List.nil_append] using hrest

/-- Every range that the calls of a tree name is that of a string in its text. -/
theorem inPlaces (tree : Tree) : InPlaces tree := by
  induction tree using Tree.induction with
  | object inner members ih =>
    intro depth inArray before after call hcall
    simp only [valueCalls, List.mem_cons, List.mem_append, List.not_mem_nil, or_false] at hcall
    rcases hcall with rfl | hcall | rfl
    · trivial
    · let front := before ++ ascii '{' :: inner.bytes
      have hfront : front.length = before.length + 1 + inner.bytes.length := by
        simp only [front, List.length_append, List.length_cons]
        omega
      rw [← hfront] at hcall
      have hmembers := memberCalls_inPlace (depth + 1) ih front (ascii '}' :: after) call hcall
      simpa only [front, Tree.render, List.append_assoc, List.cons_append, List.nil_append]
        using hmembers
    · trivial
  | array inner elements ih =>
    intro depth inArray before after call hcall
    simp only [valueCalls, List.mem_cons, List.mem_append, List.not_mem_nil, or_false] at hcall
    rcases hcall with rfl | hcall | rfl
    · trivial
    · let front := before ++ ascii '[' :: inner.bytes
      have hfront : front.length = before.length + 1 + inner.bytes.length := by
        simp only [front, List.length_append, List.length_cons]
        omega
      rw [← hfront] at hcall
      have helements := elementCalls_inPlace (depth + 1) ih front (ascii ']' :: after) call hcall
      simpa only [front, Tree.render, List.append_assoc, List.cons_append, List.nil_append]
        using helements
    · trivial
  | string pieces =>
    intro depth inArray before after call hcall
    simp only [valueCalls, List.mem_cons, List.not_mem_nil, or_false] at hcall
    rcases hcall with rfl | rfl
    · trivial
    · exact ⟨pieces, before, after, rfl, rfl, rfl⟩
  | number number =>
    intro depth inArray before after call hcall
    simp only [valueCalls, List.mem_cons, List.not_mem_nil, or_false] at hcall
    rcases hcall with rfl | rfl <;> trivial
  | literal literal =>
    intro depth inArray before after call hcall
    simp only [valueCalls, List.mem_cons, List.not_mem_nil, or_false] at hcall
    rcases hcall with rfl | rfl <;> trivial

theorem documentCalls_inPlace (document : Document) :
    ∀ call ∈ documentCalls document, call.InPlace document.render :=
  inPlaces document.root 0 false document.lead.bytes document.trail.bytes

end Rui.Json
