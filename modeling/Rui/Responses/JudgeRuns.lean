import Rui.Responses.Rules

/-!
# What the judge hears of a value

The calls of a value come to one value accepted by the frame around it. What is
accepted is found on the parsed value: containers that carry rules are judged
from what they hold, and anything deeper only has its shape.
-/

namespace Rui.Responses

open Library Library.Json Rui.Json

/-! ## The judge over parsed values -/

/-- What a value is to a frame that does not look inside. -/
def unjudged : Json.Value → Value
  | .object _ => { shape := .object }
  | .array _ => { shape := .array }
  | .string bytes => { shape := .string, length := bytes.length, word := Word.named bytes }
  | .number _ => { shape := .number }
  | .literal .trueValue => { shape := .trueValue }
  | .literal .falseValue => { shape := .falseValue }
  | .literal .nullValue => { shape := .nullValue }

def isObject : Json.Value → Bool
  | .object _ => true
  | _ => false

mutual

/-- What the judge makes of a value of this kind at `depth`. -/
def valueAs (operation : Operation) (kind : Kind) (depth : Nat) : Json.Value → Value
  | .object members =>
    if kind = .ignored then { shape := .object }
    else ((holdMembers operation (.opened kind true depth) (depth + 1) members).finish operation).1
  | .array elements =>
    if kind = .ignored then { shape := .array }
    else
      ((holdElements operation (.opened kind false depth) (depth + 1) elements).finish operation).1
  | .string bytes => unjudged (.string bytes)
  | .number number => unjudged (.number number)
  | .literal literal => unjudged (.literal literal)

/-- A frame after members, whose values are at `depth`. -/
def holdMembers (operation : Operation) (frame : Frame) (depth : Nat) :
    List (List UInt8 × Json.Value) → Frame
  | [] => frame
  | (key, value) :: members =>
    let keyed := frame.keyOf (Name.named key)
    holdMembers operation
      (keyed.accept (valueAs operation (keyed.childKind (isObject value)) depth value)) depth
      members

/-- A frame after elements. -/
def holdElements (operation : Operation) (frame : Frame) (depth : Nat) : List Json.Value → Frame
  | [] => frame
  | value :: elements =>
    holdElements operation
      (frame.accept (valueAs operation (frame.childKind (isObject value)) depth value)) depth
      elements

end

theorem valueAs_ignored (operation : Operation) (depth : Nat) (value : Json.Value) :
    valueAs operation .ignored depth value = unjudged value := by
  cases value <;> rfl

theorem accept_kind (frame : Frame) (value : Value) : (frame.accept value).kind = frame.kind := by
  rw [Frame.accept]
  split <;> rfl

theorem holdMembers_kind (operation : Operation) (depth : Nat) (members : Members) :
    ∀ frame : Frame, (holdMembers operation frame depth members).kind = frame.kind := by
  induction members with
  | nil =>
    intro frame
    rfl
  | cons member members ih =>
    intro frame
    rw [holdMembers, ih, accept_kind]
    rfl

theorem holdElements_kind (operation : Operation) (depth : Nat) (elements : List Json.Value) :
    ∀ frame : Frame, (holdElements operation frame depth elements).kind = frame.kind := by
  induction elements with
  | nil =>
    intro frame
    rfl
  | cons element elements ih =>
    intro frame
    rw [holdElements, ih, accept_kind]

/-! ## Hearing calls -/

namespace Judge

/-- What a part of a reading does to the judge. -/
def hearAll (self : Judge) : List Call → Option Judge
  | [] => some self
  | call :: calls => (self.hear call).bind fun self => self.hearAll calls

theorem hearAll_append (self : Judge) (calls more : List Call) :
    self.hearAll (calls ++ more) = (self.hearAll calls).bind fun self => self.hearAll more := by
  induction calls generalizing self with
  | nil => rfl
  | cons call calls ih =>
    rw [List.cons_append, hearAll, hearAll]
    cases self.hear call with
    | none => rfl
    | some next =>
      rw [Option.bind_some, Option.bind_some]
      exact ih next

theorem hearAll_cons (self : Judge) (call : Call) (calls : List Call) :
    self.hearAll (call :: calls) = (self.hear call).bind fun self => self.hearAll calls := rfl

/-- The judge is left as it was by a value below the judged containers. -/
def Skips (tree : Tree) : Prop :=
  ∀ (self : Judge) (depth offset : Nat) (inArray : Bool), self.ignored ≠ 0 →
    self.hearAll (valueCalls tree depth offset inArray) = some self

variable {self : Judge} {frame : Frame} {object : Bool} {members : List (Member Tree)}
  {elements : List (Element Tree)} {kind : Json.Kind} {token : Token}

theorem hearAll_skipped_members (hvalues : ∀ member ∈ members, Skips member.value)
    (hignored : self.ignored ≠ 0) (depth offset : Nat) :
    self.hearAll (memberCalls members depth offset) = some self := by
  induction members generalizing offset with
  | nil => rfl
  | cons member members ih =>
    have hkey : ∀ kept contents depth, self.hear (.key kept contents depth) = some self := by
      intro kept contents depth
      simp [hear, key, hignored]
    rw [memberCalls_cons, hearAll_cons, hkey, Option.bind_some, hearAll_append,
      hvalues member List.mem_cons_self _ _ _ _ hignored, Option.bind_some]
    exact ih (fun m hm => hvalues m (List.mem_cons_of_mem _ hm)) _

theorem hearAll_skipped_elements (hvalues : ∀ element ∈ elements, Skips element.value)
    (hignored : self.ignored ≠ 0) (depth offset : Nat) :
    self.hearAll (elementCalls elements depth offset) = some self := by
  induction elements generalizing offset with
  | nil => rfl
  | cons element elements ih =>
    rw [elementCalls_cons, hearAll_append, hvalues element List.mem_cons_self _ _ _ _ hignored,
      Option.bind_some]
    exact ih (fun e he => hvalues e (List.mem_cons_of_mem _ he)) _

/-- A container below the judged ones is counted, and its end uncounts it. -/
theorem hearAll_deeper (hignored : self.ignored ≠ 0) {calls : List Call}
    (hcalls : ∀ inner : Judge, inner.ignored ≠ 0 → inner.hearAll calls = some inner)
    (hkind : kind = .object ∧ token = .object ∨ kind = .array ∧ token = .array)
    (depth offset stop : Nat) (inArray : Bool) :
    self.hearAll (.begins kind depth offset inArray :: (calls ++ [.ends token depth stop])) =
      some self := by
  have hbegin : self.hear (.begins kind depth offset inArray) =
      some { self with ignored := self.ignored + 1 } := by
    rcases hkind with ⟨rfl, _⟩ | ⟨rfl, _⟩ <;> simp [hear, begins, beginContainer, hignored]
  have hend : ({ self with ignored := self.ignored + 1 } : Judge).hear
      (.ends token depth stop) = some self := by
    rcases hkind with ⟨_, rfl⟩ | ⟨_, rfl⟩ <;> simp [hear, ends, endContainer, hignored]
  rw [hearAll_cons, hbegin, Option.bind_some, hearAll_append, hcalls _ (by simp),
    Option.bind_some, hearAll_cons, hend]
  rfl

/-- Below the judged containers nothing but depth is followed. -/
theorem skips (tree : Tree) : Skips tree := by
  induction tree using Tree.induction with
  | object inner members ih =>
    intro self depth offset inArray hignored
    exact hearAll_deeper hignored
      (fun _ hinner => hearAll_skipped_members ih hinner _ _) (.inl ⟨rfl, rfl⟩) _ _ _ _
  | array inner elements ih =>
    intro self depth offset inArray hignored
    exact hearAll_deeper hignored
      (fun _ hinner => hearAll_skipped_elements ih hinner _ _) (.inr ⟨rfl, rfl⟩) _ _ _ _
  | string pieces =>
    intro self depth offset inArray hignored
    simp [valueCalls, hearAll, hear, begins, ends, hignored]
  | number number =>
    intro self depth offset inArray hignored
    simp [valueCalls, hearAll, hear, begins, ends, hignored]
  | literal literal =>
    intro self depth offset inArray hignored
    simp [valueCalls, hearAll, hear, begins, ends, hignored]

/-! ## Judged containers -/

/-- How deep in its item a container of a kind is. -/
def rank : Kind → Nat
  | .item => 0
  | .caller | .metadata | .blocks => 1
  | .block => 2
  | .annotations => 3
  | Kind.annotation => 4
  | .ignored => 5

theorem childKind_rank (h : frame.childKind object ≠ .ignored) :
    frame.kind ≠ .ignored ∧ rank (frame.childKind object) = rank frame.kind + 1 ∧
      rank (frame.childKind object) ≤ 4 := by
  obtain ⟨kind, isObject, key, fields, capacity, aggregate⟩ := frame
  cases isObject with
  | false => cases kind <;> cases object <;> simp_all [Frame.childKind, rank]
  | true =>
    cases key with
    | none => simp [Frame.childKind] at h
    | some field =>
      cases kind <;> cases object <;> simp only [Frame.childKind] at h ⊢ <;>
        cases field <;> simp_all [rank]

/-- The innermost frame is at the depth of its kind. -/
def Placed (frames : List Frame) : Prop :=
  ∀ frame outer, frames = frame :: outer → frame.kind = .ignored ∨
    frames.length = rank frame.kind + 1

theorem finish_kind (h : frame.kind ≠ .item) (operation : Operation) :
    (frame.finish operation).2 = none := by
  rw [Frame.finish]
  split
  · rw [Frame.judge]
    split
    · exact absurd ‹_› h
    · split <;> rfl
    · split <;> rfl
    · rfl
    · rfl
    · rfl
  · rfl

/-- The judge accepts a value from its calls. -/
def HearsValue (tree : Tree) : Prop :=
  ∀ (self : Judge) (depth offset : Nat) (inArray : Bool), self.ignored = 0 → self.frames ≠ [] →
    Placed self.frames → self.hearAll (valueCalls tree depth offset inArray) =
      some (self.accept (valueAs self.operation (self.childKind (isObject tree.value))
        self.frames.length tree.value))

theorem placed_cons {frame' : Frame} {outer : List Frame} (hkind : frame'.kind = frame.kind)
    (h : Placed (frame :: outer)) : Placed (frame' :: outer) := by
  rintro _ _ ⟨⟩
  rcases h frame outer rfl with h | h
  · exact .inl (hkind.trans h)
  · exact .inr (by rw [hkind]; exact h)

theorem hearAll_members (depth : Nat) (hvalues : ∀ member ∈ members, HearsValue member.value) :
    ∀ (self : Judge) (frame : Frame) (outer : List Frame) (offset : Nat), self.ignored = 0 →
      self.frames = frame :: outer → Placed self.frames →
      self.hearAll (memberCalls members depth offset) = some { self with
        frames := holdMembers self.operation frame self.frames.length (membersValue members) ::
          outer } := by
  induction members with
  | nil =>
    intro self frame outer offset _ hframes _
    simp [memberCalls, hearAll, holdMembers, ← hframes]
  | cons member members ih =>
    intro self frame outer offset hignored hframes hplaced
    let keyed := frame.keyOf (Name.named (decoded member.key))
    let inside : Judge := { self with frames := keyed :: outer }
    have hkey : ∀ contents depth, self.hear (.key (.of (decoded member.key)) contents depth) =
        some inside := by
      intro contents depth
      simp [hear, key, hignored, hframes, Name.of_text, inside, keyed]
    rw [hframes] at hplaced
    have hkind : keyed.kind = frame.kind := rfl
    have hinside : Placed inside.frames := placed_cons hkind hplaced
    rw [memberCalls_cons, hearAll_cons, hkey, Option.bind_some, hearAll_append,
      hvalues member List.mem_cons_self inside _ _ _ hignored (by simp [inside]) hinside,
      Option.bind_some]
    have hlength : inside.frames.length = self.frames.length := by simp [inside, hframes]
    let value := valueAs self.operation (keyed.childKind (isObject member.value.value))
      self.frames.length member.value.value
    have haccept : inside.accept (valueAs inside.operation
        (inside.childKind (isObject member.value.value)) inside.frames.length
        member.value.value) = { self with frames := keyed.accept value :: outer } := by
      rw [hlength]
      rfl
    have hnext : Placed (keyed.accept value :: outer) := placed_cons (accept_kind _ _) hinside
    rw [haccept, ih (fun m hm => hvalues m (List.mem_cons_of_mem _ hm))
      { self with frames := keyed.accept value :: outer } _ _ _ hignored rfl hnext]
    simp [holdMembers, hframes, value, keyed]

theorem hearAll_elements (depth : Nat) (hvalues : ∀ element ∈ elements, HearsValue element.value) :
    ∀ (self : Judge) (frame : Frame) (outer : List Frame) (offset : Nat), self.ignored = 0 →
      self.frames = frame :: outer → Placed self.frames →
      self.hearAll (elementCalls elements depth offset) = some { self with
        frames := holdElements self.operation frame self.frames.length
          (elementsValue elements) :: outer } := by
  induction elements with
  | nil =>
    intro self frame outer offset _ hframes _
    simp [elementCalls, hearAll, holdElements, ← hframes]
  | cons element elements ih =>
    intro self frame outer offset hignored hframes hplaced
    rw [elementCalls_cons, hearAll_append, hvalues element List.mem_cons_self self _ _ _ hignored
      (by simp [hframes]) hplaced, Option.bind_some]
    let value := valueAs self.operation (frame.childKind (isObject element.value.value))
      self.frames.length element.value.value
    have haccept : self.accept (valueAs self.operation
        (self.childKind (isObject element.value.value)) self.frames.length
        element.value.value) = { self with frames := frame.accept value :: outer } := by
      simp [accept, childKind, hframes, value]
    have hnext : Placed (frame.accept value :: outer) := by
      rw [hframes] at hplaced
      exact placed_cons (accept_kind _ _) hplaced
    rw [haccept, ih (fun e he => hvalues e (List.mem_cons_of_mem _ he))
      { self with frames := frame.accept value :: outer } _ _ _ hignored rfl hnext]
    simp [holdElements, hframes, value]

theorem hear_ignored (hignored : self.ignored = 0) (hframes : self.frames ≠ [])
    (hchild : self.childKind object = .ignored) :
    self.beginContainer object = some { self with ignored := 1 } := by
  simp [beginContainer, hignored, hchild, hframes]

theorem hear_judged (hignored : self.ignored = 0) (hplaced : Placed self.frames)
    (hframes : self.frames ≠ []) (hchild : self.childKind object ≠ .ignored) :
    self.beginContainer object = some { self with
        frames := .opened (self.childKind object) object self.frames.length :: self.frames } ∧
      Placed (.opened (self.childKind object) object self.frames.length :: self.frames) ∧
      self.childKind object ≠ .item := by
  obtain ⟨frame, outer, hcons⟩ := List.exists_cons_of_ne_nil hframes
  have hchildKind : self.childKind object = frame.childKind object := by simp [childKind, hcons]
  obtain ⟨hkind, hrank, hdeep⟩ := childKind_rank (hchildKind ▸ hchild)
  have hlength : self.frames.length = rank frame.kind + 1 := (hplaced _ _ hcons).resolve_left hkind
  refine ⟨?_, ?_, ?_⟩
  · have hroom : self.frames.length < maxFrames := by simp only [maxFrames]; omega
    rw [beginContainer, if_neg (by simp [hignored]), if_neg (by simp [hchild]), if_pos hroom]
  · rintro _ _ ⟨⟩
    right
    simp only [Frame.opened, List.length_cons, hchildKind]
    omega
  · intro hitem
    rw [hchildKind] at hitem
    rw [hitem, rank] at hrank
    omega

theorem hear_end (hignored : self.ignored = 0) (hframes : self.frames ≠ [])
    (hitem : frame.kind ≠ .item) (shape : Shape) :
    ({ self with frames := frame :: self.frames } : Judge).endContainer shape =
      some (self.accept (frame.finish self.operation).1) := by
  have hkind := finish_kind hitem self.operation
  obtain ⟨operation, frames, ignored, result, itemKind, outermost⟩ := self
  cases hignored
  simp_all [endContainer]

theorem hear_ignored_end (hignored : self.ignored = 0) (shape : Shape) :
    ({ self with ignored := 1 } : Judge).endContainer shape = some (self.accept { shape }) := by
  obtain ⟨operation, frames, ignored, result, itemKind, outermost⟩ := self
  cases hignored
  rfl

theorem hear_leaf (hbegin : self.begins kind = some self) {value : Value}
    (hend : self.ends token = some (self.accept value)) (depth start stop : Nat) (inArray : Bool) :
    self.hearAll [.begins kind depth start inArray, .ends token depth stop] =
      some (self.accept value) := by
  rw [hearAll_cons, hear, hbegin, Option.bind_some, hearAll_cons, hear, hend]
  rfl

theorem hearsValue (tree : Tree) : HearsValue tree := by
  induction tree using Tree.induction with
  | object inner members ih =>
    intro self depth offset inArray hignored hframes hplaced
    rw [valueCalls, hearAll_cons, hear, begins, Tree.value, isObject]
    by_cases hchild : self.childKind true = .ignored
    · rw [hear_ignored hignored hframes hchild, Option.bind_some, hearAll_append,
        hearAll_skipped_members (fun m _ => skips m.value) (by simp), Option.bind_some,
        hearAll_cons, hear, ends, hear_ignored_end hignored, hchild]
      rfl
    · obtain ⟨hbegin, hinside, hitem⟩ := hear_judged hignored hplaced hframes hchild
      rw [hbegin, Option.bind_some, hearAll_append,
        hearAll_members _ ih { self with
          frames := .opened (self.childKind true) true self.frames.length :: self.frames }
          _ _ _ hignored rfl hinside,
        Option.bind_some, hearAll_cons, hear, ends]
      rw [hear_end hignored hframes (by rw [holdMembers_kind]; exact hitem)]
      simp [hearAll, valueAs, hchild]
  | array inner elements ih =>
    intro self depth offset inArray hignored hframes hplaced
    rw [valueCalls, hearAll_cons, hear, begins, Tree.value]
    change _ = some (self.accept (valueAs _ (self.childKind false) _ _))
    by_cases hchild : self.childKind false = .ignored
    · rw [hear_ignored hignored hframes hchild, Option.bind_some, hearAll_append,
        hearAll_skipped_elements (fun e _ => skips e.value) (by simp), Option.bind_some,
        hearAll_cons, hear, ends, hear_ignored_end hignored, hchild]
      rfl
    · obtain ⟨hbegin, hinside, hitem⟩ := hear_judged hignored hplaced hframes hchild
      rw [hbegin, Option.bind_some, hearAll_append,
        hearAll_elements _ ih { self with
          frames := .opened (self.childKind false) false self.frames.length :: self.frames }
          _ _ _ hignored rfl hinside,
        Option.bind_some, hearAll_cons, hear, ends]
      rw [hear_end hignored hframes (by rw [holdElements_kind]; exact hitem)]
      simp [hearAll, valueAs, hchild]
  | string pieces =>
    intro self depth offset inArray hignored _ _
    apply hear_leaf rfl
    simp only [ends, hignored, ne_eq, not_true, if_false, Word.of_text]
    rfl
  | number number =>
    intro self depth offset inArray hignored _ _
    apply hear_leaf rfl
    simp only [ends, hignored, ne_eq, not_true, if_false]
    rfl
  | literal literal =>
    intro self depth offset inArray hignored _ _
    apply hear_leaf rfl
    simp only [ends, hignored, ne_eq, not_true, if_false]
    cases literal <;> rfl

end Judge

end Rui.Responses
