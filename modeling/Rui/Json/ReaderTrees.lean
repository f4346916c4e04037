import Rui.Json.ReaderRuns

/-!
# What the reader does with trees

The runs over whole values and documents: by induction over the tree, the
reader tells the calls of the tree.
-/

namespace Rui.Json

open Library Library.Json

namespace Reader

/-- What may stand behind a value: only a number needs a delimiter. -/
def Behind : Tree → List UInt8 → Prop
  | .number _ => Delimited
  | _ => Anything

theorem behind_of_delimited (tree : Tree) {rest : List UInt8} (h : Delimited rest) :
    Behind tree rest := by
  cases tree with
  | number number => exact h
  | _ => trivial

/-- The tree is read wherever a value is due and its depth is allowed. -/
def ReadsTree (tree : Tree) : Prop :=
  ∀ self : Reader, ValueDue self.state → self.arrays ≠ [] → self.depth + tree.depth ≤ maxDepth →
    Reads (Behind tree) self tree.render
      (valueCalls tree self.depth self.offset (self.arrays.headD false))
      (fun after => At after .afterValue self.arrays (self.offset + tree.render.length))

/-- The state after a container closes inside the containers `outer`. -/
def closedState (outer : List Bool) : State :=
  if outer.length = 0 then .done else .afterValue

def closer (array : Bool) : UInt8 := if array then ascii ']' else ascii '}'

variable {self : Reader} {state : State} {offset : Nat} {array : Bool} {outer : List Bool}

theorem Reads.cast {allowed : List UInt8 → Prop} {bytes bytes' : List UInt8}
    {calls calls' : List Call} {post post' : Reader → Prop}
    (h : Reads allowed self bytes calls post) (hbytes : bytes = bytes') (hcalls : calls = calls')
    (hpost : ∀ after, post after → post' after) : Reads allowed self bytes' calls' post' :=
  hbytes ▸ hcalls ▸ h.mono hpost

theorem At.cast {arrays : List Bool} {offset' : Nat} (h : At self state arrays offset)
    (heq : offset = offset') : At self state arrays offset' :=
  heq ▸ h

/-! ## Delimiters -/

theorem delimited_append {bytes : List UInt8} (h : ∀ byte ∈ bytes, isSpace byte = true)
    {rest : List UInt8} (hrest : Delimited rest) : Delimited (bytes ++ rest) := by
  cases bytes with
  | nil => exact hrest
  | cons byte bytes =>
    exact ⟨byte, bytes ++ rest, rfl, by simp [isDelimiter, h byte List.mem_cons_self]⟩

theorem delimited_comma (rest : List UInt8) : Delimited ([ascii ','] ++ rest) :=
  ⟨_, rest, rfl, by decide⟩

theorem delimited_closer (array : Bool) (rest : List UInt8) :
    Delimited ([closer array] ++ rest) :=
  ⟨_, rest, rfl, by cases array <;> decide⟩

theorem reads_comma (h : At self .afterValue (array :: outer) offset) :
    Reads Anything self [ascii ','] []
      (fun after => At after (if array then .value else .key) (array :: outer) (offset + 1)) := by
  obtain ⟨hstate, harrays, rfl⟩ := h
  have hspace : isSpace (ascii ',') = false := by decide
  have hstep : self.step (ascii ',') =
      .ok { self with state := if array then .value else .key } := by
    simp only [step, hstate, afterValue, hspace, Bool.false_eq_true, if_false, harrays, if_true]
  exact .of_step (by simp [hstate]) hstep ⟨rfl, harrays, rfl⟩

theorem close_eq (harrays : self.arrays = array :: outer) (closing : Bool) : self.close closing =
      .tell [.ends (if closing then .array else .object) outer.length self.offset]
        (.ok { self with arrays := outer, state := closedState outer }) := by
  simp only [close, harrays, closedState]

theorem reads_close (h : At self .afterValue (array :: outer) offset) :
    Reads Anything self [closer array]
      [.ends (if array then .array else .object) outer.length offset]
      (fun after => At after (closedState outer) outer (offset + 1)) := by
  obtain ⟨hstate, harrays, rfl⟩ := h
  have hstep : self.step (closer array) = self.close array := by
    have hbrace : isSpace (ascii '}') = false ∧ ascii '}' ≠ ascii ',' := by decide
    have hbracket : isSpace (ascii ']') = false ∧ ascii ']' ≠ ascii ',' ∧
        ascii ']' ≠ ascii '}' := by decide
    cases array with
    | false => simp [closer, step, hstate, afterValue, harrays, hbrace]
    | true => simp [closer, step, hstate, afterValue, harrays, hbracket]
  rw [close_eq harrays] at hstep
  exact .of_step (by simp [hstate]) hstep ⟨rfl, rfl, rfl⟩

theorem reads_closeEmpty
    (h : At self (if array then .valueOrClose else .keyOrClose) (array :: outer) offset) :
    Reads Anything self [closer array]
      [.ends (if array then .array else .object) outer.length offset]
      (fun after => At after (closedState outer) outer (offset + 1)) := by
  obtain ⟨hstate, harrays, rfl⟩ := h
  have hstep : self.step (closer array) = self.close array := by
    have hbrace : isSpace (ascii '}') = false ∧ ascii '}' ≠ ascii '"' := by decide
    have hbracket : isSpace (ascii ']') = false := by decide
    cases array with
    | false => simp [closer, step, hstate, unlessSpace, hbrace]
    | true => simp [closer, step, hstate, unlessSpace, hbracket]
  rw [close_eq harrays] at hstep
  refine .of_step ?_ hstep ⟨rfl, rfl, rfl⟩
  cases array <;> simp [hstate]

/-! ## Members -/

theorem skips_keyDue (h : KeyDue state) : skips state = true := by
  rcases h with rfl | rfl <;> rfl

theorem skips_valueDue (h : ValueDue state) : skips state = true := by
  rcases h with rfl | rfl <;> rfl

theorem reads_colon (hstate : self.state = .colon) : Reads Anything self [ascii ':'] []
      (fun after => At after .value self.arrays (self.offset + 1)) := by
  have hspace : isSpace (ascii ':') = false := by decide
  have hstep : self.step (ascii ':') = .ok { self with state := .value } := by
    simp [step, hstate, unlessSpace, hspace]
  exact .of_step (by simp [hstate]) hstep ⟨rfl, rfl, rfl⟩

theorem reads_spaced (hstate : ValueDue self.state) (harrays : self.arrays ≠ []) {value : Tree}
    (hvalue : ReadsTree value) (hdepth : self.depth + value.depth ≤ maxDepth) (lead trail : Space) :
    Reads Delimited self (lead.bytes ++ (value.render ++ trail.bytes))
      (valueCalls value self.depth (self.offset + lead.bytes.length) (self.arrays.headD false))
      (fun after => At after .afterValue self.arrays
        (self.offset + lead.bytes.length + value.render.length + trail.bytes.length)) := by
  rw [← List.nil_append (valueCalls _ _ _ _)]
  refine (reads_space (skips_valueDue hstate) lead).trans fun middle hmiddle => ?_
  rw [← List.append_nil (valueCalls _ _ _ _)]
  have hread := hvalue middle (hmiddle.state ▸ hstate) (hmiddle.arrays ▸ harrays)
    (by rwa [depth, hmiddle.arrays])
  rw [depth, hmiddle.arrays, hmiddle.offset] at hread
  refine hread.before (fun last hlast => ?_) fun rest hrest =>
    behind_of_delimited value (delimited_append trail.spaces hrest)
  have hspace := reads_space (by rw [hlast.state]; rfl) trail
  rw [hlast.state, hlast.arrays, hlast.offset] at hspace
  exact hspace.allow

theorem reads_keyColon (hstate : KeyDue self.state) (lead : Space) (key : List Piece)
    (beforeColon : Space) :
    Reads Anything self (lead.bytes ++ (quoted key ++ (beforeColon.bytes ++ [ascii ':'])))
      [.key (.of (decoded key)) ⟨self.offset + lead.bytes.length + 1, (raw key).length⟩ self.depth]
      (fun after => At after .value self.arrays (self.offset + lead.bytes.length + 1 +
        (raw key).length + 1 + beforeColon.bytes.length + 1)) := by
  rw [← List.nil_append [Call.key _ _ _]]
  refine (reads_space (skips_keyDue hstate) lead).trans fun first hfirst => ?_
  have hkey := reads_key (hfirst.state ▸ hstate) key
  rw [depth, hfirst.arrays, hfirst.offset] at hkey
  rw [← List.append_nil [Call.key _ _ _]]
  refine hkey.trans fun second hsecond => ?_
  rw [← List.nil_append []]
  refine (reads_space (by rw [hsecond.state]; rfl) beforeColon).trans fun third hthird => ?_
  refine (reads_colon (hthird.state.trans hsecond.state)).mono fun after hafter => ?_
  rw [hthird.arrays, hthird.offset, hsecond.arrays, hsecond.offset] at hafter
  refine hafter.cast ?_
  simp only [quoted, List.length_cons, List.length_append, List.length_nil]
  omega

theorem depth_cons (h : self.arrays = array :: outer) : self.depth = outer.length + 1 := by
  rw [depth, h, List.length_cons]

theorem reads_member (hstate : KeyDue self.state) (harrays : self.arrays = false :: outer)
    {member : Member Tree} (hvalue : ReadsTree member.value)
    (hdepth : outer.length + 1 + member.value.depth ≤ maxDepth) :
    Reads Delimited self (memberText member)
      (.key (.of (decoded member.key))
          ⟨self.offset + member.lead.bytes.length + 1, (raw member.key).length⟩
          (outer.length + 1) ::
        valueCalls member.value (outer.length + 1) (self.offset + valueStart member) false)
      (fun after => At after .afterValue (false :: outer)
        (self.offset + (memberText member).length)) := by
  have hkey := reads_keyColon hstate member.lead member.key member.beforeColon
  rw [depth_cons harrays, harrays] at hkey
  have hspaced : ∀ middle : Reader, At middle .value (false :: outer) (self.offset +
      member.lead.bytes.length + 1 + (raw member.key).length + 1 +
        member.beforeColon.bytes.length + 1) →
      Reads Delimited middle
        (member.afterColon.bytes ++ (member.value.render ++ member.trail.bytes))
        (valueCalls member.value (outer.length + 1) (self.offset + valueStart member) false)
        (fun after => At after .afterValue (false :: outer)
          (self.offset + (memberText member).length)) := by
    intro middle hmiddle
    have hread := reads_spaced (.inl hmiddle.state) (by simp [hmiddle.arrays]) hvalue
      (by rwa [depth_cons hmiddle.arrays]) member.afterColon member.trail
    rw [depth_cons hmiddle.arrays, hmiddle.arrays, hmiddle.offset] at hread
    refine hread.cast rfl ?_ fun after hafter => hafter.cast ?_
    · simp only [valueStart, Nat.add_assoc, List.headD_cons]
    · simp only [memberText_length, valueStart, Nat.add_assoc]
  refine (hkey.trans hspaced).cast ?_ rfl fun after hafter => hafter
  simp only [memberText, List.append_assoc, List.cons_append, List.nil_append]

theorem reads_members (h : At self state (false :: outer) offset) (hstate : KeyDue state)
    {members : List (Member Tree)} (hne : members ≠ [])
    (hvalues : ∀ member ∈ members, ReadsTree member.value)
    (hdepth : outer.length + depthMembers members ≤ maxDepth) :
    Reads Anything self (renderMembers members ++ [closer false])
      (memberCalls members (outer.length + 1) offset ++
        [.ends .object outer.length (offset + (renderMembers members).length)])
      (fun after => At after (closedState outer) outer
        (offset + (renderMembers members).length + 1)) := by
  induction members generalizing self state offset with
  | nil => exact absurd rfl hne
  | cons member members ih =>
    obtain ⟨rfl, harrays, rfl⟩ := h
    simp only [depthMembers] at hdepth
    have hmember := reads_member hstate harrays (hvalues member List.mem_cons_self) (by omega)
    rw [renderMembers_cons, memberCalls_cons, List.append_assoc, List.cons_append,
      List.append_assoc]
    cases members with
    | nil =>
      refine (hmember.before (fun _ => reads_close) fun rest _ => delimited_closer false rest).cast
        ?_ ?_ ?_
      · simp only [List.isEmpty_nil, if_true, List.nil_append]
      · simp only [memberCalls, List.nil_append, List.isEmpty_nil, if_true, List.append_nil,
          List.cons_append, Bool.false_eq_true, if_false]
      · simp only [List.isEmpty_nil, if_true, List.append_nil, imp_self, implies_true]
    | cons next members =>
      have hcomma := hmember.before (fun _ => reads_comma) fun rest _ => delimited_comma rest
      refine (hcomma.trans fun middle hmiddle => ih hmiddle (.inl rfl) (by simp)
        (fun m hm => hvalues m (List.mem_cons_of_mem _ hm)) (by omega)).cast ?_ ?_ ?_
      · simp only [List.isEmpty_cons, Bool.false_eq_true, if_false, List.append_assoc,
          List.cons_append, List.nil_append]
      · simp only [List.isEmpty_cons, Bool.false_eq_true, if_false, List.append_assoc,
          List.cons_append, List.length_append, List.length_cons, List.nil_append, Nat.add_assoc,
          Nat.add_comm 1]
      · refine fun after hafter => hafter.cast ?_
        simp only [List.isEmpty_cons, Bool.false_eq_true, if_false, List.length_append,
          List.length_cons]
        omega

/-! ## Elements -/

theorem reads_elements (h : At self state (true :: outer) offset) (hstate : ValueDue state)
    {elements : List (Element Tree)} (hne : elements ≠ [])
    (hvalues : ∀ element ∈ elements, ReadsTree element.value)
    (hdepth : outer.length + depthElements elements ≤ maxDepth) :
    Reads Anything self (renderElements elements ++ [closer true])
      (elementCalls elements (outer.length + 1) offset ++
        [.ends .array outer.length (offset + (renderElements elements).length)])
      (fun after => At after (closedState outer) outer
        (offset + (renderElements elements).length + 1)) := by
  induction elements generalizing self state offset with
  | nil => exact absurd rfl hne
  | cons element elements ih =>
    obtain ⟨rfl, harrays, rfl⟩ := h
    simp only [depthElements] at hdepth
    have helement : Reads Delimited self (elementText element)
        (valueCalls element.value (outer.length + 1)
          (self.offset + element.lead.bytes.length) true)
        (fun after => At after .afterValue (true :: outer)
          (self.offset + (elementText element).length)) := by
      have hread := reads_spaced hstate (by simp [harrays]) (hvalues element List.mem_cons_self)
        (by rw [depth_cons harrays]; omega) element.lead element.trail
      rw [depth_cons harrays, harrays] at hread
      refine hread.cast ?_ rfl fun after hafter => hafter.cast ?_
      · rw [elementText, List.append_assoc]
      · simp only [elementText_length, Nat.add_assoc]
    rw [renderElements_cons, elementCalls_cons, List.append_assoc, List.append_assoc]
    cases elements with
    | nil =>
      refine (helement.before (fun _ => reads_close) fun rest _ => delimited_closer true rest).cast
        ?_ ?_ ?_
      · simp only [List.isEmpty_nil, if_true, List.nil_append]
      · simp only [elementCalls, List.nil_append, List.isEmpty_nil, if_true, List.append_nil]
      · simp only [List.isEmpty_nil, if_true, List.append_nil, imp_self, implies_true]
    | cons next elements =>
      have hcomma := helement.before (fun _ => reads_comma) fun rest _ => delimited_comma rest
      refine (hcomma.trans fun middle hmiddle => ih hmiddle (.inl rfl) (by simp)
        (fun m hm => hvalues m (List.mem_cons_of_mem _ hm)) (by omega)).cast ?_ ?_ ?_
      · simp only [List.isEmpty_cons, Bool.false_eq_true, if_false, List.append_assoc,
          List.cons_append, List.nil_append]
      · simp only [List.isEmpty_cons, Bool.false_eq_true, if_false, List.length_append,
          List.length_cons, List.append_nil, Nat.add_assoc, Nat.add_comm 1]
      · refine fun after hafter => hafter.cast ?_
        simp only [List.isEmpty_cons, Bool.false_eq_true, if_false, List.length_append,
          List.length_cons]
        omega

/-! ## Containers -/

theorem reads_object (h : At self .keyOrClose (false :: outer) offset) (inner : Space)
    (members : List (Member Tree)) (hvalues : ∀ member ∈ members, ReadsTree member.value)
    (hdepth : outer.length + depthMembers members ≤ maxDepth) :
    Reads Anything self (inner.bytes ++ (renderMembers members ++ [closer false]))
      (memberCalls members (outer.length + 1) (offset + inner.bytes.length) ++
        [.ends .object outer.length
          (offset + inner.bytes.length + (renderMembers members).length)])
      (fun after => At after (closedState outer) outer
        (offset + inner.bytes.length + (renderMembers members).length + 1)) := by
  obtain ⟨hstate, harrays, rfl⟩ := h
  have hspace := reads_space (by rw [hstate]; rfl) inner
  rw [hstate, harrays] at hspace
  refine hspace.trans fun middle hmiddle => ?_
  by_cases hne : members = []
  · subst hne
    exact reads_closeEmpty hmiddle
  · exact reads_members hmiddle (.inr rfl) hne hvalues hdepth

theorem reads_array (h : At self .valueOrClose (true :: outer) offset) (inner : Space)
    (elements : List (Element Tree)) (hvalues : ∀ element ∈ elements, ReadsTree element.value)
    (hdepth : outer.length + depthElements elements ≤ maxDepth) :
    Reads Anything self (inner.bytes ++ (renderElements elements ++ [closer true]))
      (elementCalls elements (outer.length + 1) (offset + inner.bytes.length) ++
        [.ends .array outer.length
          (offset + inner.bytes.length + (renderElements elements).length)])
      (fun after => At after (closedState outer) outer
        (offset + inner.bytes.length + (renderElements elements).length + 1)) := by
  obtain ⟨hstate, harrays, rfl⟩ := h
  have hspace := reads_space (by rw [hstate]; rfl) inner
  rw [hstate, harrays] at hspace
  refine hspace.trans fun middle hmiddle => ?_
  by_cases hne : elements = []
  · subst hne
    exact reads_closeEmpty hmiddle
  · exact reads_elements hmiddle (.inr rfl) hne hvalues hdepth

theorem reads_open (hstate : ValueDue self.state) (hdepth : self.depth ≤ maxDepth) (array : Bool) :
    Reads Anything self [if array then ascii '[' else ascii '{']
      [self.begins (if array then .array else .object)]
      (fun after => At after (if array then .valueOrClose else .keyOrClose)
        (array :: self.arrays) (self.offset + 1)) := by
  have hopen : self.step (if array then ascii '[' else ascii '{') =
      .tell [self.begins (if array then .array else .object)] (.ok (self.openContainer array)) := by
    have hbracket : ascii '[' ≠ ascii '{' := by decide
    rw [step_value hstate (by cases array <;> decide) (by cases array <;> decide), beginValue,
      if_neg (Nat.not_lt.mpr hdepth)]
    cases array with
    | false => simp
    | true => simp [hbracket]
  refine .of_step ?_ hopen ⟨rfl, rfl, rfl⟩
  rcases hstate with h | h <;> simp [h]

/-- **Values.** Wherever a value is due, the text of a tree that is not too
deep makes the calls of the tree. -/
theorem readsTree (tree : Tree) : ReadsTree tree := by
  induction tree using Tree.induction with
  | object inner members ih =>
    intro self hstate harrays hdepth
    simp only [Tree.depth] at hdepth
    have hclosed : closedState self.arrays = .afterValue :=
      if_neg (List.length_pos_of_ne_nil harrays).ne'
    refine ((reads_open hstate (by omega) false).trans fun middle hmiddle =>
      reads_object hmiddle inner members ih hdepth).cast ?_ rfl fun after hafter => ?_
    · simp only [Tree.render, closer, Bool.false_eq_true, if_false, List.cons_append,
        List.nil_append, List.append_assoc]
    · rw [hclosed] at hafter
      refine hafter.cast ?_
      simp only [Tree.render, List.length_cons, List.length_append, List.length_nil]
      omega
  | array inner elements ih =>
    intro self hstate harrays hdepth
    simp only [Tree.depth] at hdepth
    have hclosed : closedState self.arrays = .afterValue :=
      if_neg (List.length_pos_of_ne_nil harrays).ne'
    refine ((reads_open hstate (by omega) true).trans fun middle hmiddle =>
      reads_array hmiddle inner elements ih hdepth).cast ?_ rfl fun after hafter => ?_
    · simp only [Tree.render, closer, if_true, List.cons_append, List.nil_append,
        List.append_assoc]
    · rw [hclosed] at hafter
      refine hafter.cast ?_
      simp only [Tree.render, List.length_cons, List.length_append, List.length_nil]
      omega
  | string pieces =>
    exact fun self hstate _ hdepth => reads_string hstate hdepth pieces
  | number number => exact fun self hstate _ hdepth => reads_number hstate hdepth number
  | literal literal =>
    exact fun self hstate _ hdepth => reads_literal hstate hdepth literal

/-! ## Documents -/

theorem reads_document (document : Document) (hdepth : document.root.depth ≤ maxDepth) :
    Reads Anything {} document.render (documentCalls document)
      (fun after => At after .done [] document.render.length) := by
  obtain ⟨lead, inner, members, trail⟩ := document
  simp only [Document.root, Tree.depth] at hdepth
  have hopen : ∀ self : Reader, At self .document [] lead.bytes.length →
      Reads Anything self [ascii '{'] [.begins .object 0 lead.bytes.length false]
        (fun after => At after .keyOrClose [false] (lead.bytes.length + 1)) := by
    rintro self ⟨hstate, harrays, hoffset⟩
    have hstep : self.step (ascii '{') =
        .tell [.begins .object 0 self.offset false] (.ok (self.openContainer false)) := by
      have hspace : isSpace (ascii '{') = false := by decide
      simp [step, hstate, unlessSpace, hspace]
    rw [← hoffset]
    exact .of_step (by simp [hstate]) hstep ⟨rfl, by simp [advance, openContainer, harrays], rfl⟩
  have hlead : Reads Anything {} lead.bytes []
      (fun after => At after .document [] lead.bytes.length) :=
    (reads_space rfl lead).mono fun after hafter => hafter.cast (Nat.zero_add _)
  have hobject := (hlead.trans hopen).trans fun middle hmiddle =>
    reads_object hmiddle inner members (fun member _ => readsTree member.value)
      (by simpa using hdepth)
  have htrail : ∀ (self : Reader) (offset : Nat), At self (closedState []) [] offset →
      Reads Anything self trail.bytes []
        (fun after => At after .done [] (offset + trail.bytes.length)) := by
    rintro self _ ⟨hstate, harrays, rfl⟩
    have hspace := reads_space (by rw [hstate]; rfl) trail
    rw [hstate, harrays] at hspace
    exact hspace
  refine (hobject.trans fun middle => htrail middle _).cast ?_ ?_ fun after hafter =>
    hafter.cast ?_
  · simp only [Document.render, Document.root, Tree.render, closer, Bool.false_eq_true, if_false,
      List.append_assoc, List.cons_append, List.nil_append]
  · simp only [documentCalls, Document.root, valueCalls, List.append_nil, List.nil_append,
      List.cons_append, List.length_nil, Nat.zero_add]
  · simp only [Document.render, Document.root, Tree.render, List.length_append, List.length_cons,
      List.length_nil]
    omega

/-- **Completeness.** A document that is not too deep is read, and the handler
hears its calls. -/
theorem read_render (document : Document) (hdepth : document.root.depth ≤ maxDepth) :
    ∃ after, read document.render = .tell (documentCalls document) (.ok after) := by
  obtain ⟨after, hafter, hreads⟩ := reads_document document hdepth
  refine ⟨after, ?_⟩
  have hrun := hreads [] trivial
  rw [List.append_nil, readBytes_nil] at hrun
  rw [read, hrun, Told.tell_andThen, Told.ok_andThen, finish, if_pos hafter.state]

end Reader

end Rui.Json
