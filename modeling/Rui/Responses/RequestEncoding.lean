import Rui.Library.Checks
import Rui.Responses.EncoderItems

/-!
# The encoder writes the request's tree

Each history element is written as its tree is rendered, from its carry alone;
so a request is one JSON object, and a resumed encoder writes what an
uninterrupted one writes.
-/

namespace Rui.Responses

open Library Library.Json Rui.Json

/-! ## What items write from a carry -/

/-- The carry that is left and the bytes. -/
abbrev Encoding : Type := Except Failure (Carry × List UInt8)

/-- What an encoder writes and carries on. -/
def Encoder.summary (self : Encoder) (items : List TestItem) : Encoding :=
  (self.encode items).map fun last => (last.1.carry, last.2)

/-- Items whose encoding depends on the carry alone. -/
def Encodes (items : List TestItem) (encoding : Carry → Encoding) : Prop :=
  ∀ self : Encoder, self.summary items = encoding self.carry

/-- One encoding, then another. -/
def andThen (first second : Carry → Encoding) (carry : Carry) : Encoding :=
  (first carry).bind fun one => (second one.1).map fun two => (two.1, one.2 ++ two.2)

theorem Encodes.append {items more : List TestItem} {first second : Carry → Encoding}
    (hfirst : Encodes items first) (hsecond : Encodes more second) :
    Encodes (items ++ more) (andThen first second) := by
  intro self
  rw [Encoder.summary, encode_append, andThen, ← hfirst self, Encoder.summary]
  cases self.encode items with
  | error e => rfl
  | ok one =>
    have htwo := hsecond one.1
    rw [Encoder.summary] at htwo
    show ((one.1.encode more).map _).map _ = (second one.1.carry).map _
    rw [← htwo]
    cases one.1.encode more <;> rfl

theorem encode_append_ok {self later : Encoder} {items : List TestItem} {bytes : List UInt8}
    (h : self.encode items = .ok (later, bytes)) (more : List TestItem) :
    self.encode (items ++ more) = (later.encode more).map fun r => (r.1, bytes ++ r.2) := by
  rw [encode_append, h]
  rfl

/-! ## One output item -/

variable (self : Encoder)

theorem write_outputOpen (output : Output) :
    self.write ⟨.outputOpen output.kind output.phase output.omitReasoningText,
        (output.call.map FunctionCall.handles).getD []⟩ =
      .ok ({ self with
          carry := self.carry.written
          omitReasoningText := output.omitReasoningText
          array := .none },
        self.carry.comma ++ (text "\x7b" ++ commas (output.own.map Member.render))) := by
  obtain ⟨kind, phase, omitReasoningText, call, called, parts, bag⟩ := output
  apply write_of
  · rw [Encoder.encodeItem]
    exact rfl
  · rw [writeAll_comma]
    cases kind with
    | message =>
      cases phase <;>
        simp (disch := decide) [Except.map, Encoder.itemOpen, Output.own, Output.phaseMember]
    | functionCall =>
      obtain ⟨call, rfl⟩ := Option.isSome_iff_exists.mp (called rfl)
      simp (disch := decide) [Except.map, Encoder.itemOpen, Output.own, FunctionCall.handles]
    | _ => simp (disch := decide) [Except.map, Encoder.itemOpen, Output.own]

theorem write_outputClose (bag : Option Bag) :
    self.write ⟨.outputClose, [bag.map Bag.bytes]⟩ =
      .ok (self, closing self.array ++
        (((bagMembers bag).map Member.render).flatMap (ascii ',' :: ·) ++ text "\x7d")) := by
  apply write_of
  · rw [Encoder.encodeItem]
    exact rfl
  · rw [header_has _ _ (by decide), handleAt_zero, Option.isSome_map, closing]
    cases bag with
    | none => by_cases hopen : self.array ≠ .none <;> simp [hopen, Except.map, bagMembers]
    | some bag =>
      rw [bagMembers, flatMap_comma (List.map_eq_nil_iff.not.mpr bag.nonempty)]
      by_cases hopen : self.array ≠ .none <;>
        simp [hopen, Except.map, Bag.bytes, renderMembers_eq]

theorem runsText_none {parts : List Part} : runsText .none (runs parts) =
    ((runs parts).map fun run => (runMember run).render).flatMap (ascii ',' :: ·) := by
  cases parts with
  | nil => rfl
  | cons part parts =>
    have hfirst : ∃ run rest, runs (part :: parts) = (part.array, run) :: rest := by
      rw [runs]
      split
      · exact ⟨_, _, rfl⟩
      · split
        · rename_i hsame
          exact ⟨_, _, by rw [hsame]⟩
        · exact ⟨_, _, rfl⟩
    obtain ⟨run, rest, hruns⟩ := hfirst
    rw [hruns, runsText, if_neg part.isArray]
    rfl

theorem own_ne_nil (output : Output) : output.own.map Member.render ≠ [] := by
  rw [Ne, List.map_eq_nil_iff, Output.own]
  split <;> exact List.cons_ne_nil _ _

theorem output_render (output : Output) : output.tree.render =
    text "\x7b" ++ commas (output.own.map Member.render) ++ runsText .none (runs output.replayed) ++
      (((bagMembers output.bag).map Member.render).flatMap (ascii ',' :: ·) ++ text "\x7d") := by
  rw [Output.tree, object_text, List.map_append, List.map_append, List.append_assoc,
    commas_append (own_ne_nil output), List.flatMap_append, runsText_none, List.map_map]
  simp only [List.append_assoc]
  rfl

theorem replayed_shown (output : Output) (self : Encoder)
    (h : self.omitReasoningText = output.omitReasoningText) :
    ∀ part ∈ output.replayed, ¬ (self.omitReasoningText = true ∧ part.array = .content) := by
  intro part hpart ⟨homit, hcontent⟩
  rw [Output.replayed, if_pos (h ▸ homit)] at hpart
  exact absurd hcontent (by simpa using (List.mem_filter.mp hpart).2)

theorem encode_replayed (output : Output) (self : Encoder)
    (h : self.omitReasoningText = output.omitReasoningText) :
    self.encode (output.parts.map Part.item) = self.encode (output.replayed.map Part.item) := by
  rw [Output.replayed]
  by_cases homit : output.omitReasoningText = true
  · rw [if_pos homit]
    exact encode_omitted self (h.trans homit) output.parts
  · rw [if_neg homit]

/-! ## One history element -/

/-- What an entry is written as. -/
def written (carry : Carry) (entry : Carry × Option Tree) : Carry × List UInt8 :=
  match entry.2 with
  | none => (entry.1, [])
  | some tree => (entry.1.written, carry.comma ++ tree.render)

def HistoryElement.encoding (element : HistoryElement) (carry : Carry) : Encoding :=
  (element.entry carry).map (written carry)

theorem output_encodes (output : Output) :
    Encodes output.items (HistoryElement.output output).encoding := by
  intro self
  rw [Encoder.summary, Output.items, encode_cons (write_outputOpen self output), encode_append,
    encode_replayed output _ rfl, HistoryElement.encoding, HistoryElement.entry]
  generalize hopened : ({ self with
    carry := self.carry.written
    omitReasoningText := output.omitReasoningText
    array := .none } : Encoder) = opened
  have hshown := replayed_shown output opened (by rw [← hopened])
  by_cases hdeclined : output.declined = true
  · rw [if_pos hdeclined, encode_parts_declined opened _ hshown hdeclined]
    rfl
  · rw [if_neg hdeclined]
    obtain ⟨last, bytes, hencode, hbytes⟩ :=
      encode_parts opened _ hshown (eq_false_of_ne_true hdeclined)
    have hclose := write_outputClose { opened with array := last } output.bag
    have hnone : opened.array = .none := by rw [← hopened]
    have hcarry : opened.carry = self.carry.written := by rw [← hopened]
    rw [hnone] at hbytes
    rw [hencode]
    show Except.map _ (Except.map _ (Except.map _ (Encoder.encode _ _))) = _
    rw [encode_cons hclose, encode_nil]
    show Except.ok (opened.carry, _) = Except.ok (self.carry.written, self.carry.comma ++ output.tree.render)
    rw [hcarry, output_render, ← hbytes]
    simp only [List.append_assoc, List.append_nil]

theorem write_declareOpen (h : self.carry.version = .two) :
    self.write ⟨.declareOpen, []⟩ =
      .ok ({ self with carry := self.carry.written, toolComma := false }, self.carry.comma ++
        text "\x7b\"type\":\"additional_tools\",\"role\":\"developer\",\"tools\":[") := by
  apply write_of
  · rw [Encoder.encodeItem, TestItem.header]
    dsimp only [Encoder.separateInput]
    rw [if_neg (not_not_intro h)]
    exact rfl
  · rw [writeAll_comma]
    simp [Except.map]

theorem write_declaredTool (h : self.carry.version = .two) (tool : FunctionTool) :
    self.write ⟨.declaredTool, tool.handles⟩ =
      .ok ({ self with toolComma := true }, self.comma ++ tool.tree.render) := by
  apply write_functionTool
  intro header hitem
  rw [Encoder.encodeItem, hitem]
  exact if_neg (not_not_intro h)

theorem write_declareClose (h : self.carry.version = .two) :
    self.write ⟨.declareClose, []⟩ = .ok ({ self with toolComma := false }, text "]\x7d") := by
  apply write_of
  · rw [Encoder.encodeItem, TestItem.header]
    dsimp only
    exact if_neg (not_not_intro h)
  · rfl

theorem declaration_encodes (tools : List FunctionTool) :
    Encodes (HistoryElement.declaration tools).items (HistoryElement.declaration tools).encoding := by
  intro self
  rw [Encoder.summary, HistoryElement.items, HistoryElement.encoding, HistoryElement.entry]
  by_cases hversion : self.carry.version = .two
  · obtain ⟨later, hcarry, htools⟩ : ∃ later : Encoder, later.carry = self.carry.written ∧
        Encoder.encode { self with carry := self.carry.written, toolComma := false }
          (tools.map fun tool => ⟨.declaredTool, tool.handles⟩) =
            .ok (later, commas (tools.map fun tool => tool.tree.render)) :=
      ⟨_, rfl, encode_tools (fun tool => ⟨.declaredTool, tool.handles⟩) FunctionTool.tree tools
        { self with carry := self.carry.written, toolComma := false }
        fun tool _ e he => write_declaredTool e (by rw [he]; exact hversion) tool⟩
    have hclose := write_declareClose later (by rw [hcarry]; exact hversion)
    rw [if_pos hversion, encode_cons (write_declareOpen self hversion), encode_append_ok htools,
      encode_cons hclose, encode_nil]
    simp (disch := decide) [Except.map, written, HistoryElement.tree, hcarry, Function.comp_def]
  · have hdeclined : self.write ⟨.declareOpen, []⟩ = .error .declined := by
      rw [Encoder.write, Encoder.encodeItem, TestItem.header]
      dsimp only
      rw [if_pos hversion]
      rfl
    rw [if_neg hversion, encode_declined hdeclined]
    rfl

theorem element_encodes (element : HistoryElement) : Encodes element.items element.encoding := by
  cases element with
  | message author chars sender =>
    intro self
    rw [Encoder.summary, HistoryElement.items, encode_cons (write_message self author chars sender),
      encode_nil, HistoryElement.encoding, HistoryElement.entry]
    simp [Except.map, written, HistoryElement.tree]
  | output saved => exact output_encodes saved
  | toolResult callId result =>
    intro self
    rw [Encoder.summary, HistoryElement.items, encode_cons (write_toolResult self callId result),
      encode_nil, HistoryElement.encoding, HistoryElement.entry]
    simp [Except.map, written]
  | operation effort =>
    intro self
    rw [Encoder.summary, HistoryElement.items, HistoryElement.encoding, HistoryElement.entry]
    by_cases hchanged : self.carry.version = .two ∧ effort ≠ self.carry.effort
    · rw [if_pos hchanged]
      cases effort with
      | none =>
        rw [encode_declined (write_none self hchanged), if_pos rfl]
        rfl
      | some effort =>
        rw [encode_cons (write_changed self effort hchanged), encode_nil,
          if_neg fun h => (by cases h)]
        simp [Except.map, written]
    · rw [if_neg hchanged, encode_cons (write_unchanged self effort hchanged), encode_nil]
      rfl
  | declaration tools => exact declaration_encodes tools

/-! ## A history -/

/-- Input items behind those already written. -/
def Carry.join (self : Carry) (trees : List Tree) : List UInt8 :=
  joinedBy self.inputComma (trees.map Tree.render)

/-- What elements are written as. -/
def elementsEncoding (elements : List HistoryElement) (carry : Carry) : Encoding :=
  (entries carry elements).map fun last => (last.1, carry.join last.2)

theorem written_join (carry : Carry) (entry : Carry × Option Tree)
    (h : entry.1.inputComma = carry.inputComma) (trees : List Tree) :
    (written carry entry).1 =
        (if entry.2.isSome then { entry.1 with inputComma := true } else entry.1) ∧
      carry.join (entry.2.toList ++ trees) =
        (written carry entry).2 ++ (written carry entry).1.join trees := by
  obtain ⟨later, tree⟩ := entry
  cases tree with
  | none =>
    refine ⟨rfl, ?_⟩
    show joinedBy _ _ = [] ++ joinedBy later.inputComma _
    rw [show later.inputComma = carry.inputComma from h]
    rfl
  | some tree =>
    refine ⟨rfl, ?_⟩
    show joinedBy _ (tree.render :: _) = _ ++ joinedBy true _
    rw [joinedBy_cons]
    rfl

theorem entry_comma {element : HistoryElement} {carry : Carry} {entry : Carry × Option Tree}
    (h : element.entry carry = .ok entry) :
    entry.1.inputComma = carry.inputComma ∧ entry.1.version = carry.version := by
  cases element with
  | message => cases h; exact ⟨rfl, rfl⟩
  | toolResult => cases h; exact ⟨rfl, rfl⟩
  | output saved =>
    rw [HistoryElement.entry] at h
    split at h
    · cases h
    · cases h; exact ⟨rfl, rfl⟩
  | operation effort =>
    rw [HistoryElement.entry] at h
    split at h
    · split at h
      · cases h
      · cases h; exact ⟨rfl, rfl⟩
    · cases h; exact ⟨rfl, rfl⟩
  | declaration tools =>
    rw [HistoryElement.entry] at h
    split at h
    · cases h; exact ⟨rfl, rfl⟩
    · cases h

theorem elementsEncoding_cons (element : HistoryElement) (elements : List HistoryElement)
    (carry : Carry) : elementsEncoding (element :: elements) carry =
      andThen element.encoding (elementsEncoding elements) carry := by
  rw [andThen, HistoryElement.encoding, elementsEncoding, entries]
  cases hentry : element.entry carry with
  | error e => rfl
  | ok entry =>
    obtain ⟨hcarry, -⟩ := written_join carry entry (entry_comma hentry).1 []
    show Except.map _ (Except.bind (entries (if entry.2.isSome then _ else _) elements) _) =
      Except.map _ (Except.map _ (entries (written carry entry).1 elements))
    rw [hcarry]
    cases hrest : entries _ elements with
    | error e => rfl
    | ok rest =>
      show Except.ok (_, _) = Except.ok (_, _ ++ Carry.join _ rest.2)
      rw [(written_join carry entry (entry_comma hentry).1 rest.2).2, hcarry]

theorem elements_encode (elements : List HistoryElement) :
    Encodes (elements.flatMap HistoryElement.items) (elementsEncoding elements) := by
  induction elements with
  | nil =>
    intro self
    show Except.ok (self.carry, []) = Except.ok (self.carry, joinedBy self.carry.inputComma [])
    cases self.carry.inputComma <;> rfl
  | cons element elements ih =>
    intro self
    rw [List.flatMap_cons, (element_encodes element).append ih self, elementsEncoding_cons]

/-! ## A request -/

theorem envelope_eq : envelope = "\",\"parallel_tool_calls\":true,\"store\":false,\"stream\":true," ++
    "\"include\":[\"reasoning.encrypted_content\"]" := rfl

theorem opening_render (request : Request) : commas (request.opening.map Member.render) =
    text "\"model\":\"" ++ (encodeJsonStringChars (utf8 request.model) ++ text envelope) := by
  rw [envelope_eq]
  simp (disch := decide) only [Request.opening, List.map_cons, List.map_nil, commas_two,
    commas_one, key_render, true_render, false_render, str_render, array_text, word_render,
    List.append_assoc, text_text, text_append, String.reduceAppend]

theorem effort_render (effort : Effort) : (effortMember effort).render =
    text ("\"reasoning\":\x7b\"effort\":\"" ++ effort.tagName ++ "\"\x7d") := by
  cases effort <;> simp (disch := decide) [effortMember, Effort.tagName]

theorem write_settings (request : Request) :
    self.write ⟨.settings request.settings, [some (utf8 request.model)]⟩ =
      .ok (self, text "\x7b" ++ commas ((request.opening ++
        ((request.top self.carry.version).map effortMember).toList).map Member.render)) := by
  have hpieces : self.encodeItem (TestItem.header ⟨.settings request.settings,
      [some (utf8 request.model)]⟩) = .ok (self,
      [literal "\x7b\"model\":\"", escaped 0, literal envelope] ++
        (request.top self.carry.version).elim [] fun effort =>
          [literal (",\"reasoning\":\x7b\"effort\":\"" ++ effort.tagName ++ "\"\x7d")]) := by
    unfold Encoder.encodeItem TestItem.header Request.top
    obtain ⟨effort, startingEffort⟩ := request.settings
    cases self.carry.version with
    | one => cases effort <;> rfl
    | two => cases startingEffort <;> rfl
  apply write_of hpieces
  have hopening : request.opening.map Member.render ≠ [] := List.cons_ne_nil _ _
  rw [List.map_append, commas_append hopening, opening_render]
  cases request.top self.carry.version with
  | none => simp [Except.map]
  | some effort =>
    have hcomma : ascii ',' :: (effortMember effort).render =
        text (",\"reasoning\":\x7b\"effort\":\"" ++ effort.tagName ++ "\"\x7d") := by
      show text "," ++ (effortMember effort).render = _
      rw [effort_render]
      cases effort <;> simp [Effort.tagName]
    rw [Option.map_some, Option.toList_some, List.map_singleton, List.flatMap_singleton, hcomma]
    simp [Except.map]

theorem write_instructions (chars : List Char) :
    self.write ⟨.instructions, [some (utf8 chars)]⟩ =
      .ok (self, text "," ++ ((key "instructions" (str chars)).render ++ text ",\"input\":[")) := by
  apply write_of
  · rw [Encoder.encodeItem]
    exact rfl
  · simp (disch := decide) [Except.map]

theorem encode_head (request : Request) :
    self.encode request.headItems = .ok (self, text "\x7b" ++
      (commas ((request.lead self.carry.version).map Member.render) ++ text ",\"input\":[")) := by
  have hlead : (request.lead self.carry.version).map Member.render =
      (request.opening ++ ((request.top self.carry.version).map effortMember).toList).map
        Member.render ++ [(key "instructions" (str request.instructions)).render] := by
    rw [Request.lead, List.map_append]
    rfl
  have hfirst : (request.opening ++ ((request.top self.carry.version).map effortMember).toList).map
      Member.render ≠ [] := List.cons_ne_nil _ _
  rw [Request.headItems, encode_cons (write_settings self request),
    encode_cons (write_instructions self request.instructions), encode_nil, hlead,
    commas_append hfirst, List.flatMap_singleton]
  have hcomma : ∀ rest, ascii ',' :: rest = text "," ++ rest := fun _ => rfl
  simp only [Except.map, hcomma, List.append_assoc, List.append_nil]

theorem offered_write (tool : OfferedTool) :
    self.write tool.item =
      if (self.carry.version == .two && tool.isFunction) = true then .error .declined
      else .ok ({ self with toolComma := true }, self.comma ++ tool.tree.render) := by
  cases tool with
  | webSearch =>
    rw [OfferedTool.isFunction, Bool.and_false, if_neg Bool.false_ne_true]
    exact write_webSearch self
  | function tool =>
    rw [OfferedTool.isFunction, Bool.and_true]
    by_cases hversion : self.carry.version = .two
    · rw [if_pos (beq_iff_eq.mpr hversion), OfferedTool.item, Encoder.write, Encoder.encodeItem,
        TestItem.header]
      dsimp only
      rw [hversion]
      rfl
    · rw [if_neg (fun h => hversion (beq_iff_eq.mp h))]
      apply write_functionTool
      intro header hitem
      rw [Encoder.encodeItem, hitem]
      refine if_neg (not_not_intro ?_)
      cases hone : self.carry.version with
      | one => rfl
      | two => exact absurd hone hversion

theorem write_textFormat (schema : Option JsonText) :
    self.write ⟨.textFormat, [schema.map JsonText.bytes]⟩ =
      .ok (self, text "]," ++ (Request.textMember schema).render) := by
  apply write_of
  · rw [Encoder.encodeItem]
    exact rfl
  · rw [header_has _ _ (by decide), handleAt_zero, Option.isSome_map]
    cases schema with
    | none => simp (disch := decide) [Except.map, Request.textMember]
    | some schema => simp (disch := decide) [Except.map, Request.textMember]

/-- What stands behind the input is written as. -/
def Request.tailEncoding (request : Request) (carry : Carry) : Encoding :=
  if request.toolsDeclined carry.version then .error .declined
  else .ok (carry, text "]," ++ (commas (request.trail.map Member.render) ++ text "\x7d"))

theorem tail_encodes (request : Request) :
    Encodes (⟨.toolsStart, []⟩ :: (request.tools.map OfferedTool.item ++
        [⟨.textFormat, [request.schema.map JsonText.bytes]⟩, ⟨.requestEnd, []⟩]))
      request.tailEncoding := by
  intro self
  have hstart : self.write ⟨.toolsStart, []⟩ =
      .ok ({ self with toolComma := false }, text "],\"tools\":[") := rfl
  rw [Encoder.summary, encode_cons hstart, Request.tailEncoding]
  generalize hopened : ({ self with toolComma := false } : Encoder) = opened
  have hcarry : opened.carry = self.carry := by rw [← hopened]
  have hcomma : opened.toolComma = false := by rw [← hopened]
  have hwrites : ∀ tool ∈ request.tools, ∀ e : Encoder, e.carry = opened.carry →
      e.write tool.item = if (self.carry.version == .two && tool.isFunction) = true
        then .error .declined
        else .ok ({ e with toolComma := true }, e.comma ++ tool.tree.render) := by
    intro tool _ e he
    rw [offered_write, he, hcarry]
  by_cases hdeclined : request.toolsDeclined self.carry.version = true
  · have hbad : request.tools.any (fun tool => self.carry.version == .two && tool.isFunction) =
        true := by
      obtain ⟨hversion, hany⟩ := Bool.and_eq_true_iff.mp hdeclined
      rw [hversion]
      exact hany
    rw [if_pos hdeclined, encode_append,
      encode_tools_declined _ _ _ request.tools opened hbad hwrites]
    rfl
  · rw [if_neg hdeclined]
    have hgood : ∀ tool ∈ request.tools, (self.carry.version == .two && tool.isFunction) = false := by
      intro tool htool
      rw [← Bool.not_eq_true]
      intro hbad
      obtain ⟨hversion, hfunction⟩ := Bool.and_eq_true_iff.mp hbad
      exact hdeclined (Bool.and_eq_true_iff.mpr ⟨hversion, List.any_eq_true.mpr ⟨tool, htool, hfunction⟩⟩)
    obtain ⟨later, hlater, htools⟩ : ∃ later : Encoder, later.carry = self.carry ∧
        opened.encode (request.tools.map OfferedTool.item) =
          .ok (later, commas (request.tools.map fun tool => tool.tree.render)) := by
      refine ⟨{ opened with toolComma := opened.toolComma || !request.tools.isEmpty }, hcarry,
        (encode_tools _ OfferedTool.tree request.tools opened ?_).trans ?_⟩
      · intro tool htool e he
        rw [hwrites tool htool e he, hgood tool htool, if_neg Bool.false_ne_true]
      · rw [hcomma]
        rfl
    have hend : later.write ⟨.requestEnd, []⟩ = .ok (later, text "\x7d") := rfl
    rw [encode_append_ok htools, encode_cons (write_textFormat later request.schema),
      encode_cons hend, encode_nil]
    simp (disch := decide) [Except.map, hlater, Request.trail, Function.comp_def]

/-! ## The request -/

theorem historyEnd_encodes : Encodes [⟨.historyEnd, []⟩] fun carry => .ok (carry, []) :=
  fun _ => rfl

/-- What asks for a compaction is written as. -/
def Request.triggerEncoding (request : Request) (carry : Carry) : Encoding :=
  .ok (if request.compaction then carry.written else carry, carry.join request.trigger)

theorem trigger_encodes (request : Request) :
    Encodes (if request.compaction then [⟨.compactionTrigger, []⟩] else [])
      request.triggerEncoding := by
  intro self
  rw [Request.triggerEncoding, Request.trigger]
  by_cases hcompaction : request.compaction = true
  · rw [if_pos hcompaction, if_pos hcompaction, if_pos hcompaction, Encoder.summary,
      encode_cons (write_compactionTrigger self), encode_nil, Carry.join, List.map_singleton,
      joinedBy_cons]
    show Except.ok (_, _ ++ []) = Except.ok (_, _ ++ [])
    rfl
  · rw [if_neg hcompaction, if_neg hcompaction, if_neg hcompaction, Carry.join, List.map_nil]
    cases self.carry.inputComma <;> rfl

/-- What a request is written as from a place in its history on. -/
def Request.encodingFrom (request : Request) (history : List HistoryElement) :
    Carry → Encoding :=
  andThen (elementsEncoding history) <| andThen (fun carry => .ok (carry, [])) <|
    andThen (elementsEncoding request.current) <| andThen request.triggerEncoding
      request.tailEncoding

theorem itemsFrom_encodes (request : Request) (history : List HistoryElement) :
    Encodes (request.itemsFrom history) (request.encodingFrom history) :=
  (elements_encode history).append <| historyEnd_encodes.append <|
    (elements_encode request.current).append <| (trigger_encodes request).append <|
      tail_encodes request

theorem entries_carry {carry : Carry} {elements : List HistoryElement} {last : Carry × List Tree}
    (h : entries carry elements = .ok last) : last.1.version = carry.version ∧
      last.1.inputComma = (carry.inputComma || !last.2.isEmpty) := by
  induction elements generalizing carry last with
  | nil =>
    cases h
    exact ⟨rfl, (Bool.or_false _).symm⟩
  | cons element elements ih =>
    rw [entries] at h
    obtain ⟨entry, hentry, h⟩ := bind_eq_ok.mp h
    obtain ⟨rest, hrest, h⟩ := bind_eq_ok.mp h
    cases h
    obtain ⟨hcomma, hversion⟩ := entry_comma hentry
    obtain ⟨hrestVersion, hrestComma⟩ := ih hrest
    cases htree : entry.2 with
    | none =>
      rw [htree] at hrestVersion hrestComma
      refine ⟨hrestVersion.trans hversion, ?_⟩
      rw [hrestComma]
      show (entry.1.inputComma || _) = _
      rw [hcomma]
      rfl
    | some tree =>
      rw [htree] at hrestVersion hrestComma
      refine ⟨hrestVersion.trans hversion, ?_⟩
      rw [hrestComma]
      show (true || _) = (_ || true)
      rw [Bool.true_or, Bool.or_true]

/-- The input items of a request from a carry on, unless it is declined. -/
def Request.inputFrom (self : Request) (carry : Carry) : Except Failure (List Tree) := do
  let (later, past) ← entries carry self.history
  let (_, now) ← entries later self.current
  if self.toolsDeclined carry.version then .error .declined else return past ++ now ++ self.trigger

/-- An encoder before a request's first item. -/
def Request.encoder (self : Request) (version : Version) : Encoder :=
  { carry := initial version self.settings.startingEffort }

def Request.input (self : Request) (version : Version) : Except Failure (List Tree) :=
  self.inputFrom (self.encoder version).carry

theorem encodingFrom_input (request : Request) {carry : Carry} (h : carry.inputComma = false) :
    (request.encodingFrom request.history carry).map Prod.snd =
      (request.inputFrom carry).map fun input => commas (input.map Tree.render) ++
        (text "]," ++ (commas (request.trail.map Member.render) ++ text "\x7d")) := by
  rw [Request.encodingFrom, Request.inputFrom, andThen, elementsEncoding]
  cases hpast : entries carry request.history with
  | error e => rfl
  | ok past =>
    obtain ⟨hversion, hcomma⟩ := entries_carry hpast
    rw [ok_bind]
    dsimp only [Except.map, Except.bind, andThen, elementsEncoding]
    cases hnow : entries past.1 request.current with
    | error e => rfl
    | ok now =>
      obtain ⟨hversion', hcomma'⟩ := entries_carry hnow
      have htriggered : (if request.compaction then now.1.written else now.1).version =
          carry.version := by
        rw [← hversion, ← hversion']
        split <;> rfl
      rw [ok_bind]
      dsimp only [Except.map, Except.bind, Request.triggerEncoding]
      rw [Request.tailEncoding, htriggered]
      by_cases hdeclined : request.toolsDeclined carry.version = true
      · rw [if_pos hdeclined, if_pos hdeclined]
      · rw [if_neg hdeclined, if_neg hdeclined]
        show Except.ok _ = Except.ok _
        have hjoin : commas ((past.2 ++ now.2 ++ request.trigger).map Tree.render) =
            carry.join past.2 ++ (past.1.join now.2 ++ now.1.join request.trigger) := by
          rw [Carry.join, Carry.join, Carry.join, hcomma', hcomma, h, Bool.false_or,
            List.append_assoc, List.map_append, List.map_append]
          show joinedBy false _ = _
          rw [joinedBy_append, joinedBy_append, Bool.false_or, List.isEmpty_map, List.isEmpty_map]
        show Except.ok _ = Except.ok (commas ((past.2 ++ now.2 ++ request.trigger).map _) ++ _)
        rw [hjoin]
        simp only [List.append_assoc, List.nil_append]

theorem tree_render (request : Request) (version : Version) (input : List Tree) :
    (request.tree version input).render = text "\x7b" ++
      (commas ((request.lead version).map Member.render) ++ (text ",\"input\":[" ++
        (commas (input.map Tree.render) ++ (text "]," ++
          (commas (request.trail.map Member.render) ++ text "\x7d"))))) := by
  have hlead : (request.lead version).map Member.render ≠ [] := List.cons_ne_nil _ _
  have hinput : (key "input" (array input)).render =
      text "\"input\":[" ++ (commas (input.map Tree.render) ++ text "]") := by
    simp (disch := decide)
  have htrail : request.trail.map Member.render ≠ [] := List.cons_ne_nil _ _
  have hcomma : ∀ rest, ascii ',' :: rest = text "," ++ rest := fun _ => rfl
  rw [Request.tree, object_text, List.map_append, List.map_append, List.append_assoc,
    commas_append hlead, List.flatMap_append, flatMap_comma htrail, List.map_singleton,
    List.flatMap_singleton, hinput, hcomma]
  simp only [List.append_assoc, text_text, String.reduceAppend]

/-- **A request is written as its tree is rendered**, or declined. -/
theorem encode_request (request : Request) (version : Version) :
    ((request.encoder version).encode request.items).map Prod.snd =
      (request.input version).map fun input => (request.tree version input).render := by
  have hversion : (request.encoder version).carry.version = version := by
    cases version <;> rfl
  have hcomma : (request.encoder version).carry.inputComma = false := by
    cases version <;> rfl
  have hfrom := itemsFrom_encodes request request.history (request.encoder version)
  have hinput := encodingFrom_input request hcomma
  rw [← hfrom, Encoder.summary] at hinput
  rw [Request.items, encode_append_ok (encode_head _ request), hversion, Request.input]
  cases hitems : (request.encoder version).encode (request.itemsFrom request.history) with
  | error e =>
    rw [hitems] at hinput
    cases hresult : request.inputFrom (request.encoder version).carry with
    | error e' =>
      rw [hresult] at hinput
      exact congrArg _ (Except.error.inj hinput)
    | ok input =>
      rw [hresult] at hinput
      cases hinput
  | ok last =>
    rw [hitems] at hinput
    cases hresult : request.inputFrom (request.encoder version).carry with
    | error e' =>
      rw [hresult] at hinput
      cases hinput
    | ok input =>
      rw [hresult] at hinput
      have hbytes : last.2 = _ := Except.ok.inj hinput
      show Except.ok (_ ++ last.2) = Except.ok (request.tree version input).render
      rw [hbytes, tree_render]
      simp only [List.append_assoc]

end Rui.Responses
