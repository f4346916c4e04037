import Rui.Responses.Requests

/-!
# The encoder writes the tree

Each history element is written as its tree is rendered, from its carry alone;
so a request is one JSON object, and a resumed encoder writes what an
uninterrupted one writes.
-/

namespace Rui.Responses

open Library Library.Json Rui.Json

/-! ## Trees as text -/

@[simp] theorem text_append (s t : String) : text s ++ text t = text (s ++ t) := by
  simp only [text, String.toList_append, List.map_append]

@[simp] theorem text_text (s t : String) (rest : List UInt8) :
    text s ++ (text t ++ rest) = text (s ++ t) ++ rest := by
  rw [← List.append_assoc, text_append]

@[simp] theorem str_render (chars : List Char) :
    (str chars).render = text "\"" ++ (encodeJsonStringChars (utf8 chars) ++ text "\"") := by
  rw [str, Tree.render, quoted, raw_spelled]
  rfl

variable {s : String} {self : Encoder} {item : TestItem}

@[simp] theorem word_render (h : isPlainText s = true) :
    (word s).render = text "\"" ++ (text s ++ text "\"") := by
  rw [word, str, Tree.render, quoted, raw_plain h]
  rfl

@[simp] theorem key_render (h : isPlainText s = true) (value : Tree) :
    (key s value).render = text "\"" ++ (text s ++ (text "\":" ++ value.render)) := by
  rw [key, pair_render, quoted, raw_plain h, List.cons_append, List.append_assoc]
  rfl

@[simp] theorem storedMember_render (h : isPlainText s = true) (value : JsonText) :
    (storedMember s value).render = text "\"" ++ (text s ++ (text "\":" ++ value.bytes)) := by
  rw [storedMember, Member.render, quoted, raw_plain h, JsonText.bytes]
  simp only [Space.none, List.nil_append, List.append_assoc, List.cons_append]
  rfl

@[simp] theorem object_text (members : List (Member Tree)) :
    (object members).render =
      text "\x7b" ++ (commas (members.map Member.render) ++ text "\x7d") := object_render members

@[simp] theorem array_text (elements : List Tree) :
    (array elements).render = text "[" ++ (commas (elements.map Tree.render) ++ text "]") :=
  array_render elements

@[simp] theorem commas_one (first : List UInt8) : commas [first] = first := List.append_nil first

@[simp] theorem commas_two (first second : List UInt8) (rest : List (List UInt8)) :
    commas (first :: second :: rest) = first ++ (text "," ++ commas (second :: rest)) := by
  rw [commas, List.flatMap_cons]
  rfl

@[simp] theorem true_render : (literalTree true).render = text "true" := rfl

@[simp] theorem false_render : (literalTree false).render = text "false" := rfl

/-! ## Handles and pieces -/

@[simp] theorem handleAt_zero (handle : Option (List UInt8))
    (handles : List (Option (List UInt8))) : handleAt (handle :: handles) 0 = handle := rfl

@[simp] theorem handleAt_succ (handle : Option (List UInt8))
    (handles : List (Option (List UInt8))) (index : Nat) :
    handleAt (handle :: handles) (index + 1) = handleAt handles index := rfl

@[simp] theorem handleAt_nil (index : Nat) : handleAt [] index = none := rfl

theorem testBit_handleBits (index i : Nat) (handles : List (Option (List UInt8))) :
    (handleBits index handles).testBit i =
      (decide (index ≤ i) && (handleAt handles (i - index)).isSome) := by
  induction handles generalizing index with
  | nil =>
    rw [handleBits, Nat.zero_testBit, handleAt_nil]
    exact (Bool.and_false _).symm
  | cons handle handles ih =>
    have hrest : i ≠ index → (decide (index + 1 ≤ i) && (handleAt handles (i - (index + 1))).isSome) =
        (decide (index ≤ i) && (handleAt (handle :: handles) (i - index)).isSome) := by
      intro hne
      by_cases hle : index ≤ i
      · rw [show i - index = (i - (index + 1)) + 1 by omega, handleAt_succ, decide_eq_true hle,
          decide_eq_true (by omega)]
      · rw [decide_eq_false hle, decide_eq_false (by omega), Bool.false_and, Bool.false_and]
    cases handle with
    | none =>
      rw [handleBits, ih]
      by_cases hi : i = index
      · rw [hi, Nat.sub_self, decide_eq_false (by omega), Bool.false_and, handleAt_zero,
          Option.isSome_none, Bool.and_false]
      · exact hrest hi
    | some bytes =>
      rw [handleBits, Nat.testBit_or, ih, Nat.one_shiftLeft, Nat.testBit_two_pow]
      by_cases hi : i = index
      · rw [hi, decide_eq_true rfl, Nat.sub_self, Bool.true_or, decide_eq_true (Nat.le_refl _)]
        rfl
      · rw [decide_eq_false (Ne.symm hi), Bool.false_or]
        exact hrest hi

theorem header_has (item : Item) (handles : List (Option (List UInt8))) {i : Nat} (h : i < 3) :
    (TestItem.header ⟨item, handles⟩).has i = (handleAt handles i).isSome := by
  rw [ItemHeader.has, TestItem.header, testBit_handleBits, decide_eq_true (Nat.zero_le i),
    decide_eq_true (show i < maxHandles from h)]
  rfl

/-- What stands between input items. -/
def Carry.comma (self : Carry) : List UInt8 := if self.inputComma then text "," else []

def Carry.written (self : Carry) : Carry := { self with inputComma := true }

@[simp] theorem writeAll_nil (handles : List (Option (List UInt8))) : writeAll handles [] = .ok [] := rfl

@[simp] theorem writeAll_literal (handles : List (Option (List UInt8))) (s : String) (pieces : List Piece) :
    writeAll handles (literal s :: pieces) = (writeAll handles pieces).map (text s ++ ·) := by
  rw [writeAll]
  cases writeAll handles pieces <;> rfl

/-- A handle's bytes as a piece writes them. -/
def Escape.of (bytes : List UInt8) : Escape → List UInt8
  | .verbatim => bytes
  | .jsonStringV1 => encodeJsonStringChars bytes

theorem writeAll_content (handles : List (Option (List UInt8))) (handle : Nat) (escape : Escape)
    (pieces : List Piece) : writeAll handles (.content handle escape :: pieces) =
      match handleAt handles handle with
      | none => .error .missing
      | some bytes => (writeAll handles pieces).map (escape.of bytes ++ ·) := by
  rw [writeAll, Piece.written]
  cases handleAt handles handle with
  | none => rfl
  | some bytes => cases escape <;> cases writeAll handles pieces <;> rfl

@[simp] theorem writeAll_escaped (handles : List (Option (List UInt8))) (handle : Nat)
    (pieces : List Piece) : writeAll handles (escaped handle :: pieces) =
      match handleAt handles handle with
      | none => .error .missing
      | some bytes => (writeAll handles pieces).map (encodeJsonStringChars bytes ++ ·) :=
  writeAll_content handles handle .jsonStringV1 pieces

@[simp] theorem writeAll_verbatim (handles : List (Option (List UInt8))) (handle : Nat)
    (pieces : List Piece) : writeAll handles (verbatim handle :: pieces) =
      match handleAt handles handle with
      | none => .error .missing
      | some bytes => (writeAll handles pieces).map (bytes ++ ·) :=
  writeAll_content handles handle .verbatim pieces

variable {later : Encoder} {bytes : List UInt8} {α : Type} {texts : List (List UInt8)}

theorem write_of {pieces : List Piece} (hpieces : self.encodeItem item.header = .ok (later, pieces))
    (hbytes : writeAll item.handles pieces = .ok bytes) : self.write item = .ok (later, bytes) := by
  rw [Encoder.write, hpieces]
  show (do let bytes ← writeAll item.handles pieces; return (later, bytes)) = _
  rw [hbytes]
  rfl

@[simp] theorem writeAll_comma (carry : Carry) (handles : List (Option (List UInt8)))
    (pieces : List Piece) :
    writeAll handles ((if carry.inputComma then [literal ","] else []) ++ pieces) =
      (writeAll handles pieces).map (carry.comma ++ ·) := by
  rw [Carry.comma]
  cases carry.inputComma with
  | true => exact writeAll_literal handles "," pieces
  | false => cases h : writeAll handles pieces <;> simp [h, Except.map]

/-! ## One item at a time -/

theorem write_message (self : Encoder) (author : Author) (chars : List Char)
    (sender : Option (List Char)) :
    self.write ⟨.message author, [some (utf8 chars), sender.map utf8]⟩ =
      .ok ({ self with carry := self.carry.written },
        self.carry.comma ++ (messageTree author chars sender).render) := by
  apply write_of
  · rw [Encoder.encodeItem]
    exact rfl
  · rw [header_has _ _ (by decide), List.append_assoc, List.append_assoc, writeAll_comma]
    cases author <;> cases sender <;>
      simp (disch := decide) [Except.map, messageTree, inputText, Author.role, Encoder.messageOpen]

theorem write_toolResult (self : Encoder) (callId result : List Char) :
    self.write ⟨.toolResult, [some (utf8 callId), some (utf8 result)]⟩ =
      .ok ({ self with carry := self.carry.written },
        self.carry.comma ++ (HistoryElement.toolResult callId result).tree.render) := by
  apply write_of
  · rw [Encoder.encodeItem]
    exact rfl
  · rw [writeAll_comma]
    simp (disch := decide) [Except.map, HistoryElement.tree]

theorem write_compactionTrigger (self : Encoder) :
    self.write ⟨.compactionTrigger, []⟩ = .ok ({ self with carry := self.carry.written },
      self.carry.comma ++ (object [key "type" (word "compaction_trigger")]).render) := by
  apply write_of
  · rw [Encoder.encodeItem]
    exact rfl
  · rw [writeAll_comma]
    simp (disch := decide) [Except.map]

theorem write_changed (self : Encoder) (effort : Effort)
    (h : self.carry.version = .two ∧ some effort ≠ self.carry.effort) :
    self.write ⟨.operation (some effort), []⟩ =
      .ok ({ self with carry := { self.carry with effort := some effort }.written },
        self.carry.comma ++ (HistoryElement.operation (some effort)).tree.render) := by
  apply write_of
  · rw [Encoder.encodeItem, TestItem.header]
    dsimp only [Encoder.separateInput]
    rw [if_pos h]
    exact rfl
  · rw [writeAll_comma]
    cases effort <;>
      simp (disch := decide) [Except.map, HistoryElement.tree, effortMember, Effort.tagName]

theorem write_unchanged (self : Encoder) (effort : Option Effort)
    (h : ¬ (self.carry.version = .two ∧ effort ≠ self.carry.effort)) :
    self.write ⟨.operation effort, []⟩ = .ok (self, []) := by
  apply write_of
  · rw [Encoder.encodeItem, TestItem.header]
    dsimp only
    exact if_neg h
  · rfl

theorem write_none (self : Encoder) (h : self.carry.version = .two ∧ none ≠ self.carry.effort) :
    self.write ⟨.operation none, []⟩ = .error .declined := by
  rw [Encoder.write, Encoder.encodeItem, TestItem.header]
  dsimp only
  rw [if_pos h]
  rfl

/-- Between the tools of one array. -/
def Encoder.comma (self : Encoder) : List UInt8 := if self.toolComma then text "," else []

theorem writeAll_toolComma (self : Encoder) (handles : List (Option (List UInt8)))
    (pieces : List Piece) :
    writeAll handles ((if self.toolComma then [literal ","] else []) ++ pieces) =
      (writeAll handles pieces).map (self.comma ++ ·) := by
  rw [Encoder.comma]
  cases self.toolComma with
  | true => exact writeAll_literal handles "," pieces
  | false => cases h : writeAll handles pieces <;> simp [h, Except.map]

theorem write_functionTool (self : Encoder) (item : Item) (tool : FunctionTool)
    (h : ∀ header : ItemHeader, header.item = item → self.encodeItem header = .ok self.functionTool) :
    self.write ⟨item, tool.handles⟩ =
      .ok ({ self with toolComma := true }, self.comma ++ tool.tree.render) := by
  apply write_of
  · rw [h _ rfl]
    exact rfl
  · rw [writeAll_toolComma]
    simp (disch := decide) [Except.map, FunctionTool.tree, FunctionTool.handles]

theorem write_webSearch (self : Encoder) :
    self.write OfferedTool.webSearch.item =
      .ok ({ self with toolComma := true }, self.comma ++ OfferedTool.webSearch.tree.render) := by
  apply write_of
  · rw [Encoder.encodeItem]
    exact rfl
  · rw [writeAll_toolComma]
    simp (disch := decide) [Except.map, OfferedTool.tree]

/-! ## Item by item -/

theorem encode_nil (self : Encoder) : self.encode [] = .ok (self, []) := rfl

theorem encode_cons (h : self.write item = .ok (later, bytes)) (items : List TestItem) :
    self.encode (item :: items) = (later.encode items).map fun r => (r.1, bytes ++ r.2) := by
  rw [Encoder.encode, h]
  show ((later.encode items).bind fun r => .ok (r.1, bytes ++ r.2)) = _
  cases later.encode items <;> rfl

theorem encode_declined (h : self.write item = .error .declined) (items : List TestItem) :
    self.encode (item :: items) = .error .declined := by
  rw [Encoder.encode, h]
  rfl

theorem encode_append (self : Encoder) (items more : List TestItem) :
    self.encode (items ++ more) = (self.encode items).bind fun first =>
      (first.1.encode more).map fun last => (last.1, first.2 ++ last.2) := by
  induction items generalizing self with
  | nil =>
    show self.encode more = (self.encode more).map fun r => (r.1, [] ++ r.2)
    cases self.encode more <;> rfl
  | cons item items ih =>
    cases hwrite : self.write item with
    | error e =>
      rw [List.cons_append, Encoder.encode, Encoder.encode, hwrite]
      rfl
    | ok written =>
      rw [List.cons_append, encode_cons hwrite, encode_cons hwrite, ih]
      cases written.1.encode items with
      | error e => rfl
      | ok middle =>
        simp only [Except.bind, Except.map]
        cases middle.1.encode more with
        | error e => rfl
        | ok last => simp only [List.append_assoc]

/-! ## Arrays of tools -/

/-- Texts behind what is already there. -/
def joinedBy (comma : Bool) (texts : List (List UInt8)) : List UInt8 :=
  if comma then texts.flatMap (ascii ',' :: ·) else commas texts

theorem joinedBy_cons (comma : Bool) (first : List UInt8) (texts : List (List UInt8)) :
    joinedBy comma (first :: texts) =
      (if comma then text "," else []) ++ first ++ joinedBy true texts := by
  cases comma with
  | true => rfl
  | false => rfl

theorem joinedBy_append (comma : Bool) (texts more : List (List UInt8)) :
    joinedBy comma (texts ++ more) = joinedBy comma texts ++ joinedBy (comma || !texts.isEmpty) more := by
  cases texts with
  | nil =>
    cases comma with
    | true => rfl
    | false => rfl
  | cons first texts =>
    rw [List.cons_append, joinedBy_cons, joinedBy_cons, List.isEmpty_cons, Bool.not_false,
      Bool.or_true, List.append_assoc _ (joinedBy true texts)]
    exact congrArg _ List.flatMap_append

/-- Tools that each take a comma unless first are joined by commas. -/
theorem encode_tools (item : α → TestItem) (tree : α → Tree) (tools : List α) (self : Encoder)
    (h : ∀ tool ∈ tools, ∀ e : Encoder, e.carry = self.carry →
      e.write (item tool) = .ok ({ e with toolComma := true }, e.comma ++ (tree tool).render)) :
    self.encode (tools.map item) = .ok ({ self with toolComma := self.toolComma || !tools.isEmpty },
      joinedBy self.toolComma (tools.map fun tool => (tree tool).render)) := by
  induction tools generalizing self with
  | nil =>
    obtain ⟨carry, omitReasoningText, array, toolComma⟩ := self
    cases toolComma <;> rfl
  | cons tool tools ih =>
    rw [List.map_cons, encode_cons (h tool List.mem_cons_self self rfl),
      ih { self with toolComma := true } fun other hother => h other (List.mem_cons_of_mem _ hother),
      List.map_cons, joinedBy_cons, List.isEmpty_cons, Bool.not_false, Bool.or_true, Bool.true_or]
    rfl

theorem encode_tools_declined (item : α → TestItem) (tree : α → Tree) (bad : α → Bool)
    (tools : List α) (self : Encoder) (hbad : tools.any bad = true)
    (h : ∀ tool ∈ tools, ∀ e : Encoder, e.carry = self.carry →
      e.write (item tool) = if bad tool then .error .declined
        else .ok ({ e with toolComma := true }, e.comma ++ (tree tool).render)) :
    self.encode (tools.map item) = .error .declined := by
  induction tools generalizing self with
  | nil => cases hbad
  | cons tool tools ih =>
    have hfirst := h tool List.mem_cons_self self rfl
    by_cases hdeclined : bad tool = true
    · rw [if_pos hdeclined] at hfirst
      exact encode_declined hfirst _
    · rw [if_neg hdeclined] at hfirst
      rw [List.any_cons, eq_false_of_ne_true hdeclined, Bool.false_or] at hbad
      rw [List.map_cons, encode_cons hfirst, ih { self with toolComma := true } hbad
        fun other hother => h other (List.mem_cons_of_mem _ hother)]
      rfl

/-! ## Parts -/

theorem flatMap_comma (h : texts ≠ []) :
    texts.flatMap (ascii ',' :: ·) = text "," ++ commas texts := by
  cases texts with
  | nil => exact absurd rfl h
  | cons first texts => rfl

theorem commas_bag (h : texts ≠ []) (bag : Bag) :
    commas (texts ++ bag.members.map Member.render) = commas texts ++ (text "," ++ bag.bytes) := by
  rw [commas_append h, flatMap_comma (List.map_eq_nil_iff.not.mpr bag.nonempty), Bag.bytes,
    renderMembers_eq]

/-- What a part is written behind. -/
def Encoder.partLead (self : Encoder) (array : PartArray) : List UInt8 :=
  if self.array = array then text ","
  else (if self.array ≠ .none then text "]" else []) ++
    text (if array = .content then ",\"content\":[" else ",\"summary\":[")

def Encoder.leadPieces (self : Encoder) (array : PartArray) : List Piece :=
  if self.array = array then [literal ","]
  else (if self.array ≠ .none then [literal "]"] else []) ++
    [literal (if array = .content then ",\"content\":[" else ",\"summary\":[")]

theorem writeAll_leadPieces (self : Encoder) (array : PartArray)
    (handles : List (Option (List UInt8))) (pieces : List Piece) :
    writeAll handles (self.leadPieces array ++ pieces) =
      (writeAll handles pieces).map (self.partLead array ++ ·) := by
  rw [Encoder.partLead, Encoder.leadPieces]
  by_cases hsame : self.array = array
  · rw [if_pos hsame, if_pos hsame]
    exact writeAll_literal handles "," pieces
  · rw [if_neg hsame, if_neg hsame]
    by_cases hopen : self.array ≠ .none
    · rw [if_pos hopen, if_pos hopen]
      cases h : writeAll handles pieces <;> simp [h, Except.map]
    · rw [if_neg hopen, if_neg hopen]
      cases h : writeAll handles pieces <;> simp [h, Except.map]

theorem write_part_omitted (self : Encoder) (part : Part)
    (h : self.omitReasoningText = true ∧ part.array = .content) :
    self.write part.item = .ok (self, []) := by
  apply write_of
  · rw [Encoder.encodeItem, Part.item, TestItem.header]
    dsimp only
    rw [Encoder.encodePart, if_pos h]
  · rfl

theorem encodeItem_part (self : Encoder) (array : PartArray) (kind : PartKind)
    (chars bag : Option (List UInt8))
    (h : ¬ (self.omitReasoningText = true ∧ array = .content)) :
    self.encodeItem (TestItem.header ⟨.outputPart array kind, [chars, bag]⟩) =
      if chars.isSome then
        match Encoder.partOpen kind with
        | none => .error .declined
        | some start => .ok ({ self with array }, self.leadPieces array ++
          [literal start, escaped 0] ++
            if bag.isSome then [literal "\",", verbatim 1, literal "\x7d"] else [literal "\"\x7d"])
      else .ok ({ self with array },
        self.leadPieces array ++ [literal "\x7b", verbatim 1, literal "\x7d"]) := by
  show self.encodePart _ array kind = _
  rw [Encoder.encodePart, if_neg h, header_has _ _ (by decide), header_has _ _ (by decide)]
  rfl

theorem write_part (self : Encoder) (part : Part)
    (h : ¬ (self.omitReasoningText = true ∧ part.array = .content)) :
    self.write part.item = if part.declined then .error .declined
      else .ok ({ self with array := part.array }, self.partLead part.array ++ part.tree.render) := by
  obtain ⟨array, isArray, kind, chars, bag, held⟩ := part
  have hpieces := encodeItem_part self array kind (chars.map utf8) (bag.map Bag.bytes) h
  cases chars with
  | none =>
    cases bag with
    | none => rcases held with held | held <;> cases held
    | some bag =>
      apply write_of hpieces
      rw [writeAll_leadPieces]
      simp [Except.map, Part.tree, Part.own, bagMembers, Bag.bytes, renderMembers_eq]
  | some chars =>
    cases kind with
    | opaqueBlock =>
      rw [Encoder.write, Part.item, hpieces]
      rfl
    | _ =>
      apply write_of hpieces
      rw [List.append_assoc, writeAll_leadPieces]
      cases bag with
      | none =>
        simp (disch := decide) [Except.map, Part.tree, Part.own, PartKind.names, bagMembers]
      | some bag =>
        have hbag : ∀ first second : List UInt8,
            commas (first :: second :: bag.members.map Member.render) =
              first ++ (text "," ++ (second ++ (text "," ++ bag.bytes))) := by
          intro first second
          rw [commas_two, ← List.singleton_append, commas_bag (List.cons_ne_nil _ _), commas_one]
        simp (disch := decide) [Except.map, Part.tree, Part.own, PartKind.names, bagMembers, hbag]

/-! ## Runs of parts -/

/-- What closes the array that is open. -/
def closing (array : PartArray) : List UInt8 := if array ≠ .none then text "]" else []

/-- What runs of parts are written as behind an array that is open. -/
def runsText (array : PartArray) : List (PartArray × List Part) → List UInt8
  | [] => closing array
  | (own, run) :: rest =>
    (if own = array then (run.map fun part => part.tree.render).flatMap (ascii ',' :: ·) ++ text "]"
      else closing array ++ (text "," ++ (runMember (own, run)).render)) ++
      (rest.map fun run => (runMember run).render).flatMap (ascii ',' :: ·)

theorem runMember_render {own : PartArray} (h : own ≠ .none) (part : Part) (run : List Part) :
    text "," ++ (runMember (own, part :: run)).render =
      text (if own = .content then ",\"content\":[" else ",\"summary\":[") ++ (part.tree.render ++
        ((run.map fun part => part.tree.render).flatMap (ascii ',' :: ·) ++ text "]")) := by
  cases own with
  | none => exact absurd rfl h
  | content => simp (disch := decide) [runMember, PartArray.name, commas, Function.comp_def]
  | summary => simp (disch := decide) [runMember, PartArray.name, commas, Function.comp_def]

theorem runsText_cons (self : Encoder) (part : Part) (parts : List Part) :
    runsText self.array (runs (part :: parts)) =
      self.partLead part.array ++ part.tree.render ++ runsText part.array (runs parts) := by
  have hclosing : closing part.array = text "]" := if_pos part.isArray
  have halone : ∀ rest : List (PartArray × List Part),
      runsText self.array ((part.array, [part]) :: rest) =
        self.partLead part.array ++ part.tree.render ++ (text "]" ++
          (rest.map fun run => (runMember run).render).flatMap (ascii ',' :: ·)) := by
    intro rest
    rw [runsText, Encoder.partLead]
    by_cases hsame : part.array = self.array
    · rw [if_pos hsame, if_pos hsame.symm]
      simp [text]
    · rw [if_neg hsame, if_neg (Ne.symm hsame), runMember_render part.isArray]
      simp [closing]
  rw [runs]
  cases hruns : runs parts with
  | nil => rw [halone, runsText, hclosing, List.map_nil, List.flatMap_nil, List.append_nil]
  | cons first rest =>
    obtain ⟨own, run⟩ := first
    dsimp only
    by_cases hsame : part.array = own
    · subst hsame
      rw [if_pos rfl, runsText, runsText, if_pos rfl, Encoder.partLead]
      by_cases hopen : part.array = self.array
      · rw [if_pos hopen, if_pos hopen.symm]
        simp [text]
      · rw [if_neg hopen, if_neg (Ne.symm hopen), runMember_render part.isArray]
        simp [closing]
    · rw [if_neg hsame, halone, runsText, if_neg (Ne.symm hsame), hclosing]
      simp [text]

theorem encode_parts (self : Encoder) (parts : List Part)
    (hshown : ∀ part ∈ parts, ¬ (self.omitReasoningText = true ∧ part.array = .content))
    (hdeclined : parts.any Part.declined = false) : ∃ last bytes,
      self.encode (parts.map Part.item) = .ok ({ self with array := last }, bytes) ∧
        bytes ++ closing last = runsText self.array (runs parts) := by
  induction parts generalizing self with
  | nil => exact ⟨self.array, [], rfl, rfl⟩
  | cons part parts ih =>
    rw [List.any_cons, Bool.or_eq_false_iff] at hdeclined
    have hwrite := write_part self part (hshown part List.mem_cons_self)
    rw [hdeclined.1, if_neg Bool.false_ne_true] at hwrite
    obtain ⟨last, bytes, hencode, hbytes⟩ := ih { self with array := part.array }
      (fun other hother => hshown other (List.mem_cons_of_mem _ hother)) hdeclined.2
    refine ⟨last, self.partLead part.array ++ part.tree.render ++ bytes, ?_, ?_⟩
    · rw [List.map_cons, encode_cons hwrite, hencode]
      rfl
    · rw [runsText_cons, ← hbytes, List.append_assoc]

theorem encode_parts_declined (self : Encoder) (parts : List Part)
    (hshown : ∀ part ∈ parts, ¬ (self.omitReasoningText = true ∧ part.array = .content))
    (hdeclined : parts.any Part.declined = true) :
    self.encode (parts.map Part.item) = .error .declined := by
  induction parts generalizing self with
  | nil => cases hdeclined
  | cons part parts ih =>
    have hwrite := write_part self part (hshown part List.mem_cons_self)
    by_cases hpart : part.declined = true
    · rw [if_pos hpart] at hwrite
      exact encode_declined hwrite _
    · rw [if_neg hpart] at hwrite
      rw [List.any_cons, eq_false_of_ne_true hpart, Bool.false_or] at hdeclined
      rw [List.map_cons, encode_cons hwrite, ih { self with array := part.array }
        (fun other hother => hshown other (List.mem_cons_of_mem _ hother)) hdeclined]
      rfl

theorem encode_omitted (self : Encoder) (h : self.omitReasoningText = true) (parts : List Part) :
    self.encode (parts.map Part.item) =
      self.encode ((parts.filter fun part => part.array ≠ .content).map Part.item) := by
  induction parts generalizing self with
  | nil => rfl
  | cons part parts ih =>
    rw [List.filter_cons]
    by_cases hcontent : part.array = .content
    · rw [if_neg (by simpa using hcontent), List.map_cons,
        encode_cons (write_part_omitted self part ⟨h, hcontent⟩), ih self h]
      cases self.encode _ <;> rfl
    · rw [if_pos (by simpa using hcontent), List.map_cons, List.map_cons]
      have hwrite := write_part self part fun hboth => hcontent hboth.2
      by_cases hpart : part.declined = true
      · rw [if_pos hpart] at hwrite
        rw [encode_declined hwrite, encode_declined hwrite]
      · rw [if_neg hpart] at hwrite
        rw [encode_cons hwrite, encode_cons hwrite, ih { self with array := part.array } h]

end Rui.Responses
