import Rui.Responses.RequestEncoding

/-!
# Requests, resumed

Which elements of a history are input items, and why an encoder resumed from a
carry, at one boundary or at each, writes what one encoder writes.
-/

namespace Rui.Responses

open Library Library.Json Rui.Json

/-! ## Which elements are input items -/

/-- The elements that are input items: a boundary is one where it changes the effort in force, and
every other element is one. -/
def inputElements (version : Version) (effort : Option Effort) :
    List HistoryElement → List HistoryElement
  | [] => []
  | .operation own :: elements =>
    if version = .two ∧ own ≠ effort then .operation own :: inputElements version own elements
    else inputElements version effort elements
  | element :: elements => element :: inputElements version effort elements

variable {carry : Carry} {items : List TestItem} {self later : Encoder} {item : TestItem}
  {pieces : List Piece}

theorem entries_inputElements {elements : List HistoryElement} {last : Carry × List Tree}
    (h : entries carry elements = .ok last) :
    (∀ more, inputElements carry.version carry.effort (elements ++ more) =
      inputElements carry.version carry.effort elements ++
        inputElements last.1.version last.1.effort more) ∧
      last.2 = (inputElements carry.version carry.effort elements).map HistoryElement.tree := by
  induction elements generalizing carry last with
  | nil =>
    cases h
    exact ⟨fun _ => rfl, rfl⟩
  | cons element elements ih =>
    rw [entries] at h
    obtain ⟨entry, hentry, h⟩ := bind_eq_ok.mp h
    obtain ⟨rest, hrest, h⟩ := bind_eq_ok.mp h
    cases h
    obtain ⟨hmore, htrees⟩ := ih hrest
    have hspeaks : ∀ tree, entry = (carry, some tree) → tree = element.tree →
        (∀ elements, inputElements carry.version carry.effort (element :: elements) =
          element :: inputElements carry.version carry.effort elements) →
        (∀ more, inputElements carry.version carry.effort (element :: elements ++ more) =
          inputElements carry.version carry.effort (element :: elements) ++
            inputElements rest.1.version rest.1.effort more) ∧
          entry.2.toList ++ rest.2 =
            (inputElements carry.version carry.effort (element :: elements)).map
              HistoryElement.tree := by
      rintro tree rfl rfl hcons
      refine ⟨fun more => ?_, ?_⟩
      · rw [List.cons_append, hcons, hcons, List.cons_append]
        exact congrArg _ (hmore more)
      · rw [hcons, List.map_cons, htrees]
        rfl
    cases element with
    | message author chars sender => exact hspeaks _ (Except.ok.inj hentry).symm rfl fun _ => rfl
    | toolResult callId result => exact hspeaks _ (Except.ok.inj hentry).symm rfl fun _ => rfl
    | output saved =>
      rw [HistoryElement.entry] at hentry
      split at hentry
      · cases hentry
      · exact hspeaks _ (Except.ok.inj hentry).symm rfl fun _ => rfl
    | declaration tools =>
      rw [HistoryElement.entry] at hentry
      split at hentry
      · exact hspeaks _ (Except.ok.inj hentry).symm rfl fun _ => rfl
      · cases hentry
    | operation effort =>
      rw [HistoryElement.entry] at hentry
      split at hentry
      · rename_i hchanged
        split at hentry
        · cases hentry
        · cases hentry
          refine ⟨fun more => ?_, ?_⟩
          · rw [List.cons_append, inputElements, if_pos hchanged, inputElements, if_pos hchanged,
              List.cons_append]
            exact congrArg _ (hmore more)
          · rw [inputElements, if_pos hchanged, List.map_cons, htrees]
            rfl
      · rename_i hsame
        cases hentry
        refine ⟨fun more => ?_, ?_⟩
        · rw [List.cons_append, inputElements, if_neg hsame, inputElements, if_neg hsame]
          exact hmore more
        · rw [inputElements, if_neg hsame, htrees]
          rfl

/-! ## Resuming -/

variable {encoding : Carry → Encoding} {e : Failure} {header : ItemHeader}

theorem Encodes.snd (h : Encodes items encoding) {other : Encoder}
    (hcarry : self.carry = other.carry) :
    (self.encode items).map Prod.snd = (other.encode items).map Prod.snd := by
  have hsnd : ∀ e : Encoder, (e.encode items).map Prod.snd = (encoding e.carry).map Prod.snd := by
    intro e
    rw [← h e, Encoder.summary]
    cases e.encode items <;> rfl
  rw [hsnd, hsnd, hcarry]

/-- Items that neither resume nor end an element. -/
def Inner (items : List TestItem) : Prop :=
  ∀ item ∈ items, item.item.resumes = false ∧ item.item.endsElement = false

theorem encodeForTesting_cons {bytes : List UInt8}
    (h : (if item.item.resumes = true then { carry } else self).write item = .ok (later, bytes))
    (items : List TestItem) : self.encodeForTesting carry (item :: items) =
      (later.encodeForTesting (if item.item.endsElement = true then later.carry else carry) items).map
        fun last => (last.1, last.2.1, bytes ++ last.2.2) := by
  rw [Encoder.encodeForTesting]
  dsimp only
  rw [h]
  show ((later.encodeForTesting _ items).bind _ : Except _ _) = _
  cases later.encodeForTesting _ items <;> rfl

theorem encodeForTesting_error
    (h : (if item.item.resumes = true then { carry } else self).write item = .error e)
    (items : List TestItem) : self.encodeForTesting carry (item :: items) = .error e := by
  rw [Encoder.encodeForTesting]
  dsimp only
  rw [h]
  rfl

theorem encode_error (h : self.write item = .error e) (items : List TestItem) :
    self.encode (item :: items) = .error e := by
  rw [Encoder.encode, h]
  rfl

theorem encodeForTesting_inner (self : Encoder) (carry : Carry) (h : Inner items) :
    self.encodeForTesting carry items =
      (self.encode items).map fun last => (last.1, carry, last.2) := by
  induction items generalizing self with
  | nil => rfl
  | cons item items ih =>
    obtain ⟨hresumes, hends⟩ := h item List.mem_cons_self
    have hself : (if item.item.resumes = true then ({ carry } : Encoder) else self) = self := by
      rw [hresumes, if_neg Bool.false_ne_true]
    cases hwrite : self.write item with
    | error e => rw [encodeForTesting_error (hself ▸ hwrite), encode_error hwrite]; rfl
    | ok written =>
      rw [encode_cons hwrite, encodeForTesting_cons (hself ▸ hwrite), hends,
        if_neg Bool.false_ne_true, ih written.1 fun other hother => h other (List.mem_cons_of_mem _ hother)]
      cases written.1.encode items <;> rfl

theorem encodeForTesting_append (self : Encoder) (carry : Carry) (items more : List TestItem) :
    self.encodeForTesting carry (items ++ more) = (self.encodeForTesting carry items).bind
      fun first => (first.1.encodeForTesting first.2.1 more).map
        fun last => (last.1, last.2.1, first.2.2 ++ last.2.2) := by
  induction items generalizing self carry with
  | nil =>
    show self.encodeForTesting carry more = (self.encodeForTesting carry more).map _
    cases self.encodeForTesting carry more <;> rfl
  | cons item items ih =>
    rw [List.cons_append]
    cases hwrite : (if item.item.resumes = true then ({ carry } : Encoder) else self).write item with
    | error e => rw [encodeForTesting_error hwrite, encodeForTesting_error hwrite]; rfl
    | ok written =>
      rw [encodeForTesting_cons hwrite, encodeForTesting_cons hwrite, ih]
      cases written.1.encodeForTesting _ items with
      | error e => rfl
      | ok middle =>
        dsimp only [Except.bind, Except.map]
        cases middle.1.encodeForTesting middle.2.1 more with
        | error e => rfl
        | ok last => simp only [List.append_assoc]

/-- The items of one element, which its first resumes before and its last ends. -/
inductive OneElement : List TestItem → Prop
  | single {item : TestItem} (resumes : item.item.resumes = true)
    (ends : item.item.endsElement = true) : OneElement [item]
  | many {first last : TestItem} {middle : List TestItem} (resumes : first.item.resumes = true)
    (goes : first.item.endsElement = false) (inner : Inner middle)
    (stays : last.item.resumes = false) (ends : last.item.endsElement = true) :
    OneElement (first :: (middle ++ [last]))

theorem element_one (element : HistoryElement) : OneElement element.items := by
  cases element with
  | message author chars sender => exact .single rfl rfl
  | toolResult callId result => exact .single rfl rfl
  | operation effort => exact .single rfl rfl
  | output saved =>
    refine .many rfl rfl ?_ rfl rfl
    intro item hitem
    obtain ⟨part, -, rfl⟩ := List.mem_map.mp hitem
    exact ⟨rfl, rfl⟩
  | declaration tools =>
    refine .many rfl rfl ?_ rfl rfl
    intro item hitem
    obtain ⟨tool, -, rfl⟩ := List.mem_map.mp hitem
    exact ⟨rfl, rfl⟩

theorem OneElement.encodeForTesting (h : OneElement items) (self : Encoder) (carry : Carry) :
    self.encodeForTesting carry items =
      (Encoder.encode { carry } items).map fun last => (last.1, last.1.carry, last.2) := by
  cases h with
  | single resumes ends =>
    rename_i item
    have hself : (if item.item.resumes = true then ({ carry } : Encoder) else self) = { carry } :=
      if_pos resumes
    cases hwrite : Encoder.write { carry } item with
    | error e => rw [encodeForTesting_error (hself ▸ hwrite), encode_error hwrite]; rfl
    | ok written =>
      rw [encodeForTesting_cons (hself ▸ hwrite), encode_cons hwrite, ends]
      rfl
  | many resumes goes inner stays ends =>
    rename_i first last middle
    have hself : (if first.item.resumes = true then ({ carry } : Encoder) else self) = { carry } :=
      if_pos resumes
    cases hwrite : Encoder.write { carry } first with
    | error e => rw [encodeForTesting_error (hself ▸ hwrite), encode_error hwrite]; rfl
    | ok written =>
      rw [encodeForTesting_cons (hself ▸ hwrite), encode_cons hwrite, goes,
        if_neg Bool.false_ne_true, encodeForTesting_append, encodeForTesting_inner _ _ inner,
        encode_append]
      cases written.1.encode middle with
      | error e => rfl
      | ok opened =>
        dsimp only [Except.bind, Except.map]
        have hopened : (if last.item.resumes = true then ({ carry } : Encoder) else opened.1) =
            opened.1 := by
          rw [stays, if_neg Bool.false_ne_true]
        cases hlast : opened.1.write last with
        | error e => rw [encodeForTesting_error (hopened ▸ hlast), encode_error hlast]
        | ok closed =>
          rw [encodeForTesting_cons (hopened ▸ hlast), encode_cons hlast, ends]
          rfl

/-- Items after which the Host's encoder and its kept carry agree, and whose bytes are the
encoder's. -/
def Resumes (items : List TestItem) (encoding : Carry → Encoding) : Prop :=
  ∀ self : Encoder, (self.encodeForTesting self.carry items).map
    (fun last => (last.1.carry, last.2)) =
      (encoding self.carry).map fun last => (last.1, last.1, last.2)

theorem Resumes.cases (h : Resumes items encoding) (self : Encoder) :
    (∃ e, self.encodeForTesting self.carry items = .error e ∧ encoding self.carry = .error e) ∨
      ∃ later bytes, self.encodeForTesting self.carry items = .ok (later, later.carry, bytes) ∧
        encoding self.carry = .ok (later.carry, bytes) := by
  have hself := h self
  cases hencode : self.encodeForTesting self.carry items with
  | error e =>
    rw [hencode] at hself
    cases hencoding : encoding self.carry with
    | error e' =>
      rw [hencoding] at hself
      cases hself
      exact .inl ⟨e, rfl, rfl⟩
    | ok last =>
      rw [hencoding] at hself
      cases hself
  | ok last =>
    rw [hencode] at hself
    cases hencoding : encoding self.carry with
    | error e =>
      rw [hencoding] at hself
      cases hself
    | ok after =>
      rw [hencoding] at hself
      obtain ⟨later, kept, bytes⟩ := last
      obtain ⟨carry, bytes'⟩ := after
      have hcarry : later.carry = carry := congrArg Prod.fst (Except.ok.inj hself)
      have hkept : kept = carry := congrArg (fun last => last.2.1) (Except.ok.inj hself)
      have hbytes : bytes = bytes' := congrArg (fun last => last.2.2) (Except.ok.inj hself)
      subst hkept hcarry hbytes
      exact .inr ⟨later, bytes, rfl, rfl⟩

theorem Resumes.append {more : List TestItem} {first second : Carry → Encoding}
    (hfirst : Resumes items first) (hsecond : Resumes more second) :
    Resumes (items ++ more) (andThen first second) := by
  intro self
  rw [encodeForTesting_append, andThen]
  rcases hfirst.cases self with ⟨e, hencode, hencoding⟩ | ⟨later, bytes, hencode, hencoding⟩
  · rw [hencode, hencoding]
    rfl
  · rw [hencode, hencoding]
    dsimp only [Except.bind, Except.map]
    rcases hsecond.cases later with ⟨e, hrest, hafter⟩ | ⟨last, rest, hrest, hafter⟩
    · rw [hrest, hafter]
    · rw [hrest, hafter]

theorem element_resumes (element : HistoryElement) : Resumes element.items element.encoding := by
  intro self
  have hfresh := element_encodes element { carry := self.carry }
  rw [(element_one element).encodeForTesting self self.carry, ← hfresh, Encoder.summary]
  cases Encoder.encode { carry := self.carry } element.items <;> rfl

theorem elements_resume (elements : List HistoryElement) :
    Resumes (elements.flatMap HistoryElement.items) (elementsEncoding elements) := by
  induction elements with
  | nil =>
    intro self
    show Except.ok (self.carry, self.carry, []) =
      Except.ok (self.carry, self.carry, joinedBy self.carry.inputComma [])
    cases self.carry.inputComma <;> rfl
  | cons element elements ih =>
    intro self
    rw [List.flatMap_cons, (element_resumes element).append ih self, elementsEncoding_cons]

theorem historyEnd_resumes : Resumes [⟨.historyEnd, []⟩] fun carry => .ok (carry, []) :=
  fun _ => rfl

theorem tail_inner (request : Request) : Inner request.tailItems := by
  intro item hitem
  rw [Request.tailItems, List.mem_append, List.mem_cons, List.mem_append] at hitem
  rcases hitem with hitem | rfl | hitem | hitem
  · split at hitem
    · rw [List.mem_singleton.mp hitem]
      exact ⟨rfl, rfl⟩
    · cases hitem
  · exact ⟨rfl, rfl⟩
  · obtain ⟨tool, -, rfl⟩ := List.mem_map.mp hitem
    cases tool <;> exact ⟨rfl, rfl⟩
  · rw [List.mem_cons, List.mem_singleton] at hitem
    rcases hitem with rfl | rfl <;> exact ⟨rfl, rfl⟩

/-- **The Host's resumed encoder writes what one encoder writes.** -/
theorem resumed_request (request : Request) (version : Version) :
    ((request.encoder version).encodeForTesting (request.encoder version).carry request.items).map
        (fun last => last.2.2) =
      ((request.encoder version).encode request.items).map Prod.snd := by
  generalize request.encoder version = self
  have hhead : Inner request.headItems := by
    intro item hitem
    rw [Request.headItems, List.mem_cons, List.mem_singleton] at hitem
    rcases hitem with rfl | rfl <;> exact ⟨rfl, rfl⟩
  have hbody := (elements_resume request.history).append <|
    historyEnd_resumes.append (elements_resume request.current)
  have hencodes := (elements_encode request.history).append <|
    historyEnd_encodes.append (elements_encode request.current)
  have htail := (trigger_encodes request).append (tail_encodes request)
  have hitems : request.itemsFrom request.history =
      (request.history.flatMap HistoryElement.items ++ ([⟨.historyEnd, []⟩] ++
        request.current.flatMap HistoryElement.items)) ++ request.tailItems := by
    rw [Request.itemsFrom, List.append_assoc]
    rfl
  rw [Request.items, encodeForTesting_append, encodeForTesting_inner _ _ hhead, encode_head,
    encode_append_ok (encode_head self request), hitems]
  dsimp only [Except.bind, Except.map]
  rw [encodeForTesting_append, encode_append]
  have hself := hencodes self
  rw [Encoder.summary] at hself
  rcases hbody.cases self with ⟨e, hrun, hencoding⟩ | ⟨later, bytes, hrun, hencoding⟩
  · rw [hrun]
    rw [hencoding] at hself
    cases hencode : self.encode _ with
    | error e' =>
      rw [hencode] at hself
      cases hself
      rfl
    | ok last =>
      rw [hencode] at hself
      cases hself
  · rw [hrun]
    rw [hencoding] at hself
    cases hencode : self.encode _ with
    | error e' =>
      rw [hencode] at hself
      cases hself
    | ok last =>
      rw [hencode] at hself
      obtain ⟨hcarry, hbytes⟩ := Prod.mk.inj (Except.ok.inj hself)
      have hafter : (last.1.encode request.tailItems).map Prod.snd =
          (later.encode request.tailItems).map Prod.snd := htail.snd hcarry
      dsimp only [Except.bind]
      rw [encodeForTesting_inner _ _ (tail_inner request)]
      cases hlater : later.encode request.tailItems with
      | error e =>
        rw [hlater] at hafter
        cases hlast : last.1.encode request.tailItems with
        | error e' =>
          rw [hlast] at hafter
          cases hafter
          rfl
        | ok end' =>
          rw [hlast] at hafter
          cases hafter
      | ok finished =>
        rw [hlater] at hafter
        cases hlast : last.1.encode request.tailItems with
        | error e' =>
          rw [hlast] at hafter
          cases hafter
        | ok closed =>
          rw [hlast] at hafter
          have hend : closed.2 = finished.2 := Except.ok.inj hafter
          show Except.ok (_ ++ (bytes ++ finished.2)) = Except.ok (_ ++ (last.2 ++ closed.2))
          rw [hend, hbytes]

/-! ## The laws -/

theorem comma_length (comma : Bool) : (if comma then [literal ","] else []).length ≤ 1 := by
  cases comma <;> decide

theorem itemOpen_length (phase : Phase) (kind : OutputKind) :
    (Encoder.itemOpen phase kind).length ≤ 7 := by
  cases kind <;> exact Nat.le_of_ble_eq_true rfl

theorem leadPieces_length (self : Encoder) (array : PartArray) :
    (self.leadPieces array).length ≤ 2 := by
  rw [Encoder.leadPieces]
  split
  · decide
  · split <;> exact Nat.le_of_ble_eq_true rfl

theorem encodePart_length {array : PartArray} {kind : PartKind}
    (h : self.encodePart header array kind = .ok (later, pieces)) : pieces.length ≤ maxPieces := by
  have hlead := leadPieces_length self array
  have hunfold : self.encodePart header array kind =
      if self.omitReasoningText ∧ array = .content then .ok (self, [])
      else if header.has 0 then
        (Encoder.partOpen kind).elim (.error .declined) fun start =>
          .ok ({ self with array }, self.leadPieces array ++ [literal start, escaped 0] ++
            if header.has 1 then [literal "\",", verbatim 1, literal "\x7d"] else [literal "\"\x7d"])
      else .ok ({ self with array },
        self.leadPieces array ++ [literal "\x7b", verbatim 1, literal "\x7d"]) := by
    unfold Encoder.encodePart
    cases Encoder.partOpen kind <;> rfl
  rw [hunfold] at h
  split at h
  · cases h
    exact Nat.zero_le _
  · have hpieces : ∀ tail : List Piece, tail.length ≤ 5 →
        (self.leadPieces array ++ tail).length ≤ maxPieces := by
      intro tail htail
      rw [List.length_append]
      show _ ≤ 8
      omega
    split at h
    · cases hopen : Encoder.partOpen kind with
      | none =>
        rw [hopen] at h
        cases h
      | some start =>
        rw [hopen] at h
        cases h
        rw [List.append_assoc]
        refine hpieces _ ?_
        split <;> exact Nat.le_of_ble_eq_true rfl
    · cases h
      exact hpieces _ (Nat.le_of_ble_eq_true rfl)

theorem encodeItem_length (h : self.encodeItem header = .ok (later, pieces)) :
    pieces.length ≤ maxPieces := by
  have hcomma : ∀ (comma : Bool) (tail : List Piece), tail.length ≤ 7 →
      ((if comma then [literal ","] else []) ++ tail).length ≤ maxPieces := by
    intro comma tail htail
    have := comma_length comma
    rw [List.length_append]
    show _ ≤ 8
    omega
  rw [Encoder.encodeItem] at h
  split at h
  case h_5 => exact encodePart_length h
  case h_1 =>
    cases h
    split <;> exact Nat.le_of_ble_eq_true rfl
  case h_2 =>
    cases h
    exact Nat.le_of_ble_eq_true rfl
  case h_3 =>
    cases h
    rw [List.append_assoc, List.append_assoc]
    refine hcomma _ _ ?_
    split <;> exact Nat.le_of_ble_eq_true rfl
  case h_4 =>
    cases h
    exact hcomma _ _ (itemOpen_length _ _)
  case h_6 =>
    cases h
    split <;> split <;> exact Nat.le_of_ble_eq_true rfl
  case h_7 =>
    cases h
    exact hcomma _ _ (Nat.le_of_ble_eq_true rfl)
  case h_8 =>
    split at h
    · split at h
      · cases h
      · cases h
        exact hcomma _ _ (Nat.le_of_ble_eq_true rfl)
    · cases h
      exact Nat.zero_le _
  case h_9 =>
    split at h
    · cases h
    · cases h
      exact hcomma _ _ (Nat.le_of_ble_eq_true rfl)
  case h_10 =>
    split at h
    · cases h
    · cases h
      exact hcomma _ _ (Nat.le_of_ble_eq_true rfl)
  case h_11 =>
    split at h
    · cases h
    · cases h
      exact Nat.le_of_ble_eq_true rfl
  case h_12 =>
    cases h
    exact Nat.zero_le _
  case h_13 =>
    cases h
    exact hcomma _ _ (Nat.le_of_ble_eq_true rfl)
  case h_14 =>
    cases h
    exact Nat.le_of_ble_eq_true rfl
  case h_15 =>
    split at h
    · cases h
    · cases h
      exact hcomma _ _ (Nat.le_of_ble_eq_true rfl)
  case h_16 =>
    cases h
    exact hcomma _ _ (Nat.le_of_ble_eq_true rfl)
  case h_17 =>
    cases h
    split <;> exact Nat.le_of_ble_eq_true rfl
  case h_18 =>
    cases h
    exact Nat.le_of_ble_eq_true rfl

/-- What an item pushes: its pieces, or what leads to the part that is declined. -/
def Encoder.pushed (self : Encoder) (header : ItemHeader) : List Piece :=
  match self.encodeItem header, header.item with
  | .ok (_, pieces), _ => pieces
  | .error _, .outputPart array _ => self.leadPieces array
  | .error _, _ => []

theorem pushed_length (self : Encoder) (header : ItemHeader) :
    (self.pushed header).length ≤ maxPieces := by
  rw [Encoder.pushed]
  split
  · rename_i hencode
    exact encodeItem_length hencode
  · exact (leadPieces_length self _).trans (by decide)
  · exact Nat.zero_le _

theorem foldlM_push {before : List Piece} (h : before.length + pieces.length ≤ maxPieces) :
    pieces.foldlM Pieces.push before = some (before ++ pieces) := by
  induction pieces generalizing before with
  | nil => exact congrArg some (List.append_nil before).symm
  | cons piece pieces ih =>
    rw [List.length_cons] at h
    have hpush : Pieces.push before piece = some (before ++ [piece]) := by
      rw [Pieces.push, if_pos (by omega)]
    rw [List.foldlM_cons, hpush, Option.bind_eq_bind, Option.bind_some,
      ih (by rw [List.length_append, List.length_singleton]; omega), List.append_assoc,
      List.singleton_append]

/-- **Every item fits the pieces the contract gives it**: encoded or declined, no push of it fails
its assertion. -/
theorem encodeItem_fits (self : Encoder) (header : ItemHeader) :
    (self.pushed header).foldlM Pieces.push [] = some (self.pushed header) ∧
      ∀ later pieces, self.encodeItem header = .ok (later, pieces) →
        pieces = self.pushed header ∧ pieces.length ≤ maxPieces := by
  refine ⟨foldlM_push (by simpa using pushed_length self header), fun later pieces h => ?_⟩
  exact ⟨by simp only [Encoder.pushed, h], encodeItem_length h⟩

/-- The part of an opaque block, declined behind the end of one array and the start of another. -/
theorem encodeItem_fits_declined :
    let self : Encoder := ⟨⟨true, .two, none⟩, false, .summary, false⟩
    self.encodeItem ⟨.outputPart .content .opaqueBlock, 1⟩ = .error .declined ∧
      [literal "]", literal ",\"content\":["].foldlM Pieces.push [] =
        some (self.pushed ⟨.outputPart .content .opaqueBlock, 1⟩) := by
  intro self
  exact ⟨rfl, (encodeItem_fits self ⟨.outputPart .content .opaqueBlock, 1⟩).1⟩

/-- What holds of a request in either version. -/
structure EncoderLaws (request : Request) (version : Version) : Prop where
  /-- Its pieces are one JSON object, with one input item for each element of the history and of
  the Operation being prepared, in order, but for boundaries that leave the effort as it was. -/
  object : ∀ later bytes, (request.encoder version).encode request.items = .ok (later, bytes) →
    bytes = (request.tree version ((inputElements version (initial version
      request.settings.startingEffort).effort (request.history ++ request.current)).map
        HistoryElement.tree ++ request.trigger)).render
  /-- A fresh encoder given the carry at a boundary writes the same remainder, or declines it. -/
  resumed : ∀ past rest, request.history = past ++ rest → ∀ later bytes,
    (request.encoder version).encode (request.headItems ++ past.flatMap HistoryElement.items) =
        .ok (later, bytes) →
      (Encoder.encode { carry := later.carry } (request.itemsFrom rest)).map Prod.snd =
        (later.encode (request.itemsFrom rest)).map Prod.snd
  /-- So does the Host, which resumes at every boundary. -/
  host : ((request.encoder version).encodeForTesting (request.encoder version).carry
      request.items).map (fun last => last.2.2) =
    ((request.encoder version).encode request.items).map Prod.snd

/-- **A request is one JSON object, and resuming changes no byte of it.** -/
theorem encoder_laws (request : Request) (version : Version) : EncoderLaws request version := by
  constructor
  case object =>
    intro later bytes hencode
    have hrequest := encode_request request version
    rw [hencode, Request.input, Request.inputFrom] at hrequest
    have hversion : (request.encoder version).carry.version = version := by
      cases version <;> rfl
    cases hpast : entries (request.encoder version).carry request.history with
    | error e =>
      rw [hpast] at hrequest
      cases hrequest
    | ok past =>
      cases hnow : entries past.1 request.current with
      | error e =>
        rw [hpast, ok_bind] at hrequest
        dsimp only at hrequest
        rw [hnow] at hrequest
        cases hrequest
      | ok now =>
        obtain ⟨hmore, htrees⟩ := entries_inputElements hpast
        obtain ⟨-, htrees'⟩ := entries_inputElements hnow
        rw [hpast, ok_bind] at hrequest
        dsimp only at hrequest
        rw [hnow, ok_bind, hversion] at hrequest
        rw [hversion] at hmore htrees
        split at hrequest
        · cases hrequest
        · have hbytes : bytes = (request.tree version (past.2 ++ now.2 ++ request.trigger)).render :=
            Except.ok.inj hrequest
          rw [hbytes, htrees, htrees', ← List.map_append, ← hmore request.current]
          rfl
  case resumed =>
    intro past rest _ later bytes _
    exact (itemsFrom_encodes request rest).snd rfl
  case host => exact resumed_request request version

/-- A request of version one whose history is one Operation boundary. -/
def boundaryRequest : Request where
  settings := ⟨none, none⟩
  model := ['m']
  instructions := []
  history := [.operation none]
  effort := none
  declares := none
  compaction := false
  tools := []
  schema := none

/-- A boundary that leaves the effort as it was is no input item. -/
theorem boundaryRequest_input : boundaryRequest.history.length = 1 ∧
    ((boundaryRequest.encoder .one).encode boundaryRequest.items).map Prod.snd =
      .ok (text ("\x7b\"model\":\"m" ++ envelope ++ ",\"instructions\":\"\",\"input\":[]," ++
        "\"tools\":[],\"text\":\x7b\"verbosity\":\"low\"\x7d\x7d")) := by
  refine ⟨rfl, ?_⟩
  rw [encode_request]
  show Except.ok (boundaryRequest.tree .one []).render = _
  decide +kernel

end Rui.Responses
