import Rui.ContentChunks.ChunkLaws

/-!
# What is read of the chunks

A read's query is as long as it was announced, and its answer fills the destination with the
content's bytes, over the rows that a sink inserted.
-/

namespace Rui.ContentChunks

open Library Mysql

/-! ## Reading -/

/-- The places a read takes its bytes from, chunk by chunk: where each begins, and how long it is. -/
def pieces : Nat → Nat → Nat → List (Nat × Nat)
  | 0, _, _ => []
  | fuel + 1, position, left =>
    if left = 0 then []
    else
      let n := inChunk position left
      (position, n) :: pieces fuel (position + n) (left - n)

/-- A piece of the query's text. -/
def pieceText (id offset : Nat) (piece : Nat × Nat) : List UInt8 :=
  (if piece.1 ≠ offset then unionAll else []) ++ selectPiece id piece.1 piece.2

/-- The query that reads some bytes of a content. -/
def selectText (id offset len : Nat) : List UInt8 :=
  selectStart ++ (pieces len offset len).flatMap (pieceText id offset) ++ selectEnd

theorem sizePieces_eq (id offset fuel size position left : Nat) :
    sizePieces id offset fuel size position left =
      size + ((pieces fuel position left).flatMap (pieceText id offset)).length := by
  induction fuel generalizing size position left with
  | zero => rfl
  | succ fuel ih =>
    rw [sizePieces, pieces]
    split
    · rfl
    · rw [ih, List.flatMap_cons, List.length_append, pieceText, List.length_append]
      dsimp only
      by_cases hfirst : position ≠ offset
      · rw [if_pos hfirst, if_pos hfirst]
        omega
      · rw [if_neg hfirst, if_neg hfirst, List.length_nil]
        omega

/-- A query whose text grows, or whose connection is lost on the way. -/
def Sends (queries : List Query) (query : Query) (text : List UInt8)
    (connection : Connection) (sent : Connection × Bool) : Prop :=
  (sent.2 = true ∧ sent.1.lost = connection.lost ∧
    sent.1.queries = queries ++ [query.more text]) ∨
  (sent.2 = false ∧ sent.1.lost = true ∧ ∃ start, start <+: text ∧
    sent.1.queries = queries ++ [query.more start])

section Reading

variable (net : Net) {query : Query} {connection : Connection}

theorem sends_write (connection : Connection) {queries : List Query}
    (h : connection.queries = queries ++ [query]) (bytes : List UInt8) :
    Sends queries query bytes connection (connection.write net bytes) := by
  obtain ⟨next, ⟨hwrite, hsent⟩ | ⟨hwrite, hlost, taken, hsent⟩⟩ := write_cases net connection h bytes
  · rw [hwrite]
    exact .inl ⟨rfl, hsent⟩
  · rw [hwrite]
    exact .inr ⟨rfl, hlost, _, List.take_prefix _ _, hsent⟩

theorem Sends.andThen {queries : List Query} {text more : List UInt8} {sent : Connection × Bool}
    {next : Connection → Connection × Bool} (h : Sends queries query text connection sent)
    (hnext : ∀ middle, middle.queries = queries ++ [query.more text] →
      Sends queries (query.more text) more middle (next middle)) :
    Sends queries query (text ++ more) connection (andThen sent next) := by
  rw [ContentChunks.andThen]
  rcases h with ⟨htrue, hkept, hsent⟩ | ⟨hfalse, hlost, start, hstart, hsent⟩
  · rw [if_pos htrue]
    rcases hnext sent.1 hsent with ⟨htrue', hkept', hsent'⟩ | ⟨hfalse', hlost', start, hstart, hsent'⟩
    · exact .inl ⟨htrue', hkept'.trans hkept, by rw [hsent', Query.more_more]⟩
    · refine .inr ⟨hfalse', hlost', text ++ start, ?_, by rw [hsent', Query.more_more]⟩
      exact (List.prefix_append_right_inj text).mpr hstart
  · rw [if_neg (by rw [hfalse]; exact Bool.false_ne_true)]
    exact .inr ⟨hfalse, hlost, start, hstart.trans (List.prefix_append _ _), hsent⟩

/-- **The pieces of a read** are written one behind another. -/
theorem sends_pieces (id offset fuel position left : Nat) {queries : List Query}
    (h : connection.queries = queries ++ [query]) :
    Sends queries query ((pieces fuel position left).flatMap (pieceText id offset)) connection
      (writePieces net id offset fuel connection position left) := by
  have hnone : ∀ (connection : Connection) (query : Query),
      connection.queries = queries ++ [query] → Sends queries query [] connection (connection, true) :=
    fun connection query h => .inl ⟨rfl, rfl, by rw [h, Query.more_nil]⟩
  induction fuel generalizing connection query position left with
  | zero => exact hnone connection query h
  | succ fuel ih =>
    rw [writePieces, pieces]
    split
    · exact hnone connection query h
    · rw [List.flatMap_cons, pieceText, List.append_assoc]
      have hunion : Sends queries query (if position ≠ offset then unionAll else []) connection
          (if position ≠ offset then connection.write net unionAll else (connection, true)) := by
        split
        · exact sends_write net connection h unionAll
        · exact hnone connection query h
      exact hunion.andThen fun middle hmiddle =>
        (sends_write net middle hmiddle _).andThen fun last hlast => ih _ _ hlast

/-- **The query of a read**, and whether it was sent. -/
theorem sends_select (id offset len : Nat) {queries : List Query}
    (h : connection.queries = queries ++ [query]) :
    Sends queries query (selectText id offset len) connection
      (sendSelect net connection id offset len) := by
  rw [selectText, List.append_assoc, ← List.append_nil selectEnd]
  refine (sends_write net connection h selectStart).andThen fun first hfirst => ?_
  refine (sends_pieces net id offset len offset len hfirst).andThen fun middle hmiddle => ?_
  refine (sends_write net middle hmiddle selectEnd).andThen fun last hlast => ?_
  rw [Connection.endQuery]
  split
  · next hlost => exact .inr ⟨rfl, hlost, [], List.nil_prefix, by rw [hlast, Query.more_nil]⟩
  · split
    · exact .inl ⟨rfl, rfl, by rw [hlast, Query.more_nil]⟩
    · exact .inr ⟨rfl, rfl, [], List.nil_prefix, by rw [hlast, Query.more_nil]⟩

/-- The query of a read, as announced. -/
def selectQuery (id offset len : Nat) : Query where
  announced := (selectText id offset len).length
  text := selectText id offset len

/-- **A read** sends its query, as long as it was announced, and takes the answer to it; or it is an
error, and a query that is not whole is the last of a lost connection. -/
theorem readRaw_cases (connection : Connection) (observer : Observer) (id offset len : Nat)
    (hlen : 0 < len) :
    ∃ next observer' result,
      readRaw net connection observer id offset len = (next, observer', result) ∧
      ((next.queries = connection.queries ++ [selectQuery id offset len] ∧
          result = readAnswer offset len (net.answer connection.queries.length) ∧
          (next.lost = true ↔ (net.answer connection.queries.length).lost = true)) ∨
        (∃ err, result = .error err) ∧ (next = connection ∨ next.lost = true ∧ ∃ query : Query,
          next.queries = connection.queries ++ [query] ∧ query.text.length ≤ query.announced)) := by
  have hsize : sizePieces id offset len (selectStart.length + selectEnd.length) offset len =
      (selectText id offset len).length := by
    rw [sizePieces_eq, selectText, List.length_append, List.length_append]
    omega
  rw [readRaw, if_neg (by omega)]
  split
  · exact ⟨_, _, _, rfl, .inr ⟨⟨_, rfl⟩, .inl rfl⟩⟩
  rw [hsize]
  dsimp only
  rw [Connection.beginQuery]
  split
  · next hbegin => exact ⟨_, _, _, rfl, .inr ⟨⟨_, rfl⟩, .inl rfl⟩⟩
  · next begun hbegin =>
    split at hbegin
    · cases hbegin
    · next halive =>
      split at hbegin
      · cases hbegin
      · obtain rfl := Option.some_inj.mp hbegin
        obtain ⟨asked, hasked⟩ : ∃ asked : Connection, asked = { connection with
            queries := connection.queries ++ [⟨(selectText id offset len).length, []⟩] } := ⟨_, rfl⟩
        have hqueries : asked.queries =
            connection.queries ++ [⟨(selectText id offset len).length, []⟩] := by rw [hasked]
        have hlive : asked.lost = false := by
          rw [hasked]
          exact Bool.not_eq_true _ ▸ halive
        have hsend := sends_select net id offset len hqueries
        rw [← hasked]
        rcases hsent : sendSelect net asked id offset len with ⟨next, taken⟩
        rw [hsent] at hsend
        rcases hsend with ⟨htrue, hkept, hwhole⟩ | ⟨hfalse, hlost, start, hstart, hpart⟩
        · obtain rfl : taken = true := htrue
          have hanswer : next.answer net = net.answer connection.queries.length := by
            rw [Connection.answer, hwhole, List.length_append, List.length_singleton,
              Nat.add_sub_cancel]
          refine ⟨_, _, _, rfl, .inl ⟨hwhole, by rw [hanswer], ?_⟩⟩
          rw [hanswer, show next.lost = false from hkept.trans hlive, Bool.false_or]
        · obtain rfl : taken = false := hfalse
          exact ⟨_, _, _, rfl, .inr ⟨⟨_, rfl⟩, .inr ⟨hlost, _, hpart, hstart.length_le⟩⟩⟩

end Reading

/-! ## The answer to a read -/

def bytesOf : Event → List UInt8
  | .bytes bytes => bytes
  | _ => []

/-- An event of the one column and the rows that a read selects. -/
def ofRows : Event → Bool
  | .columns count => count == 1
  | .column column => column.charset == 63 && isStringType column.type
  | .value len => len.getD 0 != 0
  | .row | .bytes _ | .rowsEnd _ | .ready => true
  | _ => false

variable {offset len left position fuel : Nat} {reading : Reading} {blocks : List (List UInt8)}
  {content : List UInt8}

theorem event_filled {event : Event} (h : (reading.event offset len event).failure = none) :
    reading.failure = none ∧
      (reading.event offset len event).filled = reading.filled ++ bytesOf event ∧
      ofRows event = true := by
  cases event with
  | bytes bytes =>
    rw [Reading.event] at h ⊢
    split at h
    · cases h
    · next hfits =>
      rw [if_neg hfits]
      exact ⟨h, rfl, rfl⟩
  | columns n =>
    rw [Reading.event] at h ⊢
    split at h
    · cases h
    · next hone =>
      rw [if_neg hone]
      exact ⟨h, (List.append_nil _).symm, beq_iff_eq.mpr (not_not.mp hone)⟩
  | column column =>
    rw [Reading.event] at h ⊢
    dsimp only at h
    split at h
    · cases h
    · next hbinary =>
      exact ⟨h, (List.append_nil _).symm, by simpa [ofRows] using hbinary⟩
  | row =>
    rw [Reading.event] at h ⊢
    dsimp only at h
    split at h
    · cases h
    · exact ⟨h, (List.append_nil _).symm, rfl⟩
  | value maybe =>
    rw [Reading.event] at h ⊢
    dsimp only at h
    split at h
    · cases h
    · next hvalue =>
      simp only [not_or] at hvalue
      exact ⟨h, (List.append_nil _).symm, bne_iff_ne.mpr hvalue.2.2⟩
  | rowsEnd status => exact ⟨h, (List.append_nil _).symm, rfl⟩
  | ready => exact ⟨h, (List.append_nil _).symm, rfl⟩
  | send packet => cases h
  | startTls packet => cases h
  | ok ok => cases h
  | err err => cases h

theorem foldl_filled {events : List Event}
    (h : (events.foldl (Reading.event offset len) reading).failure = none) :
    (events.foldl (Reading.event offset len) reading).filled =
      reading.filled ++ events.flatMap bytesOf ∧ events.all ofRows = true := by
  have hall : reading.failure = none ∧ (events.foldl (Reading.event offset len) reading).filled =
      reading.filled ++ events.flatMap bytesOf ∧ events.all ofRows = true := by
    induction events generalizing reading with
    | nil => exact ⟨h, (List.append_nil _).symm, rfl⟩
    | cons event events ih =>
      rw [List.foldl_cons] at h ⊢
      obtain ⟨hstep, hrest, hrows⟩ := ih h
      obtain ⟨hnone, hfilled, hrow⟩ := event_filled hstep
      refine ⟨hnone, by rw [hrest, hfilled, List.flatMap_cons, List.append_assoc], ?_⟩
      rw [List.all_cons, hrow, hrows, Bool.and_self]
  exact hall.2

/-- **An answer of rows**: no error, no event that no rows have, and no loss of the connection. -/
structure Answer.Rows (self : Answer) : Prop where
  alive : self.lost = false
  rows : self.events.all ofRows = true

variable {answer : Answer} {id : Nat} {net : Net} {before : List Query} {s : SinkState}

/-- **What is read** is what the answer gives, and all that was asked for. -/
theorem readAnswer_ok {dest : List UInt8} (h : readAnswer offset len answer = .ok dest) :
    dest = answer.events.flatMap bytesOf ∧ dest.length = len ∧ answer.Rows := by
  rw [readAnswer] at h
  split at h
  · cases h
  · next halive =>
    split at h
    · cases h
    · next hnone =>
      dsimp only at h
      split at h
      · cases h
      · next hwhole =>
        cases h
        simp only [not_or, not_not] at hwhole
        obtain ⟨hfilled, hrows⟩ := foldl_filled hnone
        exact ⟨hfilled, hwhole.1, Bool.not_eq_true _ ▸ halive, hrows⟩

/-! ## The rows a server has -/

/-- The bytes of a content's chunk at an index, where its row is. -/
abbrev Table := Nat → Nat → Option (List UInt8)

/-- The rows the query selects: the part of each piece's chunk, in the order of their indexes. -/
def selected (table : Table) (id : Nat) (pieces : List (Nat × Nat)) : List (Nat × List UInt8) :=
  (pieces.filterMap fun piece => (table id (piece.1 / chunkBytes)).map fun bytes =>
    (piece.1 / chunkBytes, (bytes.drop (piece.1 % chunkBytes)).take piece.2)).mergeSort
      fun row other => row.1 ≤ other.1

/-- The events of a row whose value comes in these parts. -/
def rowEvents (parts : List (List UInt8)) : List Event :=
  .row :: .value (some parts.flatten.length) :: parts.map .bytes

/-- **An answer that gives these rows**, each value in parts of any lengths. -/
def Gives (rows : List (Nat × List UInt8)) (answer : Answer) : Prop :=
  answer.lost = false ∧ ∃ column status, ∃ values : List (List (List UInt8)),
    column.charset = 63 ∧ isStringType column.type = true ∧
    values.map List.flatten = rows.map Prod.snd ∧
    answer.events = .columns 1 :: .column column :: (values.flatMap rowEvents ++ [.rowsEnd status])

theorem inChunk_pos (position : Nat) (h : 0 < left) : 0 < inChunk position left := by
  have hmod := Nat.mod_lt position chunkBytes_pos
  rw [inChunk]
  omega

theorem inChunk_le (position left : Nat) : inChunk position left ≤ left := min_le_left _ _

theorem next_chunk (h : inChunk position left < left) :
    (position + inChunk position left) / chunkBytes = position / chunkBytes + 1 := by
  have hmod := Nat.mod_lt position chunkBytes_pos
  have hdiv := Nat.div_add_mod position chunkBytes
  have hn : inChunk position left = chunkBytes - position % chunkBytes := by
    rw [inChunk] at h ⊢
    omega
  have hsum : position + inChunk position left = chunkBytes * (position / chunkBytes + 1) := by
    rw [hn, Nat.mul_add, Nat.mul_one]
    omega
  rw [hsum, Nat.mul_div_cancel_left _ chunkBytes_pos]

theorem pieces_zero (fuel position : Nat) : pieces fuel position 0 = [] := by
  cases fuel <;> rfl

theorem mem_pieces {piece : Nat × Nat} (h : piece ∈ pieces fuel position left) :
    position ≤ piece.1 ∧ 0 < piece.2 ∧ piece.1 % chunkBytes + piece.2 ≤ chunkBytes ∧
      piece.1 + piece.2 ≤ position + left := by
  induction fuel generalizing position left with
  | zero => cases h
  | succ fuel ih =>
    rw [pieces] at h
    split at h
    · cases h
    · next hleft =>
      rcases List.mem_cons.mp h with rfl | hrest
      · have hmod := Nat.mod_lt position chunkBytes_pos
        refine ⟨le_rfl, inChunk_pos position (Nat.pos_of_ne_zero hleft), ?_, ?_⟩
        · dsimp only
          rw [inChunk]
          omega
        · exact Nat.add_le_add_left (inChunk_le position left) position
      · have hshare := inChunk_le position left
        obtain ⟨hle, hpos, hchunk, hend⟩ := ih hrest
        exact ⟨by omega, hpos, hchunk, by omega⟩

/-- **The pieces are of chunks one behind another.** -/
theorem pieces_ascending (fuel position left : Nat) :
    (pieces fuel position left).Pairwise fun piece other =>
      piece.1 / chunkBytes < other.1 / chunkBytes := by
  induction fuel generalizing position left with
  | zero => exact .nil
  | succ fuel ih =>
    rw [pieces]
    split
    · exact .nil
    · refine .cons (fun other hother => ?_) (ih _ _)
      rcases (inChunk_le position left).lt_or_eq with hlt | heq
      · have hnext := next_chunk hlt
        have hle := Nat.div_le_div_right (c := chunkBytes) (mem_pieces hother).1
        dsimp only
        omega
      · rw [heq, Nat.sub_self, pieces_zero] at hother
        cases hother

theorem pieces_content (content : List UInt8) (h : left ≤ fuel) :
    ((pieces fuel position left).flatMap fun piece => (content.drop piece.1).take piece.2) =
      (content.drop position).take left := by
  induction fuel generalizing position left with
  | zero =>
    obtain rfl := Nat.le_zero.mp h
    rfl
  | succ fuel ih =>
    rw [pieces]
    split
    · next hnone => rw [hnone, List.take_zero, List.flatMap_nil]
    · next hleft =>
      have hpos := inChunk_pos position (Nat.pos_of_ne_zero hleft)
      have hle := inChunk_le position left
      rw [List.flatMap_cons, ih (by omega), ← List.drop_drop, ← List.take_add]
      dsimp only
      rw [Nat.add_sub_cancel' hle]

theorem length_pieces (h : left ≤ fuel) (hleft : 0 < left) :
    (pieces fuel position left).length = (position % chunkBytes + left - 1) / chunkBytes + 1 := by
  induction fuel generalizing position left with
  | zero => omega
  | succ fuel ih =>
    rw [pieces, if_neg (by omega), List.length_cons]
    have hmod := Nat.mod_lt position chunkBytes_pos
    rcases (inChunk_le position left).lt_or_eq with hlt | heq
    · have hn : inChunk position left = chunkBytes - position % chunkBytes := by
        rw [inChunk] at hlt ⊢
        omega
      have hstart : (position + inChunk position left) % chunkBytes = 0 := by
        have hnext := next_chunk hlt
        have hdiv := Nat.div_add_mod (position + inChunk position left) chunkBytes
        have hdiv' := Nat.div_add_mod position chunkBytes
        rw [hnext, Nat.mul_add, Nat.mul_one] at hdiv
        omega
      have hmore : position % chunkBytes + left - 1 =
          (0 + (left - inChunk position left) - 1) + chunkBytes := by omega
      rw [ih (by omega) (by omega), hstart, hmore, Nat.add_div_right _ chunkBytes_pos]
    · rw [heq, Nat.sub_self, pieces_zero, List.length_nil]
      have hfits : position % chunkBytes + left - 1 < chunkBytes := by
        rw [inChunk] at heq
        omega
      rw [Nat.div_eq_of_lt hfits]

/-! ## Reading what was written -/

/-- **The bytes of a chunk's row** are the content's. -/
theorem Cut.getD {length : Nat} (h : Cut length blocks) (index : Nat) :
    (blocks[index]?).getD [] = (blocks.flatten.drop (chunkBytes * index)).take chunkBytes := by
  induction blocks using List.reverseRecOn with
  | nil => simp
  | append_singleton blocks block ih =>
    obtain ⟨hblock, hpos⟩ := h blocks.length block (by simp)
    have hlength := h.dropLast.length_flatten
    have hfull : blocks.flatten.length = chunkBytes * blocks.length := by omega
    rw [List.flatten_append, List.flatten_singleton]
    rcases Nat.lt_trichotomy index blocks.length with hlt | rfl | hgt
    · have hinside : chunkBytes * index + chunkBytes ≤ blocks.flatten.length := by
        rw [hfull, ← Nat.mul_succ]
        exact Nat.mul_le_mul_left _ hlt
      rw [List.getElem?_append_left hlt, ih h.dropLast, List.drop_append_of_le_length (by omega),
        List.take_append_of_le_length (by rw [List.length_drop]; omega)]
    · rw [List.getElem?_append_right le_rfl, Nat.sub_self, ← hfull, List.drop_left,
        List.take_of_length_le (by omega)]
      rfl
    · have houtside : chunkBytes * blocks.length + chunkBytes ≤ chunkBytes * index := by
        rw [← Nat.mul_succ]
        exact Nat.mul_le_mul_left _ hgt
      rw [List.getElem?_eq_none (by rw [List.length_append, List.length_singleton]; omega),
        List.drop_eq_nil_of_le (by rw [List.length_append]; omega), List.take_nil]
      rfl

theorem take_chunk (content : List UInt8) {n : Nat} (h : position % chunkBytes + n ≤ chunkBytes) :
    ((((content.drop (chunkBytes * (position / chunkBytes))).take chunkBytes).drop
      (position % chunkBytes)).take n) = (content.drop position).take n := by
  rw [List.drop_take, List.take_take, List.drop_drop, Nat.div_add_mod, min_eq_left (by omega)]

section Rows

variable {length id : Nat} {blocks : List (List UInt8)} {table : Table}

theorem selected_eq (fuel position left : Nat) :
    selected table id (pieces fuel position left) =
      (pieces fuel position left).filterMap fun piece =>
        (table id (piece.1 / chunkBytes)).map fun bytes =>
          (piece.1 / chunkBytes, (bytes.drop (piece.1 % chunkBytes)).take piece.2) := by
  rw [selected]
  refine List.mergeSort_of_pairwise ?_
  rw [List.pairwise_filterMap]
  refine (pieces_ascending fuel position left).imp fun hlt row hrow other hother => ?_
  obtain ⟨bytes, -, rfl⟩ := Option.map_eq_some_iff.mp hrow
  obtain ⟨bytes', -, rfl⟩ := Option.map_eq_some_iff.mp hother
  exact decide_eq_true hlt.le

variable {fuel position left : Nat}

/-- **What the rows hold** is what there is of the content to read. -/
theorem selected_bytes (hcut : Cut length blocks)
    (htable : ∀ index, table id index = blocks[index]?) (h : left ≤ fuel) :
    ((selected table id (pieces fuel position left)).map Prod.snd).flatten =
      (blocks.flatten.drop position).take left := by
  rw [selected_eq, ← pieces_content blocks.flatten h]
  have hmem : ∀ piece ∈ pieces fuel position left,
      piece.1 % chunkBytes + piece.2 ≤ chunkBytes := fun piece hpiece => (mem_pieces hpiece).2.2.1
  generalize pieces fuel position left = list at hmem
  induction list with
  | nil => rfl
  | cons piece rest ih =>
    have hget := hcut.getD (piece.1 / chunkBytes)
    have hpiece := take_chunk blocks.flatten (hmem piece List.mem_cons_self)
    rw [← hget] at hpiece
    have hrest := ih fun other hother => hmem other (List.mem_cons_of_mem _ hother)
    rw [List.flatMap_cons, ← hpiece, ← hrest]
    cases hrow : blocks[piece.1 / chunkBytes]? with
    | none => simp [htable, hrow]
    | some bytes => simp [htable, hrow]

/-- Within the content every piece has its row, as long as the piece. -/
theorem selected_within (hcut : Cut length blocks)
    (htable : ∀ index, table id index = blocks[index]?)
    (hwithin : position + left ≤ blocks.flatten.length) :
    (selected table id (pieces fuel position left)).map Prod.snd =
      (pieces fuel position left).map fun piece => (blocks.flatten.drop piece.1).take piece.2 := by
  rw [selected_eq]
  have hmem : ∀ piece ∈ pieces fuel position left, 0 < piece.2 ∧
      piece.1 % chunkBytes + piece.2 ≤ chunkBytes ∧ piece.1 + piece.2 ≤ blocks.flatten.length :=
    fun piece hpiece => ⟨(mem_pieces hpiece).2.1, (mem_pieces hpiece).2.2.1,
      (mem_pieces hpiece).2.2.2.trans hwithin⟩
  generalize pieces fuel position left = list at hmem
  induction list with
  | nil => rfl
  | cons piece rest ih =>
    obtain ⟨hpos, hchunk, hend⟩ := hmem piece List.mem_cons_self
    have hget := hcut.getD (piece.1 / chunkBytes)
    have hpiece := take_chunk blocks.flatten hchunk
    rw [← hget] at hpiece
    have hrest := ih fun other hother => hmem other (List.mem_cons_of_mem _ hother)
    cases hrow : blocks[piece.1 / chunkBytes]? with
    | none =>
      rw [hrow, Option.getD_none, List.drop_nil, List.take_nil] at hpiece
      have hnone := congrArg List.length hpiece
      rw [List.length_nil, List.length_take, List.length_drop] at hnone
      omega
    | some bytes =>
      rw [hrow, Option.getD_some] at hpiece
      rw [List.filterMap_cons, htable, hrow, Option.map_some]
      dsimp only
      rw [List.map_cons, List.map_cons, hrest, hpiece]

end Rows

/-! ## Taking the rows -/

theorem read_parts (parts : List (List UInt8)) (hvalue : reading.valueLeft = parts.flatten.length)
    (hroom : reading.filled.length + parts.flatten.length ≤ len) :
    (parts.map Event.bytes).foldl (Reading.event offset len) reading =
      { reading with filled := reading.filled ++ parts.flatten, valueLeft := 0 } := by
  induction parts generalizing reading with
  | nil =>
    rw [List.flatten_nil, List.length_nil] at hvalue
    rw [List.map_nil, List.foldl_nil, List.flatten_nil, List.append_nil, ← hvalue]
  | cons bytes parts ih =>
    rw [List.flatten_cons, List.length_append] at hvalue hroom
    have hfits : ¬ (bytes.length > reading.valueLeft ∨ bytes.length > len - reading.filled.length) := by
      omega
    rw [List.map_cons, List.foldl_cons, Reading.event, if_neg hfits, ih]
    · rw [List.flatten_cons, List.append_assoc]
    · dsimp only
      omega
    · rw [List.length_append]
      omega

/-- **A row fills its piece.** -/
theorem read_row {parts : List (List UInt8)} (hnone : reading.failure = none)
    (howed : reading.valueLeft = 0) (hawaiting : reading.awaitingValue = false)
    (hposition : offset + reading.filled.length = position)
    (hleft : reading.filled.length + left = len) (hpos : 0 < left)
    (hlength : parts.flatten.length = inChunk position left) :
    (rowEvents parts).foldl (Reading.event offset len) reading =
      { reading with filled := reading.filled ++ parts.flatten, rows := reading.rows + 1 } := by
  have hexpected : inChunk (offset + reading.filled.length) (len - reading.filled.length) =
      parts.flatten.length := by
    rw [hposition, hlength, ← hleft, Nat.add_sub_cancel_left]
  have hchunk := inChunk_pos position hpos
  have hle := inChunk_le position left
  rw [rowEvents, List.foldl_cons, List.foldl_cons, read_parts]
  · simp only [Reading.event, hnone, howed, hawaiting, hexpected, Option.getD_some]
    have hok : ¬ (parts.flatten.length = 0) := by omega
    simp [hok, -List.length_flatten]
  · simp [Reading.event]
  · simp only [Reading.event]
    omega

/-- **The rows fill what is read**, by induction on the pieces. -/
theorem read_rows {values : List (List (List UInt8))} (hfuel : left ≤ fuel)
    (hwithin : position + left ≤ content.length)
    (hvalues : values.map List.flatten =
      (pieces fuel position left).map fun piece => (content.drop piece.1).take piece.2)
    (hnone : reading.failure = none) (howed : reading.valueLeft = 0)
    (hawaiting : reading.awaitingValue = false)
    (hposition : offset + reading.filled.length = position)
    (hleft : reading.filled.length + left = len) :
    (values.flatMap rowEvents).foldl (Reading.event offset len) reading =
      { reading with
        filled := reading.filled ++ (content.drop position).take left
        rows := reading.rows + (pieces fuel position left).length } := by
  induction fuel generalizing position left values reading with
  | zero =>
    obtain rfl := Nat.le_zero.mp hfuel
    rw [pieces, List.map_nil, List.map_eq_nil_iff] at hvalues
    subst hvalues
    simp [pieces]
  | succ fuel ih =>
    rw [pieces] at hvalues ⊢
    split at hvalues
    · next hzero =>
      rw [List.map_nil, List.map_eq_nil_iff] at hvalues
      subst hvalues
      simp [hzero]
    · next hmore =>
      dsimp only at hvalues
      rw [List.map_cons] at hvalues
      obtain ⟨parts, rest, rfl, hparts, hrest⟩ := List.map_eq_cons_iff.mp hvalues
      have hle := inChunk_le position left
      have hchunk := inChunk_pos position (Nat.pos_of_ne_zero hmore)
      have hlength : parts.flatten.length = inChunk position left := by
        rw [hparts, List.length_take, List.length_drop]
        omega
      rw [if_neg hmore, List.flatMap_cons, List.foldl_append,
        read_row hnone howed hawaiting hposition hleft (Nat.pos_of_ne_zero hmore) hlength]
      refine (ih (by omega) (by omega) hrest ?_ ?_ ?_ ?_ ?_).trans ?_
      · exact hnone
      · exact howed
      · exact hawaiting
      · rw [List.length_append, hlength]
        omega
      · rw [List.length_append, hlength]
        omega
      · have hjoin : (content.drop position).take left = parts.flatten ++
            (content.drop (position + inChunk position left)).take (left - inChunk position left) := by
          rw [hparts, ← List.drop_drop, ← List.take_add, Nat.add_sub_cancel' hle]
        rw [hjoin, List.append_assoc, List.length_cons]
        dsimp only
        rw [Nat.add_assoc, Nat.add_comm 1]

theorem bytesOf_values (values : List (List (List UInt8))) :
    (values.flatMap rowEvents).flatMap bytesOf = (values.map List.flatten).flatten := by
  have hparts : ∀ parts : List (List UInt8), (parts.map Event.bytes).flatMap bytesOf = parts.flatten := by
    intro parts
    rw [List.flatMap_map]
    exact List.flatMap_id
  induction values with
  | nil => rfl
  | cons parts rest ih =>
    rw [List.flatMap_cons, List.flatMap_append, ih, List.map_cons, List.flatten_cons, rowEvents,
      List.flatMap_cons, List.flatMap_cons, hparts]
    rfl

variable {table : Table}

/-- **A read of the rows written** fills its destination with the content's bytes, or is an error;
and it is none where the content has the bytes. -/
theorem readAnswer_spec (hcut : Cut blocks.flatten.length blocks)
    (htable : ∀ index, table id index = blocks[index]?) (hlen : 0 < len)
    (h : Gives (selected table id (pieces len offset len)) answer) :
    (∀ dest, readAnswer offset len answer = .ok dest →
      dest = (blocks.flatten.drop offset).take len ∧ dest.length = len) ∧
    (offset + len ≤ blocks.flatten.length →
      readAnswer offset len answer = .ok ((blocks.flatten.drop offset).take len)) := by
  obtain ⟨halive, column, status, values, hcharset, htype, hvalues, hevents⟩ := h
  constructor
  · intro dest hdest
    obtain ⟨hbytes, hlength, -⟩ := readAnswer_ok hdest
    refine ⟨?_, hlength⟩
    rw [hbytes, hevents, List.flatMap_cons, List.flatMap_cons, List.flatMap_append, bytesOf_values,
      hvalues, selected_bytes hcut htable le_rfl]
    exact List.append_nil _
  · intro hwithin
    rw [selected_within hcut htable hwithin] at hvalues
    have hread : (values.flatMap rowEvents).foldl (Reading.event offset len) { columns := 1 } =
        { columns := 1
          filled := (blocks.flatten.drop offset).take len
          rows := (pieces len offset len).length } := by
      refine (read_rows le_rfl hwithin hvalues ?_ ?_ ?_ ?_ ?_).trans ?_
      · rfl
      · rfl
      · rfl
      · rfl
      · exact Nat.zero_add len
      · rw [List.nil_append, Nat.zero_add]
    have hcolumn : Reading.event offset len {} (.column column) = { columns := 1 } := by
      simp [Reading.event, hcharset, htype]
    have hall : answer.events.foldl (Reading.event offset len) {} =
        { columns := 1
          filled := (blocks.flatten.drop offset).take len
          rows := (pieces len offset len).length } := by
      rw [hevents, List.foldl_cons, List.foldl_cons, List.foldl_append, Reading.event, if_neg (by simp),
        hcolumn, hread]
      rfl
    have hlength : ((blocks.flatten.drop offset).take len).length = len := by
      rw [List.length_take, List.length_drop]
      omega
    rw [readAnswer, hall, halive, if_neg Bool.false_ne_true]
    dsimp only
    rw [hlength, length_pieces le_rfl hlen]
    simp

/-! ## Any content -/

/-- **What a read comes to** over rows that hold a content: its query is as long as announced, its
destination is filled with the content's bytes or there is an error, which there is not where the
server gives them and is where it answers with an error, with other events or not at all. -/
def Reads (table : Table) (content : List UInt8) (id offset len : Nat) (net : Net)
    (connection : Connection) (out : Connection × Observer × Except Failure (List UInt8)) : Prop :=
  let answer := net.answer connection.queries.length
  let gives := Gives (selected table id (pieces len offset len)) answer
  (out.1 = connection ∨ ∃ query : Query, out.1.queries = connection.queries ++ [query] ∧
    query.text.length ≤ query.announced ∧ (query.Whole ∨ out.1.lost = true)) ∧
  (∀ dest, out.2.2 = .ok dest → dest.length = len ∧ (0 < len →
    answer.Rows ∧ out.1.queries = connection.queries ++ [selectQuery id offset len])) ∧
  (gives → ∀ dest, out.2.2 = .ok dest → dest = (content.drop offset).take len) ∧
  (gives → offset + len ≤ content.length → 0 < len →
    out.1.queries = connection.queries ++ [selectQuery id offset len] → out.1.lost = false →
      out.2.2 = .ok ((content.drop offset).take len))

theorem readRaw_reads (net : Net) (connection : Connection) (observer : Observer) (offset len : Nat)
    (hcut : Cut blocks.flatten.length blocks) (htable : ∀ index, table id index = blocks[index]?) :
    Reads table blocks.flatten id offset len net connection
      (readRaw net connection observer id offset len) := by
  rcases Nat.eq_zero_or_pos len with rfl | hlen
  · rw [readRaw, if_pos rfl]
    refine ⟨.inl rfl, fun dest hdest => ?_, fun _ dest hdest => ?_, fun _ _ hpos => absurd hpos (by decide)⟩
    · cases hdest
      exact ⟨rfl, fun hpos => absurd hpos (by decide)⟩
    · cases hdest
      rw [List.take_zero]
  obtain ⟨next, observer', result, hread, ⟨hqueries, rfl, -⟩ | ⟨⟨err, rfl⟩, hnext⟩⟩ :=
    readRaw_cases net connection observer id offset len hlen
  · rw [hread]
    refine ⟨.inr ⟨_, hqueries, le_rfl, .inl rfl⟩, fun dest hdest => ?_,
      fun hgives dest hdest => ?_, fun hgives hwithin _ _ _ => ?_⟩
    · obtain ⟨-, hlength, hrows⟩ := readAnswer_ok hdest
      exact ⟨hlength, fun _ => ⟨hrows, hqueries⟩⟩
    · exact ((readAnswer_spec hcut htable hlen hgives).1 dest hdest).1
    · exact (readAnswer_spec hcut htable hlen hgives).2 hwithin
  · rw [hread]
    refine ⟨?_, nofun, nofun, fun _ _ _ hsent halive => ?_⟩
    · rcases hnext with rfl | ⟨hlost, query, hqueries, hshort⟩
      · exact .inl rfl
      · exact .inr ⟨query, hqueries, hshort, .inr hlost⟩
    · rcases hnext with rfl | ⟨hlost, -⟩
      · exact absurd hsent fun hsame => List.cons_ne_nil _ _ (List.append_right_eq_self.mp hsame.symm)
      · dsimp only at halive
        rw [hlost] at halive
        cases halive

/-- The queries of a sink in any phase: whole, but for the last one where it is open or lost, and
while nothing has failed each whole one inserted its row. -/
def SinkState.Sent (net : Net) (before : List Query) (s : SinkState) : Prop :=
  ∃ done last, s.connection.queries = before ++ (done ++ last) ∧
    (∀ query ∈ done, query.Whole) ∧ (last = [] ∨ ∃ query, last = [query] ∧
      query.text.length ≤ query.announced ∧
      (s.connection.lost = true ∨ s.opened = true ∧ 0 < s.remaining)) ∧
    (s.failure = none →
      Inserted net before.length done.length ∧ (last ≠ [] → s.connection.lost = false))

theorem Phase.queries (h : Phase net before content s) : s.Sent net before := by
  cases h with
  | live holds closed =>
    obtain ⟨blocks, part, -, -, hinserted, ⟨-, -, hqueries⟩ | ⟨howed, halive, -, hqueries⟩⟩ :=
      holds.chunks
    · refine ⟨_, [], by rw [hqueries, List.append_nil], fun _ => whole_of_mem_inserts, .inl rfl,
        fun _ => ⟨?_, fun h => absurd rfl h⟩⟩
      rwa [inserts, List.length_mapIdx]
    · refine ⟨_, _, hqueries, fun _ => whole_of_mem_inserts, .inr ⟨_, rfl, ?_, .inr ⟨?_, howed⟩⟩,
        fun _ => ⟨?_, fun _ => halive⟩⟩
      · simp only [openQuery, List.length_append, length_toHex]
        omega
      · exact closed.resolve_right (by omega)
      · rwa [inserts, List.length_mapIdx]
  | stopped stopped why =>
    rcases why with hfailed | ⟨-, -, blocks, hqueries, hinserted⟩
    · obtain ⟨done, last, hqueries, hdone, hlast, -⟩ := stopped
      refine ⟨done, last, hqueries, hdone, hlast.imp id ?_, fun hnone => absurd hnone hfailed⟩
      rintro ⟨hlost, query, hlast, hshort⟩
      exact ⟨query, hlast, hshort, .inl hlost⟩
    · refine ⟨_, [], by rw [hqueries, List.append_nil], fun _ => whole_of_mem_inserts, .inl rfl,
        fun _ => ⟨?_, fun h => absurd rfl h⟩⟩
      rwa [inserts, List.length_mapIdx]

/-- A whole content written without a failure is in its inserts. -/
theorem Phase.rows (h : Phase net before content s) (hnone : s.failure = none)
    (hall : content.length = s.length) : ∃ blocks, content = blocks.flatten ∧ Cut s.length blocks ∧
      s.connection.queries = before ++ inserts s.id blocks := by
  cases h with
  | live holds closed =>
    obtain ⟨blocks, part, hcontent, hcut, -, ⟨-, rfl, hqueries⟩ | ⟨howed, -, hsize, -⟩⟩ := holds.chunks
    · exact ⟨blocks, by rw [hcontent, List.append_nil], hcut, hqueries⟩
    · have hlength := hcut.length_flatten
      rw [hcontent, List.length_append, hlength] at hall
      omega
  | stopped stopped why =>
    rcases why with hfailed | ⟨-, hshort, -⟩
    · exact absurd hnone hfailed
    · omega

/-- **Content in chunks**, in any run of a sink, whatever the server answers. -/
theorem content_chunks (net : Net) (connection : Connection) (changes : Int) (observer : Observer)
    (id length : Nat) (ops : List Op) :
    let now := run net (SinkState.init connection changes observer id length) ops
    let s := now.1
    s.Sent net connection.queries ∧
    (s.failure = none → now.2.length = length → ∃ blocks, now.2 = blocks.flatten ∧
      Cut length blocks ∧ s.connection.queries = connection.queries ++ inserts id blocks ∧
      ∀ table : Table, (∀ index, table id index = blocks[index]?) →
        ∀ net' connection' observer' offset len, Reads table now.2 id offset len net' connection'
          (readRaw net' connection' observer' id offset len)) ∧
    (∀ bytes offset, s.Takes bytes offset →
      ((s.write net bytes offset).2 = .ok () ∧ (s.write net bytes offset).1.failure = none) ∨
      (s.write net bytes offset).2 = .error .contentWriteFailed ∧
        ∃ err, (s.write net bytes offset).1.failure = some err ∧
          Caused net (s.write net bytes offset).1 err) ∧
    (∀ bytes offset, ¬ s.Takes bytes offset →
      ∃ error, s.write net bytes offset = (s, .error error)) ∧
    (s.opened = true → 0 < s.remaining → s.connection.lost = false → ∃ queries query next,
      s.connection.queries = queries ++ [query] ∧
      (s.close net).connection.queries = queries ++ [next] ∧ query.Grown next ∧
      ((s.close net).connection.lost = false → next.Whole)) ∧
    (s.opened = false ∨ s.remaining = 0 ∨ s.connection.lost = true →
      (s.close net).connection = s.connection) ∧
    (∀ err, (s.close net).failure = some err → s.failure = some err ∨ Failed net (s.close net) err) ∧
    (s.connection.lost = false → (s.close net).connection.lost = true →
      (s.close net).failure = some .storeConnectionLost) ∧
    ∀ kept, s.failure = some kept →
      (∀ bytes offset, s.write net bytes offset = (s, .error .contentWriteFailed)) ∧
      ((s.close net).failure = some kept ∨
        (s.close net).failure = some .storeConnectionLost ∧ (s.close net).connection.lost = true) := by
  dsimp only
  obtain ⟨hphase, hid, hlength⟩ := run_phase net (phase_init net connection changes observer id length) ops
  generalize run net (SinkState.init connection changes observer id length) ops = now at hphase hid hlength
  obtain ⟨-, -, -, hlatches⟩ := close_phase net hphase
  refine ⟨hphase.queries, fun hnone hall => ?_, fun bytes offset htakes => ?_,
    fun bytes offset hrefused => write_refused net hrefused, fun hopened howed halive => ?_,
    fun hidle => ?_, fun err hfailure => hlatches.cause net hfailure,
    fun halive hlost => hlatches.lost net halive hlost,
    fun kept hkept => ⟨fun bytes offset => ?_, hlatches.kept net hkept⟩⟩
  · obtain ⟨blocks, hcontent, hcut, hqueries⟩ := hphase.rows hnone (hall.trans hlength.symm)
    rw [hlength] at hcut
    rw [hid] at hqueries
    refine ⟨blocks, hcontent, hcut, hqueries, fun table htable net' connection' observer' offset len => ?_⟩
    rw [hcontent] at hall ⊢
    exact readRaw_reads net' connection' observer' offset len (by rw [hall]; exact hcut) htable
  · obtain ⟨next, result, hwrite, -, -, ⟨rfl, hnone, -⟩ | ⟨rfl, -, hcaused⟩⟩ :=
      write_taken net hphase htakes
    · rw [hwrite]
      exact .inl ⟨rfl, hnone⟩
    · rw [hwrite]
      exact .inr ⟨rfl, hcaused⟩
  · cases hphase with
    | live holds closed => exact (close_open net holds hopened howed).query
    | stopped stopped why =>
      obtain ⟨-, -, -, -, -, hend⟩ := stopped
      rcases hend with hzero | hlost
      · omega
      · rw [hlost] at halive
        cases halive
  · rw [close_between net hidle]
  · rw [SinkState.write, if_pos (.inr (by rw [hkept]; exact Option.some_ne_none kept))]

/-- A query is shorter than it was announced where the connection is lost in it, and a write that is
refused for its offset keeps no later one from the server. -/
theorem content_chunks_lost :
    let net : Net := ⟨fun n => if n = 1 then some 1 else none, fun _ => { events := [] }⟩
    let start := SinkState.init {} 0 {} 1 2
    (∃ query ∈ (run net start [.write [1, 2] 0, .close]).1.connection.queries,
      query.text.length < query.announced) ∧
    (start.write net [1] 1).2 = .error .contentWriteFailed ∧
    (run net start [.write [1] 1, .write [1, 2] 0]).1.connection.queries.length = 1 := by
  decide +kernel

end Rui.ContentChunks
