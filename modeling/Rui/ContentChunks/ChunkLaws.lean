import Rui.ContentChunks.Chunks

/-!
# What a sink sends

The queries of a sink in any run of writes, whatever the server answers: each as long as it was
announced, and the content in them, chunk by chunk.
-/

namespace Rui.ContentChunks

open Library Mysql

/-! ## Queries -/

/-- A query that is as long as it was announced. -/
def Query.Whole (self : Query) : Prop := self.text.length = self.announced

/-- The insert of a chunk. -/
def insertQuery (id index : Nat) (bytes : List UInt8) : Query where
  announced := (insertStart id index).length + bytes.length * 2 + 2
  text := insertStart id index ++ toHex bytes ++ text "')"

/-- The insert of a chunk of `n` bytes, of which these are written. -/
def openQuery (id index n : Nat) (bytes : List UInt8) : Query where
  announced := (insertStart id index).length + n * 2 + 2
  text := insertStart id index ++ toHex bytes

/-- A query with more text. -/
def Query.more (self : Query) (bytes : List UInt8) : Query := { self with text := self.text ++ bytes }

theorem Query.more_nil (self : Query) : self.more [] = self := by rw [Query.more, List.append_nil]

theorem Query.more_more (self : Query) (bytes more : List UInt8) :
    (self.more bytes).more more = self.more (bytes ++ more) := by
  rw [Query.more, Query.more, Query.more, List.append_assoc]

/-- The inserts of a content's first chunks. -/
def inserts (id : Nat) (blocks : List (List UInt8)) : List Query := blocks.mapIdx (insertQuery id)

theorem toHex_append (bytes more : List UInt8) : toHex (bytes ++ more) = toHex bytes ++ toHex more :=
  List.flatMap_append

theorem openQuery_more (id index n : Nat) (bytes more : List UInt8) :
    (openQuery id index n bytes).more (toHex more) = openQuery id index n (bytes ++ more) := by
  rw [Query.more, openQuery, openQuery, toHex_append, List.append_assoc]

theorem openQuery_ends (id index : Nat) {n : Nat} {bytes : List UInt8} (h : bytes.length = n) :
    (openQuery id index n bytes).more (text "')") = insertQuery id index bytes := by
  rw [Query.more, openQuery, insertQuery, h]

theorem openQuery_starts (id index n : Nat) (bytes more : List UInt8) :
    (openQuery id index n bytes).text <+: (openQuery id index n (bytes ++ more)).text := by
  rw [← openQuery_more]
  exact List.prefix_append _ _

/-- The end of a chunk's insert that is broken off is no longer than what was announced. -/
theorem openQuery_short (id index : Nat) {n : Nat} {bytes : List UInt8} (h : bytes.length = n)
    (taken : Nat) : ((openQuery id index n bytes).more ((text "')").take taken)).text.length ≤
      (openQuery id index n bytes).announced := by
  have hquote : (text "')").length = 2 := rfl
  simp only [Query.more, openQuery, List.length_append, List.length_take, length_toHex, hquote, h]
  omega

theorem whole_insertQuery (id index : Nat) (bytes : List UInt8) : (insertQuery id index bytes).Whole := by
  rw [Query.Whole, insertQuery, List.length_append, List.length_append, length_toHex,
    Nat.mul_comm 2]
  rfl

variable {blocks : List (List UInt8)} {length : Nat}

theorem whole_of_mem_inserts {id : Nat} {query : Query} (h : query ∈ inserts id blocks) :
    query.Whole := by
  rw [inserts, List.mem_mapIdx] at h
  obtain ⟨index, hindex, rfl⟩ := h
  exact whole_insertQuery id index _

theorem inserts_snoc (id : Nat) (blocks : List (List UInt8)) (block : List UInt8) :
    inserts id (blocks ++ [block]) = inserts id blocks ++ [insertQuery id blocks.length block] := by
  rw [inserts, inserts, List.mapIdx_append, List.mapIdx_singleton, Nat.zero_add]

/-! ## Chunks -/

/-- **Chunks of a content**: each but the last is full. -/
def Cut (length : Nat) (blocks : List (List UInt8)) : Prop :=
  ∀ index block, blocks[index]? = some block →
    block.length = min chunkBytes (length - chunkBytes * index) ∧ 0 < block.length

theorem chunkBytes_pos : 0 < chunkBytes := by decide

variable {block : List UInt8} {answer : Answer}

theorem cut_snoc (h : Cut length blocks)
    (hblock : block.length = min chunkBytes (length - chunkBytes * blocks.length))
    (hpos : 0 < block.length) : Cut length (blocks ++ [block]) := by
  intro index one hone
  rw [List.getElem?_append] at hone
  split at hone
  · exact h index one hone
  · next hlast =>
    rw [List.getElem?_singleton] at hone
    split at hone
    · next hzero =>
      obtain rfl := Option.some_inj.mp hone
      obtain rfl : index = blocks.length := by omega
      exact ⟨hblock, hpos⟩
    · cases hone

theorem Cut.dropLast (h : Cut length (blocks ++ [block])) : Cut length blocks := by
  intro index one hone
  refine h index one ?_
  rw [List.getElem?_append_left (List.getElem?_eq_some_iff.mp hone).1, hone]

theorem Cut.length_flatten (h : Cut length blocks) :
    blocks.flatten.length = min (chunkBytes * blocks.length) length := by
  induction blocks using List.reverseRecOn with
  | nil => simp
  | append_singleton blocks block ih =>
    obtain ⟨hblock, hpos⟩ := h blocks.length block (by simp)
    rw [List.flatten_append, List.length_append, ih h.dropLast, List.flatten_singleton, hblock,
      List.length_append, List.length_singleton, Nat.mul_add, Nat.mul_one]
    omega

/-! ## What an insert is answered with -/

/-- The rows that were changed, as the OKs tell them. -/
def rowCounts (events : List Event) : List Nat :=
  events.filterMap fun event =>
    match event with
    | .ok ok => some ok.affectedRows
    | _ => none

/-- An event that no insert is answered with. -/
def strange : Event → Bool
  | .ok _ | .err _ | .ready => false
  | _ => true

/-- **An answer that inserts one row**: one OK, for one row. -/
structure Answer.Inserts (self : Answer) : Prop where
  alive : self.lost = false
  rows : rowCounts self.events = [1]
  accepted : errorCodes self.events = []
  expected : self.events.any strange = false

/-- **What any other answer is a failure of**, where the connection is not lost. -/
inductive Answer.FailsAs (self : Answer) : Failure → Prop
  | refused (code : Nat) (h : code ∈ errorCodes self.events) : self.FailsAs (serverFailure code)
  | garbled (h : self.events.any strange = true) : self.FailsAs .corruptStore
  | twice (h : 1 < (rowCounts self.events).length) : self.FailsAs .corruptStore
  | rows (accepted : errorCodes self.events = []) (h : rowCounts self.events ≠ [1]) :
      self.FailsAs .corruptStore

theorem Answer.FailsAs.ne_lost {err : Failure} (h : answer.FailsAs err) :
    err ≠ .storeConnectionLost := by
  cases h with
  | refused code h =>
    rw [serverFailure]
    split <;> decide
  | garbled h => decide
  | twice h => decide
  | rows accepted h => decide

/-- **What `finishInsert` keeps of the events**, by induction on them: the last OK's rows, and a
failure where one of them is one. -/
theorem foldl_inserting (events : List Event) :
    let told := events.foldl Inserting.event {}
    told.changed = (rowCounts events).getLast? ∧
    (told.failure = none →
      errorCodes events = [] ∧ (rowCounts events).length ≤ 1 ∧ events.any strange = false) ∧
    ∀ err, told.failure = some err → (∃ code ∈ errorCodes events, err = serverFailure code) ∨
      err = .corruptStore ∧ (events.any strange = true ∨ 1 < (rowCounts events).length) := by
  induction events using List.reverseRecOn with
  | nil => exact ⟨rfl, fun _ => ⟨rfl, Nat.zero_le 1, rfl⟩, nofun⟩
  | append_singleton events event ih =>
    obtain ⟨hchanged, hnone, hsome⟩ := ih
    dsimp only
    rw [List.foldl_append, List.foldl_cons, List.foldl_nil]
    generalize events.foldl Inserting.event {} = told at hchanged hnone hsome
    have hcodes : errorCodes (events ++ [event]) = errorCodes events ++ errorCodes [event] :=
      List.filterMap_append
    have hrows : rowCounts (events ++ [event]) = rowCounts events ++ rowCounts [event] :=
      List.filterMap_append
    rw [hcodes, hrows, List.any_append]
    cases event with
    | ok ok =>
      have hfirst : told.changed ≠ none ↔ 1 ≤ (rowCounts events).length := by
        rw [hchanged, Nat.one_le_iff_ne_zero, ne_eq, ne_eq, List.getLast?_eq_none_iff,
          List.length_eq_zero_iff]
      have hone : rowCounts [.ok ok] = [ok.affectedRows] := rfl
      have hno : errorCodes [.ok ok] = [] := rfl
      have hplain : [Event.ok ok].any strange = false := rfl
      rw [hone, hno, hplain, List.append_nil, Bool.or_false, List.getLast?_concat, List.length_append,
        List.length_singleton, Inserting.event]
      dsimp only
      refine ⟨rfl, fun h => ?_, fun err h => ?_⟩
      · split at h
        · cases h
        · next hlone =>
          obtain ⟨hcodes, -, hstrange⟩ := hnone h
          rw [hfirst] at hlone
          exact ⟨hcodes, by omega, hstrange⟩
      · split at h
        · next hmore =>
          obtain rfl := Option.some_inj.mp h
          rw [hfirst] at hmore
          exact .inr ⟨rfl, .inr (by omega)⟩
        · rcases hsome err h with hcode | ⟨rfl, hstrange | hmore⟩
          · exact .inl hcode
          · exact .inr ⟨rfl, .inl hstrange⟩
          · exact .inr ⟨rfl, .inr (by omega)⟩
    | err err =>
      refine ⟨hchanged.trans (congrArg _ (List.append_nil _).symm), nofun, fun failure h => ?_⟩
      obtain rfl := Option.some_inj.mp h
      exact .inl ⟨err.code, List.mem_append_right _ (List.mem_singleton_self _), rfl⟩
    | ready =>
      have hrows : rowCounts [.ready] = [] := rfl
      have hcodes : errorCodes [.ready] = [] := rfl
      have hplain : [Event.ready].any strange = false := rfl
      rw [hrows, hcodes, hplain, List.append_nil, List.append_nil, Bool.or_false]
      exact ⟨hchanged, hnone, hsome⟩
    | _ =>
      refine ⟨hchanged.trans (congrArg _ (List.append_nil _).symm), nofun, fun failure h => ?_⟩
      obtain rfl := Option.some_inj.mp h
      exact .inr ⟨rfl, .inl (Bool.or_true _)⟩

/-- **What an insert comes to**: one row inserted, or a failure of its answer. -/
theorem finishInsert_cases (halive : answer.lost = false) :
    finishInsert answer = .ok 1 ∧ answer.Inserts ∨
      ∃ err, finishInsert answer = .error err ∧ answer.FailsAs err := by
  obtain ⟨hchanged, hnone, hsome⟩ := foldl_inserting answer.events
  rw [finishInsert, if_neg (by rw [halive]; exact Bool.false_ne_true)]
  generalize answer.events.foldl Inserting.event {} = told at hchanged hnone hsome
  cases hfailure : told.failure with
  | some err =>
    refine .inr ⟨err, rfl, ?_⟩
    rcases hsome err hfailure with ⟨code, hcode, rfl⟩ | ⟨rfl, hstrange | hmore⟩
    · exact .refused code hcode
    · exact .garbled hstrange
    · exact .twice hmore
  | none =>
    obtain ⟨hcodes, hlone, hexpected⟩ := hnone hfailure
    dsimp only
    split
    · next hother =>
      refine .inr ⟨_, rfl, .rows hcodes fun hrows => hother ?_⟩
      rw [hchanged, hrows, List.getLast?_singleton]
    · next hone =>
      rw [not_not, hchanged, List.getLast?_eq_some_iff] at hone
      obtain ⟨earlier, hrows⟩ := hone
      have hnil : earlier = [] := by
        rw [hrows, List.length_append, List.length_singleton] at hlone
        exact List.length_eq_zero_iff.mp (by omega)
      exact .inl ⟨rfl, halive, by rw [hrows, hnil, List.nil_append], hcodes, hexpected⟩

/-! ## One write -/

section Writes

variable (net : Net)

theorem extend_snoc (queries : List Query) (query : Query) (bytes : List UInt8) :
    Connection.extend (queries ++ [query]) bytes =
      queries ++ [query.more bytes] := by
  rw [Connection.extend, List.dropLast_concat, List.getLast?_concat]
  rfl

variable {queries : List Query} {query : Query} {s : SinkState}

/-- **What a write does**: the bytes stand behind the others, or the connection is lost after some
of them. -/
theorem write_cases (connection : Connection) (h : connection.queries = queries ++ [query])
    (bytes : List UInt8) :
    ∃ next, (connection.write net bytes = (next, true) ∧ next.lost = connection.lost ∧
        next.queries = queries ++ [query.more bytes]) ∨
      (connection.write net bytes = (next, false) ∧ next.lost = true ∧
        ∃ taken, next.queries =
          queries ++ [query.more (bytes.take taken)]) := by
  rw [Connection.write]
  cases net.breaks connection.writes with
  | none => exact ⟨_, .inl ⟨rfl, rfl, by rw [h, extend_snoc]⟩⟩
  | some taken => exact ⟨_, .inr ⟨rfl, rfl, taken, by rw [h, extend_snoc]⟩⟩

theorem send_cases (s : SinkState) (h : s.connection.queries = queries ++ [query])
    (bytes : List UInt8) :
    ∃ connection, (s.send net bytes = ({ s with connection := connection }, true) ∧
        connection.lost = s.connection.lost ∧
        connection.queries = queries ++ [query.more bytes]) ∨
      (s.send net bytes = ({ s with connection := connection }, false) ∧ connection.lost = true ∧
        ∃ taken, connection.queries =
          queries ++ [query.more (bytes.take taken)]) := by
  rw [SinkState.send]
  obtain ⟨next, ⟨hwrite, hsent⟩ | ⟨hwrite, hsent⟩⟩ := write_cases net s.connection h bytes
  · exact ⟨next, .inl ⟨by rw [hwrite], hsent⟩⟩
  · exact ⟨next, .inr ⟨by rw [hwrite], hsent⟩⟩

/-- The queries of a sink that was stopped: all whole, but for one the connection was lost in. -/
def Stopped (before : List Query) (s : SinkState) : Prop :=
  ∃ done last, s.connection.queries = before ++ (done ++ last) ∧ (∀ query ∈ done, query.Whole) ∧
    (last = [] ∨ s.connection.lost = true ∧
      ∃ query, last = [query] ∧ query.text.length ≤ query.announced) ∧
    (s.remaining = 0 ∨ s.connection.lost = true)

variable {before : List Query} {id : Nat} {blocks : List (List UInt8)} {part : List UInt8}

theorem stopped_lost (h : s.connection.queries = before ++ (inserts id blocks ++ [query]))
    (hlost : s.connection.lost = true) (hshort : query.text.length ≤ query.announced) :
    Stopped before s :=
  ⟨inserts id blocks, [query], h, fun _ => whole_of_mem_inserts,
    .inr ⟨hlost, query, rfl, hshort⟩, .inr hlost⟩

theorem stopped_whole (id : Nat) (blocks : List (List UInt8))
    (h : s.connection.queries = before ++ inserts id blocks) (hnone : s.remaining = 0) :
    Stopped before s :=
  ⟨inserts id blocks, [], by rw [h, List.append_nil], fun _ => whole_of_mem_inserts, .inl rfl,
    .inl hnone⟩

/-- What a round leaves as it is. -/
structure Kept (s next : SinkState) : Prop where
  opened : next.opened = s.opened
  failure : next.failure = s.failure
  id : next.id = s.id
  length : next.length = s.length

theorem Kept.refl (s : SinkState) : Kept s s := ⟨rfl, rfl, rfl, rfl⟩

theorem Kept.trans {next last : SinkState} (h : Kept s next) (hlast : Kept next last) :
    Kept s last :=
  ⟨hlast.opened.trans h.opened, hlast.failure.trans h.failure, hlast.id.trans h.id,
    hlast.length.trans h.length⟩

/-- **A chunk begins**, or the sink is stopped. -/
theorem beginChunk_cases (s : SinkState) (index n : Nat) :
    ∃ connection observer result,
      s.beginChunk net index n = ({ s with connection := connection, observer := observer }, result) ∧
      ((result = none ∧ connection.lost = false ∧
        connection.queries = s.connection.queries ++ [openQuery s.id index n []]) ∨
      (result = some .storeConnectionLost ∧ (connection.queries = s.connection.queries ∧
          (connection.lost = true ∨ maxPayload < (insertStart s.id index).length + n * 2 + 2 + 1) ∨
        connection.lost = true ∧ ∃ query, query.text.length ≤ query.announced ∧
          connection.queries = s.connection.queries ++ [query]))) := by
  rw [SinkState.beginChunk]
  dsimp only
  by_cases hlost : s.connection.lost = true
  · rw [Connection.beginQuery, if_pos hlost]
    exact ⟨_, _, _, rfl, .inr ⟨rfl, .inl ⟨rfl, .inl hlost⟩⟩⟩
  by_cases hlarge : (insertStart s.id index).length + n * 2 + 2 + 1 > maxPayload
  · rw [Connection.beginQuery, if_neg hlost, if_pos hlarge]
    exact ⟨_, _, _, rfl, .inr ⟨rfl, .inl ⟨rfl, .inr hlarge⟩⟩⟩
  rw [Connection.beginQuery, if_neg hlost, if_neg hlarge]
  dsimp only
  obtain ⟨asked, hasked⟩ : ∃ asked : SinkState, asked =
      { s with
        observer := { s.observer with contentQueries := s.observer.contentQueries + 1 }
        connection :=
          { s.connection with
            queries := s.connection.queries ++ [⟨(insertStart s.id index).length + n * 2 + 2, []⟩] } } :=
    ⟨_, rfl⟩
  have hqueries : asked.connection.queries =
      s.connection.queries ++ [⟨(insertStart s.id index).length + n * 2 + 2, []⟩] := by rw [hasked]
  have halive : asked.connection.lost = false := by
    rw [hasked]
    exact Bool.not_eq_true _ ▸ hlost
  rw [← hasked]
  obtain ⟨connection, ⟨hsend, hkept, hsent⟩ | ⟨hsend, hbroken, taken, hsent⟩⟩ :=
    send_cases net asked hqueries (insertStart s.id index)
  · rw [hsend, hasked]
    refine ⟨_, _, _, rfl, .inl ⟨rfl, hkept.trans halive, ?_⟩⟩
    rw [hsent, Query.more, List.nil_append, openQuery, toHex, List.flatMap_nil, List.append_nil]
  · rw [hsend, hasked]
    refine ⟨_, _, _, rfl, .inr ⟨rfl, .inr ⟨hbroken, _, ?_, hsent⟩⟩⟩
    rw [Query.more, List.nil_append, List.length_take]
    exact (min_le_right _ _).trans (by dsimp only; omega)

/-- **A chunk ends** with one row inserted, with a failure of its answer, or in a lost connection. -/
theorem endChunk_cases (s : SinkState) (h : s.connection.queries = queries ++ [query])
    (halive : s.connection.lost = false) : ∃ connection observer result,
      s.endChunk net = ({ s with connection := connection, observer := observer }, result) ∧
      ((result = .ok 1 ∧ connection.lost = false ∧ (net.answer queries.length).Inserts ∧
        connection.queries = queries ++ [query.more (text "')")]) ∨
      (∃ err, result = .error err ∧ connection.lost = false ∧
        (net.answer queries.length).FailsAs err ∧
        connection.queries = queries ++ [query.more (text "')")]) ∨
      (result = .error .storeConnectionLost ∧ connection.lost = true ∧
        ∃ taken, connection.queries =
          queries ++ [query.more ((text "')").take taken)])) := by
  rw [SinkState.endChunk]
  obtain ⟨connection, ⟨hsend, hkept, hsent⟩ | ⟨hsend, hbroken, taken, hsent⟩⟩ :=
    send_cases net s h (text "')")
  · have hwhole : (text "')").take 2 = text "')" := rfl
    rw [hsend]
    dsimp only
    rw [Connection.endQuery, if_neg (by rw [hkept, halive]; exact Bool.false_ne_true)]
    cases net.breaks connection.writes with
    | none =>
      dsimp only
      have hanswer : Connection.answer net { connection with writes := connection.writes + 1 } =
          net.answer queries.length := by
        rw [Connection.answer]
        dsimp only
        rw [hsent, List.length_append, List.length_singleton, Nat.add_sub_cancel]
      rw [hanswer]
      refine ⟨_, _, _, rfl, ?_⟩
      cases hlost : (net.answer queries.length).lost with
      | true =>
        refine .inr (.inr ⟨by rw [finishInsert, hlost, if_pos rfl], Bool.or_true _, 2, ?_⟩)
        rw [hwhole, hsent]
      | false =>
        have hlive : (connection.lost || false) = false := by rw [hkept, halive]; rfl
        rcases finishInsert_cases hlost with ⟨hok, hinserts⟩ | ⟨err, herror, hfails⟩
        · exact .inl ⟨hok, hlive, hinserts, hsent⟩
        · exact .inr (.inl ⟨err, herror, hlive, hfails, hsent⟩)
    | some taken =>
      exact ⟨_, _, _, rfl, .inr (.inr ⟨rfl, rfl, 2, by rw [hwhole]; exact hsent⟩)⟩
  · rw [hsend]
    exact ⟨_, _, _, rfl, .inr (.inr ⟨rfl, hbroken, taken, hsent⟩)⟩

/-- The first queries behind those of before inserted a row each. -/
def Inserted (before count : Nat) : Prop := ∀ index < count, (net.answer (before + index)).Inserts

theorem Inserted.succ {before count : Nat} (h : Inserted net before count)
    (hnext : (net.answer (before + count)).Inserts) : Inserted net before (count + 1) := by
  intro index hindex
  rcases Nat.lt_succ_iff_lt_or_eq.mp hindex with hearlier | rfl
  · exact h index hearlier
  · exact hnext

/-- What is announced of the chunk at the sink's position. -/
def SinkState.chunkSize (s : SinkState) : Nat :=
  (insertStart s.id (s.position / chunkBytes)).length + min chunkBytes (s.length - s.position) * 2 + 2

/-- **What a query fails as**: the connection is lost, or its answer is this failure. -/
def Failed (s : SinkState) (err : Failure) : Prop :=
  (err = .storeConnectionLost ∧ s.connection.lost = true) ∨
  (s.connection.lost = false ∧ (s.connection.answer net).FailsAs err)

/-- What a write fails as: its last query's failure, or the chunk is too large for one. -/
def Caused (s : SinkState) (err : Failure) : Prop :=
  Failed net s err ∨ err = .storeConnectionLost ∧ maxPayload < s.chunkSize + 1

theorem failed_answer {err : Failure} (h : s.connection.queries = queries ++ [query])
    (halive : s.connection.lost = false) (hfails : (net.answer queries.length).FailsAs err) :
    Failed net s err := by
  refine .inr ⟨halive, ?_⟩
  rwa [Connection.answer, h, List.length_append, List.length_singleton, Nat.add_sub_cancel]

/-- **The sink between its writes**: the content so far in chunks, of which the last may be open. -/
structure Holds (before : List Query) (content : List UInt8) (s : SinkState) : Prop where
  position : s.position = content.length
  within : content.length ≤ s.length
  chunks : ∃ blocks part, content = blocks.flatten ++ part ∧ Cut s.length blocks ∧
    Inserted net before.length blocks.length ∧
    (s.remaining = 0 ∧ part = [] ∧ s.connection.queries = before ++ inserts s.id blocks ∨
      0 < s.remaining ∧ s.connection.lost = false ∧
        part.length + s.remaining = min chunkBytes (s.length - chunkBytes * blocks.length) ∧
        s.connection.queries = before ++
          (inserts s.id blocks ++ [openQuery s.id blocks.length (part.length + s.remaining) part]))

/-- The sink with a chunk open. -/
structure Open (before : List Query) (content : List UInt8) (blocks : List (List UInt8))
    (part : List UInt8) (s : SinkState) : Prop where
  position : s.position = content.length
  within : content.length ≤ s.length
  content : content = blocks.flatten ++ part
  cut : Cut s.length blocks
  inserted : Inserted net before.length blocks.length
  owed : 0 < s.remaining
  alive : s.connection.lost = false
  size : part.length + s.remaining = min chunkBytes (s.length - chunkBytes * blocks.length)
  queries : s.connection.queries = before ++
    (inserts s.id blocks ++ [openQuery s.id blocks.length (part.length + s.remaining) part])

variable {before : List Query} {content : List UInt8} {s : SinkState}

/-- **The head of a round** opens a chunk unless one is open. -/
theorem ready_cases (h : Holds net before content s) (hmore : content.length < s.length) :
    ∃ next result, s.ready net = (next, result) ∧ Kept s next ∧
      ((result = none ∧ ∃ blocks part, Open net before content blocks part next) ∨
        (∃ err, result = some err ∧ Stopped before next ∧ Caused net next err)) := by
  obtain ⟨blocks, part, hcontent, hcut, hinserted, hchunks⟩ := h.chunks
  rw [SinkState.ready]
  rcases hchunks with ⟨hnone, rfl, hqueries⟩ | ⟨howed, halive, hsize, hqueries⟩
  · rw [if_pos hnone]
    rw [List.append_nil] at hcontent
    have hlength := hcut.length_flatten
    rw [← hcontent] at hlength
    have hfull : content.length = chunkBytes * blocks.length := by omega
    have hindex : s.position / chunkBytes = blocks.length := by
      rw [h.position, hfull, Nat.mul_div_cancel_left _ chunkBytes_pos]
    have hpos := chunkBytes_pos
    dsimp only
    obtain ⟨connection, observer, result, hbegin, ⟨rfl, halive, hbegun⟩ | ⟨rfl, hstopped⟩⟩ :=
      beginChunk_cases net s (s.position / chunkBytes) (min chunkBytes (s.length - s.position))
    · rw [hbegin]
      rw [hindex] at hbegun
      refine ⟨_, _, rfl, ⟨rfl, rfl, rfl, rfl⟩, .inl ⟨rfl, blocks, [], ?_⟩⟩
      refine ⟨h.position, h.within, ?_, hcut, hinserted, ?_, halive, ?_, ?_⟩
      · rw [List.append_nil, hcontent]
      · dsimp only
        rw [h.position]
        omega
      · rw [List.length_nil, Nat.zero_add, h.position, hfull]
      · dsimp only
        rw [hbegun, hqueries, List.append_assoc, List.length_nil, Nat.zero_add]
    · rw [hbegin]
      rcases hstopped with ⟨hsame, hwhy⟩ | ⟨hlost, query, hshort, hbegun⟩
      · exact ⟨_, _, rfl, ⟨rfl, rfl, rfl, rfl⟩, .inr ⟨_, rfl,
          stopped_whole s.id blocks (hsame.trans hqueries) hnone, hwhy.imp (.inl ⟨rfl, ·⟩) (⟨rfl, ·⟩)⟩⟩
      · exact ⟨_, _, rfl, ⟨rfl, rfl, rfl, rfl⟩, .inr ⟨_, rfl,
          stopped_lost (by rw [hbegun, hqueries, List.append_assoc]) hlost hshort,
          .inl (.inl ⟨rfl, hlost⟩)⟩⟩
  · rw [if_neg (by omega)]
    exact ⟨s, none, rfl, .refl s, .inl ⟨rfl, blocks, part, h.position, h.within, hcontent, hcut,
      hinserted, howed, halive, hsize, hqueries⟩⟩

/-- **The rest of a round** takes some of the bytes into the chunk. -/
theorem fill_cases {bytes : List UInt8} (h : Open net before content blocks part s)
    (hbytes : bytes ≠ []) (hroom : content.length + bytes.length ≤ s.length) :
    ∃ next result, s.fill net bytes = (next, result) ∧ Kept s next ∧
      ((∃ n, 0 < n ∧ n ≤ bytes.length ∧ result = .ok (bytes.drop n) ∧
        Holds net before (content ++ bytes.take n) next) ∨
      (∃ err, result = .error err ∧ Stopped before next ∧ Caused net next err)) := by
  have hpos := List.length_pos_of_ne_nil hbytes
  have howed := h.owed
  obtain ⟨n, hn⟩ : ∃ n, n = min bytes.length s.remaining := ⟨_, rfl⟩
  have htake : (bytes.take n).length = n := by
    rw [List.length_take]
    omega
  have hqueries := h.queries
  rw [← List.append_assoc] at hqueries
  rw [SinkState.fill]
  dsimp only
  rw [← hn]
  obtain ⟨connection, ⟨hsend, hkept, hsent⟩ | ⟨hsend, hbroken, taken, hsent⟩⟩ :=
    send_cases net s hqueries (toHex (bytes.take n))
  · rw [openQuery_more] at hsent
    rw [hsend]
    dsimp only
    split
    · next hfull =>
      obtain ⟨filled, hfilled⟩ : ∃ filled : SinkState, filled =
          { s with
            connection := connection
            remaining := s.remaining - n
            position := s.position + n } := ⟨_, rfl⟩
      have hlength : (part ++ bytes.take n).length = part.length + s.remaining := by
        rw [List.length_append, htake]
        omega
      have hnone : s.remaining - n = 0 := hfull
      rw [← hfilled]
      obtain ⟨last, observer, result, hend, hcases⟩ := endChunk_cases net filled
        (by rw [hfilled]; exact hsent) (by rw [hfilled]; exact hkept.trans h.alive)
      have hcount : (before ++ inserts s.id blocks).length = before.length + blocks.length := by
        rw [List.length_append, inserts, List.length_mapIdx]
      rw [openQuery_ends s.id blocks.length hlength] at hcases
      rw [hend]
      rcases hcases with ⟨rfl, -, hinserts, hwhole⟩ | ⟨err, rfl, halive, hfails, hwhole⟩ |
        ⟨rfl, hbroken, taken, hpart⟩
      · rw [hfilled]
        refine ⟨_, _, rfl, ⟨rfl, rfl, rfl, rfl⟩, .inl ⟨n, by omega, by omega, rfl, ?_⟩⟩
        refine ⟨?_, ?_, blocks ++ [part ++ bytes.take n], [], ?_, ?_, ?_, .inl ⟨hnone, rfl, ?_⟩⟩
        · rw [List.length_append, htake, h.position]
        · rw [List.length_append, htake]
          dsimp only
          omega
        · rw [h.content, List.append_nil, List.flatten_append, List.flatten_singleton,
            List.append_assoc]
        · exact cut_snoc h.cut (hlength.trans h.size) (by omega)
        · rw [hcount] at hinserts
          rw [List.length_append, List.length_singleton]
          exact h.inserted.succ net hinserts
        · rw [inserts_snoc, ← List.append_assoc]
          exact hwhole
      · rw [hfilled]
        refine ⟨_, _, rfl, ⟨rfl, rfl, rfl, rfl⟩, .inr ⟨err, rfl, ?_, ?_⟩⟩
        swap
        · exact .inl (failed_answer net hwhole halive hfails)
        refine stopped_whole s.id (blocks ++ [part ++ bytes.take n]) ?_ hnone
        rw [inserts_snoc, ← List.append_assoc]
        exact hwhole
      · rw [hfilled]
        refine ⟨_, _, rfl, ⟨rfl, rfl, rfl, rfl⟩, .inr ⟨_, rfl, ?_, .inl (.inl ⟨rfl, hbroken⟩)⟩⟩
        exact stopped_lost (by rw [hpart, List.append_assoc]) hbroken
          (openQuery_short s.id blocks.length hlength taken)
    · next hopen =>
      refine ⟨_, _, rfl, ⟨rfl, rfl, rfl, rfl⟩, .inl ⟨n, by omega, by omega, rfl, ?_⟩⟩
      refine ⟨?_, ?_, blocks, part ++ bytes.take n, ?_, h.cut, h.inserted,
        .inr ⟨?_, hkept.trans h.alive, ?_, ?_⟩⟩
      · rw [List.length_append, htake, h.position]
      · rw [List.length_append, htake]
        dsimp only
        omega
      · rw [h.content, List.append_assoc]
      · dsimp only
        omega
      · rw [List.length_append, htake, ← h.size]
        dsimp only
        omega
      · have hsize : (part ++ bytes.take n).length + (s.remaining - n) = part.length + s.remaining := by
          rw [List.length_append, htake]
          omega
        dsimp only
        rw [hsize, hsent, List.append_assoc]
  · rw [hsend]
    refine ⟨_, _, rfl, ⟨rfl, rfl, rfl, rfl⟩, .inr ⟨_, rfl, ?_, .inl (.inl ⟨rfl, hbroken⟩)⟩⟩
    refine stopped_lost (by rw [hsent, List.append_assoc]) hbroken ?_
    simp only [Query.more, openQuery, List.length_append, List.length_take, length_toHex]
    omega

/-- **A write's bytes**, by induction on the rounds: they stand behind the content so far, or the
sink is stopped. -/
theorem append_cases (fuel : Nat) (bytes : List UInt8) (h : Holds net before content s)
    (hroom : content.length + bytes.length ≤ s.length) (hfuel : bytes.length ≤ fuel) :
    ∃ next result, SinkState.append net fuel s bytes = (next, result) ∧ Kept s next ∧
      ((result = none ∧ Holds net before (content ++ bytes) next) ∨
        (∃ err, result = some err ∧ Stopped before next ∧ Caused net next err)) := by
  induction fuel generalizing s content bytes with
  | zero =>
    obtain rfl := List.length_eq_zero_iff.mp (Nat.le_zero.mp hfuel)
    exact ⟨s, none, rfl, .refl s, .inl ⟨rfl, by rwa [List.append_nil]⟩⟩
  | succ fuel ih =>
    cases bytes with
    | nil => exact ⟨s, none, rfl, .refl s, .inl ⟨rfl, by rwa [List.append_nil]⟩⟩
    | cons first rest =>
      rw [SinkState.append]
      rw [List.length_cons] at hroom hfuel
      obtain ⟨opened, result, hready, hkept, ⟨rfl, blocks, part, hopen⟩ | ⟨err, rfl, hstopped⟩⟩ :=
        ready_cases net h (by omega)
      · rw [hready]
        dsimp only
        obtain ⟨next, result, hfill, hkept', ⟨n, hpos, hle, rfl, hholds⟩ | ⟨err, rfl, hstopped⟩⟩ :=
          fill_cases net hopen (List.cons_ne_nil first rest)
            (by rw [hkept.length, List.length_cons]; omega)
        · rw [hfill]
          dsimp only
          rw [List.length_cons] at hle
          have hlength : (content ++ (first :: rest).take n).length = content.length + n := by
            rw [List.length_append, List.length_take, List.length_cons]
            omega
          obtain ⟨last, result, hrest, hkept'', hlast⟩ := ih ((first :: rest).drop n) hholds
            (by rw [hlength, hkept'.length, hkept.length, List.length_drop, List.length_cons]; omega)
            (by rw [List.length_drop, List.length_cons]; omega)
          refine ⟨last, result, hrest, (hkept.trans hkept').trans hkept'', ?_⟩
          rwa [List.append_assoc, List.take_append_drop] at hlast
        · rw [hfill]
          exact ⟨next, some err, rfl, hkept.trans hkept', .inr ⟨err, rfl, hstopped⟩⟩
      · rw [hready]
        exact ⟨opened, some err, rfl, hkept, .inr ⟨err, rfl, hstopped⟩⟩

/-! ## Closing -/

/-- **What latching does**: there is a failure, which only the one before decides. -/
theorem latch_cases (s : SinkState) (err : Failure) : ∃ failure,
    s.latch err = { s with failure := failure } ∧ failure ≠ none ∧
      ∀ other : SinkState, s.failure = other.failure → (other.latch err).failure = failure := by
  rw [SinkState.latch]
  split
  · next hlatches =>
    refine ⟨some err, rfl, nofun, fun other hsame => ?_⟩
    rw [SinkState.latch, if_pos (hsame ▸ hlatches)]
  · next hkept =>
    refine ⟨s.failure, rfl, fun hnone => hkept (.inl hnone), fun other hsame => ?_⟩
    rw [SinkState.latch, if_neg (hsame ▸ hkept), hsame]

/-- **How a close leaves the failure**: as it is, or with the query's own latched. -/
def Latches (s next : SinkState) : Prop :=
  (next.failure = s.failure ∧ next.connection.lost = s.connection.lost) ∨
  ∃ err, next.failure = (s.latch err).failure ∧ Failed net next err

section Latches

variable {s next : SinkState} (h : Latches net s next)

include h

theorem Latches.cause {err : Failure} (hfailure : next.failure = some err) :
    s.failure = some err ∨ Failed net next err := by
  rcases h with ⟨hsame, -⟩ | ⟨cause, hlatch, hfailed⟩
  · exact .inl (hsame.symm.trans hfailure)
  · rw [hlatch, SinkState.latch] at hfailure
    split at hfailure
    · exact .inr (Option.some_inj.mp hfailure ▸ hfailed)
    · exact .inl hfailure

/-- A failure is kept, unless the connection is lost. -/
theorem Latches.kept {kept : Failure} (hkept : s.failure = some kept) :
    next.failure = some kept ∨
      next.failure = some .storeConnectionLost ∧ next.connection.lost = true := by
  rcases h with ⟨hsame, -⟩ | ⟨cause, hlatch, hfailed⟩
  · exact .inl (hsame.trans hkept)
  · rw [hlatch, SinkState.latch]
    split
    · next hlatches =>
      obtain rfl : cause = .storeConnectionLost :=
        hlatches.resolve_left (by rw [hkept]; exact Option.some_ne_none kept)
      rcases hfailed with ⟨-, hlost⟩ | ⟨-, hfails⟩
      · exact .inr ⟨rfl, hlost⟩
      · exact absurd rfl hfails.ne_lost
    · exact .inl hkept

theorem Latches.lost (halive : s.connection.lost = false) (hlost : next.connection.lost = true) :
    next.failure = some .storeConnectionLost := by
  rcases h with ⟨-, hsame⟩ | ⟨cause, hlatch, ⟨rfl, -⟩ | ⟨hlive, -⟩⟩
  · rw [hsame, halive] at hlost
    cases hlost
  · rw [hlatch, SinkState.latch, if_pos (.inr rfl)]
  · rw [hlive] at hlost
    cases hlost

end Latches

/-- A query with more text, no longer than it was announced. -/
structure Query.Grown (query next : Query) : Prop where
  announced : next.announced = query.announced
  text : query.text <+: next.text
  fits : next.text.length ≤ next.announced

/-- **The zeros of a close** fill the open query, or the connection is lost in it. -/
theorem fillZeros_cases {fuel index n : Nat}
    (h : s.connection.queries = queries ++ [openQuery id index n part])
    (halive : s.connection.lost = false) (hsize : part.length + s.remaining = n)
    (hfuel : s.remaining ≤ fuel) :
    ∃ next result, SinkState.fillZeros net fuel s = (next, result) ∧ Kept s next ∧
      ((result = true ∧ next.remaining = 0 ∧ next.connection.lost = false ∧
        next.connection.queries =
          queries ++ [openQuery id index n (part ++ List.replicate s.remaining 0)]) ∨
      (result = false ∧ next.connection.lost = true ∧ ∃ query,
        next.connection.queries = queries ++ [query] ∧ (openQuery id index n part).Grown query)) := by
  have hdone : s.remaining = 0 → openQuery id index n part =
      openQuery id index n (part ++ List.replicate s.remaining 0) := by
    intro hnone
    rw [hnone, List.replicate_zero, List.append_nil]
  induction fuel generalizing s part with
  | zero =>
    have hnone : s.remaining = 0 := Nat.le_zero.mp hfuel
    exact ⟨s, true, rfl, .refl s, .inl ⟨rfl, hnone, halive, by rw [h, ← hdone hnone]⟩⟩
  | succ fuel ih =>
    rw [SinkState.fillZeros]
    split
    · next hnone => exact ⟨s, true, rfl, .refl s, .inl ⟨rfl, hnone, halive, by rw [h, ← hdone hnone]⟩⟩
    · next howed =>
      dsimp only
      obtain ⟨m, hm⟩ : ∃ m, m = min s.remaining 128 := ⟨_, rfl⟩
      rw [← hm]
      obtain ⟨connection, ⟨hsend, hkept, hsent⟩ | ⟨hsend, hbroken, taken, hsent⟩⟩ :=
        send_cases net s h (toHex (List.replicate m 0))
      · rw [openQuery_more] at hsent
        rw [hsend]
        dsimp only
        obtain ⟨next, result, hrest, hkept', hcases⟩ := ih
          (s := { s with connection := connection, remaining := s.remaining - m }) hsent
          (hkept.trans halive) (by rw [List.length_append, List.length_replicate]; dsimp only; omega)
          (by dsimp only; omega)
          (fun hnone => by dsimp only at hnone ⊢; rw [hnone, List.replicate_zero, List.append_nil])
        refine ⟨next, result, hrest, ⟨hkept'.opened, hkept'.failure, hkept'.id, hkept'.length⟩, ?_⟩
        rcases hcases with ⟨rfl, hnone, hlive, hfilled⟩ | ⟨rfl, hlost, query, hpart, hgrows⟩
        · refine .inl ⟨rfl, hnone, hlive, ?_⟩
          rw [hfilled, List.append_assoc, List.replicate_append_replicate]
          dsimp only
          rw [Nat.add_sub_cancel' (by omega : m ≤ s.remaining)]
        · refine .inr ⟨rfl, hlost, query, hpart, hgrows.announced, ?_, hgrows.fits⟩
          exact (openQuery_starts id index n part _).trans hgrows.text
      · rw [hsend]
        refine ⟨_, _, rfl, ⟨rfl, rfl, rfl, rfl⟩, .inr ⟨rfl, hbroken, _, hsent, rfl, ?_, ?_⟩⟩
        · exact List.prefix_append _ _
        · simp only [Query.more, openQuery, List.length_append, List.length_take, length_toHex,
            List.length_replicate]
          omega

/-- A sink whose queries are all inserts that inserted their row. -/
def Complete (before : List Query) (s : SinkState) : Prop :=
  ∃ blocks, s.connection.queries = before ++ inserts s.id blocks ∧
    Inserted net before.length blocks.length

/-- A close, and what it leaves of the open query and of the failure. -/
structure Closed (before : List Query) (s next : SinkState) : Prop where
  opened : next.opened = false
  id : next.id = s.id
  length : next.length = s.length
  stopped : Stopped before next
  complete : next.failure = none → Complete net before next
  latches : Latches net s next
  query : ∃ queries query last, s.connection.queries = queries ++ [query] ∧
    next.connection.queries = queries ++ [last] ∧ query.Grown last ∧
    (next.connection.lost = false → last.Whole)

theorem Holds.short (h : Holds net before content s) (howed : 0 < s.remaining) :
    content.length < s.length := by
  obtain ⟨blocks, part, hcontent, hcut, -, ⟨hnone, -⟩ | ⟨-, -, hsize, -⟩⟩ := h.chunks
  · omega
  · have hlength := hcut.length_flatten
    rw [hcontent, List.length_append, hlength]
    omega

/-- **A close in the middle of a chunk** completes that query and no other. -/
theorem close_open (h : Holds net before content s) (hopened : s.opened = true)
    (howed : 0 < s.remaining) : Closed net before s (s.close net) := by
  obtain ⟨blocks, part, -, -, hinserted, ⟨hnone, -⟩ | ⟨-, halive, -, hqueries⟩⟩ := h.chunks
  · omega
  have hopen : s.connection.queries = (before ++ inserts s.id blocks) ++
      [openQuery s.id blocks.length (part.length + s.remaining) part] := by
    rw [hqueries, List.append_assoc]
  have hlength : (part ++ List.replicate s.remaining 0).length = part.length + s.remaining := by
    rw [List.length_append, List.length_replicate]
  have hended := openQuery_ends s.id blocks.length hlength
  have hstarts := openQuery_starts s.id blocks.length (part.length + s.remaining) part
    (List.replicate s.remaining 0)
  have hwhole := whole_insertQuery s.id blocks.length (part ++ List.replicate s.remaining 0)
  have hgrown : (openQuery s.id blocks.length (part.length + s.remaining) part).Grown
      (insertQuery s.id blocks.length (part ++ List.replicate s.remaining 0)) := by
    rw [← hended] at hwhole ⊢
    exact ⟨rfl, hstarts.trans (List.prefix_append _ _), hwhole.le⟩
  have hcount : (before ++ inserts s.id blocks).length = before.length + blocks.length := by
    rw [List.length_append, inserts, List.length_mapIdx]
  have hall : ∀ {queries : List Query}, queries = (before ++ inserts s.id blocks) ++
      [insertQuery s.id blocks.length (part ++ List.replicate s.remaining 0)] →
      queries = before ++ inserts s.id (blocks ++ [part ++ List.replicate s.remaining 0]) := by
    intro queries hlast
    rw [inserts_snoc, ← List.append_assoc, hlast]
  rw [SinkState.close, if_neg (by rw [hopened]; exact Bool.false_ne_true.symm), if_neg ?_]
  swap
  · rw [halive]
    simp only [Bool.false_eq_true, or_false]
    omega
  obtain ⟨filled, result, hfill, hkept, ⟨rfl, hnone, hlive, hsent⟩ | ⟨rfl, hlost, query, hsent, hgrows⟩⟩ :=
    fillZeros_cases net hopen halive rfl le_rfl
  · obtain ⟨connection, observer, result, hend, hcases⟩ := endChunk_cases net filled hsent hlive
    rw [hended] at hcases
    rw [hfill]
    dsimp only
    rw [hend]
    rcases hcases with ⟨rfl, hlive', hinserts, hlast⟩ | ⟨err, rfl, hlive', hfails, hlast⟩ |
      ⟨rfl, hbroken, taken, hlast⟩
    · refine ⟨rfl, hkept.id, hkept.length, stopped_whole s.id _ (hall hlast) hnone, fun _ => ?_,
        .inl ⟨hkept.failure, hlive'.trans halive.symm⟩, _, _, _, hopen, hlast, hgrown, fun _ => hwhole⟩
      rw [hcount] at hinserts
      refine ⟨_, (hall hlast).trans (by rw [hkept.id]), ?_⟩
      rw [List.length_append, List.length_singleton]
      exact hinserted.succ net hinserts
    · obtain ⟨failure, hlatch, hne, hsame⟩ :=
        latch_cases { filled with connection := connection, observer := observer } err
      dsimp only
      rw [hlatch]
      exact ⟨rfl, hkept.id, hkept.length, stopped_whole s.id _ (hall hlast) hnone,
        fun hnone => absurd hnone hne,
        .inr ⟨err, (hsame s hkept.failure).symm, failed_answer net hlast hlive' hfails⟩,
        _, _, _, hopen, hlast, hgrown, fun _ => hwhole⟩
    · obtain ⟨failure, hlatch, hne, hsame⟩ := latch_cases
        { filled with connection := connection, observer := observer } .storeConnectionLost
      dsimp only
      rw [hlatch]
      have hfits := openQuery_short s.id blocks.length hlength taken
      refine ⟨rfl, hkept.id, hkept.length, stopped_lost (by rw [← List.append_assoc]; exact hlast)
        hbroken hfits, fun hnone => absurd hnone hne,
        .inr ⟨_, (hsame s hkept.failure).symm, .inl ⟨rfl, hbroken⟩⟩, _, _, _, hopen, hlast,
        ⟨rfl, hstarts.trans (List.prefix_append _ _), hfits⟩, fun hlive => ?_⟩
      rw [hbroken] at hlive
      cases hlive
  · obtain ⟨failure, hlatch, hne, hsame⟩ := latch_cases filled .storeConnectionLost
    rw [hfill]
    dsimp only
    rw [hlatch]
    refine ⟨rfl, hkept.id, hkept.length, stopped_lost (by rw [← List.append_assoc]; exact hsent) hlost
      hgrows.fits, fun hnone => absurd hnone hne,
      .inr ⟨_, (hsame s hkept.failure).symm, .inl ⟨rfl, hlost⟩⟩, _, _, _, hopen, hsent, hgrows,
      fun hlive => ?_⟩
    rw [hlost] at hlive
    cases hlive

theorem close_between (h : s.opened = false ∨ s.remaining = 0 ∨ s.connection.lost = true) :
    s.close net = { s with opened := false } := by
  rw [SinkState.close]
  split
  · next hshut => rw [← hshut]
  · next hopen => rw [if_pos (h.resolve_left hopen)]

end Writes

/-! ## Runs -/

/-- What happens to a sink: a write, its close, or a failure of the engine's own. -/
inductive Op where
  | write (bytes : List UInt8) (offset : Nat)
  | close
  | fail (err : Failure)

/-- A step, with the bytes of the writes that succeeded. -/
def step (net : Net) (now : SinkState × List UInt8) : Op → SinkState × List UInt8
  | .write bytes offset =>
    match now.1.write net bytes offset with
    | (next, .ok _) => (next, now.2 ++ bytes)
    | (next, .error _) => (next, now.2)
  | .close => (now.1.close net, now.2)
  | .fail err => ({ now.1 with failure := some err }, now.2)

def run (net : Net) (start : SinkState) (ops : List Op) : SinkState × List UInt8 :=
  ops.foldl (step net) (start, [])

/-- `SinkState.open` over a connection, where nothing has failed. -/
def SinkState.init (connection : Connection) (changes : Int) (observer : Observer)
    (id length : Nat) : SinkState :=
  { connection := connection, changes := changes, observer := observer, id := id, length := length }

/-- **A sink in any run**: it holds the content that was written, or it was stopped. -/
inductive Phase (net : Net) (before : List Query) (content : List UInt8) (s : SinkState) : Prop
  | live (holds : Holds net before content s) (closed : s.opened = true ∨ s.remaining = 0)
  | stopped (stopped : Stopped before s) (why : s.failure ≠ none ∨
      s.opened = false ∧ content.length < s.length ∧ Complete net before s)

/-- A write that the sink takes: the next bytes, which fit, where nothing has failed. -/
structure SinkState.Takes (s : SinkState) (bytes : List UInt8) (offset : Nat) : Prop where
  opened : s.opened = true
  failure : s.failure = none
  place : offset = s.position
  fits : offset + bytes.length ≤ s.length

section Runs

variable (net : Net) {before : List Query}

theorem phase_init (connection : Connection) (changes : Int) (observer : Observer)
    (id length : Nat) :
    Phase net connection.queries [] (SinkState.init connection changes observer id length) :=
  .live ⟨rfl, Nat.zero_le _, [], [], rfl, by simp [Cut], fun _ hnone => absurd hnone (Nat.not_lt_zero _),
    .inl ⟨rfl, rfl, (List.append_nil _).symm⟩⟩ (.inl rfl)

variable {content bytes : List UInt8} {s : SinkState} {offset : Nat}

/-- **A write that is refused** changes nothing. -/
theorem write_refused (h : ¬ s.Takes bytes offset) :
    ∃ error, s.write net bytes offset = (s, .error error) := by
  rw [SinkState.write]
  split
  · exact ⟨_, rfl⟩
  · next hclosed =>
    split
    · exact ⟨_, rfl⟩
    · next hlarge =>
      split
      · exact ⟨_, rfl⟩
      · next hplace =>
        simp only [not_or, not_not, Bool.not_eq_false, Nat.not_lt, gt_iff_lt] at hclosed hlarge hplace
        exact absurd ⟨hclosed.1, hclosed.2, hplace, by omega⟩ h

/-- **A write that the sink takes** stands behind the content so far, or fails and latches why. -/
theorem write_taken (h : Phase net before content s) (htakes : s.Takes bytes offset) :
    ∃ next result, s.write net bytes offset = (next, result) ∧ next.id = s.id ∧
      next.length = s.length ∧
      ((result = .ok () ∧ next.failure = none ∧ next.opened = true ∧
        Holds net before (content ++ bytes) next) ∨
      (result = .error .contentWriteFailed ∧ Stopped before next ∧
        ∃ err, next.failure = some err ∧ Caused net next err)) := by
  obtain ⟨hopened, hnone, rfl, hfits⟩ := htakes
  rw [SinkState.write, if_neg (by simp [hopened, hnone]), if_neg (by omega), if_neg (by simp)]
  cases h with
  | stopped stopped why =>
    rcases why with hfailed | ⟨hshut, -⟩
    · exact absurd hnone hfailed
    · rw [hopened] at hshut
      cases hshut
  | live holds closed =>
    have hposition := holds.position
    obtain ⟨next, result, happend, hkept, ⟨rfl, hholds⟩ | ⟨err, rfl, hstopped, hcaused⟩⟩ :=
      append_cases net bytes.length bytes holds (by omega) le_rfl
    · rw [happend]
      exact ⟨next, _, rfl, hkept.id, hkept.length,
        .inl ⟨rfl, hkept.failure.trans hnone, hkept.opened.trans hopened, hholds⟩⟩
    · rw [happend]
      dsimp only
      rw [SinkState.latch, if_pos (.inl (hkept.failure.trans hnone))]
      exact ⟨_, _, rfl, hkept.id, hkept.length, .inr ⟨rfl, hstopped, err, rfl, hcaused⟩⟩

theorem write_phase (h : Phase net before content s) :
    let next := step net (s, content) (.write bytes offset)
    Phase net before next.2 next.1 ∧ next.1.id = s.id ∧ next.1.length = s.length := by
  rw [step]
  by_cases htakes : s.Takes bytes offset
  · obtain ⟨next, result, hwrite, hid, hlength, ⟨rfl, hnone, hopened, hholds⟩ |
      ⟨rfl, hstopped, err, hfailure, -⟩⟩ := write_taken net h htakes
    · rw [hwrite]
      exact ⟨.live hholds (.inl hopened), hid, hlength⟩
    · rw [hwrite]
      exact ⟨.stopped hstopped (.inl (by rw [hfailure]; exact Option.some_ne_none err)), hid, hlength⟩
  · obtain ⟨error, hwrite⟩ := write_refused net htakes
    rw [hwrite]
    exact ⟨h, rfl, rfl⟩

/-- **Any close** keeps the phase, and latches what it fails as. -/
theorem close_phase (h : Phase net before content s) :
    Phase net before content (s.close net) ∧ (s.close net).id = s.id ∧
      (s.close net).length = s.length ∧ Latches net s (s.close net) := by
  cases h with
  | live holds closed =>
    rcases Nat.eq_zero_or_pos s.remaining with hnone | howed
    · rw [close_between net (.inr (.inl hnone))]
      exact ⟨.live ⟨holds.position, holds.within, holds.chunks⟩ (.inr hnone), rfl, rfl, .inl ⟨rfl, rfl⟩⟩
    · have hclosed := close_open net holds (closed.resolve_right (by omega)) howed
      refine ⟨.stopped hclosed.stopped ?_, hclosed.id, hclosed.length, hclosed.latches⟩
      rcases eq_or_ne (s.close net).failure none with hnone | hfailed
      · exact .inr ⟨hclosed.opened, by rw [hclosed.length]; exact holds.short net howed,
          hclosed.complete hnone⟩
      · exact .inl hfailed
  | stopped stopped why =>
    obtain ⟨done, last, hqueries, hdone, hlast, hend⟩ := stopped
    rw [close_between net (.inr hend)]
    exact ⟨.stopped ⟨done, last, hqueries, hdone, hlast, hend⟩
      (why.imp id fun hshort => ⟨rfl, hshort.2⟩), rfl, rfl, .inl ⟨rfl, rfl⟩⟩

theorem step_phase {now : SinkState × List UInt8} (h : Phase net before now.2 now.1) (op : Op) :
    Phase net before (step net now op).2 (step net now op).1 ∧ (step net now op).1.id = now.1.id ∧
      (step net now op).1.length = now.1.length := by
  cases op with
  | write bytes offset => exact write_phase net h
  | close =>
    obtain ⟨hphase, hid, hlength, -⟩ := close_phase net h
    exact ⟨hphase, hid, hlength⟩
  | fail err =>
    refine ⟨?_, rfl, rfl⟩
    cases h with
    | live holds closed => exact .live ⟨holds.position, holds.within, holds.chunks⟩ closed
    | stopped stopped why => exact .stopped stopped (.inl nofun)

/-- **Any run**, by induction on what happens in it. -/
theorem run_phase {start : SinkState} (h : Phase net before [] start) (ops : List Op) :
    Phase net before (run net start ops).2 (run net start ops).1 ∧
      (run net start ops).1.id = start.id ∧ (run net start ops).1.length = start.length := by
  induction ops using List.reverseRecOn with
  | nil => exact ⟨h, rfl, rfl⟩
  | append_singleton ops op ih =>
    rw [run, List.foldl_append, ← run]
    obtain ⟨hphase, hid, hlength⟩ := ih
    obtain ⟨hnext, hid', hlength'⟩ := step_phase net hphase op
    exact ⟨hnext, hid'.trans hid, hlength'.trans hlength⟩

end Runs

end Rui.ContentChunks
