import Rui.Library.Incremental
import Rui.Postgres.Turns

/-!
# The decoder does not depend on how its input was split

A turn that does not want more is the same with more bytes behind, but for a
value's part and a notice's or an error's bytes, which are taken as they come.
An answer without an event leaves the decoder where a longer input would have
found it.
-/

namespace Rui.Postgres

open Library

/-! ## Fields -/

theorem keepCode_append (diagnostic : Diagnostic) (i : Nat) (a b : List UInt8) :
    keepCode diagnostic i (a ++ b) = keepCode (keepCode diagnostic i a) (i + a.length) b := by
  induction a generalizing diagnostic i with
  | nil => rfl
  | cons byte a ih =>
    rw [List.cons_append, keepCode, keepCode, ih, List.length_cons, Nat.add_right_comm,
      Nat.add_assoc]

theorem keepSeverity_past {diagnostic : Diagnostic} {i : Nat}
    (h : diagnostic.severityBuffer.length ≤ i) (hlen : diagnostic.severityLen = 0)
    (b : List UInt8) : keepSeverity diagnostic i b = diagnostic := by
  cases b with
  | nil => rfl
  | cons byte b =>
    rw [keepSeverity, if_pos h, ← hlen]

theorem keepSeverity_append (diagnostic : Diagnostic) (i : Nat) (a b : List UInt8) :
    keepSeverity diagnostic i (a ++ b) =
      keepSeverity (keepSeverity diagnostic i a) (i + a.length) b := by
  induction a generalizing diagnostic i with
  | nil => rfl
  | cons byte a ih =>
    rw [List.cons_append, keepSeverity, keepSeverity]
    by_cases hfull : diagnostic.severityBuffer.length ≤ i
    · rw [if_pos hfull, if_pos hfull]
      exact (keepSeverity_past (by exact Nat.le_add_right_of_le hfull) (by rfl) b).symm
    · rw [if_neg hfull, if_neg hfull, ih, List.length_cons, Nat.add_right_comm, Nat.add_assoc]

theorem take_room {α : Type} (room : Nat) (kept a b : List α) :
    kept ++ (a ++ b).take (room - kept.length) =
      (kept ++ a.take (room - kept.length)) ++
        b.take (room - (kept ++ a.take (room - kept.length)).length) := by
  rw [List.take_append, List.append_assoc, List.length_append, List.length_take]
  congr 3
  omega

theorem keepField_append (diagnostic : Diagnostic) (code : UInt8) (i : Nat) (a b : List UInt8) :
    keepField diagnostic code i (a ++ b) =
      keepField (keepField diagnostic code i a) code (i + a.length) b := by
  unfold keepField
  split
  · exact keepCode_append _ _ _ _
  · split
    · exact keepSeverity_append _ _ _ _
    · split
      · rw [take_room]
      · rfl

namespace Fields

/-- What is kept of a part of a field. -/
def keep (self : Fields) (code : UInt8) (part : List UInt8) : Fields :=
  { self with
    diagnostic := keepField self.diagnostic code self.seen part
    seen := self.seen + part.length }

theorem keep_append (self : Fields) (code : UInt8) (a b : List UInt8) :
    self.keep code (a ++ b) = (self.keep code a).keep code b := by
  simp only [keep, keepField_append, List.length_append, Nat.add_assoc]

theorem feed_nil (self : Fields) (last : Bool) : self.feed [] last = .ok self := by
  rw [feed]

variable {self : Fields} {code : UInt8}

theorem feed_zero (hcode : self.code = none) (rest : List UInt8) (last : Bool) :
    self.feed (0 :: rest) last =
      if !last ∨ rest ≠ [] then violation else .ok { self with terminated := true } := by
  rw [feed, hcode]
  rfl

theorem feed_code (hcode : self.code = none) {byte : UInt8} (hbyte : byte ≠ 0) (rest : List UInt8)
    (last : Bool) : self.feed (byte :: rest) last =
      { self with code := some byte, seen := 0 : Fields }.feed rest last := by
  rw [feed, hcode]
  exact if_neg hbyte

/-- A field that ends with the bytes, or goes on behind them. -/
theorem feed_part (hcode : self.code = some code) {bytes : List UInt8}
    (hall : ∀ byte ∈ bytes, byte ≠ 0) (last : Bool) :
    self.feed bytes last = .ok (self.keep code bytes) := by
  have htake : bytes.takeWhile (· ≠ 0) = bytes := by
    rw [List.takeWhile_eq_self_iff]
    simpa using hall
  have hdrop : bytes.dropWhile (· ≠ 0) = [] := by
    rw [List.dropWhile_eq_nil_iff]
    simpa using hall
  cases bytes with
  | nil => rw [feed_nil]; simp [keep, keepField, keepCode, keepSeverity]
  | cons byte rest =>
    rw [feed, hcode]
    simp only [htake]
    split
    · rw [keep, hcode]
    · rename_i hcons
      rw [hdrop] at hcons
      cases hcons

theorem feed_field (hcode : self.code = some code) {part : List UInt8}
    (hall : ∀ byte ∈ part, byte ≠ 0) (behind : List UInt8) (last : Bool) :
    self.feed (part ++ 0 :: behind) last =
      { self.keep code part with code := none }.feed behind last := by
  have htake : (part ++ 0 :: behind).takeWhile (· ≠ 0) = part := by
    rw [List.takeWhile_append_of_pos (by simpa using hall)]
    simp
  have hdrop : (part ++ 0 :: behind).dropWhile (· ≠ 0) = 0 :: behind := by
    rw [List.dropWhile_append_of_pos (by simpa using hall)]
    simp
  generalize hbytes : part ++ 0 :: behind = bytes at htake hdrop
  cases bytes with
  | nil => simp at hbytes
  | cons byte rest =>
    rw [feed, hcode]
    simp only [htake]
    split
    · rename_i hnil
      rw [hdrop] at hnil
      cases hnil
    · rename_i hcons
      rw [hdrop] at hcons
      cases hcons
      rfl

/-- Bytes are nonzero up to their end or their first zero. -/
theorem part_cases (bytes : List UInt8) :
    (∀ byte ∈ bytes, byte ≠ 0) ∨
      ∃ part behind, bytes = part ++ 0 :: behind ∧ ∀ byte ∈ part, byte ≠ 0 := by
  induction bytes with
  | nil => exact .inl fun _ h => (by cases h)
  | cons byte bytes ih =>
    by_cases hbyte : byte = 0
    · exact .inr ⟨[], bytes, by rw [hbyte]; rfl, fun _ h => (by cases h)⟩
    · rcases ih with hall | ⟨part, behind, rfl, hall⟩
      · exact .inl (List.forall_mem_cons.mpr ⟨hbyte, hall⟩)
      · exact .inr ⟨byte :: part, behind, rfl, List.forall_mem_cons.mpr ⟨hbyte, hall⟩⟩

/-- **Bytes fed in two pieces** are bytes fed whole. -/
theorem feed_append (self : Fields) (bytes : List UInt8) {behind : List UInt8}
    (hbehind : behind ≠ []) (last : Bool) :
    self.feed (bytes ++ behind) last = (self.feed bytes false).bind (·.feed behind last) := by
  induction hn : bytes.length using Nat.strongRecOn generalizing self bytes with
  | ind n ih =>
    cases hcode : self.code with
    | none =>
      cases bytes with
      | nil => rw [feed_nil]; rfl
      | cons byte rest =>
        by_cases hbyte : byte = 0
        · subst hbyte
          rw [List.cons_append, feed_zero hcode, feed_zero hcode, if_pos, if_pos (.inl rfl)]
          · rfl
          · exact .inr (List.append_ne_nil_of_right_ne_nil _ hbehind)
        · rw [List.cons_append, feed_code hcode hbyte, feed_code hcode hbyte]
          exact ih rest.length (by rw [← hn]; exact Nat.lt_succ_self _) _ rest rfl
    | some code =>
      rcases part_cases bytes with hall | ⟨part, rest, rfl, hall⟩
      · rw [feed_part hcode hall]
        have hkept : (self.keep code bytes).code = some code := hcode
        show _ = (self.keep code bytes).feed behind last
        rcases part_cases behind with hall' | ⟨part, rest, rfl, hall'⟩
        · have hboth : ∀ byte ∈ bytes ++ behind, byte ≠ 0 := fun byte h =>
            (List.mem_append.mp h).elim (hall byte) (hall' byte)
          rw [feed_part hcode hboth, feed_part hkept hall', keep_append]
        · have hboth : ∀ byte ∈ bytes ++ part, byte ≠ 0 := fun byte h =>
            (List.mem_append.mp h).elim (hall byte) (hall' byte)
          rw [← List.append_assoc, feed_field hcode hboth, feed_field hkept hall', keep_append]
      · rw [List.append_assoc, List.cons_append, feed_field hcode hall, feed_field hcode hall]
        refine ih rest.length ?_ _ rest rfl
        rw [← hn, List.length_append, List.length_cons]
        omega

end Fields

/-! ## Turns -/

theorem drop_take_append {l : List UInt8} {a b : Nat} (h : a + b ≤ l.length) (more : List UInt8) :
    ((l ++ more).drop a).take b = (l.drop a).take b := by
  rw [List.drop_append_of_le_length (by omega),
    List.take_append_of_le_length (by rw [List.length_drop]; omega)]

variable {rest : List UInt8}

theorem lengthOf_append (h : 5 ≤ rest.length) (more : List UInt8) :
    lengthOf (rest ++ more) = lengthOf rest := by
  rw [lengthOf, lengthOf, drop_take_append (by omega)]

theorem headD_append (h : 5 ≤ rest.length) (more : List UInt8) :
    (rest ++ more).headD 0 = rest.headD 0 := by
  cases rest with
  | nil => simp at h
  | cons byte rest => rfl

namespace Decoder

variable {self : Decoder} {rest : List UInt8}

theorem header_append (h : self.header rest ≠ .ok .more) (more : List UInt8) :
    self.header (rest ++ more) = self.header rest := by
  have hlength : (rest ++ more).length = rest.length + more.length := List.length_append
  unfold header at h ⊢
  by_cases hfive : rest.length < 5
  · exact absurd (if_pos hfive) h
  rw [if_neg hfive] at h
  rw [if_neg hfive, if_neg (by omega)]
  dsimp only at h ⊢
  rw [headD_append (by omega), lengthOf_append (by omega)]
  by_cases hbad : lengthOf rest < 4 ∨ 2 ^ 31 - 1 < lengthOf rest
  · rw [if_pos hbad, if_pos hbad]
  rw [if_neg hbad] at h
  rw [if_neg hbad, if_neg hbad]
  by_cases hrow : rest.headD 0 = ascii 'D'
  · rw [if_pos hrow] at h
    rw [if_pos hrow, if_pos hrow]
    by_cases hseven : rest.length < 7
    · exact absurd (if_pos hseven) h
    · rw [if_neg hseven, if_neg (by omega), drop_take_append (by omega)]
  rw [if_neg hrow] at h
  rw [if_neg hrow, if_neg hrow]
  by_cases hfields : rest.headD 0 = ascii 'E' ∨ rest.headD 0 = ascii 'N'
  · rw [if_pos hfields, if_pos hfields]
  rw [if_neg hfields] at h
  rw [if_neg hfields, if_neg hfields]
  by_cases hlarge : maxMessageBytes - 5 < lengthOf rest - 4
  · rw [if_pos hlarge, if_pos hlarge]
  rw [if_neg hlarge] at h
  rw [if_neg hlarge, if_neg hlarge]
  by_cases hwhole : rest.length < 5 + (lengthOf rest - 4)
  · exact absurd (if_pos hwhole) h
  · rw [if_neg hwhole, if_neg (by omega), drop_take_append (by omega)]

theorem row_append (h : self.row rest ≠ .ok .more) (more : List UInt8) :
    self.row (rest ++ more) = self.row rest := by
  have hlength : (rest ++ more).length = rest.length + more.length := List.length_append
  unfold row at h ⊢
  by_cases hcolumns : self.columnsLeft = 0
  · rw [if_pos hcolumns, if_pos hcolumns]
  rw [if_neg hcolumns] at h
  rw [if_neg hcolumns, if_neg hcolumns]
  by_cases hfour : rest.length < 4
  · exact absurd (if_pos hfour) h
  rw [if_neg hfour] at h
  rw [if_neg hfour, if_neg (by omega)]
  dsimp only at h ⊢
  rw [List.take_append_of_le_length (by omega)]
  by_cases hleft : self.left < 4
  · rw [if_pos hleft, if_pos hleft]
  rw [if_neg hleft] at h
  rw [if_neg hleft, if_neg hleft]
  by_cases hnull : readInt (rest.take 4) = 2 ^ 32 - 1
  · rw [if_pos hnull, if_pos hnull]
  rw [if_neg hnull] at h
  rw [if_neg hnull, if_neg hnull]
  by_cases hbad : 2 ^ 31 ≤ readInt (rest.take 4) ∨ self.left - 4 < readInt (rest.take 4)
  · rw [if_pos hbad, if_pos hbad]
  rw [if_neg hbad] at h
  rw [if_neg hbad, if_neg hbad]
  by_cases hinline : readInt (rest.take 4) ≤ maxInlineValueBytes
  · rw [if_pos hinline] at h
    rw [if_pos hinline, if_pos hinline]
    by_cases hwhole : rest.length < 4 + readInt (rest.take 4)
    · exact absurd (if_pos hwhole) h
    · rw [if_neg hwhole, if_neg (by omega), drop_take_append (by omega)]
  · rw [if_neg hinline, if_neg hinline]

/-- A stretch that is all here is taken alike with more behind it. -/
theorem stretch_append {α : Type} {left : Nat} (h : left ≤ rest.length) (more : List UInt8)
    (done waits : α) (takes : Nat → List UInt8 → α) :
    (if left = 0 then done else if (rest ++ more).length = 0 then waits
      else takes (min (rest ++ more).length left)
        ((rest ++ more).take (min (rest ++ more).length left))) =
    if left = 0 then done else if rest.length = 0 then waits
      else takes (min rest.length left) (rest.take (min rest.length left)) := by
  have hlength : (rest ++ more).length = rest.length + more.length := List.length_append
  by_cases hleft : left = 0
  · rw [if_pos hleft, if_pos hleft]
  · rw [if_neg hleft, if_neg hleft, if_neg (by omega), if_neg (by omega), hlength,
      Nat.min_eq_right (by omega), Nat.min_eq_right (by omega), List.take_append_of_le_length h]

theorem value_append (h : self.valueLeft ≤ rest.length) (more : List UInt8) :
    self.value (rest ++ more) = self.value rest :=
  stretch_append h more _ _ fun count bytes => (do
    let valueLeft ← sub self.valueLeft count
    .ok (.event count (.valuePart bytes) { self with valueLeft }) : Attempt Turn)

theorem diagnose_append (h : self.left ≤ rest.length) (more : List UInt8) :
    self.diagnose (rest ++ more) = self.diagnose rest :=
  stretch_append h more _ _ fun count bytes => (do
    let fields ← self.fields.feed bytes (self.left = count)
    let left ← sub self.left count
    .ok (.on count { self with fields, left }) : Attempt Turn)

/-- The bytes of a value, or of an error or a notice, go on behind these. -/
def Streams (self : Decoder) (rest : List UInt8) : Prop :=
  (self.state = .value ∧ rest.length < self.valueLeft) ∨
    (self.state = .fields ∧ rest.length < self.left)

/-- **A turn with more behind.** -/
theorem turn_append (h : self.turn rest ≠ .ok .more) (hends : ¬ self.Streams rest)
    (more : List UInt8) : self.turn (rest ++ more) = self.turn rest := by
  unfold turn at h ⊢
  cases hstate : self.state with
  | header =>
    rw [hstate] at h
    exact header_append h more
  | row =>
    rw [hstate] at h
    exact row_append h more
  | value => exact value_append (Nat.le_of_not_lt fun hlt => hends (.inl ⟨hstate, hlt⟩)) more
  | fields => exact diagnose_append (Nat.le_of_not_lt fun hlt => hends (.inr ⟨hstate, hlt⟩)) more

end Decoder

/-! ## The loop -/

/-- An answer behind bytes consumed before. -/
def Decoded.behind (self : Decoded) (count : Nat) : Decoded :=
  { self with consumed := count + self.consumed }

namespace Decoder

variable {self decoder : Decoder} {rest : List UInt8} {offset count : Nat} {e : Fault DecodeError}
  {event : Event}

theorem loop_error (h : self.turn rest = .error e) : self.loop offset rest = .error e := by
  rw [loop]
  split <;> simp_all

theorem loop_more (h : self.turn rest = .ok .more) :
    self.loop offset rest = .ok ⟨self, offset, none⟩ := by
  rw [loop]
  split <;> simp_all

theorem loop_event (h : self.turn rest = .ok (.event count event decoder)) :
    self.loop offset rest = .ok ⟨decoder, offset + count, some event⟩ := by
  rw [loop]
  split <;> simp_all

theorem loop_on (h : self.turn rest = .ok (.on count decoder)) :
    self.loop offset rest = decoder.loop (offset + count) (rest.drop count) := by
  rw [loop]
  split <;> simp_all

theorem loop_offset (self : Decoder) (base offset : Nat) (rest : List UInt8) :
    self.loop (base + offset) rest = (self.loop offset rest).map (·.behind base) := by
  fun_induction loop self offset rest with
  | case1 self offset rest e h => rw [loop_error h]; rfl
  | case2 self offset rest h => rw [loop_more h]; rfl
  | case3 self offset rest count event decoder h =>
    rw [loop_event h, Nat.add_assoc]
    rfl
  | case4 self offset rest count decoder h ih => rw [loop_on h, Nat.add_assoc, ih]

theorem next_error (h : self.turn rest = .error e) : self.next rest = .error e :=
  loop_error h

theorem next_more (h : self.turn rest = .ok .more) : self.next rest = .ok ⟨self, 0, none⟩ :=
  loop_more h

theorem next_event (h : self.turn rest = .ok (.event count event decoder)) :
    self.next rest = .ok ⟨decoder, count, some event⟩ := by
  rw [next, loop_event h, Nat.zero_add]

theorem next_on (h : self.turn rest = .ok (.on count decoder)) :
    self.next rest = (decoder.next (rest.drop count)).map (·.behind count) := by
  rw [next, loop_on h, Nat.zero_add, next, ← loop_offset, Nat.add_zero]

/-- The loop's own induction: a turn that goes on leads to the next. -/
theorem turn_induction {motive : Decoder → List UInt8 → Prop}
    (turn : ∀ self rest, (∀ count decoder, self.turn rest = .ok (.on count decoder) →
      motive decoder (rest.drop count)) → motive self rest) (self : Decoder) (rest : List UInt8) :
    motive self rest := by
  generalize hoffset : 0 = offset
  clear hoffset
  fun_induction loop self offset rest with
  | case1 self offset rest e h => exact turn _ _ fun _ _ hon => (by rw [h] at hon; cases hon)
  | case2 self offset rest h => exact turn _ _ fun _ _ hon => (by rw [h] at hon; cases hon)
  | case3 self offset rest count event decoder h =>
    exact turn _ _ fun _ _ hon => (by rw [h] at hon; cases hon)
  | case4 self offset rest count decoder h ih =>
    refine turn _ _ fun count' decoder' hon => ?_
    rw [h] at hon
    cases hon
    exact ih

/-! ## Longer inputs -/

/-- How `next` answers an input, and a longer one. -/
inductive Grows (self : Decoder) (rest : List UInt8) : Prop
  | fail (same : ∀ more, self.next (rest ++ more) = violation)
  | event (decoded : Decoded) (event : Event) (here : decoded.event = some event)
    (same : ∀ more, self.next (rest ++ more) = .ok decoded)
  /-- More is wanted, and is read from where the decoder was left. -/
  | paused (decoder : Decoder) (used : Nat) (settled : decoder.Settled) (within : used ≤ rest.length)
    (here : self.next rest = .ok ⟨decoder, used, none⟩)
    (more : ∀ more, self.next (rest ++ more) =
      (decoder.next (rest.drop used ++ more)).map (·.behind used))
  /-- All there is of a value is given, and more of it would be given with it. -/
  | part (decoder : Decoder) (bytes : List UInt8) (started : rest ≠ [])
    (here : self.next rest = .ok ⟨decoder, rest.length, some (.valuePart bytes)⟩)
    (more : ∀ more, more ≠ [] → ∃ count later bytes', 0 < count ∧ count ≤ more.length ∧
      decoder.next more = .ok ⟨later, count, some (.valuePart bytes')⟩ ∧
      self.next (rest ++ more) =
        .ok ⟨later, rest.length + count, some (.valuePart (bytes ++ bytes'))⟩)
    (state : decoder.state = .value)

theorem behind_behind (decoded : Decoded) (a b : Nat) :
    (decoded.behind b).behind a = decoded.behind (a + b) := by
  simp only [Decoded.behind, Nat.add_assoc]

theorem map_behind (x : Attempt Decoded) (a b : Nat) :
    (x.map (·.behind b)).map (·.behind a) = x.map (·.behind (a + b)) := by
  cases x with
  | error e => rfl
  | ok decoded => exact congrArg Except.ok (behind_behind decoded a b)

theorem Grows.behind (h : Grows decoder (rest.drop count)) (hcount : count ≤ rest.length)
    (hsame : ∀ more, self.next (rest ++ more) =
      (decoder.next (rest.drop count ++ more)).map (·.behind count)) : Grows self rest := by
  have hhere := hsame []
  rw [List.append_nil, List.append_nil] at hhere
  have hlength : count + (rest.drop count).length = rest.length := by
    rw [List.length_drop]
    omega
  cases h with
  | fail same => exact .fail fun more => by rw [hsame, same]; rfl
  | event decoded event here same =>
    exact .event (decoded.behind count) event here fun more => by rw [hsame, same]; rfl
  | paused later used settled within here more =>
    refine .paused later (count + used) settled (by omega) (by rw [hhere, here]; rfl) fun more' => ?_
    rw [hsame, more, map_behind, ← List.drop_drop]
  | part later bytes started here more state =>
    refine .part later bytes (fun hnil => started (by rw [hnil, List.drop_nil])) ?_ ?_ state
    · rw [hhere, here, ← hlength]
      rfl
    · intro more' hmore
      obtain ⟨used, last, bytes', hpos, hle, hnext, hboth⟩ := more more' hmore
      refine ⟨used, last, bytes', hpos, hle, hnext, ?_⟩
      rw [hsame, hboth, ← hlength, Nat.add_assoc]
      rfl

theorem turn_eq_value (hstate : self.state = .value) : self.turn rest = self.value rest := by
  rw [turn, hstate]

theorem turn_eq_diagnose (hstate : self.state = .fields) :
    self.turn rest = self.diagnose rest := by
  rw [turn, hstate]

theorem turn_value (hstate : self.state = .value) (hleft : 0 < self.valueLeft)
    (hrest : rest ≠ []) :
    self.turn rest = .ok (.event (min rest.length self.valueLeft)
      (.valuePart (rest.take (min rest.length self.valueLeft)))
      { self with valueLeft := self.valueLeft - min rest.length self.valueLeft }) := by
  have hlength := List.length_pos_of_ne_nil hrest
  rw [turn_eq_value hstate, value, if_neg (by omega), if_neg (by omega)]
  dsimp only
  rw [sub_of_le (Nat.min_le_right _ _)]
  rfl

theorem turn_fields (hstate : self.state = .fields) (hleft : 0 < self.left) (hrest : rest ≠ [])
    (hcount : min rest.length self.left = count) :
    self.turn rest = (self.fields.feed (rest.take count) (self.left = count)).bind fun fields =>
      .ok (.on count { self with fields, left := self.left - count }) := by
  have hlength := List.length_pos_of_ne_nil hrest
  rw [turn_eq_diagnose hstate, diagnose, if_neg (by omega), if_neg (by omega)]
  dsimp only
  rw [hcount, sub_of_le (by omega)]
  rfl

theorem settled_value (hstate : self.state = .value) (hleft : 0 < self.valueLeft) :
    self.Settled :=
  ⟨fun h => (by cases hstate.symm.trans h), fun _ => Nat.pos_iff_ne_zero.mp hleft,
    fun h => (by cases hstate.symm.trans h)⟩

theorem settled_fields (hstate : self.state = .fields) (hleft : 0 < self.left) : self.Settled :=
  ⟨fun h => (by cases hstate.symm.trans h), fun h => (by cases hstate.symm.trans h),
    fun _ => Nat.pos_iff_ne_zero.mp hleft⟩

theorem Grows.wait (h : self.turn rest = .ok .more) (hsettled : self.Settled) :
    Grows self rest := by
  refine .paused self 0 hsettled (Nat.zero_le _) (next_more h) fun more => ?_
  rw [List.drop_zero]
  cases self.next (rest ++ more) with
  | error e => rfl
  | ok decoded => simp [Except.map, Decoded.behind]

theorem grows_value (hstate : self.state = .value) (hleft : rest.length < self.valueLeft) :
    Grows self rest := by
  have hpos : 0 < self.valueLeft := Nat.zero_lt_of_lt hleft
  by_cases hrest : rest = []
  · refine .wait ?_ (settled_value hstate hpos)
    rw [turn_eq_value hstate, value, if_neg (by omega), hrest]
    rfl
  · have hhere := turn_value hstate hpos hrest
    rw [Nat.min_eq_left (by omega), List.take_length] at hhere
    refine .part _ rest hrest (next_event hhere) (fun more hmore => ?_) hstate
    generalize hlater : ({ self with valueLeft := self.valueLeft - rest.length } : Decoder) = later
    have hlaterState : later.state = .value := by rw [← hlater]; exact hstate
    have hlaterLeft : later.valueLeft = self.valueLeft - rest.length := by rw [← hlater]
    have hmorePos := List.length_pos_of_ne_nil hmore
    have hnext := next_event (turn_value hlaterState (by omega) hmore)
    have hboth := next_event (turn_value hstate hpos (show rest ++ more ≠ [] by simp [hmore]))
    refine ⟨min more.length later.valueLeft, _, _, by omega, by omega, hnext, ?_⟩
    have hcount : min (rest ++ more).length self.valueLeft =
        rest.length + min more.length later.valueLeft := by
      rw [List.length_append]
      omega
    rw [hboth, hcount, List.take_length_add_append, ← hlater]
    simp only [Nat.sub_sub]

theorem grows_fields (hstate : self.state = .fields) (hleft : rest.length < self.left) :
    Grows self rest := by
  have hpos : 0 < self.left := Nat.zero_lt_of_lt hleft
  by_cases hrest : rest = []
  · refine .wait ?_ (settled_fields hstate hpos)
    rw [turn_eq_diagnose hstate, diagnose, if_neg (by omega), hrest]
    rfl
  · have hhere := turn_fields hstate hpos hrest (Nat.min_eq_left (by omega))
    rw [List.take_length, decide_eq_false (by omega)] at hhere
    -- With more behind, the bytes are fed first and then what is behind them.
    have hboth : ∀ more, more ≠ [] → ∀ count, min more.length (self.left - rest.length) = count →
        self.turn (rest ++ more) = ((self.fields.feed rest false).bind fun fields =>
          fields.feed (more.take count) (self.left = rest.length + count)).bind fun fields =>
            .ok (.on (rest.length + count)
              { self with fields, left := self.left - (rest.length + count) }) := by
      intro more hmore count hcount
      have hmorePos := List.length_pos_of_ne_nil hmore
      rw [turn_fields hstate hpos (by simp [hmore])
        (show min (rest ++ more).length self.left = rest.length + count by
          rw [List.length_append]
          omega), List.take_length_add_append, Fields.feed_append]
      intro hnil
      rw [List.take_eq_nil_iff] at hnil
      rcases hnil with hzero | hnil
      · omega
      · exact hmore hnil
    rcases calm_cases (self.fields.feed_calm rest false) with ⟨fields, hfed, -⟩ | hviolation
    · rw [hfed] at hhere hboth
      generalize hlater : ({ self with fields, left := self.left - rest.length } : Decoder) = later
      have hlaterState : later.state = .fields := by rw [← hlater]; exact hstate
      have hlaterLeft : later.left = self.left - rest.length := by rw [← hlater]
      have hlaterFields : later.fields = fields := by rw [← hlater]
      have hlaterMore : later.turn [] = .ok .more := by
        rw [turn_eq_diagnose hlaterState, diagnose, if_neg (by omega)]
        rfl
      have honTurn : self.turn rest = .ok (.on rest.length later) := by rw [hhere, ← hlater]; rfl
      have hnext : self.next rest = .ok ⟨later, rest.length, none⟩ := by
        rw [next_on honTurn, List.drop_length, next_more hlaterMore]
        rfl
      refine .paused later rest.length (settled_fields hlaterState (by omega)) (Nat.le_refl _) hnext
        fun more => ?_
      rw [List.drop_length, List.nil_append]
      by_cases hmore : more = []
      · rw [hmore, List.append_nil, hnext, next_more hlaterMore]
        rfl
      · generalize hcount : min more.length (self.left - rest.length) = count
        have hturn := hboth more hmore count hcount
        have hlast : decide (self.left = rest.length + count) = decide (later.left = count) :=
          decide_eq_decide.mpr (by omega)
        have hlaterTurn := turn_fields hlaterState (by omega) hmore (hlaterLeft ▸ hcount)
        rw [hlast] at hturn
        rw [hlaterFields] at hlaterTurn
        rcases calm_cases (fields.feed_calm (more.take count) (later.left = count)) with
          ⟨fields', hfed', -⟩ | hviolation
        · rw [show (Except.ok fields : Attempt Fields).bind _ = fields.feed _ _ from rfl, hfed']
            at hturn
          rw [hfed'] at hlaterTurn
          have hdrop : (rest ++ more).drop (rest.length + count) = more.drop count :=
            List.drop_length_add_append count
          rw [next_on hturn, next_on hlaterTurn, map_behind, hdrop, ← hlater]
          simp only [Nat.sub_sub]
        · rw [show (Except.ok fields : Attempt Fields).bind _ = fields.feed _ _ from rfl,
            hviolation] at hturn
          rw [hviolation] at hlaterTurn
          rw [next_error hturn, next_error hlaterTurn]
          rfl
    · rw [hviolation] at hhere hboth
      refine .fail fun more => ?_
      by_cases hmore : more = []
      · rw [hmore, List.append_nil]
        exact next_error hhere
      · exact next_error (hboth more hmore _ rfl)

/-- **Every answer of `next`** is of these kinds, by the loop's induction. -/
theorem grows (self : Decoder) (rest : List UInt8) : Grows self rest := by
  induction self, rest using turn_induction with
  | turn self rest ih =>
    by_cases hends : self.Streams rest
    · rcases hends with ⟨hstate, hleft⟩ | ⟨hstate, hleft⟩
      · exact grows_value hstate hleft
      · exact grows_fields hstate hleft
    · have hturned := self.turn_turned rest
      have happend : self.turn rest ≠ .ok .more → ¬ self.Streams rest → ∀ more,
          self.turn (rest ++ more) = self.turn rest := turn_append
      cases hturn : self.turn rest with
      | error e =>
        rw [hturn] at hturned happend
        cases hturned
        exact .fail fun more => next_error (happend (fun h => (by cases h)) hends more)
      | ok answer =>
        rw [hturn] at hturned happend
        cases answer with
        | more =>
          cases hturned with
          | more settled _ => exact .wait hturn settled
        | event count event decoder =>
          exact .event ⟨decoder, count, some event⟩ event rfl fun more =>
            next_event (happend (fun h => (by cases h)) hends more)
        | on count decoder =>
          refine (ih count decoder hturn).behind hturned.on.1 fun more => ?_
          rw [next_on (happend (fun h => (by cases h)) hends more),
            List.drop_append_of_le_length hturned.on.1]

end Decoder

end Rui.Postgres
