import Rui.Library.Calm
import Rui.Postgres.Decoder

/-!
# What one turn of the decoder can do

Every way a turn of `next`'s loop can end, with what was checked on the way: no
turn fails a check, and one that goes on has consumed something or is nearer to
a header. So the loop ends.
-/

namespace Rui.Postgres

open Library

/-! ## Readers -/

theorem int_calm (n : Nat) (reader : List UInt8) : Calm (fun _ => True) (int n reader) :=
  .ite (fun _ => .error _) fun _ => .ok trivial

theorem string_calm (reader : List UInt8) : Calm (fun _ => True) (string reader) := by
  rw [string]
  split
  · exact .error _
  · exact .ok trivial

theorem skip_calm (count : Nat) (reader : List UInt8) : Calm (fun _ => True) (skip count reader) :=
  .ite (fun _ => .error _) fun _ => .ok trivial

theorem skipFields_calm (columns : Nat) (reader : List UInt8) :
    Calm (fun rest => skipFields columns reader = .ok rest) (skipFields columns reader) := by
  have hcalm : Calm (fun _ => True) (skipFields columns reader) := by
    induction columns generalizing reader with
    | zero => exact .ok trivial
    | succ columns ih =>
      exact (string_calm _).bind fun _ _ => (skip_calm _ _).bind fun _ _ => ih _
  cases hskip : skipFields columns reader with
  | ok rest => exact .ok rfl
  | error e =>
    rw [hskip] at hcalm
    exact hcalm

/-! ## Descriptions -/

variable {reader rest : List UInt8} {self : Decoder}

theorem skip_eq_ok {count : Nat} :
    skip count reader = .ok rest ↔ count ≤ reader.length ∧ reader.drop count = rest := by
  rw [skip]
  split
  · rename_i hshort
    exact ⟨fun h => (by cases h), fun h => absurd h.1 (Nat.not_le_of_lt hshort)⟩
  · rename_i hlong
    exact ⟨fun h => ⟨Nat.le_of_not_lt hlong, Except.ok.inj h⟩, fun h => congrArg _ h.2⟩

theorem field_ok {behind name : List UInt8} (hname : string reader = .ok (name, behind))
    (hskip : skip 18 behind = .ok rest) : ∃ first, field reader = .ok (first, rest) := by
  obtain ⟨hlength, hrest⟩ := skip_eq_ok.mp hskip
  have hint : ∀ (n : Nat) (bytes : List UInt8), n ≤ bytes.length →
      surely (int n bytes) = .ok (readInt (bytes.take n), bytes.drop n) := fun n bytes h => by
    rw [int, if_neg (Nat.not_lt.mpr h)]
    rfl
  have hsix : ∀ bytes : List UInt8, 6 ≤ bytes.length → surely (skip 6 bytes) = .ok (bytes.drop 6) :=
    fun bytes h => by
      rw [skip_eq_ok.mpr ⟨h, rfl⟩]
      rfl
  refine ⟨⟨name, readInt ((behind.drop 6).take 4), readInt ((behind.drop 16).take 2)⟩, ?_⟩
  rw [field, hname, show surely (.ok (name, behind)) = .ok (name, behind) from rfl, ok_bind]
  dsimp only
  rw [hsix _ (by omega), ok_bind, hint 4 _ (by rw [List.length_drop]; omega), ok_bind]
  dsimp only
  rw [List.drop_drop, hsix _ (by rw [List.length_drop]; omega), ok_bind, List.drop_drop,
    hint 2 _ (by rw [List.length_drop]; omega), ok_bind]
  dsimp only
  rw [List.drop_drop, hrest]

/-- **A checked description is iterated** field by field to its end. -/
theorem iterate_ok {columns : Nat} (h : skipFields columns reader = .ok []) (calls : Nat) :
    ∃ fields, iterate calls reader = .ok fields ∧ fields.length = min calls columns := by
  induction columns generalizing reader calls with
  | zero =>
    cases h
    cases calls with
    | zero => exact ⟨[], rfl, rfl⟩
    | succ calls => exact ⟨[], rfl, by simp⟩
  | succ columns ih =>
    obtain ⟨⟨name, behind⟩, hname, h⟩ := bind_eq_ok.mp h
    obtain ⟨rest, hskip, h⟩ := bind_eq_ok.mp h
    cases calls with
    | zero => exact ⟨[], rfl, by simp⟩
    | succ calls =>
      have hreader : reader ≠ [] := by
        rintro rfl
        cases hname
      obtain ⟨first, hfield⟩ := field_ok hname hskip
      obtain ⟨others, hothers, hlength⟩ := ih h calls
      refine ⟨first :: others, ?_, ?_⟩
      · rw [iterate, if_neg hreader, hfield, ok_bind]
        dsimp only
        rw [hothers]
        rfl
      · rw [List.length_cons, hlength]
        omega

/-- What a message's reader may ask of it. -/
def Message.Readable : Message → Prop
  | .rowDescription description => ∀ calls, ∃ fields, description.fields calls = .ok fields ∧
      fields.length = min calls description.columns
  | .parameterDescription description =>
    ∀ index < description.count, ∃ oid, description.oid index = .ok oid
  | _ => True

theorem oid_ok (description : ParameterDescription) {index : Nat} (h : index < description.count) :
    ∃ oid, description.oid index = .ok oid := by
  rw [ParameterDescription.count] at h
  rw [ParameterDescription.oid, if_neg (by omega)]
  exact ⟨_, rfl⟩

/-- A message read to its end can be read by its reader. -/
def Parsed (read : Message × List UInt8) : Prop := read.2 = [] → read.1.Readable

theorem parseAuthentication_calm (body : List UInt8) :
    Calm Parsed (parseAuthentication body) := by
  refine (int_calm _ _).bind fun _ _ => .ite (fun _ => .ok fun _ => trivial) fun _ => ?_
  refine .ite (fun _ => .ite (fun _ => .error _) fun _ => .ok fun _ => trivial) fun _ => ?_
  refine .ite (fun _ => .ok fun _ => trivial) fun _ => ?_
  exact .ite (fun _ => .ok fun _ => trivial) fun _ => .ok fun _ => trivial

theorem parseStatus_calm (code : Nat) : Calm (fun _ => True) (parseStatus code) :=
  .ite (fun _ => .ok trivial) fun _ => .ite (fun _ => .ok trivial) fun _ =>
    .ite (fun _ => .ok trivial) fun _ => .error _

theorem parseBody_calm (tag : UInt8) (body : List UInt8) : Calm Parsed (parseBody tag body) := by
  have hplain : ∀ message : Message, (∀ rest, Parsed (message, rest)) →
      Calm Parsed (.ok (message, body) : Attempt _) := fun _ h => .ok (h body)
  refine .ite (fun _ => parseAuthentication_calm body) fun _ => .ite (fun _ => ?_) fun _ => ?_
  · refine (string_calm _).bind fun _ _ => (string_calm _).bind fun _ _ => ?_
    exact .ok fun _ => trivial
  refine .ite (fun _ => ?_) fun _ => .ite (fun _ => ?_) fun _ => ?_
  · exact (int_calm _ _).bind fun _ _ => (int_calm _ _).bind fun _ _ => .ok fun _ => trivial
  · exact (int_calm _ _).bind fun _ _ => (parseStatus_calm _).bind fun _ _ => .ok fun _ => trivial
  refine .ite (fun _ => hplain _ fun _ _ => trivial) fun _ => ?_
  refine .ite (fun _ => hplain _ fun _ _ => trivial) fun _ => ?_
  refine .ite (fun _ => hplain _ fun _ _ => trivial) fun _ => ?_
  refine .ite (fun _ => hplain _ fun _ _ => trivial) fun _ => ?_
  refine .ite (fun _ => ?_) fun _ => .ite (fun _ => ?_) fun _ => .ite (fun _ => ?_) fun _ => .error _
  · refine (int_calm _ _).bind fun _ _ => .ite (fun _ => .error _) fun _ => .ok fun _ => ?_
    exact fun index hindex => oid_ok _ hindex
  · refine (int_calm _ _).bind fun _ _ => (skipFields_calm _ _).bind fun rest hskip => .ok ?_
    intro hrest
    cases hrest
    exact iterate_ok hskip
  · exact (string_calm _).bind fun _ _ => .ok fun _ => trivial

theorem parseMessage_calm (tag : UInt8) (body : List UInt8) :
    Calm Message.Readable (parseMessage tag body) :=
  (parseBody_calm tag body).bind fun _ hparsed =>
    .ite (fun _ => .error _) fun hend => .ok (hparsed (not_not.mp hend))

theorem Fields.feed_calm (fields : Fields) (bytes : List UInt8) (last : Bool) :
    Calm (fun _ => True) (fields.feed bytes last) := by
  fun_induction Fields.feed fields bytes last with
  | case1 => exact .ok trivial
  | case2 => exact .error _
  | case3 => exact .ok trivial
  | case4 _ _ _ _ _ ih => exact ih
  | case5 => exact .ok trivial
  | case6 _ _ _ _ _ _ _ _ _ _ ih => exact ih

theorem calm_cases {α : Type} {P : α → Prop} {x : Attempt α} (h : Calm P x) :
    (∃ a, x = .ok a ∧ P a) ∨ x = violation := by
  rcases h.cases with hok | ⟨e, he⟩
  · exact .inl hok
  · cases e
    exact .inr he

/-! ## Turns -/

/-- How many turns may come before a state consumes something. -/
def State.rank : State → Nat
  | .header => 0
  | .row => 1
  | .value => 2
  | .fields => 1

/-- A state whose next turn consumes something, or wants more. -/
structure Decoder.Settled (decoder : Decoder) : Prop where
  row : decoder.state = .row → decoder.columnsLeft ≠ 0
  value : decoder.state = .value → decoder.valueLeft ≠ 0
  fields : decoder.state = .fields → decoder.left ≠ 0

/-- What one turn can do. -/
inductive Decoder.Turned (self : Decoder) (rest : List UInt8) : Attempt Turn → Prop
  | violation : Turned self rest violation
  | more (settled : self.Settled) (short : rest.length < receiveBufferBytes) :
    Turned self rest (.ok .more)
  | rowBegin (state : self.state = .header) (within : 7 ≤ rest.length)
    (length : 6 ≤ lengthOf rest) :
    Turned self rest (.ok (.event 7 (.row (readInt ((rest.drop 5).take 2)))
      { self with
        state := .row
        left := lengthOf rest - 4 - 2
        columnsLeft := readInt ((rest.drop 5).take 2) }))
  | diagnosis (fields : Fields) (state : self.state = .header) (within : 5 ≤ rest.length)
    (length : 4 ≤ lengthOf rest) (fresh : fields.code = none) :
    Turned self rest (.ok (.on 5 { self with state := .fields, left := lengthOf rest - 4, fields }))
  | message (message : Message) (state : self.state = .header) (length : 4 ≤ lengthOf rest)
    (within : 5 + (lengthOf rest - 4) ≤ rest.length) (readable : message.Readable) :
    Turned self rest (.ok (.event (5 + (lengthOf rest - 4)) (.message message) self))
  | rowEnd (state : self.state = .row) (columns : self.columnsLeft = 0) (left : self.left = 0) :
    Turned self rest (.ok (.on 0 { self with state := .header }))
  | null (state : self.state = .row) (columns : 0 < self.columnsLeft) (left : 4 ≤ self.left)
    (within : 4 ≤ rest.length) :
    Turned self rest (.ok (.event 4 (.value none)
      { self with left := self.left - 4, columnsLeft := self.columnsLeft - 1 }))
  | whole (len : Nat) (state : self.state = .row) (columns : 0 < self.columnsLeft)
    (left : 4 + len ≤ self.left) (within : 4 + len ≤ rest.length) :
    Turned self rest (.ok (.event (4 + len) (.value (some ((rest.drop 4).take len)))
      { self with left := self.left - (4 + len), columnsLeft := self.columnsLeft - 1 }))
  | long (len : Nat) (state : self.state = .row) (columns : 0 < self.columnsLeft)
    (left : 4 + len ≤ self.left) (within : 4 ≤ rest.length) :
    Turned self rest (.ok (.event 4 (.valueBegin len)
      { self with
        state := .value
        left := self.left - (4 + len)
        columnsLeft := self.columnsLeft - 1
        valueLeft := len }))
  | valueEnd (state : self.state = .value) (left : self.valueLeft = 0) :
    Turned self rest (.ok (.on 0 { self with state := .row }))
  | part (state : self.state = .value) (left : 0 < self.valueLeft) (within : 0 < rest.length) :
    Turned self rest (.ok (.event (min rest.length self.valueLeft)
      (.valuePart (rest.take (min rest.length self.valueLeft)))
      { self with valueLeft := self.valueLeft - min rest.length self.valueLeft }))
  | noticed (state : self.state = .fields) (left : self.left = 0) :
    Turned self rest (.ok (.on 0 { self with state := .header }))
  | diagnosed (state : self.state = .fields) (left : self.left = 0) :
    Turned self rest (.ok (.event 0 (.errorResponse self.fields.diagnostic)
      { self with state := .header }))
  | feed (fields : Fields) (state : self.state = .fields) (left : 0 < self.left)
    (within : 0 < rest.length) :
    Turned self rest (.ok (.on (min rest.length self.left)
      { self with fields, left := self.left - min rest.length self.left }))

theorem sub_of_le {a b : Nat} (h : b ≤ a) : sub a b = .ok (a - b) := if_pos h

theorem Decoder.header_turned (hstate : self.state = .header) (rest : List UInt8) :
    self.Turned rest (self.header rest) := by
  have hmore : rest.length < receiveBufferBytes → self.Turned rest (.ok .more) :=
    .more ⟨fun h => (by cases hstate.symm.trans h), fun h => (by cases hstate.symm.trans h),
      fun h => (by cases hstate.symm.trans h)⟩
  unfold Decoder.header
  split
  · exact hmore (by rw [receiveBufferBytes]; omega)
  · rename_i hfive
    dsimp only
    split
    · exact .violation
    · rename_i hlength
      split
      · split
        · exact hmore (by rw [receiveBufferBytes]; omega)
        · split
          · exact .violation
          · exact .rowBegin hstate (by omega) (by omega)
      · split
        · exact .diagnosis _ hstate (by omega) (by omega) rfl
        · split
          · exact .violation
          · rename_i hfits
            split
            · rw [maxMessageBytes] at hfits
              exact hmore (by omega)
            · rcases calm_cases (parseMessage_calm (rest.headD 0)
                ((rest.drop 5).take (lengthOf rest - 4))) with
                ⟨message, hparsed, hreadable⟩ | hviolation
              · rw [hparsed]
                exact .message message hstate (by omega) (by omega) hreadable
              · rw [hviolation]
                exact .violation

theorem Decoder.row_turned (hstate : self.state = .row) (rest : List UInt8) :
    self.Turned rest (self.row rest) := by
  have hmore : self.columnsLeft ≠ 0 → rest.length < receiveBufferBytes →
      self.Turned rest (.ok .more) := fun hcolumns =>
    .more ⟨fun _ => hcolumns, fun h => (by cases hstate.symm.trans h),
      fun h => (by cases hstate.symm.trans h)⟩
  unfold Decoder.row
  split
  · split
    · exact .violation
    · exact .rowEnd hstate ‹_› (by omega)
  · rename_i hcolumns
    split
    · exact hmore hcolumns (by rw [receiveBufferBytes]; omega)
    · split
      · exact .violation
      · dsimp only
        split
        · rw [sub_of_le (by omega), sub_of_le (by omega)]
          exact .null hstate (by omega) (by omega) (by omega)
        · split
          · exact .violation
          · split
            · split
              · rename_i hinline hshort
                rw [maxInlineValueBytes, receiveBufferBytes] at hinline
                exact hmore hcolumns (by rw [receiveBufferBytes]; omega)
              · rw [sub_of_le (by omega), sub_of_le (by omega)]
                exact .whole _ hstate (by omega) (by omega) (by omega)
            · rw [sub_of_le (by omega), sub_of_le (by omega)]
              exact .long _ hstate (by omega) (by omega) (by omega)

theorem Decoder.value_turned (hstate : self.state = .value) (rest : List UInt8) :
    self.Turned rest (self.value rest) := by
  unfold Decoder.value
  split
  · exact .valueEnd hstate ‹_›
  · rename_i hleft
    split
    · rename_i hnil
      exact .more ⟨fun h => (by cases hstate.symm.trans h), fun _ => hleft,
        fun h => (by cases hstate.symm.trans h)⟩ (by rw [hnil, receiveBufferBytes]; decide)
    · dsimp only
      rw [sub_of_le (Nat.min_le_right _ _)]
      exact .part hstate (by omega) (by omega)

theorem Decoder.diagnose_turned (hstate : self.state = .fields) (rest : List UInt8) :
    self.Turned rest (self.diagnose rest) := by
  unfold Decoder.diagnose
  split
  · split
    · exact .violation
    · split
      · exact .noticed hstate ‹_›
      · split
        · exact .violation
        · exact .diagnosed hstate ‹_›
  · rename_i hleft
    split
    · rename_i hnil
      exact .more ⟨fun h => (by cases hstate.symm.trans h),
        fun h => (by cases hstate.symm.trans h), fun _ => hleft⟩
        (by rw [hnil, receiveBufferBytes]; decide)
    · rcases calm_cases (self.fields.feed_calm (rest.take (min rest.length self.left))
        (self.left = min rest.length self.left)) with ⟨fields, hfed, -⟩ | hviolation
      · dsimp only
        rw [hfed, ok_bind, sub_of_le (Nat.min_le_right _ _)]
        exact .feed fields hstate (by omega) (by omega)
      · dsimp only
        rw [hviolation]
        exact .violation

/-- **One turn** does one of these things. -/
theorem Decoder.turn_turned (self : Decoder) (rest : List UInt8) :
    self.Turned rest (self.turn rest) := by
  unfold Decoder.turn
  split
  · exact Decoder.header_turned ‹_› rest
  · exact Decoder.row_turned ‹_› rest
  · exact Decoder.value_turned ‹_› rest
  · exact Decoder.diagnose_turned ‹_› rest

theorem Decoder.Turned.on {decoder : Decoder} {count : Nat}
    (h : self.Turned rest (.ok (.on count decoder))) :
    count ≤ rest.length ∧ (count = 0 → decoder.state.rank < self.state.rank) := by
  generalize hanswer : (.ok (.on count decoder) : Attempt Turn) = answer at h
  cases h <;> cases hanswer
  case diagnosis hwithin _ _ => exact ⟨hwithin, fun h => (by cases h)⟩
  case rowEnd hstate _ _ => exact ⟨Nat.zero_le _, fun _ => by rw [hstate]; exact Nat.zero_lt_one⟩
  case valueEnd hstate _ => exact ⟨Nat.zero_le _, fun _ => by rw [hstate]; exact Nat.one_lt_two⟩
  case noticed hstate _ => exact ⟨Nat.zero_le _, fun _ => by rw [hstate]; exact Nat.zero_lt_one⟩
  case feed => exact ⟨Nat.min_le_left _ _, fun hcount => by omega⟩

/-- An answer of `next`, with the decoder it leaves. -/
structure Decoded where
  decoder : Decoder
  consumed : Nat
  event : Option Event
  deriving DecidableEq, Repr

/-- `next`'s loop, on what is left of the input behind `offset` bytes. -/
def Decoder.loop (self : Decoder) (offset : Nat) (rest : List UInt8) : Attempt Decoded :=
  match _h : self.turn rest with
  | .error e => .error e
  | .ok .more => .ok ⟨self, offset, none⟩
  | .ok (.event count event decoder) => .ok ⟨decoder, offset + count, some event⟩
  | .ok (.on count decoder) => loop decoder (offset + count) (rest.drop count)
termination_by 3 * rest.length + self.state.rank
decreasing_by
  have hon := (_h ▸ self.turn_turned rest).on
  have hrank : decoder.state.rank ≤ 2 := by cases decoder.state <;> decide
  rw [List.length_drop]
  by_cases hcount : count = 0
  · have := hon.2 hcount
    omega
  · omega

def Decoder.next (self : Decoder) (input : List UInt8) : Attempt Decoded := self.loop 0 input

end Rui.Postgres
