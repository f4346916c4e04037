import Rui.Json.Calls

/-!
# What the reader does with well-formed text

From a reader that waits for a value, the text of a tree makes the calls of the
tree and leaves the reader after the value. A number ends only with the byte
behind it, so runs are stated before the text that may follow them.
-/

namespace Rui.Json

open Library Library.Json

namespace Reader

/-! ## Runs -/

/-- Over `bytes`, before any allowed text, the reader makes `calls` and comes
to a reader with `post`. -/
def Reads (allowed : List UInt8 → Prop) (self : Reader) (bytes : List UInt8) (calls : List Call)
    (post : Reader → Prop) : Prop :=
  ∃ after, post after ∧
    ∀ rest, allowed rest → self.readBytes (bytes ++ rest) = (after.readBytes rest).tell calls

def Anything (_ : List UInt8) : Prop := True

/-- A byte that ends a number. -/
def isDelimiter (byte : UInt8) : Bool :=
  isSpace byte || byte == ascii ',' || byte == ascii '}' || byte == ascii ']'

def Delimited (rest : List UInt8) : Prop := ∃ byte tail, rest = byte :: tail ∧ isDelimiter byte

/-- What the reader needs to know between values. -/
structure At (reader : Reader) (state : State) (arrays : List Bool) (offset : Nat) : Prop where
  state : reader.state = state
  arrays : reader.arrays = arrays
  offset : reader.offset = offset

theorem readBytes_nil (self : Reader) : self.readBytes [] = .ok self := by
  rw [readBytes.eq_def]
  split <;> rfl

variable {self : Reader} {bytes more : List UInt8} {byte : UInt8} {calls : List Call}
  {post : Reader → Prop} {allowed : List UInt8 → Prop} {negative : Bool} {value : Nat}

theorem readBytes_cons (h : self.state ≠ .string) (byte : UInt8) (rest : List UInt8) :
    self.readBytes (byte :: rest) =
      (self.step byte).andThen fun self => (self.advance 1).readBytes rest := by
  rw [readBytes.eq_def, if_pos h]

theorem foldl_append (self : Reader) (results : List Decoded) :
    results.foldl (fun self result => self.append result.bytes) self =
      self.append (joined results) := by
  induction results generalizing self with
  | nil => simp [append]
  | cons result results ih =>
    rw [List.foldl_cons, ih, joined_cons]
    simp [append, Text.append_append]

theorem readBytes_contents (h : self.state = .string) (hne : bytes ≠ []) : self.readBytes bytes =
      match self.takeString bytes with
      | .error e => .fail e
      | .ok (self, []) => .ok self
      | .ok (self, _ :: rest) =>
        self.closeString.andThen fun self => (self.advance 1).readBytes rest := by
  obtain ⟨byte, behind, rfl⟩ := List.exists_cons_of_ne_nil hne
  rw [readBytes.eq_def, if_neg (not_not_intro h)]
  simp only
  split <;> simp_all

theorem readBytes_string (h : self.state = .string) (pieces : List Piece) (rest : List UInt8) :
    self.readBytes (raw pieces ++ ascii '"' :: rest) =
      ((self.append (decoded pieces)).advance (raw pieces).length).closeString.andThen
        fun self => (self.advance 1).readBytes rest := by
  have hstops : Stops (ascii '"' :: rest) := .inr rfl
  obtain ⟨results, hdecode, hjoined⟩ := decodeString_complete pieces hstops
  have htake : self.takeString (raw pieces ++ ascii '"' :: rest) =
      .ok ((self.append (decoded pieces)).advance (raw pieces).length, ascii '"' :: rest) := by
    simp only [takeString, hdecode, foldl_append, hjoined, List.length_append, Nat.add_sub_cancel]
  rw [readBytes_contents h (by simp), htake]

theorem Reads.of_step {next : Reader} (hstate : self.state ≠ .string)
    (hstep : self.step byte = .tell calls (.ok next)) (hpost : post (next.advance 1)) :
    Reads Anything self [byte] calls post := by
  refine ⟨next.advance 1, hpost, fun rest _ => ?_⟩
  rw [List.singleton_append, readBytes_cons hstate, hstep, Told.tell_andThen, Told.ok_andThen]

theorem Reads.nil (h : post self) : Reads Anything self [] [] post :=
  ⟨self, h, fun _ _ => rfl⟩

theorem Reads.mono {more : Reader → Prop} (h : Reads allowed self bytes calls post)
    (himp : ∀ after, post after → more after) : Reads allowed self bytes calls more := by
  obtain ⟨after, hpost, hrun⟩ := h
  exact ⟨after, himp after hpost, hrun⟩

variable {calls' : List Call} {post' : Reader → Prop} {tail digits : List UInt8} {number : Number}

theorem Reads.before {allowed' : List UInt8 → Prop} (first : Reads allowed self bytes calls post)
    (second : ∀ middle, post middle → Reads allowed' middle more calls' post')
    (hallowed : ∀ rest, allowed' rest → allowed (more ++ rest)) :
    Reads allowed' self (bytes ++ more) (calls ++ calls') post' := by
  obtain ⟨middle, hmiddle, hfirst⟩ := first
  obtain ⟨after, hafter, hsecond⟩ := second middle hmiddle
  refine ⟨after, hafter, fun rest hrest => ?_⟩
  rw [List.append_assoc, hfirst _ (hallowed rest hrest), hsecond rest hrest, Told.tell_tell]

theorem Reads.trans (first : Reads Anything self bytes calls post)
    (second : ∀ middle, post middle → Reads allowed middle more calls' post') :
    Reads allowed self (bytes ++ more) (calls ++ calls') post' :=
  first.before second fun _ _ => trivial

theorem Reads.allow (h : Reads Anything self bytes calls post) :
    Reads allowed self bytes calls post := by
  obtain ⟨after, hpost, hrun⟩ := h
  exact ⟨after, hpost, fun rest _ => hrun rest trivial⟩

/-! ## Whitespace -/

/-- The states in which the reader skips whitespace. -/
def skips : State → Bool
  | .document | .keyOrClose | .key | .colon | .value | .valueOrClose | .afterValue | .done => true
  | _ => false

theorem step_space (hskips : skips self.state = true) (hspace : isSpace byte = true) :
    self.step byte = .ok self := by
  cases hstate : self.state <;> simp only [hstate, skips, Bool.false_eq_true] at hskips <;>
    simp only [step, hstate, unlessSpace, afterValue, hspace, if_true]

theorem reads_space (hskips : skips self.state = true) (space : Space) :
    Reads Anything self space.bytes []
      (fun after => At after self.state self.arrays (self.offset + space.bytes.length)) := by
  obtain ⟨bytes, hspaces⟩ := space
  induction bytes generalizing self with
  | nil => exact .nil ⟨rfl, rfl, rfl⟩
  | cons byte bytes ih =>
    have hne : self.state ≠ .string := by
      intro h
      simp [h, skips] at hskips
    have hfirst : Reads Anything self [byte] [] (· = self.advance 1) :=
      .of_step hne (step_space hskips (hspaces byte List.mem_cons_self)) rfl
    refine hfirst.trans ?_
    rintro _ rfl
    have hskips' : skips (self.advance 1).state = true := hskips
    refine (ih hskips' fun b hb => hspaces b (List.mem_cons_of_mem _ hb)).mono
      fun after hafter => ⟨hafter.state, hafter.arrays, ?_⟩
    rw [hafter.offset, advance, List.length_cons, Nat.add_assoc, Nat.add_comm 1]

/-! ## Bytes that begin and join values -/

theorem step_value (hstate : self.state = .value ∨ self.state = .valueOrClose)
    (hspace : isSpace byte = false) (hclose : byte ≠ ascii ']') :
    self.step byte = self.beginValue byte := by
  rcases hstate with hstate | hstate <;>
    simp only [step, hstate, unlessSpace, hspace, Bool.false_eq_true, if_false, if_neg hclose]

/-- The states in which a key is due. -/
def KeyDue (state : State) : Prop := state = .key ∨ state = .keyOrClose

/-- The states in which a value is due. -/
def ValueDue (state : State) : Prop := state = .value ∨ state = .valueOrClose

theorem reads_key (hstate : KeyDue self.state) (pieces : List Piece) :
    Reads Anything self (quoted pieces)
      [.key (.of (decoded pieces)) ⟨self.offset + 1, (raw pieces).length⟩ self.depth]
      (fun after => At after .colon self.arrays (self.offset + (quoted pieces).length)) := by
  have hquote : self.step (ascii '"') = .ok (self.startString true) := by
    have hspace : isSpace (ascii '"') = false := by decide
    rcases hstate with h | h <;> simp [step, h, unlessSpace, hspace]
  have hne : self.state ≠ .string := by
    rcases hstate with h | h <;> simp [h]
  let opened := (self.startString true).advance 1
  let filled := (opened.append (decoded pieces)).advance (raw pieces).length
  refine ⟨{ filled with state := .colon }.advance 1, ⟨rfl, rfl, ?_⟩, fun rest _ => ?_⟩
  · simp only [quoted, List.length_cons, List.length_append, List.length_nil]
    simp only [filled, opened, advance, append, startString]
    omega
  · have hstring : opened.state = .string := rfl
    rw [quoted, List.cons_append, readBytes_cons hne, hquote, Told.ok_andThen,
      List.append_assoc, List.singleton_append, readBytes_string hstring]
    have hkey : closeString filled = .tell
        [.key (.of (decoded pieces)) ⟨self.offset + 1, (raw pieces).length⟩ self.depth]
        (.ok { filled with state := .colon }) := by
      simp [closeString, filled, opened, append, advance, startString, string, depth,
        Text.empty_append]
    rw [hkey, Told.tell_andThen, Told.ok_andThen]

theorem reads_string (hstate : ValueDue self.state) (hdepth : self.depth ≤ maxDepth)
    (pieces : List Piece) : Reads Anything self (quoted pieces)
      (valueCalls (.string pieces) self.depth self.offset (self.arrays.headD false))
      (fun after => At after .afterValue self.arrays (self.offset + (quoted pieces).length)) := by
  have hquote : self.step (ascii '"') =
      .tell [self.begins .string] (.ok (self.startString false)) := by
    have hbytes : ascii '"' ≠ ascii '{' ∧ ascii '"' ≠ ascii '[' := by decide
    rw [step_value hstate (by decide) (by decide), beginValue, if_neg (Nat.not_lt.mpr hdepth),
      if_neg hbytes.1, if_neg hbytes.2, if_pos rfl]
  have hne : self.state ≠ .string := by
    rcases hstate with h | h <;> simp [h]
  let opened := (self.startString false).advance 1
  let filled := (opened.append (decoded pieces)).advance (raw pieces).length
  refine ⟨{ filled with state := .afterValue }.advance 1, ⟨rfl, rfl, ?_⟩, fun rest _ => ?_⟩
  · simp only [quoted, List.length_cons, List.length_append, List.length_nil]
    simp only [filled, opened, advance, append, startString]
    omega
  · have hstring : opened.state = .string := rfl
    rw [quoted, List.cons_append, readBytes_cons hne, hquote, Told.tell_andThen, Told.ok_andThen,
      List.append_assoc, List.singleton_append, readBytes_string hstring]
    have hclosed : closeString filled = .tell
        [.ends (.string (.of (decoded pieces)) ⟨self.offset + 1, (raw pieces).length⟩) self.depth
          (self.offset + 1 + (raw pieces).length)]
        (.ok { filled with state := .afterValue }) := by
      simp [closeString, endString, endValue, filled, opened, append, advance, startString, string,
        depth, Text.empty_append]
    rw [hclosed, Told.tell_andThen, Told.ok_andThen, Told.tell_tell]
    rfl

/-! ## Literals -/

theorem literalTails_cons {start : Nat} (h : literalTails.drop start = (byte :: tail) ++ 0 :: more) :
    literalTails.drop (start + 1) = tail ++ 0 :: more ∧ literalTails[start]? = some byte ∧
      literalTails[start + 1]? = (tail ++ [(0 : UInt8)]).head? := by
  have hdrop : literalTails.drop (start + 1) = tail ++ 0 :: more := by
    rw [← List.drop_drop, h]
    rfl
  refine ⟨hdrop, ?_, ?_⟩
  · rw [← List.head?_drop, h]
    rfl
  · rw [← List.head?_drop, hdrop]
    cases tail <;> rfl

theorem reads_literalTail (hstate : self.state = .literal)
    (htable : literalTails.drop self.literal = tail ++ 0 :: more) (hne : tail ≠ [])
    (hzero : ∀ byte ∈ tail, byte ≠ 0) {value : Literal}
    (hvalue : ∀ reader : Reader, reader.literal = self.literal + tail.length →
      reader.literalValue = some value) :
    Reads Anything self tail [.ends (.literal value) self.depth (self.offset + (tail.length - 1))]
      (fun after => At after .afterValue self.arrays (self.offset + tail.length)) := by
  induction tail generalizing self with
  | nil => exact absurd rfl hne
  | cons byte tail ih =>
    have hstring : self.state ≠ .string := by simp [hstate]
    obtain ⟨hdrop, hbyte, hnext⟩ := literalTails_cons htable
    cases tail with
    | nil =>
      have hstep : self.step byte = .tell [.ends (.literal value) self.depth self.offset]
          (.ok { self with literal := self.literal + 1, state := .afterValue }) := by
        simp only [step, hstate, hbyte, hnext, List.nil_append, List.head?_cons, endLiteral]
        rw [hvalue _ rfl]
        simp [endValue, depth]
      exact .of_step hstring hstep ⟨rfl, rfl, rfl⟩
    | cons next tail =>
      have hstep : self.step byte = .ok { self with literal := self.literal + 1 } := by
        have hnonzero : next ≠ 0 := hzero next (by simp)
        simp only [step, hstate, hbyte, hnext, List.cons_append, List.head?_cons]
        simp [hnonzero]
      let moved := { self with literal := self.literal + 1 }.advance 1
      have hfirst : Reads Anything self [byte] [] (· = moved) := .of_step hstring hstep rfl
      have hmoved : moved.state = .literal := hstate
      have hrest := ih hmoved hdrop (by simp) (fun b hb => hzero b (List.mem_cons_of_mem _ hb))
        fun reader hreader => hvalue reader (by
          rw [hreader]
          simp [moved, advance, Nat.add_assoc, Nat.add_comm 1])
      have hjoin := hfirst.trans (by rintro _ rfl; exact hrest)
      simpa [moved, advance, depth, Nat.add_assoc, Nat.add_comm 1] using hjoin

/-- Where a literal's tail starts in the table. -/
def literalStart : Literal → Nat
  | .trueValue => 0
  | .falseValue => 4
  | .nullValue => 9

theorem ne_zero_of_all (h : bytes.all (· != 0) = true) : ∀ byte ∈ bytes, byte ≠ 0 := by
  intro byte hbyte
  simpa using List.all_eq_true.mp h byte hbyte

theorem literal_raw (literal : Literal) : ∃ first tail more, literal.raw = first :: tail ∧
    tail ≠ [] ∧ (∀ byte ∈ tail, byte ≠ 0) ∧
    literalTails.drop (literalStart literal) = tail ++ 0 :: more ∧
    isSpace first = false ∧ first ≠ ascii ']' ∧
    ∀ self : Reader, self.depth ≤ maxDepth → self.beginValue first =
      .tell [self.begins .literal] (.ok (self.startLiteral (literalStart literal))) := by
  cases literal with
  | trueValue =>
    refine ⟨ascii 't', Library.text "rue", _, rfl, by decide, ne_zero_of_all (by decide), rfl,
      by decide, by decide, ?_⟩
    intro self hdepth
    rw [beginValue, if_neg (Nat.not_lt.mpr hdepth)]
    rfl
  | falseValue =>
    refine ⟨ascii 'f', Library.text "alse", _, rfl, by decide, ne_zero_of_all (by decide), rfl,
      by decide, by decide, ?_⟩
    intro self hdepth
    rw [beginValue, if_neg (Nat.not_lt.mpr hdepth)]
    rfl
  | nullValue =>
    refine ⟨ascii 'n', Library.text "ull", _, rfl, by decide, ne_zero_of_all (by decide), rfl,
      by decide, by decide, ?_⟩
    intro self hdepth
    rw [beginValue, if_neg (Nat.not_lt.mpr hdepth)]
    rfl

theorem literalValue_end {literal : Literal}
    (h : self.literal = literalStart literal + (literal.raw.length - 1)) :
    self.literalValue = some literal := by
  rw [literalValue, h]
  cases literal <;> rfl

theorem reads_literal (hstate : ValueDue self.state) (hdepth : self.depth ≤ maxDepth)
    (literal : Literal) : Reads Anything self literal.raw
      (valueCalls (.literal literal) self.depth self.offset (self.arrays.headD false))
      (fun after => At after .afterValue self.arrays (self.offset + literal.raw.length)) := by
  obtain ⟨first, tail, more, hraw, hne, hzero, htable, hspace, hclose, hbegin⟩ := literal_raw literal
  have hstring : self.state ≠ .string := by
    rcases hstate with h | h <;> simp [h]
  let moved := (self.startLiteral (literalStart literal)).advance 1
  have hstep : self.step first =
      .tell [self.begins .literal] (.ok (self.startLiteral (literalStart literal))) := by
    rw [step_value hstate hspace hclose, hbegin self hdepth]
  have hfirst : Reads Anything self [first] [self.begins .literal] (· = moved) :=
    .of_step hstring hstep rfl
  have hmoved : moved.state = .literal := rfl
  have hvalue : ∀ reader : Reader, reader.literal = moved.literal + tail.length →
      reader.literalValue = some literal := by
    intro reader hreader
    exact literalValue_end (by rw [hreader, hraw]; rfl)
  have hrest := reads_literalTail hmoved htable hne hzero hvalue
  have hjoin := hfirst.trans (by rintro _ rfl; exact hrest)
  have hpos : 0 < tail.length := List.length_pos_of_ne_nil hne
  rw [valueCalls, hraw]
  have hend : moved.offset + (tail.length - 1) = self.offset + tail.length := by
    simp only [moved, advance, startLiteral]
    omega
  have hoff : moved.offset + tail.length = self.offset + (tail.length + 1) := by
    simp only [moved, advance, startLiteral]
    omega
  rw [hend, hoff] at hjoin
  exact hjoin

/-! ## Numbers -/

/-- What the reader keeps of a number whose integer part so far is `value`. -/
structure Tracks (reader : Reader) (negative : Bool) (value : Nat) (fractional : Bool) : Prop where
  integer : reader.integer =
    if negative ∨ fractional then none else if value < 2 ^ 64 then some value else none
  digits : reader.digits =
    if negative then .negative
    else if 2 ^ 64 ≤ value then .overflow
    else if fractional then .fractional
    else .plain

theorem Tracks.addDigit (h : Tracks self negative value false) (byte : UInt8) :
    Tracks (self.addDigit byte) negative (value * 10 + (byte - ascii '0').toNat) false := by
  obtain ⟨hinteger, hdigits⟩ := h
  cases negative with
  | true =>
    simp only [true_or, if_true] at hinteger hdigits
    constructor <;> simp [-Nat.reducePow, Reader.addDigit, hinteger, hdigits]
  | false =>
    by_cases hvalue : value < 2 ^ 64
    · simp only [Bool.false_eq_true, or_self, if_false, hvalue, if_true,
        if_neg (Nat.not_le.mpr hvalue)] at hinteger hdigits
      by_cases hmore : value * 10 + (byte - ascii '0').toNat < 2 ^ 64
      · constructor
        · simp [-Nat.reducePow, Reader.addDigit, hinteger, hmore]
        · simp [-Nat.reducePow, Reader.addDigit, hinteger, hmore, hdigits, Nat.not_le.mpr hmore]
      · constructor
        · simp [-Nat.reducePow, Reader.addDigit, hinteger, hmore, overflow]
        · simp [-Nat.reducePow, Reader.addDigit, hinteger, hmore, overflow, hdigits, Nat.not_lt.mp hmore]
    · have hmore : ¬ value * 10 + (byte - ascii '0').toNat < 2 ^ 64 := by omega
      simp only [Bool.false_eq_true, or_self, if_false, hvalue, Nat.not_lt.mp hvalue,
        if_true] at hinteger hdigits
      constructor
      · simp [-Nat.reducePow, Reader.addDigit, hinteger, hmore]
      · simp [-Nat.reducePow, Reader.addDigit, hinteger, hdigits, Nat.not_lt.mp hmore]

theorem Tracks.fractional (h : Tracks self negative value false) :
    Tracks self.fractional negative value true := by
  obtain ⟨_, hdigits⟩ := h
  constructor
  · simp [Reader.fractional]
  · cases negative with
    | true => simp [Reader.fractional, hdigits]
    | false =>
      by_cases hvalue : 2 ^ 64 ≤ value
      · simp [-Nat.reducePow, Reader.fractional, hdigits, hvalue]
      · simp [-Nat.reducePow, Reader.fractional, hdigits, hvalue]

/-- Within a number, whose digits so far are `value`. -/
structure InNumber (reader : Reader) (state : State) (arrays : List Bool) (offset : Nat)
    (negative : Bool) (value : Nat) (fractional : Bool) : Prop
    extends At reader state arrays offset, Tracks reader negative value fractional

/-- The states in which a number may end. -/
def NumberWhole (state : State) : Prop :=
  state = .zero ∨ state = .integerDigits ∨ state = .fraction ∨ state = .exponent

theorem not_string_of_whole {state : State} (h : NumberWhole state) : state ≠ .string := by
  rintro rfl
  simp [NumberWhole] at h

/-- A byte that ends a number neither is a digit nor goes on with it. -/
theorem delimiter_ends (h : isDelimiter byte = true) : isDigit byte = false ∧
    byte ≠ ascii '.' ∧ byte ≠ ascii 'e' ∧ byte ≠ ascii 'E' :=
  forall_byte (P := fun byte => isDelimiter byte = true → isDigit byte = false ∧
    byte ≠ ascii '.' ∧ byte ≠ ascii 'e' ∧ byte ≠ ascii 'E') (by decide +kernel) byte h

theorem step_endNumber (hstate : NumberWhole self.state) (hdigit : isDigit byte = false)
    (hpoint : byte ≠ ascii '.') (he : byte ≠ ascii 'e') (hE : byte ≠ ascii 'E') :
    self.step byte = self.endNumber byte := by
  have hletter : ¬ (byte = ascii 'e' ∨ byte = ascii 'E') := by simp [he, hE]
  rcases hstate with h | h | h | h <;>
    simp only [step, h, hdigit, Bool.false_eq_true, if_false, numberTail, if_neg hpoint,
      if_neg hletter]

theorem reads_numberEnd (hstate : NumberWhole self.state) :
    Reads Delimited self [] [.ends (.number self.integer self.digits) self.depth self.offset]
      (fun after => At after .afterValue self.arrays self.offset) := by
  refine ⟨{ self with state := .afterValue }, ⟨rfl, rfl, rfl⟩, ?_⟩
  rintro _ ⟨byte, tail, rfl, hdelimiter⟩
  obtain ⟨hdigit, hpoint, he, hE⟩ := delimiter_ends hdelimiter
  have hafter : { self with state := State.afterValue }.state ≠ .string := by simp
  rw [List.nil_append, readBytes_cons (not_string_of_whole hstate),
    step_endNumber hstate hdigit hpoint he hE, endNumber, endValue, Told.tell_andThen,
    Told.ok_andThen, Told.tell_andThen, readBytes_cons hafter]
  rfl

theorem integer_eq
    (h : Tracks self number.negative (natValue number.whole.bytes)
      (number.fraction.isSome || number.exponent.isSome)) : Token.number self.integer self.digits =
      .number (plainInteger number) (digitsClass number) := by
  obtain ⟨hinteger, hdigits⟩ := h
  rw [hinteger, hdigits, plainInteger, digitsClass]
  simp only [Bool.or_eq_true]

theorem isDigit_digit (h : isDigit byte = true) : byte ≠ ascii '"' ∧
    byte ≠ ascii '{' ∧ byte ≠ ascii '[' ∧ byte ≠ ascii '-' ∧ byte ≠ ascii ']' ∧
    isSpace byte = false ∧ (byte - ascii '0').toNat < 10 :=
  forall_byte (P := fun byte => isDigit byte = true → byte ≠ ascii '"' ∧
    byte ≠ ascii '{' ∧ byte ≠ ascii '[' ∧ byte ≠ ascii '-' ∧ byte ≠ ascii ']' ∧
    isSpace byte = false ∧ (byte - ascii '0').toNat < 10) (by decide +kernel) byte h

theorem reads_integerDigits (hstate : self.state = .integerDigits)
    (htracks : Tracks self negative value false) (hdigits : ∀ byte ∈ digits, isDigit byte = true) :
    Reads Anything self digits [] (fun after =>
      InNumber after .integerDigits self.arrays (self.offset + digits.length) negative
        (digits.foldl (fun value digit => value * 10 + (digit - ascii '0').toNat) value) false) := by
  induction digits generalizing self value with
  | nil => exact .nil ⟨⟨hstate, rfl, rfl⟩, htracks⟩
  | cons byte digits ih =>
    have hstring : self.state ≠ .string := by simp [hstate]
    have hstep : self.step byte = .ok (self.addDigit byte) := by
      simp only [step, hstate, hdigits byte List.mem_cons_self, if_true]
    have hsame : (self.addDigit byte).state = self.state ∧
        (self.addDigit byte).arrays = self.arrays ∧
        (self.addDigit byte).offset = self.offset := by
      simp only [addDigit, overflow]
      split
      · exact ⟨rfl, rfl, rfl⟩
      · split <;> exact ⟨rfl, rfl, rfl⟩
    let moved := (self.addDigit byte).advance 1
    have hfirst : Reads Anything self [byte] [] (· = moved) := .of_step hstring hstep rfl
    have hmoved : moved.state = .integerDigits := hsame.1.trans hstate
    have htracked : Tracks moved negative (value * 10 + (byte - ascii '0').toNat) false :=
      ⟨(htracks.addDigit byte).integer, (htracks.addDigit byte).digits⟩
    have hrest := ih hmoved htracked fun b hb => hdigits b (List.mem_cons_of_mem _ hb)
    refine hfirst.trans ?_
    rintro _ rfl
    refine hrest.mono fun after hafter =>
      ⟨⟨hafter.state, hafter.arrays.trans hsame.2.1, ?_⟩, hafter.toTracks⟩
    rw [hafter.offset, List.length_cons]
    simp only [moved, advance, hsame.2.2]
    omega

theorem reads_otherDigits (hstate : self.state = .fraction ∨ self.state = .exponent)
    (htracks : Tracks self negative value true) (hdigits : ∀ byte ∈ digits, isDigit byte = true) :
    Reads Anything self digits [] (fun after =>
      InNumber after self.state self.arrays (self.offset + digits.length) negative value true) := by
  induction digits generalizing self with
  | nil => exact .nil ⟨⟨rfl, rfl, rfl⟩, htracks⟩
  | cons byte digits ih =>
    have hstring : self.state ≠ .string := by
      rcases hstate with h | h <;> simp [h]
    have hstep : self.step byte = .ok self := by
      rcases hstate with h | h <;>
        simp only [step, h, hdigits byte List.mem_cons_self, if_true]
    have hfirst : Reads Anything self [byte] [] (· = self.advance 1) := .of_step hstring hstep rfl
    have hmoved : (self.advance 1).state = .fraction ∨ (self.advance 1).state = .exponent := hstate
    have htracked : Tracks (self.advance 1) negative value true := ⟨htracks.integer, htracks.digits⟩
    refine hfirst.trans ?_
    rintro _ rfl
    refine (ih hmoved htracked fun b hb => hdigits b (List.mem_cons_of_mem _ hb)).mono
      fun after hafter => ⟨⟨hafter.state, hafter.arrays, ?_⟩, hafter.toTracks⟩
    rw [hafter.offset, List.length_cons, advance, Nat.add_assoc, Nat.add_comm 1]

theorem reads_power (hstate : self.state = .exponentStart ∨ self.state = .exponentSign)
    (htracks : Tracks self negative value true) (power : Digits) :
    Reads Anything self power.bytes [] (fun after => InNumber after .exponent self.arrays
      (self.offset + power.bytes.length) negative value true) := by
  obtain ⟨bytes, hdigits, hne⟩ := power
  obtain ⟨byte, digits, rfl⟩ := List.exists_cons_of_ne_nil hne
  have hbyte := hdigits byte List.mem_cons_self
  have hsign : ¬ (byte = ascii '+' ∨ byte = ascii '-') :=
    forall_byte (P := fun byte => isDigit byte = true → ¬ (byte = ascii '+' ∨ byte = ascii '-'))
      (by decide +kernel) byte hbyte
  have hstring : self.state ≠ .string := by
    rcases hstate with h | h <;> simp [h]
  let moved := { self with state := State.exponent }
  have hstep : self.step byte = .ok moved := by
    rcases hstate with h | h
    · simp only [step, h, if_neg hsign, hbyte, if_true, moved]
    · simp only [step, h, hbyte, if_true, moved]
  have hfirst : Reads Anything self [byte] [] (· = moved.advance 1) := .of_step hstring hstep rfl
  have htracked : Tracks (moved.advance 1) negative value true := ⟨htracks.integer, htracks.digits⟩
  have hmoved : (moved.advance 1).state = .fraction ∨ (moved.advance 1).state = .exponent := .inr rfl
  refine hfirst.trans ?_
  rintro _ rfl
  refine (reads_otherDigits hmoved htracked fun b hb => hdigits b (List.mem_cons_of_mem _ hb)).mono
    fun after hafter => ⟨⟨hafter.state, hafter.arrays, ?_⟩, hafter.toTracks⟩
  rw [hafter.offset, List.length_cons]
  simp only [moved, advance]
  omega

theorem reads_exponent (hstate : self.state = .exponentStart)
    (htracks : Tracks self negative value true) (exponent : Exponent) :
    Reads Anything self (exponent.sign.toList ++ exponent.power.bytes) [] (fun after =>
      InNumber after .exponent self.arrays
        (self.offset + (exponent.sign.toList ++ exponent.power.bytes).length)
        negative value true) := by
  cases hsign : exponent.sign with
  | none => simpa using reads_power (.inl hstate) htracks exponent.power
  | some sign =>
    have hstring : self.state ≠ .string := by simp [hstate]
    let moved := { self with state := State.exponentSign }
    have hstep : self.step sign = .ok moved := by
      simp only [step, hstate, if_pos (exponent.isSign sign hsign), moved]
    have hfirst : Reads Anything self [sign] [] (· = moved.advance 1) := .of_step hstring hstep rfl
    have htracked : Tracks (moved.advance 1) negative value true := ⟨htracks.integer, htracks.digits⟩
    refine hfirst.trans ?_
    rintro _ rfl
    refine (reads_power (.inr rfl) htracked exponent.power).mono
      fun after hafter => ⟨⟨hafter.state, hafter.arrays, ?_⟩, hafter.toTracks⟩
    rw [hafter.offset]
    simp [moved, advance, Nat.add_assoc, Nat.add_comm 1]

theorem reads_fraction (hstate : self.state = .fractionStart)
    (htracks : Tracks self negative value true) (digits : Digits) :
    Reads Anything self digits.bytes [] (fun after => InNumber after .fraction self.arrays
      (self.offset + digits.bytes.length) negative value true) := by
  obtain ⟨bytes, hdigits, hne⟩ := digits
  obtain ⟨byte, bytes, rfl⟩ := List.exists_cons_of_ne_nil hne
  have hstring : self.state ≠ .string := by simp [hstate]
  let moved := { self with state := State.fraction }
  have hstep : self.step byte = .ok moved := by
    simp only [step, hstate, hdigits byte List.mem_cons_self, if_true, moved]
  have hfirst : Reads Anything self [byte] [] (· = moved.advance 1) := .of_step hstring hstep rfl
  have htracked : Tracks (moved.advance 1) negative value true := ⟨htracks.integer, htracks.digits⟩
  have hmoved : (moved.advance 1).state = .fraction ∨ (moved.advance 1).state = .exponent := .inl rfl
  refine hfirst.trans ?_
  rintro _ rfl
  refine (reads_otherDigits hmoved htracked fun b hb => hdigits b (List.mem_cons_of_mem _ hb)).mono
    fun after hafter => ⟨⟨hafter.state, hafter.arrays, ?_⟩, hafter.toTracks⟩
  rw [hafter.offset, List.length_cons]
  simp only [moved, advance]
  omega

/-- Where a fraction may follow, its letter begins an exponent. -/
theorem letter_not_digit (h : byte = ascii 'e' ∨ byte = ascii 'E') :
    isDigit byte = false ∧ byte ≠ ascii '.' := by
  rcases h with rfl | rfl <;> decide

theorem reads_exponentPart {fractional : Bool}
    (hstate : (self.state = .zero ∨ self.state = .integerDigits) ∧ fractional = false ∨
      self.state = .fraction ∧ fractional = true) (htracks : Tracks self negative value fractional)
    (exponent : Exponent) :
    Reads Anything self exponent.raw [] (fun after => InNumber after .exponent self.arrays
      (self.offset + exponent.raw.length) negative value true) := by
  obtain ⟨hdigit, hpoint⟩ := letter_not_digit exponent.isLetter
  have hstring : self.state ≠ .string := by
    rcases hstate with ⟨h | h, _⟩ | ⟨h, _⟩ <;> simp [h]
  obtain ⟨moved, hstep, hmoved, htracked⟩ : ∃ moved, self.step exponent.letter = .ok moved ∧
      At moved .exponentStart self.arrays self.offset ∧ Tracks moved negative value true := by
    rcases hstate with ⟨hstate, rfl⟩ | ⟨hstate, rfl⟩
    · refine ⟨{ self.fractional with state := .exponentStart }, ?_, ⟨rfl, rfl, rfl⟩,
        ⟨htracks.fractional.integer, htracks.fractional.digits⟩⟩
      rcases hstate with h | h <;>
        simp only [step, h, hdigit, Bool.false_eq_true, if_false, numberTail, if_neg hpoint,
          if_pos exponent.isLetter]
    · refine ⟨{ self with state := .exponentStart }, ?_, ⟨rfl, rfl, rfl⟩,
        ⟨htracks.integer, htracks.digits⟩⟩
      simp only [step, hstate, hdigit, Bool.false_eq_true, if_false, if_pos exponent.isLetter]
  have hfirst : Reads Anything self [exponent.letter] [] (· = moved.advance 1) :=
    .of_step hstring hstep rfl
  refine hfirst.trans ?_
  rintro _ rfl
  have htracked' : Tracks (moved.advance 1) negative value true :=
    ⟨htracked.integer, htracked.digits⟩
  have hmoved' : (moved.advance 1).state = .exponentStart := hmoved.state
  refine (reads_exponent hmoved' htracked' exponent).mono
    fun after hafter => ⟨⟨hafter.state, hafter.arrays.trans hmoved.arrays, ?_⟩, hafter.toTracks⟩
  have hoffset : (moved.advance 1).offset = self.offset + 1 := congrArg (· + 1) hmoved.offset
  rw [hafter.offset, Exponent.raw, List.length_cons, hoffset]
  omega

theorem reads_tail (hstate : self.state = .zero ∨ self.state = .integerDigits)
    (htracks : Tracks self number.negative value false) :
    Reads Anything self number.tail [] (fun after => ∃ state, NumberWhole state ∧
      InNumber after state self.arrays (self.offset + number.tail.length) number.negative value
        (number.fraction.isSome || number.exponent.isSome)) := by
  obtain ⟨negative, whole, fraction, exponent⟩ := number
  simp only [Number.tail]
  have hstring : self.state ≠ .string := by
    rcases hstate with h | h <;> simp [h]
  cases fraction with
  | none =>
    cases exponent with
    | none =>
      exact .nil ⟨self.state, hstate.elim .inl fun h => .inr (.inl h), ⟨rfl, rfl, rfl⟩, htracks⟩
    | some exponent =>
      exact (reads_exponentPart (.inl ⟨hstate, rfl⟩) htracks exponent).mono
        fun after hafter => ⟨.exponent, by simp [NumberWhole], hafter⟩
  | some digits =>
    let moved := { self.fractional with state := State.fractionStart }
    have hstep : self.step (ascii '.') = .ok moved := by
      have hdigit : isDigit (ascii '.') = false := by decide
      rcases hstate with h | h <;>
        simp only [step, h, hdigit, Bool.false_eq_true, if_false, numberTail, if_true, moved]
    have hfirst : Reads Anything self [ascii '.'] [] (· = moved.advance 1) :=
      .of_step hstring hstep rfl
    have htracked : Tracks (moved.advance 1) negative value true :=
      ⟨htracks.fractional.integer, htracks.fractional.digits⟩
    have hpoint : Reads Anything self (ascii '.' :: digits.bytes) [] (fun after =>
        InNumber after .fraction self.arrays (self.offset + (digits.bytes.length + 1))
          negative value true) := by
      refine hfirst.trans ?_
      rintro _ rfl
      refine (reads_fraction rfl htracked digits).mono
        fun after hafter => ⟨⟨hafter.state, hafter.arrays, ?_⟩, hafter.toTracks⟩
      rw [hafter.offset]
      simp only [moved, advance, fractional]
      omega
    cases exponent with
    | none =>
      rw [List.append_nil]
      exact hpoint.mono fun after hafter => ⟨.fraction, by simp [NumberWhole], hafter⟩
    | some exponent =>
      refine hpoint.trans fun middle hmiddle => ?_
      refine (reads_exponentPart (.inr ⟨hmiddle.state, rfl⟩) hmiddle.toTracks exponent).mono
        fun after hafter => ⟨.exponent, by simp [NumberWhole],
          ⟨hafter.state, hafter.arrays.trans hmiddle.arrays, ?_⟩, hafter.toTracks⟩
      rw [hafter.offset, hmiddle.offset]
      simp only [List.length_append, List.length_cons]
      omega

theorem reads_whole (hstate : ValueDue self.state) (hdepth : self.depth ≤ maxDepth)
    (negative : Bool) (whole : Whole) :
    Reads Anything self ((if negative then [ascii '-'] else []) ++ whole.bytes)
      [self.begins .number] (fun after => ∃ state, (state = .zero ∨ state = .integerDigits) ∧
        InNumber after state self.arrays
          (self.offset + ((if negative then [ascii '-'] else []) ++ whole.bytes).length)
          negative (natValue whole.bytes) false) := by
  obtain ⟨⟨bytes, hdigits, hne⟩, hcanonical⟩ := whole
  obtain ⟨byte, digits, rfl⟩ := List.exists_cons_of_ne_nil hne
  have hbyte := hdigits byte List.mem_cons_self
  obtain ⟨hquote, hbrace, hbracket, hminus, hclose, hspace, hten⟩ := isDigit_digit hbyte
  simp only at hcanonical ⊢
  have hstring : self.state ≠ .string := by
    rcases hstate with h | h <;> simp [h]
  let state := if byte = ascii '0' then State.zero else .integerDigits
  -- the first digit, as it is left by the sign or without one
  obtain ⟨moved, hfirst, hmoved, htracked⟩ : ∃ moved,
      Reads Anything self ((if negative then [ascii '-'] else []) ++ [byte])
        [self.begins .number] (· = moved) ∧
      At moved state self.arrays (self.offset + (if negative then 2 else 1)) ∧
      Tracks moved negative (byte - ascii '0').toNat false := by
    cases negative with
    | false =>
      let begun := { self with
        integer := some (byte - ascii '0').toNat, digits := DigitsClass.plain, state }
      have hstep : self.step byte = .tell [self.begins .number] (.ok begun) := by
        rw [step_value hstate hspace hclose, beginValue, if_neg (Nat.not_lt.mpr hdepth),
          if_neg hbrace, if_neg hbracket, if_neg hquote, if_neg hminus, if_pos hbyte]
      refine ⟨begun.advance 1, .of_step hstring hstep rfl, ⟨rfl, rfl, rfl⟩, ?_⟩
      have hsmall : (byte - ascii '0').toNat < 2 ^ 64 := by omega
      constructor <;>
        simp [-Nat.reducePow, begun, advance, hsmall, Nat.not_le.mpr hsmall]
    | true =>
      let begun := { self with integer := none, digits := DigitsClass.negative, state := .minus }
      let next := { begun.advance 1 with state }
      have hstep : self.step (ascii '-') = .tell [self.begins .number] (.ok begun) := by
        have hsign : ascii '-' ≠ ascii '{' ∧ ascii '-' ≠ ascii '[' ∧ ascii '-' ≠ ascii '"' := by
          decide
        rw [step_value hstate (by decide) (by decide), beginValue,
          if_neg (Nat.not_lt.mpr hdepth), if_neg hsign.1, if_neg hsign.2.1, if_neg hsign.2.2,
          if_pos rfl]
      have hnext : (begun.advance 1).step byte = .ok next := by
        by_cases hzero : byte = ascii '0'
        · simp [step, begun, next, advance, state, hzero]
        · simp [step, begun, next, advance, state, hzero, hbyte]
      refine ⟨next.advance 1, ?_, ⟨rfl, rfl, rfl⟩, ?_⟩
      · have hsign : Reads Anything self [ascii '-'] [self.begins .number] (· = begun.advance 1) :=
          .of_step hstring hstep rfl
        refine hsign.trans ?_
        rintro _ rfl
        exact .of_step (by simp [begun, advance]) hnext rfl
      · constructor <;> simp [next, begun, advance]
  have hlength : ((if negative then [ascii '-'] else []) ++ byte :: digits).length =
      (if negative then 2 else 1) + digits.length := by
    cases negative <;> simp <;> omega
  have hvalue : natValue (byte :: digits) = digits.foldl
      (fun value digit => value * 10 + (digit - ascii '0').toNat) (byte - ascii '0').toNat := by
    rw [natValue, List.foldl_cons, Nat.zero_mul, Nat.zero_add]
  rw [hlength, hvalue]
  by_cases hzero : byte = ascii '0'
  · have hlone : digits = [] := by
      rcases hcanonical with h | h
      · exact (List.cons.inj h).2
      · exact absurd (congrArg some hzero) h
    subst hlone
    refine hfirst.mono ?_
    rintro _ rfl
    refine ⟨.zero, .inl rfl, ⟨hmoved.state.trans (if_pos hzero), hmoved.arrays, ?_⟩, htracked⟩
    rw [hmoved.offset, List.length_nil, Nat.add_zero]
  · rw [List.append_cons, ← List.append_nil [self.begins .number]]
    refine hfirst.trans ?_
    rintro _ rfl
    refine (reads_integerDigits (hmoved.state.trans (if_neg hzero)) htracked
      fun b hb => hdigits b (List.mem_cons_of_mem _ hb)).mono fun after hafter =>
      ⟨.integerDigits, .inr rfl, ⟨hafter.state, hafter.arrays.trans hmoved.arrays, ?_⟩,
        hafter.toTracks⟩
    rw [hafter.offset, hmoved.offset, Nat.add_assoc]

theorem reads_number (hstate : ValueDue self.state) (hdepth : self.depth ≤ maxDepth)
    (number : Number) : Reads Delimited self number.raw
      (valueCalls (.number number) self.depth self.offset (self.arrays.headD false))
      (fun after => At after .afterValue self.arrays (self.offset + number.raw.length)) := by
  have hwhole := reads_whole hstate hdepth number.negative number.whole
  have htail : Reads Anything self number.raw [self.begins .number] (fun after =>
      ∃ state, NumberWhole state ∧
        InNumber after state self.arrays (self.offset + number.raw.length) number.negative
          (natValue number.whole.bytes) (number.fraction.isSome || number.exponent.isSome)) := by
    rw [← List.append_nil [self.begins .number]]
    refine hwhole.trans ?_
    rintro middle ⟨state, hstate, hmiddle⟩
    refine (reads_tail (hmiddle.state ▸ hstate) hmiddle.toTracks).mono ?_
    rintro after ⟨state, hstate, hafter⟩
    refine ⟨state, hstate, ⟨hafter.state, hafter.arrays.trans hmiddle.arrays, ?_⟩, hafter.toTracks⟩
    rw [hafter.offset, hmiddle.offset, Nat.add_assoc, ← List.length_append, Number.raw]
  rw [← List.append_nil number.raw]
  refine htail.trans ?_
  rintro middle ⟨state, hstate, hmiddle⟩
  have hend := reads_numberEnd (hmiddle.state ▸ hstate)
  rw [integer_eq hmiddle.toTracks, hmiddle.arrays, hmiddle.offset, depth, hmiddle.arrays] at hend
  rw [List.append_nil]
  exact hend

end Reader

end Rui.Json
