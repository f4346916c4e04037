import Rui.Json.ReaderTrees

/-!
# What the reader accepts

Text that the reader accepts is the text of a tree. Each part is taken off the
front, and the runs over well-formed text say where the reader is behind it.
-/

namespace Rui.Json

open Library Library.Json

namespace Reader

/-- From here, the reader takes `bytes` and is done. -/
def Accepts (self : Reader) (bytes : List UInt8) : Prop :=
  ∃ after, (self.readBytes bytes).result = .ok after ∧ after.state = .done

variable {self next : Reader} {byte first : UInt8} {rest bytes behind : List UInt8}
  {outer : List Bool} {lead : Space} {length : Nat}

theorem done_of_accepts_nil (h : Accepts self []) : self.state = .done := by
  obtain ⟨after, hresult, hdone⟩ := h
  rw [readBytes_nil, Told.ok_result, Except.ok.injEq] at hresult
  exact hresult ▸ hdone

theorem accepts_cons (hstate : self.state ≠ .string) (h : Accepts self (byte :: rest)) :
    ∃ next, (self.step byte).result = .ok next ∧ Accepts (next.advance 1) rest := by
  obtain ⟨after, hresult, hdone⟩ := h
  rw [readBytes_cons hstate, Told.andThen] at hresult
  cases hstep : (self.step byte).result with
  | error e => simp [hstep] at hresult
  | ok next =>
    simp only [hstep, Told.tell_result] at hresult
    exact ⟨next, rfl, after, hresult, hdone⟩

theorem Reads.accepts {allowed : List UInt8 → Prop} {calls : List Call} {post : Reader → Prop}
    (h : Reads allowed self bytes calls post) (hallowed : allowed rest)
    (haccepts : Accepts self (bytes ++ rest)) : ∃ after, post after ∧ Accepts after rest := by
  obtain ⟨after, hpost, hrun⟩ := h
  obtain ⟨last, hresult, hdone⟩ := haccepts
  rw [hrun rest hallowed, Told.tell_result] at hresult
  exact ⟨after, hpost, last, hresult, hdone⟩

theorem accepts_space (hskips : skips self.state = true) (h : Accepts self bytes) :
    ∃ (space : Space) (rest : List UInt8) (after : Reader),
      bytes = space.bytes ++ rest ∧ (∀ byte tail, rest = byte :: tail → isSpace byte = false) ∧
      At after self.state self.arrays (self.offset + space.bytes.length) ∧ Accepts after rest := by
  let space : Space := ⟨bytes.takeWhile isSpace, fun byte hbyte => List.mem_takeWhile_imp hbyte⟩
  have hbytes : bytes = space.bytes ++ bytes.dropWhile isSpace :=
    List.takeWhile_append_dropWhile.symm
  rw [hbytes] at h
  obtain ⟨after, hafter, haccepts⟩ := (reads_space hskips space).accepts trivial h
  refine ⟨space, _, after, hbytes, fun byte tail heq => ?_, hafter, haccepts⟩
  have hhead := List.head?_dropWhile_not isSpace bytes
  rw [heq, List.head?_cons] at hhead
  simpa using hhead

theorem accepts_string (hstate : self.state = .string) (h : Accepts self bytes) :
    ∃ pieces rest, bytes = raw pieces ++ ascii '"' :: rest := by
  obtain ⟨after, hresult, hdone⟩ := h
  by_cases hne : bytes = []
  · rw [hne, readBytes_nil, Told.ok_result, Except.ok.injEq] at hresult
    rw [← hresult, hstate] at hdone
    cases hdone
  · rw [readBytes_contents hstate hne, takeString] at hresult
    cases hdecode : decodeString bytes with
    | error e => simp [hdecode] at hresult
    | ok found =>
      obtain ⟨results, stop⟩ := found
      obtain ⟨hstops, pieces, hraw, _⟩ := decodeString_sound hdecode
      cases stop with
      | nil =>
        simp only [hdecode, foldl_append, Told.ok_result, Except.ok.injEq] at hresult
        rw [← hresult] at hdone
        simp [advance, append, hstate] at hdone
      | cons quote rest =>
        have hquote : quote = ascii '"' := by simpa [Stops] using hstops
        exact ⟨pieces, rest, hquote ▸ hraw⟩

/-! ## Numbers -/

/-- The states in which any number of digits may follow. -/
def InDigits (state : State) : Prop :=
  state = .integerDigits ∨ state = .fraction ∨ state = .exponent

theorem step_digit (hstate : InDigits self.state) (hdigit : isDigit byte = true) :
    ∃ next, self.step byte = .ok next ∧ next.state = self.state := by
  rcases hstate with h | h | h
  · refine ⟨self.addDigit byte, by simp only [step, h, hdigit, if_true], ?_⟩
    simp only [addDigit, overflow]
    split
    · rfl
    · split <;> rfl
  · exact ⟨self, by simp only [step, h, hdigit, if_true], rfl⟩
  · exact ⟨self, by simp only [step, h, hdigit, if_true], rfl⟩

theorem digits_sound (hstate : InDigits self.state) (h : Accepts self bytes) :
    ∃ (digits : List UInt8) (byte : UInt8) (rest : List UInt8)
      (after : Reader), (∀ digit ∈ digits, isDigit digit = true) ∧
      bytes = digits ++ byte :: rest ∧ isDigit byte = false ∧ after.state = self.state ∧
      Accepts after (byte :: rest) := by
  induction bytes generalizing self with
  | nil =>
    have hdone := done_of_accepts_nil h
    simp [InDigits, hdone] at hstate
  | cons byte bytes ih =>
    by_cases hdigit : isDigit byte = true
    · have hstring : self.state ≠ .string := by
        rcases hstate with h | h | h <;> simp [h]
      obtain ⟨next, hstep, hsame⟩ := step_digit hstate hdigit
      obtain ⟨next', hresult, haccepts⟩ := accepts_cons hstring h
      rw [hstep, Told.ok_result, Except.ok.injEq] at hresult
      subst hresult
      have hnext : InDigits (next.advance 1).state := hsame.symm ▸ hstate
      obtain ⟨digits, last, rest, after, hdigits, rfl, hlast, hafter, haccepts⟩ := ih hnext haccepts
      exact ⟨byte :: digits, last, rest, after, List.forall_mem_cons.mpr ⟨hdigit, hdigits⟩, rfl,
        hlast, hafter.trans hsame, haccepts⟩
    · exact ⟨[], byte, bytes, self, by simp, rfl, by simpa using hdigit, rfl, h⟩

theorem delimiter_of_endNumber (h : (self.endNumber byte).result = .ok next) :
    isDelimiter byte = true := by
  simp only [endNumber, endValue, Told.tell_andThen, Told.ok_andThen, Told.tell_result] at h
  simp only [isDelimiter, Bool.or_eq_true, beq_iff_eq]
  by_cases hspace : isSpace byte = true
  · simp [hspace]
  · rw [afterValue, if_neg hspace] at h
    split at h
    · simp at h
    · split at h
      · simp_all
      · split at h
        · simp_all
        · split at h
          · simp_all
          · simp at h

theorem end_sound (hstate : NumberWhole self.state) (hdigit : isDigit byte = false)
    (hpoint : byte ≠ ascii '.') (he : byte ≠ ascii 'e') (hE : byte ≠ ascii 'E')
    (h : Accepts self (byte :: rest)) : Delimited (byte :: rest) := by
  obtain ⟨next, hresult, _⟩ := accepts_cons (not_string_of_whole hstate) h
  rw [step_endNumber hstate hdigit hpoint he hE] at hresult
  exact ⟨byte, rest, rfl, delimiter_of_endNumber hresult⟩

theorem moreDigits_sound (hstate : InDigits self.state) (hfirst : isDigit first = true)
    (h : Accepts self bytes) :
    ∃ (digits : Digits) (byte : UInt8) (rest : List UInt8) (after : Reader),
      first :: bytes = digits.bytes ++ byte :: rest ∧ isDigit byte = false ∧
      after.state = self.state ∧ Accepts after (byte :: rest) := by
  obtain ⟨digits, byte, rest, after, hdigits, rfl, hbyte, hafter, haccepts⟩ := digits_sound hstate h
  exact ⟨⟨first :: digits, List.forall_mem_cons.mpr ⟨hfirst, hdigits⟩, List.cons_ne_nil _ _⟩,
    byte, rest, after, rfl, hbyte, hafter, haccepts⟩

theorem accepts_step (hstring : self.state ≠ .string) (hdone : self.state ≠ .done)
    (h : Accepts self bytes) : ∃ byte rest next, bytes = byte :: rest ∧
      (self.step byte).result = .ok next ∧ Accepts (next.advance 1) rest := by
  cases bytes with
  | nil => exact absurd (done_of_accepts_nil h) hdone
  | cons byte rest =>
    obtain ⟨next, hresult, haccepts⟩ := accepts_cons hstring h
    exact ⟨byte, rest, next, rfl, hresult, haccepts⟩

theorem power_sound (hstate : self.state = .exponent) (hfirst : isDigit first = true)
    (h : Accepts self bytes) :
    ∃ (power : Digits) (rest : List UInt8), first :: bytes = power.bytes ++ rest ∧
      Delimited rest := by
  obtain ⟨power, byte, rest, after, hbytes, hbyte, hafter, haccepts⟩ :=
    moreDigits_sound (.inr (.inr hstate)) hfirst h
  rw [hstate] at hafter
  obtain ⟨next, hresult, _⟩ := accepts_cons (by simp [hafter]) haccepts
  simp only [step, hafter, hbyte, Bool.false_eq_true, if_false] at hresult
  exact ⟨power, byte :: rest, hbytes, byte, rest, rfl, delimiter_of_endNumber hresult⟩

theorem exponent_sound (hstate : self.state = .exponentStart) {letter : UInt8}
    (hletter : letter = ascii 'e' ∨ letter = ascii 'E') (h : Accepts self bytes) :
    ∃ (exponent : Exponent) (rest : List UInt8),
      letter :: bytes = exponent.raw ++ rest ∧ Delimited rest := by
  obtain ⟨first, bytes, next, rfl, hresult, haccepts⟩ :=
    accepts_step (by simp [hstate]) (by simp [hstate]) h
  simp only [step, hstate] at hresult
  split at hresult
  · rename_i hsign
    obtain rfl := Except.ok.inj hresult
    obtain ⟨byte, bytes, next, rfl, hresult, haccepts⟩ :=
      accepts_step (by simp [advance]) (by simp [advance]) haccepts
    simp only [step, advance] at hresult
    split at hresult
    · rename_i hdigit
      obtain rfl := Except.ok.inj hresult
      obtain ⟨power, rest, hbytes, hrest⟩ := power_sound rfl hdigit haccepts
      refine ⟨⟨letter, hletter, some first, ?_, power⟩, rest, ?_, hrest⟩
      · rintro _ ⟨⟩
        exact hsign
      · simp [Exponent.raw, hbytes]
    · simp at hresult
  · split at hresult
    · rename_i hdigit
      obtain rfl := Except.ok.inj hresult
      obtain ⟨power, rest, hbytes, hrest⟩ := power_sound rfl hdigit haccepts
      refine ⟨⟨letter, hletter, none, ?_, power⟩, rest, ?_, hrest⟩
      · rintro _ ⟨⟩
      · simp [Exponent.raw, hbytes]
    · simp at hresult

def fractionRaw : Option Digits → List UInt8
  | none => []
  | some digits => ascii '.' :: digits.bytes

def exponentRaw : Option Exponent → List UInt8
  | none => []
  | some exponent => exponent.raw

/-- Behind a whole number, whose next byte is no digit or point, is an exponent
or its end. -/
theorem optionalExponent_sound (hstate : NumberWhole self.state) (hne : self.state ≠ .exponent)
    (hdigit : isDigit byte = false) (hpoint : byte ≠ ascii '.') (h : Accepts self (byte :: rest)) :
    ∃ (exponent : Option Exponent) (behind : List UInt8),
      byte :: rest = exponentRaw exponent ++ behind ∧ Delimited behind := by
  by_cases hletter : byte = ascii 'e' ∨ byte = ascii 'E'
  · obtain ⟨next, hresult, haccepts⟩ := accepts_cons (not_string_of_whole hstate) h
    have hnext : next.state = .exponentStart := by
      rcases hstate with hstate | hstate | hstate | hstate
      · simp only [step, hstate, hdigit, Bool.false_eq_true, if_false, numberTail, if_neg hpoint,
          if_pos hletter] at hresult
        rw [← Except.ok.inj hresult]
      · simp only [step, hstate, hdigit, Bool.false_eq_true, if_false, numberTail, if_neg hpoint,
          if_pos hletter] at hresult
        rw [← Except.ok.inj hresult]
      · simp only [step, hstate, hdigit, Bool.false_eq_true, if_false, if_pos hletter] at hresult
        rw [← Except.ok.inj hresult]
      · exact absurd hstate hne
    have hadvanced : (next.advance 1).state = .exponentStart := hnext
    obtain ⟨exponent, behind, hraw, hbehind⟩ := exponent_sound hadvanced hletter haccepts
    exact ⟨some exponent, behind, hraw, hbehind⟩
  · rw [not_or] at hletter
    exact ⟨none, byte :: rest, rfl,
      end_sound hstate hdigit hpoint hletter.1 hletter.2 h⟩

theorem tail_sound (hstate : self.state = .zero ∨ self.state = .integerDigits)
    (hdigit : isDigit byte = false) (h : Accepts self (byte :: rest)) :
    ∃ (fraction : Option Digits) (exponent : Option Exponent) (behind : List UInt8),
      byte :: rest = fractionRaw fraction ++ exponentRaw exponent ++ behind ∧
        Delimited behind := by
  have hwhole : NumberWhole self.state := hstate.elim .inl fun h => .inr (.inl h)
  by_cases hpoint : byte = ascii '.'
  · subst hpoint
    obtain ⟨next, hresult, haccepts⟩ := accepts_cons (not_string_of_whole hwhole) h
    have hnext : next.state = .fractionStart := by
      rcases hstate with hstate | hstate <;>
        simp only [step, hstate, hdigit, Bool.false_eq_true, if_false, numberTail, if_true]
          at hresult <;>
        rw [← Except.ok.inj hresult]
    obtain ⟨first, rest, after, rfl, hresult, haccepts⟩ :=
      accepts_step (by simp [advance, hnext]) (by simp [advance, hnext]) haccepts
    simp only [step, advance, hnext] at hresult
    split at hresult
    · rename_i hfirst
      obtain rfl := Except.ok.inj hresult
      obtain ⟨digits, byte, rest, after, hbytes, hbyte, hafter, haccepts⟩ :=
        moreDigits_sound (.inr (.inl rfl)) hfirst haccepts
      have hstate : after.state = .fraction := hafter
      obtain ⟨exponent, behind, hraw, hbehind⟩ : ∃ (exponent : Option Exponent) (behind : List UInt8),
          byte :: rest = exponentRaw exponent ++ behind ∧ Delimited behind := by
        by_cases hpoint : byte = ascii '.'
        · -- a second point ends the number, and delimits nothing
          have hletter : ¬ (byte = ascii 'e' ∨ byte = ascii 'E') := by
            rw [hpoint]
            decide
          obtain ⟨next, hresult, _⟩ := accepts_cons (by simp [hstate]) haccepts
          simp only [step, hstate, hbyte, Bool.false_eq_true, if_false, if_neg hletter] at hresult
          rw [hpoint] at hresult
          exact absurd (delimiter_of_endNumber hresult) (by decide)
        · exact optionalExponent_sound (.inr (.inr (.inl hstate))) (by simp [hstate]) hbyte hpoint
            haccepts
      refine ⟨some digits, exponent, behind, ?_, hbehind⟩
      rw [fractionRaw, hbytes, hraw, List.cons_append, List.cons_append, List.append_assoc]
    · simp at hresult
  · obtain ⟨exponent, behind, hraw, hbehind⟩ :=
      optionalExponent_sound hwhole (by rcases hstate with h | h <;> simp [h]) hdigit hpoint h
    exact ⟨none, exponent, behind, hraw, hbehind⟩

theorem whole_sound (hfirst : isDigit first = true)
    (hstate : self.state = if first = ascii '0' then .zero else .integerDigits)
    (h : Accepts self bytes) (negative : Bool) : ∃ (number : Number) (behind : List UInt8),
      (if negative then [ascii '-'] else []) ++ first :: bytes = number.raw ++ behind ∧
        Delimited behind := by
  obtain ⟨whole, byte, rest, after, hbytes, hbyte, hafter, haccepts⟩ :
      ∃ (whole : Whole) (byte : UInt8) (rest : List UInt8) (after : Reader),
        first :: bytes = whole.bytes ++ byte :: rest ∧ isDigit byte = false ∧
        (after.state = .zero ∨ after.state = .integerDigits) ∧ Accepts after (byte :: rest) := by
    by_cases hzero : first = ascii '0'
    · rw [if_pos hzero] at hstate
      obtain ⟨byte, rest, next, rfl, hresult, haccepts⟩ :=
        accepts_step (by simp [hstate]) (by simp [hstate]) h
      have hbyte : isDigit byte = false := by
        by_contra hdigit
        rw [Bool.not_eq_false] at hdigit
        simp [step, hstate, hdigit] at hresult
      exact ⟨⟨⟨[ascii '0'], List.forall_mem_singleton.mpr (by decide), List.cons_ne_nil _ _⟩,
        .inl rfl⟩, byte, rest, self,
        by rw [hzero]; rfl, hbyte, .inl hstate, h⟩
    · rw [if_neg hzero] at hstate
      obtain ⟨digits, byte, rest, after, hbytes, hbyte, hafter, haccepts⟩ :=
        moreDigits_sound (.inl hstate) hfirst h
      have hcanonical : digits.bytes.head? ≠ some (ascii '0') := by
        obtain ⟨digit, tail, htail⟩ := List.exists_cons_of_ne_nil digits.nonempty
        rw [htail, List.cons_append] at hbytes
        rw [htail, List.head?_cons, ← (List.cons.inj hbytes).1]
        simpa using hzero
      exact ⟨⟨digits, .inr hcanonical⟩, byte, rest, after, hbytes, hbyte, .inr (hafter.trans hstate),
        haccepts⟩
  obtain ⟨fraction, exponent, behind, hraw, hbehind⟩ := tail_sound hafter hbyte haccepts
  refine ⟨⟨negative, whole, fraction, exponent⟩, behind, ?_, hbehind⟩
  rw [hbytes, hraw, Number.raw, Number.tail]
  cases fraction <;> cases exponent <;>
    simp only [fractionRaw, exponentRaw, List.append_assoc, List.nil_append, List.append_nil]

/-! ## Literals -/

theorem literalTail_sound (hstate : self.state = .literal) {tail more : List UInt8}
    (htable : literalTails.drop self.literal = tail ++ 0 :: more) (hne : tail ≠ [])
    (hzero : ∀ byte ∈ tail, byte ≠ 0) (h : Accepts self bytes) : ∃ rest, bytes = tail ++ rest := by
  induction tail generalizing self bytes with
  | nil => exact absurd rfl hne
  | cons expected tail ih =>
    obtain ⟨byte, bytes, next, rfl, hresult, haccepts⟩ :=
      accepts_step (by simp [hstate]) (by simp [hstate]) h
    obtain ⟨hdrop, hbyte, hnext⟩ := literalTails_cons htable
    simp only [step, hstate, hbyte, hnext] at hresult
    cases tail with
    | nil =>
      simp only [List.nil_append, List.head?_cons] at hresult
      split at hresult
      · simp at hresult
      · rename_i heq
        rw [not_not] at heq
        exact ⟨bytes, by rw [heq]; rfl⟩
    | cons after tail =>
      have hnonzero : after ≠ 0 := hzero after (by simp)
      simp only [List.cons_append, List.head?_cons, if_neg hnonzero] at hresult
      split at hresult
      · simp at hresult
      · rename_i heq
        rw [not_not] at heq
        obtain rfl := Except.ok.inj hresult
        obtain ⟨rest, hrest⟩ := ih rfl hdrop (by simp)
          (fun b hb => hzero b (List.mem_cons_of_mem _ hb)) haccepts
        exact ⟨rest, by rw [heq, hrest]; rfl⟩

/-! ## Between values -/

/-- What a reader accepts behind a value: whitespace, and then a comma or the
close of the innermost container. -/
theorem separator_sound {array : Bool} (hstate : self.state = .afterValue)
    (harrays : self.arrays = array :: outer) (h : Accepts self bytes) :
    ∃ (trail : Space) (byte : UInt8) (rest : List UInt8), bytes = trail.bytes ++ byte :: rest ∧
      (byte = ascii ',' ∨ byte = closer array) := by
  obtain ⟨trail, behind, after, rfl, hspace, hafter, haccepts⟩ :=
    accepts_space (by rw [hstate]; rfl) h
  rw [hstate, harrays] at hafter
  obtain ⟨byte, rest, next, rfl, hresult, _⟩ :=
    accepts_step (by simp [hafter.state]) (by simp [hafter.state]) haccepts
  refine ⟨trail, byte, rest, rfl, ?_⟩
  simp only [step, hafter.state, afterValue, hspace byte rest rfl, hafter.arrays] at hresult
  by_cases hcomma : byte = ascii ','
  · exact .inl hcomma
  · refine .inr ?_
    cases array <;> simp only [closer, hcomma, if_false, if_true, Bool.false_eq_true] at hresult ⊢
    · split at hresult
      · assumption
      · split at hresult <;> simp at hresult
    · split at hresult
      · simp at hresult
      · split at hresult
        · assumption
        · simp at hresult

theorem delimited_of_accepts (hstate : self.state = .afterValue) (harrays : self.arrays ≠ [])
    (h : Accepts self bytes) : Delimited bytes := by
  obtain ⟨array, outer, harrays⟩ := List.exists_cons_of_ne_nil harrays
  obtain ⟨trail, byte, rest, rfl, hbyte⟩ := separator_sound hstate harrays h
  refine delimited_append trail.spaces ⟨byte, rest, rfl, ?_⟩
  rcases hbyte with rfl | rfl
  · decide
  · cases array <;> decide

theorem keyDue_sound (hstate : KeyDue self.state) (h : Accepts self bytes) :
    ∃ (lead : Space) (byte : UInt8) (rest : List UInt8), bytes = lead.bytes ++ byte :: rest ∧
      (byte = ascii '"' ∨ byte = ascii '}' ∧ self.state = .keyOrClose) := by
  obtain ⟨lead, behind, after, rfl, hspace, hafter, haccepts⟩ :=
    accepts_space (skips_keyDue hstate) h
  have hdue : KeyDue after.state := hafter.state ▸ hstate
  obtain ⟨byte, rest, next, rfl, hresult, _⟩ := accepts_step
    (by rcases hdue with h | h <;> simp [h]) (by rcases hdue with h | h <;> simp [h]) haccepts
  refine ⟨lead, byte, rest, rfl, ?_⟩
  rw [← hafter.state]
  rcases hdue with hkey | hkey <;>
    simp only [step, hkey, unlessSpace, hspace byte rest rfl, Bool.false_eq_true,
      if_false] at hresult
  · split at hresult
    · simp at hresult
    · exact .inl (by simpa using ‹¬ byte ≠ ascii '"'›)
  · split at hresult
    · exact .inl ‹_›
    · split at hresult
      · exact .inr ⟨‹_›, hkey⟩
      · simp at hresult

theorem key_sound (hstate : KeyDue self.state)
    (h : Accepts self (lead.bytes ++ ascii '"' :: behind)) :
    ∃ (key : List Piece) (beforeColon : Space) (rest : List UInt8),
      ascii '"' :: behind = quoted key ++ (beforeColon.bytes ++ ascii ':' :: rest) := by
  obtain ⟨first, hfirst, haccepts⟩ := (reads_space (skips_keyDue hstate) lead).accepts trivial h
  have hdue : KeyDue first.state := hfirst.state ▸ hstate
  obtain ⟨key, rest, rfl⟩ : ∃ pieces rest, behind = raw pieces ++ ascii '"' :: rest := by
    have hstring : first.state ≠ .string := by
      rcases hdue with h | h <;> simp [h]
    obtain ⟨next, hresult, hnext⟩ := accepts_cons hstring haccepts
    have hspace : isSpace (ascii '"') = false := by decide
    have hopened : next.state = .string := by
      rcases hdue with h | h <;> simp [step, h, unlessSpace, hspace] at hresult <;> rw [← hresult] <;>
        rfl
    have hadvanced : (next.advance 1).state = .string := hopened
    exact accepts_string hadvanced hnext
  have hquoted : ascii '"' :: (raw key ++ ascii '"' :: rest) = quoted key ++ rest := by
    simp [quoted]
  rw [hquoted] at haccepts ⊢
  obtain ⟨second, hsecond, haccepts⟩ := (reads_key hdue key).accepts trivial haccepts
  obtain ⟨beforeColon, behind, third, rfl, hspace, hthird, haccepts⟩ :=
    accepts_space (by rw [hsecond.state]; rfl) haccepts
  rw [hsecond.state] at hthird
  obtain ⟨byte, rest, next, rfl, hresult, _⟩ :=
    accepts_step (by simp [hthird.state]) (by simp [hthird.state]) haccepts
  simp only [step, hthird.state, unlessSpace, hspace byte rest rfl, Bool.false_eq_true,
    if_false] at hresult
  split at hresult
  · simp at hresult
  · rename_i hcolon
    rw [not_not] at hcolon
    exact ⟨key, beforeColon, rest, by rw [hcolon]⟩

theorem beginValue_bracket (self : Reader) : self.beginValue (ascii ']') =
    if self.depth > maxDepth then .fail (.error .jsonTooDeep)
    else .fail (.error .invalidJsonValue) := by
  rw [beginValue]
  split <;> rfl

theorem valueDue_sound (hstate : ValueDue self.state) (h : Accepts self bytes) :
    ∃ (lead : Space) (byte : UInt8) (rest : List UInt8), bytes = lead.bytes ++ byte :: rest ∧
      isSpace byte = false ∧ (byte = ascii ']' → self.state = .valueOrClose) := by
  obtain ⟨lead, behind, after, rfl, hspace, hafter, haccepts⟩ :=
    accepts_space (skips_valueDue hstate) h
  have hdue : ValueDue after.state := hafter.state ▸ hstate
  obtain ⟨byte, rest, next, rfl, hresult, _⟩ := accepts_step
    (by rcases hdue with h | h <;> simp [h]) (by rcases hdue with h | h <;> simp [h]) haccepts
  refine ⟨lead, byte, rest, rfl, hspace byte rest rfl, fun hclose => ?_⟩
  rw [← hafter.state]
  rcases hdue with hvalue | hvalue
  · subst hclose
    simp only [step, hvalue, unlessSpace, hspace _ rest rfl, Bool.false_eq_true, if_false,
      beginValue_bracket] at hresult
    split at hresult <;> simp at hresult
  · exact hvalue

/-! ## Values -/

/-- A value stands at the front of `bytes`, where the reader accepts one. -/
def FrontValue (self : Reader) (bytes : List UInt8) : Prop :=
  ∃ (tree : Tree) (rest : List UInt8), bytes = tree.render ++ rest ∧ Delimited rest ∧
    self.depth + tree.depth ≤ maxDepth

/-- Values of at most `length` bytes with what follows them are sound. -/
def SoundTo (length : Nat) : Prop :=
  ∀ (self : Reader) (byte : UInt8) (rest : List UInt8), rest.length < length →
    ValueDue self.state → self.arrays ≠ [] → isSpace byte = false → byte ≠ ascii ']' →
    Accepts self (byte :: rest) → FrontValue self (byte :: rest)

section

variable (hsound : SoundTo length)

include hsound

theorem spaced_sound {array : Bool} (hstate : ValueDue self.state)
    (harrays : self.arrays = array :: outer) (hlength : rest.length < length)
    (hspace : isSpace byte = false) (hclose : byte ≠ ascii ']')
    (h : Accepts self (lead.bytes ++ byte :: rest)) :
    ∃ (value : Tree) (trail : Space) (separator : UInt8) (behind : List UInt8) (after : Reader)
      (offset : Nat), byte :: rest = value.render ++ (trail.bytes ++ separator :: behind) ∧
      outer.length + 1 + value.depth ≤ maxDepth ∧
      (separator = ascii ',' ∨ separator = closer array) ∧
      At after .afterValue (array :: outer) offset ∧ Accepts after (separator :: behind) := by
  obtain ⟨first, hfirst, haccepts⟩ := (reads_space (skips_valueDue hstate) lead).accepts trivial h
  have hdue : ValueDue first.state := hfirst.state ▸ hstate
  have hne : first.arrays ≠ [] := by simp [hfirst.arrays, harrays]
  obtain ⟨value, behind, hbytes, hbehind, hdepth⟩ :=
    hsound first byte rest hlength hdue hne hspace hclose haccepts
  rw [hbytes] at haccepts
  obtain ⟨second, hsecond, haccepts⟩ := (readsTree value first hdue hne hdepth).accepts
    (behind_of_delimited value hbehind) haccepts
  rw [hfirst.arrays, harrays] at hsecond
  obtain ⟨trail, separator, behind, rfl, hseparator⟩ :=
    separator_sound hsecond.state hsecond.arrays haccepts
  obtain ⟨after, hafter, haccepts⟩ :=
    (reads_space (by rw [hsecond.state]; rfl) trail).accepts trivial haccepts
  rw [hsecond.state, hsecond.arrays] at hafter
  rw [depth_cons (hfirst.arrays.trans harrays)] at hdepth
  exact ⟨value, trail, separator, behind, after, _, hbytes, hdepth, hseparator, hafter, haccepts⟩

theorem members_sound (hstate : KeyDue self.state)
    (harrays : self.arrays = false :: outer) (hlength : behind.length ≤ length)
    (h : Accepts self (lead.bytes ++ ascii '"' :: behind)) :
    ∃ (members : List (Member Tree)) (rest : List UInt8), members ≠ [] ∧
      lead.bytes ++ ascii '"' :: behind = renderMembers members ++ ascii '}' :: rest ∧
      outer.length + depthMembers members ≤ maxDepth := by
  induction hn : behind.length using Nat.strongRecOn generalizing self lead behind with
  | ind n ih =>
    subst hn
    obtain ⟨key, beforeColon, afterKey, hkey⟩ := key_sound hstate h
    rw [hkey] at h
    have hcolon : lead.bytes ++ (quoted key ++ (beforeColon.bytes ++ ascii ':' :: afterKey)) =
        lead.bytes ++ (quoted key ++ (beforeColon.bytes ++ [ascii ':'])) ++ afterKey := by
      simp only [List.append_assoc, List.cons_append, List.nil_append]
    rw [hcolon] at h
    obtain ⟨first, hfirst, haccepts⟩ := (reads_keyColon hstate lead key beforeColon).accepts trivial h
    rw [harrays] at hfirst
    obtain ⟨afterColon, byte, rest, rfl, hspace, hbracket⟩ :=
      valueDue_sound (.inl hfirst.state) haccepts
    have hclose : byte ≠ ascii ']' := fun heq => by
      simpa [hfirst.state] using hbracket heq
    have hshorter : behind.length = (raw key).length + 1 + beforeColon.bytes.length + 1 +
        afterColon.bytes.length + 1 + rest.length := by
      have := congrArg List.length hkey
      simp only [quoted, List.length_cons, List.length_append, List.length_nil] at this
      omega
    obtain ⟨value, trail, separator, behind', after, offset, hvalue, hdepth, hseparator, hafter,
      haccepts⟩ := spaced_sound hsound (.inl hfirst.state) hfirst.arrays (by omega) hspace hclose
        haccepts
    let member : Member Tree := ⟨lead, key, beforeColon, afterColon, value, trail⟩
    have hmember : lead.bytes ++ ascii '"' :: behind =
        memberText member ++ separator :: behind' := by
      rw [hkey, hvalue]
      simp only [memberText, member, List.append_assoc, List.cons_append]
    rcases hseparator with rfl | rfl
    · -- a comma: another key is due
      obtain ⟨next, hnext, haccepts⟩ := (reads_comma hafter).accepts trivial haccepts
      simp only [Bool.false_eq_true, if_false] at hnext
      obtain ⟨lead', byte', rest', rfl, hquote⟩ := keyDue_sound (.inl hnext.state) haccepts
      obtain rfl : byte' = ascii '"' := by
        rcases hquote with h | ⟨_, h⟩
        · exact h
        · simp [hnext.state] at h
      have hless : rest'.length < behind.length := by
        have := congrArg List.length hvalue
        simp only [List.length_cons, List.length_append] at this
        omega
      obtain ⟨members, rest, hne, hrender, hdepths⟩ := ih _ hless (.inl hnext.state) hnext.arrays
        (by omega) haccepts rfl
      refine ⟨member :: members, rest, List.cons_ne_nil _ _, ?_, ?_⟩
      · rw [hmember, hrender, renderMembers_cons]
        simp [hne]
      · simp only [depthMembers, member]
        omega
    · refine ⟨[member], behind', List.cons_ne_nil _ _, ?_, ?_⟩
      · rw [hmember, renderMembers_cons]
        simp [closer]
      · simp only [depthMembers, member]
        omega

theorem elements_sound (hstate : ValueDue self.state)
    (harrays : self.arrays = true :: outer) (hlength : behind.length < length)
    (hspace : isSpace byte = false) (hclose : byte ≠ ascii ']')
    (h : Accepts self (lead.bytes ++ byte :: behind)) :
    ∃ (elements : List (Element Tree)) (rest : List UInt8), elements ≠ [] ∧
      lead.bytes ++ byte :: behind = renderElements elements ++ ascii ']' :: rest ∧
      outer.length + depthElements elements ≤ maxDepth := by
  induction hn : behind.length using Nat.strongRecOn generalizing self lead byte behind with
  | ind n ih =>
    subst hn
    obtain ⟨value, trail, separator, behind', after, offset, hvalue, hdepth, hseparator, hafter,
      haccepts⟩ := spaced_sound hsound hstate harrays hlength hspace hclose h
    let element : Element Tree := ⟨lead, value, trail⟩
    have helement : lead.bytes ++ byte :: behind =
        elementText element ++ separator :: behind' := by
      rw [hvalue]
      simp only [elementText, element, List.append_assoc]
    rcases hseparator with rfl | rfl
    · -- a comma: another value is due
      obtain ⟨next, hnext, haccepts⟩ := (reads_comma hafter).accepts trivial haccepts
      simp only [if_true] at hnext
      obtain ⟨lead', byte', rest', rfl, hspace', hbracket⟩ := valueDue_sound (.inl hnext.state) haccepts
      have hclose' : byte' ≠ ascii ']' := fun heq => by
        simpa [hnext.state] using hbracket heq
      have hless : rest'.length < behind.length := by
        have := congrArg List.length hvalue
        simp only [List.length_cons, List.length_append] at this
        omega
      obtain ⟨elements, rest, hne, hrender, hdepths⟩ := ih _ hless (.inl hnext.state) hnext.arrays
        (by omega) hspace' hclose' haccepts rfl
      refine ⟨element :: elements, rest, List.cons_ne_nil _ _, ?_, ?_⟩
      · rw [helement, hrender, renderElements_cons]
        simp [hne]
      · simp only [depthElements, element]
        omega
    · refine ⟨[element], behind', List.cons_ne_nil _ _, ?_, ?_⟩
      · rw [helement, renderElements_cons]
        simp [closer]
      · simp only [depthElements, element]
        omega

theorem object_sound (hstate : self.state = .keyOrClose)
    (harrays : self.arrays = false :: outer) (hdepth : outer.length ≤ maxDepth)
    (hlength : bytes.length ≤ length) (h : Accepts self bytes) :
    ∃ (inner : Space) (members : List (Member Tree)) (rest : List UInt8),
      bytes = inner.bytes ++ (renderMembers members ++ ascii '}' :: rest) ∧
      outer.length + depthMembers members ≤ maxDepth := by
  obtain ⟨lead, byte, rest, rfl, rfl | ⟨rfl, _⟩⟩ := keyDue_sound (.inr hstate) h
  · have hshorter : rest.length ≤ length := by
      simp only [List.length_append, List.length_cons] at hlength
      omega
    obtain ⟨members, rest, _, hrender, hdepth⟩ :=
      members_sound hsound (.inr hstate) harrays hshorter h
    exact ⟨.none, members, rest, hrender, hdepth⟩
  · exact ⟨lead, [], rest, rfl, by simpa [depthMembers] using hdepth⟩

theorem array_sound (hstate : self.state = .valueOrClose)
    (harrays : self.arrays = true :: outer) (hdepth : outer.length ≤ maxDepth)
    (hlength : bytes.length ≤ length) (h : Accepts self bytes) :
    ∃ (inner : Space) (elements : List (Element Tree)) (rest : List UInt8),
      bytes = inner.bytes ++ (renderElements elements ++ ascii ']' :: rest) ∧
      outer.length + depthElements elements ≤ maxDepth := by
  obtain ⟨lead, byte, rest, rfl, hspace, _⟩ := valueDue_sound (.inr hstate) h
  by_cases hclose : byte = ascii ']'
  · subst hclose
    exact ⟨lead, [], rest, rfl, by simpa [depthElements] using hdepth⟩
  · have hshorter : rest.length < length := by
      simp only [List.length_append, List.length_cons] at hlength
      omega
    obtain ⟨elements, rest, _, hrender, hdepth⟩ :=
      elements_sound hsound (.inr hstate) harrays hshorter hspace hclose h
    exact ⟨.none, elements, rest, hrender, hdepth⟩

end

theorem beginValue_sound (h : (self.beginValue byte).result = .ok next) : self.depth ≤ maxDepth ∧
      (byte = ascii '{' ∧ next = self.openContainer false ∨
        byte = ascii '[' ∧ next = self.openContainer true ∨
        byte = ascii '"' ∧ next = self.startString false ∨
        byte = ascii '-' ∧ next.state = .minus ∨
        isDigit byte = true ∧ (next.state = if byte = ascii '0' then .zero else .integerDigits) ∨
        ∃ literal tail, literal.raw = byte :: tail ∧
          next = self.startLiteral (literalStart literal)) := by
  rw [beginValue] at h
  split at h
  · simp at h
  rename_i hdepth
  refine ⟨Nat.not_lt.mp hdepth, ?_⟩
  split at h
  · exact .inl ⟨‹_›, (Except.ok.inj h).symm⟩
  refine .inr ?_
  split at h
  · exact .inl ⟨‹_›, (Except.ok.inj h).symm⟩
  refine .inr ?_
  split at h
  · exact .inl ⟨‹_›, (Except.ok.inj h).symm⟩
  refine .inr ?_
  split at h
  · exact .inl ⟨‹_›, by rw [← Except.ok.inj h]⟩
  refine .inr ?_
  split at h
  · exact .inl ⟨‹_›, by rw [← Except.ok.inj h]⟩
  refine .inr ?_
  split at h
  · exact ⟨.trueValue, Library.text "rue", by subst byte; rfl, (Except.ok.inj h).symm⟩
  split at h
  · exact ⟨.falseValue, Library.text "alse", by subst byte; rfl, (Except.ok.inj h).symm⟩
  split at h
  · exact ⟨.nullValue, Library.text "ull", by subst byte; rfl, (Except.ok.inj h).symm⟩
  simp at h

theorem firstDigit_sound (hstate : self.state = .minus) (h : (self.step byte).result = .ok next) :
    isDigit byte = true ∧
      (next.advance 1).state = if byte = ascii '0' then .zero else .integerDigits := by
  simp only [step, hstate] at h
  split at h
  · rename_i hzero
    rw [← Except.ok.inj h, if_pos hzero]
    exact ⟨by rw [hzero]; decide, rfl⟩
  · rename_i hzero
    split at h
    · rename_i hdigit
      rw [← Except.ok.inj h, if_neg hzero]
      exact ⟨hdigit, rfl⟩
    · simp at h

/-- **Values.** What the reader accepts where a value is due begins with the
text of a tree that is not too deep. -/
theorem value_sound (length : Nat) : SoundTo length := by
  induction length with
  | zero => exact fun _ _ _ hlength => absurd hlength (Nat.not_lt_zero _)
  | succ length ih =>
    intro self byte rest hlength hstate harrays hspace hclose h
    have hstring : self.state ≠ .string := by
      rcases hstate with h | h <;> simp [h]
    obtain ⟨next, hresult, haccepts⟩ := accepts_cons hstring h
    rw [step_value hstate hspace hclose] at hresult
    obtain ⟨hdepth, hkind⟩ := beginValue_sound hresult
    have hrest : rest.length ≤ length := Nat.lt_succ_iff.mp hlength
    suffices hfront : ∃ (tree : Tree) (behind : List UInt8),
        byte :: rest = tree.render ++ behind ∧ Behind tree behind ∧
        self.depth + tree.depth ≤ maxDepth by
      obtain ⟨tree, behind, hbytes, hbehind, htree⟩ := hfront
      rw [hbytes] at h ⊢
      obtain ⟨after, hafter, haccepts⟩ :=
        (readsTree tree self hstate harrays htree).accepts hbehind h
      exact ⟨tree, behind, rfl, delimited_of_accepts hafter.state (hafter.arrays ▸ harrays) haccepts,
        htree⟩
    rcases hkind with ⟨rfl, rfl⟩ | ⟨rfl, rfl⟩ | ⟨rfl, rfl⟩ | ⟨rfl, hnext⟩ | ⟨hdigit, hnext⟩ |
      ⟨literal, tail, hraw, rfl⟩
    · obtain ⟨inner, members, behind, rfl, htree⟩ :=
        object_sound ih rfl rfl hdepth hrest haccepts
      refine ⟨.object inner members, behind, ?_, trivial, htree⟩
      simp only [Tree.render, List.cons_append, List.append_assoc, List.nil_append]
    · obtain ⟨inner, elements, behind, rfl, htree⟩ :=
        array_sound ih rfl rfl hdepth hrest haccepts
      refine ⟨.array inner elements, behind, ?_, trivial, htree⟩
      simp only [Tree.render, List.cons_append, List.append_assoc, List.nil_append]
    · obtain ⟨pieces, behind, rfl⟩ := accepts_string rfl haccepts
      refine ⟨.string pieces, behind, ?_, trivial, hdepth⟩
      simp only [Tree.render, quoted, List.cons_append, List.append_assoc, List.nil_append]
    · have hminus : (next.advance 1).state = .minus := hnext
      obtain ⟨first, rest, after, rfl, hresult, haccepts⟩ :=
        accepts_step (by simp [hminus]) (by simp [hminus]) haccepts
      obtain ⟨hfirst, hafter⟩ := firstDigit_sound hminus hresult
      obtain ⟨number, behind, hbytes, hbehind⟩ := whole_sound hfirst hafter haccepts true
      exact ⟨.number number, behind, hbytes, hbehind, hdepth⟩
    · have hfirst : (next.advance 1).state =
          if byte = ascii '0' then .zero else .integerDigits := hnext
      obtain ⟨number, behind, hbytes, hbehind⟩ := whole_sound hdigit hfirst haccepts false
      exact ⟨.number number, behind, hbytes, hbehind, hdepth⟩
    · obtain ⟨first, tail', more, hraw', hne, hzero, htable, _⟩ := literal_raw literal
      rw [hraw] at hraw'
      obtain ⟨rfl, rfl⟩ := List.cons.inj hraw'
      obtain ⟨behind, rfl⟩ := literalTail_sound rfl htable hne hzero haccepts
      refine ⟨.literal literal, behind, ?_, trivial, hdepth⟩
      rw [Tree.render, hraw, List.cons_append]

/-! ## Documents -/

theorem document_sound (h : Accepts {} bytes) :
    ∃ document : Document, document.render = bytes ∧ document.root.depth ≤ maxDepth := by
  have hskips : skips ({} : Reader).state = true := rfl
  obtain ⟨lead, behind, first, rfl, hspace, hfirst, haccepts⟩ := accepts_space hskips h
  have hdocument : first.state = .document := hfirst.state
  obtain ⟨byte, rest, next, rfl, hresult, haccepts⟩ :=
    accepts_step (by simp [hdocument]) (by simp [hdocument]) haccepts
  simp only [step, hdocument, unlessSpace, hspace byte rest rfl, Bool.false_eq_true,
    if_false] at hresult
  split at hresult
  · simp at hresult
  · rename_i hbrace
    rw [not_not] at hbrace
    obtain rfl := Except.ok.inj hresult
    have hopened : At ((first.openContainer false).advance 1) .keyOrClose [false]
        (first.offset + 1) := ⟨rfl, by simp [advance, openContainer, hfirst.arrays], rfl⟩
    obtain ⟨inner, members, behind, rfl, hdepth⟩ := object_sound (value_sound rest.length)
      hopened.state hopened.arrays (Nat.zero_le _) (Nat.le_refl _) haccepts
    rw [List.length_nil, Nat.zero_add] at hdepth
    have hvalues : ∀ member ∈ members, ReadsTree member.value := fun member _ =>
      readsTree member.value
    have hobject : inner.bytes ++ (renderMembers members ++ ascii '}' :: behind) =
        inner.bytes ++ (renderMembers members ++ [closer false]) ++ behind := by
      simp [closer]
    rw [hobject] at haccepts
    obtain ⟨closed, hclosed, haccepts⟩ :=
      (reads_object hopened inner members hvalues (by simpa using hdepth)).accepts trivial haccepts
    have hdone : closed.state = .done := hclosed.state
    obtain ⟨trail, extra, last, rfl, hextra, hlast, haccepts⟩ :=
      accepts_space (by rw [hdone]; rfl) haccepts
    rw [hdone] at hlast
    cases extra with
    | nil =>
      refine ⟨⟨lead, inner, members, trail⟩, ?_, hdepth⟩
      simp only [Document.render, Document.root, Tree.render, hbrace, List.append_assoc,
        List.cons_append, List.nil_append, List.append_nil]
    | cons byte rest =>
      obtain ⟨_, hresult, _⟩ := accepts_cons (by simp [hlast.state]) haccepts
      simp [step, hlast.state, unlessSpace, hextra byte rest rfl] at hresult

theorem finish_ok {after : Reader} :
    self.finish.result = .ok after ↔ self.state = .done ∧ self = after := by
  by_cases hdone : self.state = .done
  · simp [finish, hdone]
  · by_cases hdeep : (self.state = .value ∨ self.state = .valueOrClose) ∧ self.depth > maxDepth
    · simp [finish, hdone, hdeep]
    · simp [finish, hdone, hdeep]

theorem read_ok_iff : (∃ after, (read bytes).result = .ok after) ↔ Accepts {} bytes := by
  rw [Accepts, read, Told.andThen]
  cases hresult : (readBytes {} bytes).result with
  | error e => simp
  | ok after => simp [finish_ok]

end Reader

/-- **The reader.** It accepts exactly the documents whose values are not too
deep. The handler then hears the calls of the document, and the ranges that they
name are those of its strings. -/
theorem read_accepts (bytes : List UInt8) :
    ((∃ after, (Reader.read bytes).result = .ok after) ↔
      ∃ document : Document, document.render = bytes ∧ document.root.depth ≤ maxDepth) ∧
    ∀ document : Document, document.render = bytes → document.root.depth ≤ maxDepth →
      (Reader.read bytes).calls = documentCalls document ∧
      ∀ call ∈ documentCalls document, call.InPlace bytes := by
  refine ⟨⟨fun h => Reader.document_sound (Reader.read_ok_iff.mp h), ?_⟩, ?_⟩
  · rintro ⟨document, rfl, hdepth⟩
    obtain ⟨after, hread⟩ := Reader.read_render document hdepth
    exact ⟨after, by rw [hread]; rfl⟩
  · rintro document rfl hdepth
    obtain ⟨after, hread⟩ := Reader.read_render document hdepth
    refine ⟨?_, documentCalls_inPlace document⟩
    rw [hread, Told.tell_calls]
    exact List.append_nil _

end Rui.Json
