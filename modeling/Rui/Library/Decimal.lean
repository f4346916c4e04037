import Rui.Library.Ascii

/-!
# Numbers in base ten

How a number is printed, what digits say, and what the standard library's reader of
unsigned integers takes: it is laxer, with a sign before and underscores between.
-/

namespace Library

/-- The number a digit says. -/
def digitValue (byte : UInt8) : Nat := byte.toNat - 0x30

/-- A number without leading zeros. -/
def decimal (n : Nat) : List UInt8 := (Nat.toDigits 10 n).map ascii

/-- The number that digits say after `total`. -/
def valueFrom (total : Nat) (digits : List UInt8) : Nat :=
  digits.foldl (fun total byte => 10 * total + digitValue byte) total

def decimalValue (digits : List UInt8) : Nat := valueFrom 0 digits

/-- The digits after a sign, up to the largest number of the type. -/
def parseDigits (largest : Nat) (negative : Bool) : Nat → List UInt8 → Option Nat
  | total, [] => some total
  | total, byte :: rest =>
    if byte = ascii '_' then parseDigits largest negative total rest
    else if isDigit byte = false then none
    else
      let shifted := 10 * total
      if largest < shifted then none
      else if negative then
        if shifted < digitValue byte then none
        else parseDigits largest negative (shifted - digitValue byte) rest
      else if largest < shifted + digitValue byte then none
      else parseDigits largest negative (shifted + digitValue byte) rest

/-- What follows a sign: no underscore comes first or last. -/
def parseMagnitude (largest : Nat) (negative : Bool) (bytes : List UInt8) : Option Nat :=
  if bytes = [] ∨ bytes.head? = some (ascii '_') ∨ bytes.getLast? = some (ascii '_') then none
  else parseDigits largest negative 0 bytes

/-- `std.fmt.parseInt` in base ten, of the unsigned type with this largest number. -/
def parseInt (largest : Nat) (bytes : List UInt8) : Option Nat :=
  match bytes with
  | [] => none
  | sign :: rest =>
    if sign = ascii '+' then parseMagnitude largest false rest
    else if sign = ascii '-' then parseMagnitude largest true rest
    else parseMagnitude largest false bytes

/-- The same reader for the signed type of which this is the largest number: the least has one
more. -/
def parseSigned (largest : Nat) (bytes : List UInt8) : Option Int :=
  match bytes with
  | [] => none
  | sign :: rest =>
    if sign = ascii '+' then (parseMagnitude largest false rest).map Int.ofNat
    else if sign = ascii '-' then
      (parseMagnitude (largest + 1) false rest).map fun (magnitude : Nat) => -(magnitude : Int)
    else (parseMagnitude largest false bytes).map Int.ofNat

/-! ## Digits -/

variable {byte : UInt8} {n largest : Nat} {bytes : List UInt8}

theorem isDigit_iff : isDigit byte = true ↔ 0x30 ≤ byte.toNat ∧ byte.toNat ≤ 0x39 := by
  have hzero : (ascii '0').toNat = 0x30 := rfl
  have hnine : (ascii '9').toNat = 0x39 := rfl
  rw [isDigit, Bool.and_eq_true, decide_eq_true_iff, decide_eq_true_iff, UInt8.le_iff_toNat_le,
    UInt8.le_iff_toNat_le, hzero, hnine]

theorem digitValue_lt (h : isDigit byte = true) : digitValue byte < 10 := by
  obtain ⟨_, hhigh⟩ := isDigit_iff.mp h
  rw [digitValue]
  omega

theorem ascii_digitChar (h : isDigit byte = true) :
    ascii (Nat.digitChar (digitValue byte)) = byte := by
  obtain ⟨hlow, hhigh⟩ := isDigit_iff.mp h
  refine UInt8.toNat_inj.mp ?_
  have hchar := Nat.toNat_digitChar_of_lt_ten (digitValue_lt h)
  show (Nat.digitChar (digitValue byte)).toNat % 256 = byte.toNat
  rw [hchar, digitValue]
  omega

variable {d total : Nat} {digits : List UInt8}

theorem isDigit_digitChar (h : d < 10) : isDigit (ascii (Nat.digitChar d)) = true ∧
    digitValue (ascii (Nat.digitChar d)) = d := by
  have hbyte : (ascii (Nat.digitChar d)).toNat = 0x30 + d := by
    show (Nat.digitChar d).toNat % 256 = _
    rw [Nat.toNat_digitChar_of_lt_ten h]
    omega
  rw [isDigit_iff, digitValue, hbyte]
  omega

theorem decimal_ne_nil (n : Nat) : decimal n ≠ [] := by
  simp [decimal]

theorem decimal_of_lt (h : n < 10) : decimal n = [ascii (Nat.digitChar n)] := by
  rw [decimal, Nat.toDigits_of_lt_base h]
  rfl

theorem decimal_append (hn : 0 < n) (hd : d < 10) :
    decimal n ++ [ascii (Nat.digitChar d)] = decimal (10 * n + d) := by
  rw [decimal, decimal, ← Nat.toDigits_append_toDigits (by decide) hn hd,
    Nat.toDigits_of_lt_base hd, List.map_append]
  rfl

theorem decimal_split (h : 10 ≤ n) :
    decimal n = decimal (n / 10) ++ [ascii (Nat.digitChar (n % 10))] := by
  rw [decimal_append (by omega) (Nat.mod_lt n (by decide)), Nat.div_add_mod]

theorem isDigit_of_mem_decimal (h : byte ∈ decimal n) : isDigit byte = true := by
  induction n using Nat.strongRecOn with
  | ind n ih =>
    rcases Nat.lt_or_ge n 10 with hlt | hge
    · rw [decimal_of_lt hlt, List.mem_singleton] at h
      rw [h]
      exact (isDigit_digitChar hlt).1
    · rw [decimal_split hge, List.mem_append] at h
      rcases h with h | h
      · exact ih (n / 10) (by omega) h
      · rw [List.mem_singleton.mp h]
        exact (isDigit_digitChar (Nat.mod_lt n (by decide))).1

theorem length_decimal_le {k : Nat} (hk : 0 < k) : (decimal n).length ≤ k ↔ n < 10 ^ k := by
  rw [decimal, List.length_map]
  exact Nat.length_toDigits_le_iff (by decide) hk

@[simp] theorem valueFrom_nil (total : Nat) : valueFrom total [] = total := rfl

@[simp] theorem valueFrom_cons (total : Nat) (byte : UInt8) (digits : List UInt8) :
    valueFrom total (byte :: digits) = valueFrom (10 * total + digitValue byte) digits := by
  rw [valueFrom, List.foldl_cons, valueFrom]

theorem valueFrom_append (total : Nat) (digits more : List UInt8) :
    valueFrom total (digits ++ more) = valueFrom (valueFrom total digits) more :=
  List.foldl_append

theorem le_valueFrom (total : Nat) (digits : List UInt8) : total ≤ valueFrom total digits := by
  induction digits generalizing total with
  | nil => exact le_rfl
  | cons byte digits ih =>
    have := ih (10 * total + digitValue byte)
    rw [valueFrom_cons]
    omega

theorem decimalValue_decimal (n : Nat) : decimalValue (decimal n) = n := by
  induction n using Nat.strongRecOn with
  | ind n ih =>
    rcases Nat.lt_or_ge n 10 with hlt | hge
    · rw [decimal_of_lt hlt, decimalValue, valueFrom_cons, (isDigit_digitChar hlt).2]
      simp
    · have hdigit := isDigit_digitChar (Nat.mod_lt n (by decide : 0 < 10))
      have hprefix := ih (n / 10) (by omega)
      rw [decimalValue] at hprefix
      rw [decimal_split hge, decimalValue, valueFrom_append, hprefix, valueFrom_cons,
        valueFrom_nil, hdigit.2]
      exact Nat.div_add_mod n 10

theorem decimal_valueFrom (htotal : 0 < total) (h : ∀ byte ∈ digits, isDigit byte = true) :
    decimal total ++ digits = decimal (valueFrom total digits) := by
  induction digits generalizing total with
  | nil => rw [List.append_nil, valueFrom_nil]
  | cons byte digits ih =>
    have hbyte := h byte List.mem_cons_self
    have hstep := decimal_append htotal (digitValue_lt hbyte)
    rw [ascii_digitChar hbyte] at hstep
    rw [valueFrom_cons, ← ih (by omega) fun b hb => h b (List.mem_cons_of_mem _ hb), ← hstep,
      List.append_assoc, List.singleton_append]

/-- **The canonical spelling.** Digits without a leading zero are what is printed. -/
theorem decimal_decimalValue (h : ∀ byte ∈ digits, isDigit byte = true) (hne : digits ≠ [])
    (hcanonical : 1 < digits.length → digits.head? ≠ some (ascii '0')) :
    decimal (decimalValue digits) = digits := by
  obtain ⟨first, rest, rfl⟩ := List.exists_cons_of_ne_nil hne
  have hfirst := h first List.mem_cons_self
  have hspelled := ascii_digitChar hfirst
  rw [decimalValue, valueFrom_cons, Nat.mul_zero, Nat.zero_add]
  by_cases hrest : rest = []
  · subst hrest
    rw [valueFrom_nil, decimal_of_lt (digitValue_lt hfirst), hspelled]
  · have hzero : first ≠ ascii '0' := fun heq =>
      hcanonical (by simpa using List.length_pos_iff.mpr hrest) (congrArg some heq)
    have hpos : 0 < digitValue first := by
      obtain ⟨hlow, -⟩ := isDigit_iff.mp hfirst
      have hne : first.toNat ≠ 0x30 := fun heq => hzero (UInt8.toNat_inj.mp heq)
      rw [digitValue]
      omega
    rw [← decimal_valueFrom hpos fun b hb => h b (List.mem_cons_of_mem _ hb),
      decimal_of_lt (digitValue_lt hfirst), hspelled]
    rfl

/-- What is printed has a leading zero only as zero. -/
theorem decimal_head (h : 1 < (decimal n).length) : (decimal n).head? ≠ some (ascii '0') := by
  have hlarge : 10 ≤ n := by
    by_contra hlt
    rw [decimal_of_lt (Nat.not_le.mp hlt)] at h
    simp at h
  induction n using Nat.strongRecOn with
  | ind n ih =>
    rw [decimal_split hlarge, List.head?_append_of_ne_nil _ (decimal_ne_nil _)]
    rcases Nat.lt_or_ge (n / 10) 10 with hlt | hge
    · rw [decimal_of_lt hlt]
      intro heq
      have hvalue := (isDigit_digitChar hlt).2
      rw [Option.some.inj heq] at hvalue
      have hzero : digitValue (ascii '0') = 0 := rfl
      omega
    · refine ih (n / 10) (by omega) ?_ hge
      by_contra hshort
      have hlt := (length_decimal_le (by decide)).mp (Nat.not_lt.mp hshort)
      omega

/-! ## What the reader takes -/

/-- Underscores left out. -/
def withoutUnderscores (bytes : List UInt8) : List UInt8 :=
  bytes.filter fun byte => decide (byte ≠ ascii '_')

/-- Bytes that are digits or underscores. -/
def Grouped (bytes : List UInt8) : Prop :=
  ∀ byte ∈ bytes, byte = ascii '_' ∨ isDigit byte = true

theorem grouped_cons : Grouped (byte :: bytes) ↔
    (byte = ascii '_' ∨ isDigit byte = true) ∧ Grouped bytes :=
  List.forall_mem_cons

/-- Digits and underscores read as what the digits say, within the type. -/
theorem parseDigits_eq_some (h : total ≤ largest) : parseDigits largest false total bytes = some n ↔
      Grouped bytes ∧ n = valueFrom total (withoutUnderscores bytes) ∧ n ≤ largest := by
  induction bytes generalizing total with
  | nil =>
    constructor
    · rintro ⟨⟩
      exact ⟨fun b hb => absurd hb List.not_mem_nil, rfl, h⟩
    · rintro ⟨-, rfl, -⟩
      rfl
  | cons byte rest ih =>
    rw [parseDigits, grouped_cons]
    by_cases hunderscore : byte = ascii '_'
    · have hrest : withoutUnderscores (byte :: rest) = withoutUnderscores rest := by
        rw [withoutUnderscores, List.filter_cons, if_neg (by simp [hunderscore])]
        rfl
      rw [if_pos hunderscore, ih h, hrest]
      exact ⟨fun hr => ⟨⟨.inl hunderscore, hr.1⟩, hr.2⟩, fun hr => ⟨hr.1.2, hr.2⟩⟩
    · have hrest : withoutUnderscores (byte :: rest) = byte :: withoutUnderscores rest := by
        rw [withoutUnderscores, List.filter_cons, if_pos (decide_eq_true hunderscore)]
        rfl
      rw [if_neg hunderscore, hrest, valueFrom_cons]
      by_cases hdigit : isDigit byte = true
      · have hgrows := le_valueFrom (10 * total + digitValue byte) (withoutUnderscores rest)
        simp only [hdigit, Bool.true_eq_false, if_false, Bool.false_eq_true, or_true, true_and]
        by_cases hshift : largest < 10 * total
        · rw [if_pos hshift]
          refine ⟨fun hnone => (by cases hnone), fun hr => ?_⟩
          obtain ⟨-, rfl, hle⟩ := hr
          omega
        · rw [if_neg hshift]
          by_cases hadd : largest < 10 * total + digitValue byte
          · rw [if_pos hadd]
            refine ⟨fun hnone => (by cases hnone), fun hr => ?_⟩
            obtain ⟨-, rfl, hle⟩ := hr
            omega
          · rw [if_neg hadd]
            exact ih (Nat.not_lt.mp hadd)
      · rw [if_pos (Bool.not_eq_true _ ▸ hdigit)]
        refine ⟨fun hnone => (by cases hnone), fun hr => ?_⟩
        rcases hr.1.1 with hsame | hdigit'
        · exact absurd hsame hunderscore
        · exact absurd hdigit' hdigit

/-- After a minus only zeros are in an unsigned type. -/
theorem parseDigits_negative : parseDigits largest true 0 bytes = some n ↔
      (∀ byte ∈ bytes, byte = ascii '_' ∨ byte = ascii '0') ∧ n = 0 := by
  induction bytes with
  | nil =>
    constructor
    · rintro ⟨⟩
      exact ⟨fun b hb => absurd hb List.not_mem_nil, rfl⟩
    · rintro ⟨-, rfl⟩
      rfl
  | cons byte rest ih =>
    rw [parseDigits, List.forall_mem_cons]
    by_cases hunderscore : byte = ascii '_'
    · rw [if_pos hunderscore, ih]
      exact ⟨fun hr => ⟨⟨.inl hunderscore, hr.1⟩, hr.2⟩, fun hr => ⟨hr.1.2, hr.2⟩⟩
    · rw [if_neg hunderscore]
      by_cases hdigit : isDigit byte = true
      · have hrange := isDigit_iff.mp hdigit
        have hzero : byte = ascii '0' ↔ digitValue byte = 0 := by
          rw [← UInt8.toNat_inj, digitValue]
          show byte.toNat = 0x30 ↔ _
          omega
        simp only [hdigit, Bool.true_eq_false, if_false, Nat.mul_zero, Nat.not_lt_zero, if_true,
          hunderscore, false_or, hzero]
        by_cases hpos : 0 < digitValue byte
        · rw [if_pos hpos]
          exact ⟨fun hnone => (by cases hnone), fun hr => absurd hr.1.1 hpos.ne'⟩
        · have hsame : digitValue byte = 0 := Nat.eq_zero_of_not_pos hpos
          rw [if_neg hpos, hsame, Nat.sub_zero, ih]
          exact ⟨fun hr => ⟨⟨rfl, hr.1⟩, hr.2⟩, fun hr => ⟨hr.1.2, hr.2⟩⟩
      · rw [if_pos (Bool.not_eq_true _ ▸ hdigit)]
        refine ⟨fun hnone => (by cases hnone), fun hr => ?_⟩
        rcases hr.1.1 with hsame | hsame
        · exact absurd hsame hunderscore
        · rw [hsame] at hdigit
          exact absurd rfl hdigit

theorem withoutUnderscores_digits (h : ∀ byte ∈ bytes, isDigit byte = true) :
    withoutUnderscores bytes = bytes := by
  refine List.filter_eq_self.mpr fun byte hbyte => decide_eq_true fun heq => ?_
  have hdigit := h byte hbyte
  rw [heq] at hdigit
  cases hdigit

/-- Digits alone read as what they say, within the type. -/
theorem parseInt_digits (largest : Nat) (hne : bytes ≠ []) (h : ∀ byte ∈ bytes, isDigit byte = true) :
    parseInt largest bytes =
      if decimalValue bytes ≤ largest then some (decimalValue bytes) else none := by
  have hplain : ∀ byte ∈ bytes, byte ≠ ascii '+' ∧ byte ≠ ascii '-' ∧ byte ≠ ascii '_' := by
    intro byte hbyte
    have hdigit := h byte hbyte
    refine ⟨?_, ?_, ?_⟩ <;> rintro rfl <;> cases hdigit
  obtain ⟨first, rest, rfl⟩ := List.exists_cons_of_ne_nil hne
  obtain ⟨hplus, hminus, hunderscore⟩ := hplain first List.mem_cons_self
  have hlast : (first :: rest).getLast? ≠ some (ascii '_') := fun hlast =>
    (hplain _ (List.mem_of_getLast? hlast)).2.2 rfl
  have hgrouped : Grouped (first :: rest) := fun byte hbyte => .inr (h byte hbyte)
  have hbounds : ¬ (first :: rest = [] ∨ (first :: rest).head? = some (ascii '_') ∨
      (first :: rest).getLast? = some (ascii '_')) := by
    rintro (hnil | hhead | hend)
    · cases hnil
    · exact hunderscore (Option.some.inj hhead)
    · exact hlast hend
  rw [parseInt, if_neg hplus, if_neg hminus, parseMagnitude, if_neg hbounds]
  have hread : ∀ n, parseDigits largest false 0 (first :: rest) = some n ↔ _ := fun n =>
    parseDigits_eq_some (Nat.zero_le largest)
  rw [withoutUnderscores_digits h] at hread
  by_cases hle : decimalValue (first :: rest) ≤ largest
  · rw [if_pos hle]
    exact (hread _).mpr ⟨hgrouped, rfl, hle⟩
  · rw [if_neg hle]
    refine Option.eq_none_iff_forall_ne_some.mpr fun n hn => hle ?_
    obtain ⟨-, rfl, hbound⟩ := (hread n).mp hn
    exact hbound

/-- Digits between which underscores may stand. -/
def Magnitude (bytes : List UInt8) : Prop :=
  bytes ≠ [] ∧ bytes.head? ≠ some (ascii '_') ∧ bytes.getLast? ≠ some (ascii '_') ∧ Grouped bytes

/-- A spelling of an unsigned number: a plus is allowed, and a minus before zeros. -/
inductive Numeral : List UInt8 → Nat → Prop
  | plain {bytes : List UInt8} : Magnitude bytes →
      Numeral bytes (decimalValue (withoutUnderscores bytes))
  | plus {bytes : List UInt8} : Magnitude bytes →
      Numeral (ascii '+' :: bytes) (decimalValue (withoutUnderscores bytes))
  | minus {bytes : List UInt8} : Magnitude bytes →
      (∀ byte ∈ bytes, byte = ascii '_' ∨ byte = ascii '0') → Numeral (ascii '-' :: bytes) 0

theorem parseMagnitude_eq_some : parseMagnitude largest false bytes = some n ↔
      Magnitude bytes ∧ n = decimalValue (withoutUnderscores bytes) ∧ n ≤ largest := by
  rw [parseMagnitude, Magnitude]
  by_cases hedges : bytes = [] ∨ bytes.head? = some (ascii '_') ∨
      bytes.getLast? = some (ascii '_')
  · rw [if_pos hedges]
    refine ⟨fun h => (by cases h), fun h => ?_⟩
    obtain ⟨⟨hne, hhead, hlast, -⟩, -⟩ := h
    rcases hedges with hnil | hfirst | hend
    · exact absurd hnil hne
    · exact absurd hfirst hhead
    · exact absurd hend hlast
  · rw [if_neg hedges, parseDigits_eq_some (Nat.zero_le largest)]
    simp only [not_or] at hedges
    exact ⟨fun h => ⟨⟨hedges.1, hedges.2.1, hedges.2.2, h.1⟩, h.2⟩, fun h => ⟨h.1.2.2.2, h.2⟩⟩

theorem parseMagnitude_negative : parseMagnitude largest true bytes = some n ↔
      (Magnitude bytes ∧ ∀ byte ∈ bytes, byte = ascii '_' ∨ byte = ascii '0') ∧ n = 0 := by
  rw [parseMagnitude, Magnitude]
  by_cases hedges : bytes = [] ∨ bytes.head? = some (ascii '_') ∨
      bytes.getLast? = some (ascii '_')
  · rw [if_pos hedges]
    refine ⟨fun h => (by cases h), fun h => ?_⟩
    obtain ⟨⟨⟨hne, hhead, hlast, -⟩, -⟩, -⟩ := h
    rcases hedges with hnil | hfirst | hend
    · exact absurd hnil hne
    · exact absurd hfirst hhead
    · exact absurd hend hlast
  · rw [if_neg hedges, parseDigits_negative]
    simp only [not_or] at hedges
    refine ⟨fun h => ⟨⟨⟨hedges.1, hedges.2.1, hedges.2.2, ?_⟩, h.1⟩, h.2⟩, fun h => ⟨h.1.2, h.2⟩⟩
    intro byte hbyte
    rcases h.1 byte hbyte with hsame | hsame
    · exact .inl hsame
    · exact .inr (by rw [hsame]; decide)

theorem grouped_plain (h : byte = ascii '_' ∨ isDigit byte = true) :
    byte ≠ ascii '+' ∧ byte ≠ ascii '-' := by
  constructor <;> rintro rfl <;> revert h <;> decide

/-- **What the reader takes**: the spellings of the numbers of its type. -/
theorem parseInt_eq_some : parseInt largest bytes = some n ↔ Numeral bytes n ∧ n ≤ largest := by
  cases bytes with
  | nil =>
    refine ⟨fun h => (by cases h), fun h => ?_⟩
    obtain ⟨hnumeral, -⟩ := h
    cases hnumeral with
    | plain hmagnitude => exact absurd rfl hmagnitude.1
  | cons sign rest =>
    rw [parseInt]
    by_cases hplus : sign = ascii '+'
    · rw [if_pos hplus, parseMagnitude_eq_some, hplus]
      constructor
      · rintro ⟨hmagnitude, rfl, hle⟩
        exact ⟨.plus hmagnitude, hle⟩
      · rintro ⟨hnumeral, hle⟩
        cases hnumeral with
        | plain hmagnitude =>
          exact absurd rfl (grouped_plain (grouped_cons.mp hmagnitude.2.2.2).1).1
        | plus hmagnitude => exact ⟨hmagnitude, rfl, hle⟩
    · rw [if_neg hplus]
      by_cases hminus : sign = ascii '-'
      · rw [if_pos hminus, parseMagnitude_negative, hminus]
        constructor
        · rintro ⟨⟨hmagnitude, hzeros⟩, rfl⟩
          exact ⟨.minus hmagnitude hzeros, Nat.zero_le _⟩
        · rintro ⟨hnumeral, hle⟩
          cases hnumeral with
          | plain hmagnitude =>
            exact absurd rfl (grouped_plain (grouped_cons.mp hmagnitude.2.2.2).1).2
          | minus hmagnitude hzeros => exact ⟨⟨hmagnitude, hzeros⟩, rfl⟩
      · rw [if_neg hminus, parseMagnitude_eq_some]
        constructor
        · rintro ⟨hmagnitude, rfl, hle⟩
          exact ⟨.plain hmagnitude, hle⟩
        · rintro ⟨hnumeral, hle⟩
          cases hnumeral with
          | plain hmagnitude => exact ⟨hmagnitude, rfl, hle⟩
          | plus hmagnitude => exact absurd rfl hplus
          | minus hmagnitude hzeros => exact absurd rfl hminus

theorem Numeral.head_le (h : Numeral bytes n) : (bytes.headD 0).toNat ≤ 0x39 := by
  cases h with
  | plain hmagnitude =>
    obtain ⟨hne, hhead, -, hgrouped⟩ := hmagnitude
    obtain ⟨first, rest, rfl⟩ := List.exists_cons_of_ne_nil hne
    rcases (grouped_cons.mp hgrouped).1 with rfl | hdigit
    · exact absurd rfl hhead
    · exact (isDigit_iff.mp hdigit).2
  | plus _ => exact (by decide : (ascii '+').toNat ≤ 0x39)
  | minus _ _ => exact (by decide : (ascii '-').toNat ≤ 0x39)

theorem Numeral.eq_decimalValue (h : Numeral bytes n) (hne : bytes ≠ [])
    (hdigits : ∀ byte ∈ bytes, isDigit byte = true) : n = decimalValue bytes := by
  have hread := parseInt_eq_some.mpr ⟨h, le_max_left n (decimalValue bytes)⟩
  rw [parseInt_digits _ hne hdigits, if_pos (le_max_right _ _)] at hread
  exact (Option.some.inj hread).symm

theorem parseSigned_bounds {n : Int} (h : parseSigned largest bytes = some n) :
    -(largest + 1 : Int) ≤ n ∧ n ≤ largest := by
  cases bytes with
  | nil => cases h
  | cons sign rest =>
    rw [parseSigned] at h
    split_ifs at h
    all_goals
      obtain ⟨magnitude, hmagnitude, rfl⟩ := Option.map_eq_some_iff.mp h
      have hle := (parseMagnitude_eq_some.mp hmagnitude).2.2
    · exact ⟨by rw [Int.ofNat_eq_natCast]; omega, Int.ofNat_le.mpr hle⟩
    · constructor <;> omega
    · exact ⟨by rw [Int.ofNat_eq_natCast]; omega, Int.ofNat_le.mpr hle⟩

theorem parseSigned_digits (h : ∀ byte ∈ bytes, isDigit byte = true) :
    parseSigned largest bytes = (parseInt largest bytes).map Int.ofNat := by
  cases bytes with
  | nil => rfl
  | cons sign rest =>
    have hsign := grouped_plain (.inr (h sign List.mem_cons_self))
    rw [parseSigned, parseInt, if_neg hsign.1, if_neg hsign.2, if_neg hsign.1, if_neg hsign.2]

theorem parseInt_decimal (h : n ≤ largest) : parseInt largest (decimal n) = some n := by
  rw [parseInt_digits largest (decimal_ne_nil n) fun _ => isDigit_of_mem_decimal,
    decimalValue_decimal, if_pos h]

theorem parseSigned_decimal {largest n : Nat} (h : n ≤ largest) :
    parseSigned largest (decimal n) = some (n : Int) := by
  rw [parseSigned_digits fun _ => isDigit_of_mem_decimal, parseInt_decimal h]
  rfl

end Library
