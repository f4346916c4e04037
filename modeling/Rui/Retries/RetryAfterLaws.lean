import Rui.Retries.RetryAfter

/-!
# What a Retry-After field asks

A constraint says what its field says exactly for fields in plain seconds, and the policy
then keeps every provider floor that an `i64` holds.
-/

namespace Rui.Retries

open Library

theorem checked_eq_some {n m : Int} : checked n = some m ↔ FitsI64 n ∧ n = m := by
  rw [checked]
  by_cases h : FitsI64 n
  · rw [if_pos h, Option.some_inj]
    exact ⟨fun hm => ⟨h, hm⟩, fun hm => hm.2⟩
  · rw [if_neg h]
    exact ⟨fun hm => (by cases hm), fun hm => absurd hm.1 h⟩

/-! ## The policy -/

namespace Policy

/-- The moment before the jitter. -/
def floor (input : Input) (settled : Int) (wait : Nat) : Int :=
  max (input.retryAfterMs.elim (settled + wait) fun (delay : Nat) =>
    max (settled + wait) ((checked (settled + delay)).getD (settled + wait)))
    (input.retryAfterDeadlineMs.getD 0)

def jitter (wait random : Nat) : Nat := 1 + random % max 1 (wait / 4)

theorem jitter_bounds (wait random : Nat) :
    1 ≤ jitter wait random ∧ jitter wait random ≤ max 1 (wait / 4) := by
  have hlt := Nat.mod_lt random (show 0 < max 1 (wait / 4) by omega)
  rw [jitter]
  omega

/-- The provider's delay is one that an `i64` holds. -/
def Input.SmallDelay (input : Input) : Prop :=
  ∀ delay, input.retryAfterMs = some delay → (delay : Int) ≤ largestI64

variable {input : Input} {random : Nat} {settled : Int}

theorem smallDelay_iff : input.SmallDelay ↔
    ¬ (input.retryAfterMs.any fun (delay : Nat) =>
      Decidable.decide (largestI64 < delay)) = true := by
  rw [Option.any_eq_true]
  constructor
  · rintro hsmall ⟨delay, hsome, hlarge⟩
    exact Int.not_lt.mpr (hsmall delay hsome) (of_decide_eq_true hlarge)
  · intro hnone delay hsome
    by_contra hlarge
    exact hnone ⟨delay, hsome, decide_eq_true (Int.not_le.mp hlarge)⟩

variable {ordinal : Nat}

theorem decide_schedule (hordinal : 1 ≤ ordinal ∧ ordinal < maximumAttempts)
    (hwaits : ∀ i, ValidWait (input.waits i)) (hsmall : input.SmallDelay) :
    decide ordinal input settled random =
      if FitsI64 (settled + attemptWait input.waits ordinal) then
        .ok (.scheduleAt (saturatingAdd
          (floor input settled (attemptWait input.waits ordinal))
          (jitter (attemptWait input.waits ordinal) random : Nat)))
      else .error .overflow := by
  rw [decide, if_neg (by omega), if_neg (not_not_intro hwaits), if_neg (smallDelay_iff.mp hsmall),
    if_neg (by omega)]
  by_cases hfits : FitsI64 (settled + attemptWait input.waits ordinal)
  · have hbackoff : checked (settled + attemptWait input.waits ordinal) =
        some (settled + attemptWait input.waits ordinal) := checked_eq_some.mpr ⟨hfits, rfl⟩
    simp only [hbackoff, if_pos hfits]
    rfl
  · have hbackoff : checked (settled + attemptWait input.waits ordinal) = none :=
      if_neg hfits
    simp only [hbackoff, if_neg hfits]

theorem decide_last (hwaits : ∀ i, ValidWait (input.waits i)) (hsmall : input.SmallDelay) :
    decide maximumAttempts input settled random = .ok .exhausted := by
  rw [decide, if_neg (by decide), if_neg (not_not_intro hwaits),
    if_neg (smallDelay_iff.mp hsmall), if_pos rfl]

theorem decide_ordinal (h : ordinal = 0 ∨ maximumAttempts < ordinal) :
    decide ordinal input settled random = .error .invalidAttemptOrdinal := by
  rw [decide, if_pos h]

/-- The jitter ends within its bound, or at the largest time. -/
theorem saturatingAdd_bounds {moment : Int} {delta : Nat} (hlow : -2 ^ 63 ≤ moment)
    (hhigh : moment ≤ largestI64) (hdelta : 1 ≤ delta) :
    moment ≤ saturatingAdd moment delta ∧ saturatingAdd moment delta ≤ moment + delta ∧
      (moment < saturatingAdd moment delta ∨ saturatingAdd moment delta = largestI64) := by
  rw [saturatingAdd]
  omega

end Policy

/-! ## Constraints -/

variable {constraint : RetryAfter} {nowSeconds settled : Int} {value : List UInt8}
  {waits : Policy.Waits} {wait : Nat} {stamp : Stamp}

/-- The floor is the latest of the wait and the provider's moment. -/
theorem floor_eq_latest (h : 0 ≤ constraint.latest settled wait) :
    Policy.floor (constraint.input waits) settled wait = constraint.latest settled wait := by
  cases constraint with
  | delayMs delay =>
    rw [RetryAfter.latest, RetryAfter.due] at h ⊢
    cases hchecked : checked (settled + delay) with
    | none =>
      simp only [hchecked, Option.elim_none] at h ⊢
      simp only [Policy.floor, RetryAfter.input, Option.elim_some, hchecked, Option.getD_none]
      omega
    | some due =>
      simp only [hchecked, Option.elim_some] at h ⊢
      simp only [Policy.floor, RetryAfter.input, Option.elim_some, hchecked, Option.getD_some,
        Option.getD_none]
      omega
  | deadlineMs deadline => rfl

theorem latest_fits (hwait : FitsI64 (settled + wait))
    (hdeadline : ∀ deadline, constraint = .deadlineMs deadline → FitsI64 deadline) :
    FitsI64 (constraint.latest settled wait) ∧ settled + wait ≤ constraint.latest settled wait := by
  have hdue : ∀ due, constraint.due settled = some due → FitsI64 due := by
    intro due hdue
    cases constraint with
    | delayMs delay =>
      obtain ⟨hfits, rfl⟩ := checked_eq_some.mp hdue
      exact hfits
    | deadlineMs deadline =>
      cases hdue
      exact hdeadline _ rfl
  rw [RetryAfter.latest]
  cases hsome : constraint.due settled with
  | none => exact ⟨hwait, le_rfl⟩
  | some due =>
    have hfits := hdue due hsome
    rw [Option.elim_some]
    simp only [FitsI64] at hwait hfits ⊢
    omega

theorem smallDelay_input (h : ∀ delay, constraint = .delayMs delay → (delay : Int) ≤ largestI64) :
    (constraint.input waits).SmallDelay := by
  intro delay hdelay
  cases constraint with
  | delayMs delay' =>
    cases hdelay
    exact h _ rfl
  | deadlineMs deadline => cases hdelay

theorem input_waits (constraint : RetryAfter) (waits : Policy.Waits) :
    (constraint.input waits).waits = waits := by
  cases constraint <;> rfl

/-- **The policy keeps a provider's moment** that is not before 1970. -/
theorem settles_of_latest
    (hdelay : ∀ delay, constraint = .delayMs delay → (delay : Int) ≤ largestI64)
    (hdeadline : ∀ deadline, constraint = .deadlineMs deadline → FitsI64 deadline)
    (hlatest : ∀ (settled : Int) (wait : Nat), nowSeconds * 1000 ≤ settled → 0 < wait →
      0 ≤ constraint.latest settled wait) : constraint.Settles nowSeconds := by
  intro waits ordinal settled random hwaits hsettled _
  have hsmall : (constraint.input waits).SmallDelay := smallDelay_input hdelay
  have hvalid : ∀ i, Policy.ValidWait ((constraint.input waits).waits i) := by
    rwa [input_waits]
  rcases Nat.eq_zero_or_pos ordinal with hzero | hpos
  · rw [Policy.decide_ordinal (.inl hzero)]
    exact ⟨fun h => (by cases h), fun _ h => (by omega), fun due h => (by cases h)⟩
  rcases Nat.lt_trichotomy ordinal Policy.maximumAttempts with hlt | rfl | hgt
  swap
  · rw [Policy.decide_last hvalid hsmall]
    exact ⟨fun h => (by cases h), fun _ _ _ => ⟨_, rfl⟩, fun due h => (by cases h)⟩
  swap
  · rw [Policy.decide_ordinal (.inr hgt)]
    exact ⟨fun h => (by cases h), fun _ _ h => (by omega), fun due h => (by cases h)⟩
  rw [Policy.decide_schedule ⟨hpos, hlt⟩ hvalid hsmall, input_waits]
  have hwait : Policy.ValidWait (Policy.attemptWait waits ordinal) := hwaits _
  have hjitter := Policy.jitter_bounds (Policy.attemptWait waits ordinal) random
  by_cases hfits : FitsI64 (settled + Policy.attemptWait waits ordinal)
  · rw [if_pos hfits, floor_eq_latest (hlatest settled _ hsettled hwait.1)]
    obtain ⟨hlatestFits, hafter⟩ := latest_fits hfits hdeadline
    have hbounds := Policy.saturatingAdd_bounds hlatestFits.1 hlatestFits.2 hjitter.1
    refine ⟨fun h => (by cases h), fun _ _ _ => ⟨_, rfl⟩, fun due h => ?_⟩
    cases h
    have hpositive := hwait.1
    exact ⟨by omega, hbounds.1, by omega, hbounds.2.2⟩
  · rw [if_neg hfits]
    refine ⟨fun h => (by cases h), fun hnamed => ?_, fun due h => (by cases h)⟩
    rw [Policy.validateWaits] at hnamed
    split_ifs at hnamed with hall
    exact absurd (hall _).2 hfits

/-! ## The field -/

theorem parseRetryAfter_delay {delay : Nat} :
    parseRetryAfter value nowSeconds = some (.delayMs delay) ↔
      value.length ≤ maxRetryAfterBytes ∧ ∃ seconds, Numeral value seconds ∧
        (seconds : Int) * 1000 ≤ largestI64 ∧ FitsI64 (nowSeconds * 1000) ∧
        FitsI64 (nowSeconds * 1000 + seconds * 1000) ∧ delay = seconds * 1000 := by
  have hlargest : largestI64 < largestU64 := by decide
  rw [parseRetryAfter]
  by_cases hlength : value.length = 0 ∨ maxRetryAfterBytes < value.length
  · rw [if_pos hlength]
    refine ⟨fun h => (by cases h), fun h => ?_⟩
    obtain ⟨hle, seconds, hnumeral, -⟩ := h
    obtain rfl : value = [] := List.length_eq_zero_iff.mp (by omega)
    have hread := parseInt_eq_some.mpr ⟨hnumeral, le_refl seconds⟩
    cases hread
  rw [if_neg hlength]
  cases hread : parseInt largestU64 value with
  | none =>
    refine ⟨fun h => ?_, fun h => ?_⟩
    · obtain ⟨due, -, h⟩ := Option.bind_eq_some_iff.mp h
      obtain ⟨deadline, -, h⟩ := Option.bind_eq_some_iff.mp h
      cases h
    · obtain ⟨-, seconds, hnumeral, hsmall, -⟩ := h
      have hsome := parseInt_eq_some.mpr
        ⟨hnumeral, (show seconds ≤ largestU64 by omega)⟩
      rw [hread] at hsome
      cases hsome
  | some seconds =>
    obtain ⟨hnumeral, -⟩ := parseInt_eq_some.mp hread
    have hunique : ∀ n, Numeral value n → (n : Int) * 1000 ≤ largestI64 → n = seconds := by
      intro n hn hsmall
      have hsome := parseInt_eq_some.mpr ⟨hn, (show n ≤ largestU64 by omega)⟩
      rw [hread] at hsome
      exact (Option.some.inj hsome).symm
    simp only
    by_cases hu64 : largestU64 < seconds * 1000
    · rw [if_pos hu64]
      refine ⟨fun h => (by cases h), fun h => ?_⟩
      obtain ⟨-, n, hn, hsmall, -⟩ := h
      have := hunique n hn hsmall
      omega
    rw [if_neg hu64]
    by_cases hi64 : largestI64 < ((seconds * 1000 : Nat) : Int)
    · rw [if_pos hi64]
      refine ⟨fun h => (by cases h), fun h => ?_⟩
      obtain ⟨-, n, hn, hsmall, -⟩ := h
      have := hunique n hn hsmall
      omega
    rw [if_neg hi64]
    constructor
    · intro h
      obtain ⟨nowMs, hnow, h⟩ := Option.bind_eq_some_iff.mp h
      obtain ⟨due, hdue, h⟩ := Option.bind_eq_some_iff.mp h
      cases h
      obtain ⟨hnowFits, rfl⟩ := checked_eq_some.mp hnow
      obtain ⟨hdueFits, -⟩ := checked_eq_some.mp hdue
      push_cast at hdueFits hi64
      exact ⟨by omega, seconds, hnumeral, by omega, hnowFits, hdueFits, rfl⟩
    · rintro ⟨-, n, hn, hsmall, hnowFits, hdueFits, rfl⟩
      obtain rfl := hunique n hn hsmall
      have hnow := checked_eq_some.mpr ⟨hnowFits, rfl⟩
      have hdue : checked (nowSeconds * 1000 + (n * 1000 : Nat)) = some _ :=
        checked_eq_some.mpr ⟨by push_cast; exact hdueFits, rfl⟩
      simp only [hnow, hdue, Option.bind_eq_bind, Option.bind_some]

theorem parseRetryAfter_deadline {deadline : Int}
    (h : parseRetryAfter value nowSeconds = some (.deadlineMs deadline)) :
    ∃ dueSeconds, parseHttpDate value nowSeconds = some dueSeconds ∧
      deadline = dueSeconds * 1000 ∧ FitsI64 deadline := by
  rw [parseRetryAfter] at h
  by_cases hlength : value.length = 0 ∨ maxRetryAfterBytes < value.length
  · rw [if_pos hlength] at h
    cases h
  rw [if_neg hlength] at h
  cases hread : parseInt largestU64 value with
  | none =>
    rw [hread] at h
    obtain ⟨due, hdue, h⟩ := Option.bind_eq_some_iff.mp h
    obtain ⟨deadline', hdeadline, h⟩ := Option.bind_eq_some_iff.mp h
    cases h
    obtain ⟨hfits, rfl⟩ := checked_eq_some.mp hdeadline
    exact ⟨due, hdue, rfl, hfits⟩
  | some seconds =>
    rw [hread] at h
    simp only at h
    split_ifs at h
    obtain ⟨nowMs, -, h⟩ := Option.bind_eq_some_iff.mp h
    obtain ⟨due, -, h⟩ := Option.bind_eq_some_iff.mp h
    cases h

theorem dayNames_head : ∀ i < 7, 0x41 ≤ ((dayNames.getD i []).headD 0).toNat ∧
    0x41 ≤ ((longDayNames.getD i []).headD 0).toNat := by
  decide

theorem Stamp.Spells.head_ge {form : Form} (h : stamp.Spells form value) :
    0x41 ≤ (value.headD 0).toNat := by
  obtain ⟨hshort, hlong⟩ := dayNames_head _ (weekday_lt stamp.date.number)
  obtain ⟨a, b, c, hname⟩ := stamp.dayName_three
  have ha : 0x41 ≤ a.toNat := by
    rw [Stamp.dayName] at hname
    rw [hname] at hshort
    exact hshort
  cases form with
  | imfFixdate =>
    rw [h, Stamp.imfFixdate, hname]
    exact ha
  | rfc850 =>
    have hlength : 6 ≤ stamp.longDayName.length := (longDayName_index _ (weekday_lt _)).2.1
    rw [h, Stamp.rfc850Date_eq]
    rw [← Stamp.longDayName] at hlong
    cases hd : stamp.longDayName with
    | nil =>
      rw [hd] at hlength
      cases hlength
    | cons d rest =>
      rw [hd] at hlong
      exact hlong
  | asctime =>
    obtain ⟨day, -, rfl⟩ := h
    rw [Stamp.asctimeWith, hname]
    exact ha

theorem not_httpDate_of_numeral {n : Nat} (h : Numeral value n) : ¬ IsHttpDate value := by
  rintro ⟨stamp, form, -, -, hspells⟩
  have hle := h.head_le
  have hge := hspells.head_ge
  omega

theorem IsDeltaSeconds.numeral (h : IsDeltaSeconds value) : Numeral value (decimalValue value) := by
  have hread := parseInt_digits (decimalValue value) h.1 h.2
  rw [if_pos le_rfl] at hread
  exact (parseInt_eq_some.mp hread).1

/-- A date's moment is not before 1970. -/
theorem Stamp.seconds_nonneg (h : 1970 ≤ stamp.date.year) : 0 ≤ stamp.seconds := by
  have hfirst := firstDay_strictMono.monotone h
  have hbounds := stamp.date.number_bounds.1
  rw [firstDay_1970] at hfirst
  rw [Stamp.seconds]
  omega

/-- **The field says what it asks.** Every constraint is faithful to its field exactly where
the field is in plain seconds, if it is a number. -/
theorem retryAfter_faithful (value : List UInt8) (nowSeconds : Int) :
    (∀ constraint, parseRetryAfter value nowSeconds = some constraint →
      constraint.Faithful value nowSeconds) ↔ PlainSeconds value nowSeconds := by
  constructor
  · intro hfaithful hlength seconds hnumeral hsmall hnow hdue
    have hconstraint := hfaithful _ (parseRetryAfter_delay.mpr
      ⟨hlength, seconds, hnumeral, hsmall, hnow, hdue, rfl⟩)
    refine ⟨((hconstraint.delay _).mp rfl).1, ?_⟩
    -- Waits of a millisecond, settled at once: the schedule is after 1970.
    by_contra hbefore
    have hone : ∀ i, Policy.ValidWait ((fun _ => 1 : Policy.Waits) i) := by decide
    obtain ⟨-, -, hschedule⟩ := hconstraint.settles (fun _ => 1) 1 (nowSeconds * 1000) 0 hone
      le_rfl hnow
    have hsmallDelay : (RetryAfter.input (.delayMs (seconds * 1000)) fun _ => 1).SmallDelay := by
      refine smallDelay_input fun delay hdelay => ?_
      cases hdelay
      push_cast
      exact hsmall
    rw [Policy.decide_schedule ⟨le_rfl, by decide⟩ hone hsmallDelay] at hschedule
    have hfits : FitsI64 (nowSeconds * 1000 + Policy.attemptWait (fun _ => 1) 1) := by
      simp only [FitsI64, Policy.attemptWait, largestI64] at hnow ⊢
      omega
    have hchecked : checked (nowSeconds * 1000 + (seconds * 1000 : Nat)) =
        some (nowSeconds * 1000 + (seconds * 1000 : Nat)) :=
      checked_eq_some.mpr ⟨by push_cast; exact hdue, rfl⟩
    have hfloor : Policy.floor (RetryAfter.input (.delayMs (seconds * 1000)) fun _ => 1)
        (nowSeconds * 1000) 1 = 0 := by
      simp only [Policy.floor, RetryAfter.input, Option.elim_some, hchecked, Option.getD_some,
        Option.getD_none]
      push_cast
      omega
    have hlatest : RetryAfter.latest (.delayMs (seconds * 1000)) (nowSeconds * 1000) 1 ≤ -1 := by
      simp only [RetryAfter.latest, RetryAfter.due, hchecked, Option.elim_some]
      push_cast
      omega
    rw [input_waits, if_pos hfits] at hschedule
    obtain ⟨-, -, hhigh, -⟩ := hschedule _ rfl
    simp only [Policy.attemptWait] at hhigh
    rw [hfloor] at hhigh
    have hjitter : Policy.saturatingAdd 0 (Policy.jitter 1 0 : Nat) = 1 := by decide
    rw [hjitter] at hhigh
    have hquarter : ((max 1 (1 / 4) : Nat) : Int) = 1 := rfl
    omega
  · intro hplain constraint hparse
    cases constraint with
    | delayMs delay =>
      obtain ⟨hlength, seconds, hnumeral, hsmall, hnow, hdue, rfl⟩ := parseRetryAfter_delay.mp hparse
      obtain ⟨hdelta, hafter⟩ := hplain hlength seconds hnumeral hsmall hnow hdue
      have hseconds := hnumeral.eq_decimalValue hdelta.1 hdelta.2
      refine ⟨fun delay => ⟨?_, ?_⟩, ⟨?_, ?_⟩, ?_, ?_⟩
      · rintro ⟨⟩
        exact ⟨hdelta, by rw [hseconds]⟩
      · rintro ⟨-, rfl⟩
        rw [hseconds]
      · rintro ⟨deadline, hdeadline⟩
        cases hdeadline
      · exact fun hdate => absurd hdate (not_httpDate_of_numeral hnumeral)
      · exact fun deadline hdeadline => (by cases hdeadline)
      · refine settles_of_latest ?_ (fun deadline hdeadline => (by cases hdeadline)) ?_
        · rintro delay ⟨⟩
          push_cast
          exact hsmall
        · intro settled wait hsettled hwait
          rw [RetryAfter.latest, RetryAfter.due]
          cases hchecked : checked (settled + (seconds * 1000 : Nat)) with
          | none =>
            rw [Option.elim_none]
            rw [checked] at hchecked
            split_ifs at hchecked with hfits
            simp only [FitsI64] at hfits
            omega
          | some due =>
            obtain ⟨-, rfl⟩ := checked_eq_some.mp hchecked
            rw [Option.elim_some]
            omega
    | deadlineMs deadline =>
      obtain ⟨dueSeconds, hdate, rfl, hfits⟩ := parseRetryAfter_deadline hparse
      obtain ⟨stamp, form, hmin, hmax, rfl, hspells⟩ := spells_of_parseHttpDate hdate
      have hisDate : IsHttpDate value := ⟨stamp, form, by omega, hmax, hspells⟩
      refine ⟨fun delay => ⟨?_, ?_⟩, ⟨?_, ?_⟩, ?_, ?_⟩
      · rintro ⟨⟩
      · rintro ⟨hdelta, -⟩
        exact absurd hisDate (not_httpDate_of_numeral hdelta.numeral)
      · exact fun _ => hisDate
      · exact fun _ => ⟨_, rfl⟩
      · rintro deadline ⟨⟩
        exact ⟨stamp, form, hspells, rfl⟩
      · refine settles_of_latest (fun delay hdelay => (by cases hdelay)) ?_ ?_
        · rintro deadline ⟨⟩
          exact hfits
        · intro settled wait hsettled hwait
          have hnonneg := Stamp.seconds_nonneg hmin
          simp only [RetryAfter.latest, RetryAfter.due, Option.elim_some]
          omega

/-- A signed number is read as a delay. -/
theorem signed_delay : parseRetryAfter (text "+5") 0 = some (.delayMs 5000) ∧
    ¬ IsDeltaSeconds (text "+5") ∧
    ¬ ∀ constraint, parseRetryAfter (text "+5") 0 = some constraint →
      constraint.Faithful (text "+5") 0 := by
  have hread : parseRetryAfter (text "+5") 0 = some (.delayMs 5000) := by decide
  have hodd : ¬ IsDeltaSeconds (text "+5") := by
    rintro ⟨-, hdigits⟩
    have hplus := hdigits (ascii '+') (by decide)
    revert hplus
    decide
  exact ⟨hread, hodd, fun hall => hodd (((hall _ hread).delay _).mp rfl).1⟩

end Rui.Retries
