import Rui.SessionEnvironments.References

/-!
# Room for a new environment

`makeRoom` drops values until one more fits, each time the one the fewest
Sessions name and least recently used of those. It always ends with room, and
its counters are what the pass over the entries leaves.
-/

namespace Rui.SessionEnvironments
open Library

namespace Interned

/-- A value goes first: fewer Sessions name it, or as many and it was used no later. -/
def before (a b : Interned) : Prop := a.refs < b.refs ∨ a.refs = b.refs ∧ a.used ≤ b.used

theorem before_refl (a : Interned) : a.before a := .inr ⟨rfl, le_rfl⟩

theorem before.trans {a b c : Interned} (h : a.before b) (h' : b.before c) : a.before c := by
  unfold before at *
  omega

end Interned

namespace Table

variable {values : List (Option Interned)} {dropped : List Nat} {capacity : Nat}

/-- The values, without those dropped. -/
def without (dropped : List Nat) (values : List (Option Interned)) : List (Option Interned) :=
  values.mapIdx fun index value => if index ∈ dropped then none else value

theorem without_nil (values : List (Option Interned)) : without [] values = values := by
  apply List.ext_getElem?
  simp [without]

theorem without_cons (index : Nat) (dropped : List Nat) (values : List (Option Interned)) :
    without (index :: dropped) values = (without dropped values).set index none := by
  apply List.ext_getElem?
  intro i
  simp only [without, List.getElem?_mapIdx, List.getElem?_set, List.length_mapIdx, List.mem_cons]
  by_cases hi : index = i
  · subst hi
    by_cases hlt : index < values.length <;> simp [hlt]
  · simp [hi, Ne.symm hi]

variable {i : Nat} {held : Interned} {places : List Nat} {victim : Option (Nat × Interned)}

theorem without_getElem? (h : (without dropped values)[i]? = some (some held)) :
    i ∉ dropped ∧ (values[i]?).join = some held := by
  simp only [without, List.getElem?_mapIdx, Option.map_eq_some_iff] at h
  obtain ⟨value, hvalue, hheld⟩ := h
  split at hheld
  case isTrue => cases hheld
  case isFalse hnot => exact ⟨hnot, by rw [hvalue, hheld]; rfl⟩

theorem getElem?_without (hnot : i ∉ dropped) (h : (values[i]?).join = some held) :
    (without dropped values)[i]? = some (some held) := by
  rw [Option.join_eq_some_iff] at h
  simp [without, List.getElem?_mapIdx, h, hnot]

/-! ## The value to drop -/

/-- What the search has found among some places. -/
def Least (values : List (Option Interned)) (dropped places : List Nat) :
    Option (Nat × Interned) → Prop
  | none => ∀ i ∈ places, i ∉ dropped → (values[i]?).join = none
  | some found => found.1 ∉ dropped ∧ (values[found.1]?).join = some found.2 ∧
      ∀ i ∈ places, i ∉ dropped → ∀ held, (values[i]?).join = some held → found.2.before held

theorem Least.pick {index : Nat} (h : Least values dropped places victim) :
    Least values dropped (places ++ [index]) (Table.pick values dropped victim index) := by
  unfold Table.pick
  cases hvalue : (values[index]?).join with
  | none =>
    cases victim with
    | none =>
      intro i hi hnot
      rcases List.mem_append.mp hi with hi | hi
      · exact h i hi hnot
      · rw [List.mem_singleton.mp hi, hvalue]
    | some found =>
      refine ⟨h.1, h.2.1, fun i hi hnot held hheld => ?_⟩
      rcases List.mem_append.mp hi with hi | hi
      · exact h.2.2 i hi hnot held hheld
      · rw [List.mem_singleton.mp hi, hvalue] at hheld
        cases hheld
  | some held =>
    by_cases hdropped : index ∈ dropped
    · simp only [if_pos hdropped]
      have hsame : ∀ i ∈ places ++ [index], i ∉ dropped → i ∈ places := fun i hi hnot => by
        rcases List.mem_append.mp hi with hi | hi
        · exact hi
        · exact absurd (List.mem_singleton.mp hi ▸ hdropped) hnot
      cases victim with
      | none => exact fun i hi hnot => h i (hsame i hi hnot) hnot
      | some found => exact ⟨h.1, h.2.1, fun i hi hnot => h.2.2 i (hsame i hi hnot) hnot⟩
    · simp only [if_neg hdropped]
      cases victim with
      | none =>
        refine ⟨hdropped, hvalue, fun i hi hnot other hother => ?_⟩
        rcases List.mem_append.mp hi with hi | hi
        · rw [h i hi hnot] at hother
          cases hother
        · rw [List.mem_singleton.mp hi, hvalue] at hother
          exact Option.some.inj hother ▸ held.before_refl
      | some best =>
        obtain ⟨hbest, hbestValue, hleast⟩ := h
        by_cases hlater : held.refs > best.2.refs ∨ held.refs = best.2.refs ∧ held.used ≥ best.2.used
        · simp only [if_pos hlater]
          refine ⟨hbest, hbestValue, fun i hi hnot other hother => ?_⟩
          rcases List.mem_append.mp hi with hi | hi
          · exact hleast i hi hnot other hother
          · rw [List.mem_singleton.mp hi, hvalue] at hother
            rw [← Option.some.inj hother]
            unfold Interned.before
            omega
        · simp only [if_neg hlater]
          have hfirst : held.before best.2 := by
            unfold Interned.before
            omega
          refine ⟨hdropped, hvalue, fun i hi hnot other hother => ?_⟩
          rcases List.mem_append.mp hi with hi | hi
          · exact hfirst.trans (hleast i hi hnot other hother)
          · rw [List.mem_singleton.mp hi, hvalue] at hother
            exact Option.some.inj hother ▸ held.before_refl

theorem Least.foldl (rest : List Nat) (h : Least values dropped places victim) :
    Least values dropped (places ++ rest) (rest.foldl (Table.pick values dropped) victim) := by
  induction rest generalizing places victim with
  | nil => simpa using h
  | cons index rest ih => simpa using ih h.pick

theorem least_leastNamed (values : List (Option Interned)) (dropped : List Nat) :
    Least values dropped (List.range values.length) (leastNamed values dropped) := by
  have hstart : Least values dropped [] none := fun i hi => (by cases hi)
  exact hstart.foldl _

/-! ## The values dropped -/

/-- Without those dropped there is still no room. -/
def NoRoom (values : List (Option Interned)) (capacity : Nat) (dropped : List Nat) : Prop :=
  tally one (without dropped values) = maxValues ∨
    tally weight (without dropped values) + capacity > maxValueBytes

/-- The values dropped, last first: each while there was no room, and the first
of those left. -/
inductive Chosen (values : List (Option Interned)) (capacity : Nat) : List Nat → Prop
  | nil : Chosen values capacity []
  | cons {index : Nat} {dropped : List Nat} {held : Interned} (rest : Chosen values capacity dropped)
    (needed : NoRoom values capacity dropped) (fresh : index ∉ dropped)
    (value : (values[index]?).join = some held)
    (least : ∀ i, i ∉ dropped → ∀ other, (values[i]?).join = some other → held.before other) :
    Chosen values capacity (index :: dropped)

/-- **Only values that go first are dropped.** -/
theorem Chosen.before (h : Chosen values capacity dropped) {j : Nat} {other : Interned}
    (hi : i ∈ dropped) (hj : j ∉ dropped) (hheld : (values[i]?).join = some held)
    (hother : (values[j]?).join = some other) : held.before other := by
  induction h with
  | nil => cases hi
  | cons _ _ _ hvalue hleast ih =>
    have hnot : j ∉ _ := fun hin => hj (List.mem_cons_of_mem _ hin)
    rcases List.mem_cons.mp hi with rfl | hi
    · rw [hvalue] at hheld
      exact Option.some.inj hheld ▸ hleast j hnot other hother
    · exact ih hi hnot

theorem choose_spec (hcapacity : capacity ≤ maxEnvironmentBytes) (count : Nat) :
    ∀ (bytes : Nat) (dropped : List Nat), Chosen values capacity dropped →
      count = tally one (without dropped values) → bytes = tally weight (without dropped values) →
      ∃ r, choose values capacity count bytes dropped = some r ∧ Chosen values capacity r.1 ∧
        r.2.1 = tally one (without r.1 values) ∧ r.2.2 = tally weight (without r.1 values) ∧
        ¬ NoRoom values capacity r.1 := by
  induction count with
  | zero =>
    intro bytes dropped hchosen hcount hbytes
    have hempty : tally weight (without dropped values) = 0 := by
      refine tally_eq_zero.mpr fun value hvalue => ?_
      cases value with
      | none => rfl
      | some held => exact absurd (tally_eq_zero.mp hcount.symm _ hvalue) (by simp)
    have hroom : ¬ (0 = maxValues ∨ bytes + capacity > maxValueBytes) := by
      rw [hbytes, hempty]
      simp only [maxValues, maxValueBytes, maxEnvironmentBytes] at *
      omega
    refine ⟨(dropped, 0, bytes), by rw [choose, if_neg hroom], hchosen, hcount, hbytes, ?_⟩
    rwa [NoRoom, ← hcount, ← hbytes]
  | succ count ih =>
    intro bytes dropped hchosen hcount hbytes
    rw [choose]
    split
    case isFalse hroom =>
      refine ⟨_, rfl, hchosen, hcount, hbytes, ?_⟩
      rwa [NoRoom, ← hcount, ← hbytes]
    case isTrue hnoRoom =>
      rw [hcount, hbytes] at hnoRoom
      have hleast := least_leastNamed values dropped
      cases hvictim : leastNamed values dropped with
      | none =>
        rw [hvictim] at hleast
        have hzero : tally one (without dropped values) = 0 := by
          refine tally_eq_zero.mpr fun value hvalue => ?_
          cases value with
          | none => rfl
          | some held =>
            obtain ⟨i, hi⟩ := List.getElem?_of_mem hvalue
            obtain ⟨hnot, hjoin⟩ := without_getElem? hi
            have hlt : i < values.length := by
              by_contra hle
              rw [List.getElem?_eq_none (by omega)] at hjoin
              cases hjoin
            rw [hleast i (List.mem_range.mpr hlt) hnot] at hjoin
            cases hjoin
        omega
      | some victim =>
        rw [hvictim] at hleast
        obtain ⟨hfresh, hvalue, hfirst⟩ := hleast
        have hplace := getElem?_without hfresh hvalue
        have hones := tally_set (f := one) none hplace
        have hweights := tally_set (f := weight) none hplace
        rw [one_some, one_none] at hones
        rw [weight_some, weight_none] at hweights
        have hall : ∀ i, i ∉ dropped → ∀ other, (values[i]?).join = some other →
            victim.2.before other := fun i hnot other hother => by
          refine hfirst i (List.mem_range.mpr ?_) hnot other hother
          by_contra hle
          rw [List.getElem?_eq_none (by omega)] at hother
          cases hother
        rw [Option.bind_some, if_neg (by omega)]
        refine ih _ _ (hchosen.cons hnoRoom hfresh hvalue hall) ?_ ?_
        · rw [without_cons]
          omega
        · rw [without_cons]
          omega

/-! ## The pass over the entries -/

variable {t : Table} {extra : Nat → Nat}

/-- An entry that goes with the values dropped. -/
def Entry.goes (dropped : List Nat) (e : Entry) : Bool := !e.unused && dropped.contains e.value

theorem sweep_spec (dropped places : List Nat) (p : Offer) (h : t.Counted extra) :
    ∃ r, sweep dropped places t p = some r ∧ r.1.Counted extra ∧ t.Gives p r.1 r.2 ∧
      (∀ i, r.1.entry i = if i ∈ places ∧ Entry.goes dropped (t.entry i) then .zero else t.entry i) ∧
      ∀ index, index ∉ dropped → r.1.value index = t.value index := by
  induction places generalizing t p with
  | nil => exact ⟨(t, p), rfl, h, .refl t p, by simp, fun _ _ => rfl⟩
  | cons place places ih =>
    by_cases hgoes : (t.entry place).unused ∨ (t.entry place).value ∉ dropped
    · obtain ⟨r, hr, hcounted, hgives, hentries, hvalues⟩ := ih p h
      refine ⟨r, by rw [sweep, if_pos hgoes, hr], hcounted, hgives, fun i => ?_, hvalues⟩
      rw [hentries i]
      by_cases hi : i = place
      · have hstays : Entry.goes dropped (t.entry place) = false := by
          rcases hgoes with hunused | hnot <;> simp [Entry.goes, *]
        simp [hi, hstays]
      · simp [hi]
    · simp only [not_or, Bool.not_eq_true, not_not] at hgoes
      obtain ⟨hused, hin⟩ := hgoes
      obtain ⟨mid, hrelease, hsame, hdropped, hgives, hframe⟩ := h.drop (p := p) hused
      obtain ⟨r, hr, hcounted, hrest, hentries, hvalues⟩ := ih mid.2 hdropped
      refine ⟨r, ?_, hcounted, hgives.trans hrest, fun i => ?_, fun index hnot => ?_⟩
      · rw [sweep, if_neg (by simp [hused, hin]), hrelease, Option.bind_some, hr]
      · have hplace : place < mid.1.entries.length := by
          rw [hsame]
          exact lt_of_used hused
        have hentry : mid.1.entry i = t.entry i := by rw [entry, entry, hsame]
        rw [hentries i, entry_setEntry _ hplace]
        by_cases hi : i = place
        · subst hi
          simp [Entry.goes, hused, hin]
        · simp [hi, Ne.symm hi, hentry]
      · rw [hvalues index hnot]
        exact hframe index fun heq => hnot (heq ▸ hin)

/-- **`makeRoom` ends with room**, its assertion holds, and only the Sessions
that name a dropped value lose their entry. -/
theorem makeRoom_spec (p : Offer) (h : t.Counted fun _ => 0)
    (hcapacity : capacity ≤ maxEnvironmentBytes) :
    ∃ r dropped, t.makeRoom capacity p = some r ∧ Chosen t.values capacity dropped ∧
      r.1.Counted (fun _ => 0) ∧ t.Gives p r.1 r.2 ∧
      (∀ i, r.1.entry i = if Entry.goes dropped (t.entry i) then .zero else t.entry i) ∧
      r.1.valueCount < maxValues ∧ r.1.valueBytes + capacity ≤ maxValueBytes := by
  obtain ⟨chosen, hchoose, hchosen, hcount, hbytes, hroom⟩ := choose_spec hcapacity t.valueCount
    t.valueBytes [] .nil (by rw [without_nil, h.count]) (by rw [without_nil, h.bytes])
  have hle : tally one (without chosen.1 t.values) ≤ maxValues := by
    rw [← h.slots, show t.values.length = (without chosen.1 t.values).length by simp [without]]
    refine tally_le_length fun value _ => ?_
    cases value <;> simp
  simp only [NoRoom, not_or] at hroom
  unfold makeRoom
  rw [hchoose, Option.bind_some]
  by_cases hnone : chosen.1 = []
  · rw [hnone, without_nil] at hcount hbytes hle hroom
    refine ⟨(t, p), [], if_pos hnone, .nil, h, .refl t p, by simp [Entry.goes], ?_, ?_⟩
    · rw [h.count]
      omega
    · rw [h.bytes]
      omega
  · obtain ⟨r, hr, hcounted, hgives, hentries, hvalues⟩ :=
      sweep_spec chosen.1 (List.range t.entries.length) p h
    have hall : ∀ i, r.1.entry i =
        if Entry.goes chosen.1 (t.entry i) then .zero else t.entry i := fun i => by
      rw [hentries i]
      by_cases hi : i < t.entries.length
      · simp [hi]
      · simp [hi, entry_of_le (Nat.le_of_not_lt hi), Entry.goes]
    have hleft : r.1.values = without chosen.1 t.values := by
      apply List.ext_getElem?
      intro i
      have hlength : r.1.values.length = t.values.length := by rw [hcounted.slots, h.slots]
      by_cases hi : i < t.values.length
      · have hjoin : ∀ l : List (Option Interned), i < l.length → l[i]? = some ((l[i]?).join) :=
          fun l hl => by simp [hl]
        rw [hjoin r.1.values (by omega), without, List.getElem?_mapIdx, hjoin t.values hi]
        simp only [Option.map_some, Option.some.injEq]
        by_cases hin : i ∈ chosen.1
        · rw [if_pos hin]
          change r.1.value i = none
          by_contra hheld
          obtain ⟨held, hheld⟩ := Option.ne_none_iff_exists'.mp hheld
          have hpos := hcounted.positive i held hheld
          rw [hcounted.refs i held hheld, named, Nat.add_zero] at hpos
          obtain ⟨e, he, hnames⟩ : ∃ e ∈ r.1.entries, e.names i ≠ 0 := by
            by_contra hno
            push Not at hno
            rw [tally_eq_zero.mpr hno] at hpos
            omega
          obtain ⟨place, hplace⟩ := List.getElem?_of_mem he
          have hentry : r.1.entry place = e := by
            rw [entry, List.getD_eq_getElem?_getD, hplace]
            rfl
          rw [← hentry, hall place] at hnames
          split at hnames
          case isTrue => simp at hnames
          case isFalse hstays =>
            rw [Ne, Entry.names_eq_zero] at hnames
            simp only [not_or, Bool.not_eq_true, not_not] at hnames
            simp [Entry.goes, hnames.1, hnames.2, hin] at hstays
        · rw [if_neg hin]
          exact hvalues i hin
      · rw [List.getElem?_eq_none (by omega), List.getElem?_eq_none (by simp [without]; omega)]
    have hassert : r.1.valueCount = chosen.2.1 ∧ r.1.valueBytes = chosen.2.2 := by
      rw [hcounted.count, hcounted.bytes, hleft, hcount, hbytes]
      exact ⟨rfl, rfl⟩
    refine ⟨r, chosen.1, ?_, hchosen, hcounted, hgives, hall, ?_, ?_⟩
    · rw [if_neg hnone, hr, Option.bind_some, if_pos hassert]
    · rw [hassert.1]
      omega
    · rw [hassert.2]
      omega

end Table

end Rui.SessionEnvironments
