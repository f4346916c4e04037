import Rui.ChildEnvironments.Received

/-!
# What an environment is

A value is a sequence of entries. `received` accepts just these, without a repeat among the names
it keeps.
-/

namespace Rui.ChildEnvironments

open Library

/-- An entry `NAME=VALUE`. -/
structure Entry where
  name : List UInt8
  value : List UInt8
  named : name ≠ []
  plainName : equals ∉ name
  nameEnds : nul ∉ name
  valueEnds : nul ∉ value

namespace Entry

variable (e : Entry)

def text : List UInt8 := e.name ++ equals :: e.value

def bytes : List UInt8 := e.text ++ [nul]

/-- Not of Rui's own names. -/
def kept : Bool := !startsWith e.name ruiPrefix

theorem nul_not_mem_text : nul ∉ e.text := by
  rw [text, List.mem_append, List.mem_cons, not_or, not_or]
  exact ⟨e.nameEnds, by decide, e.valueEnds⟩

theorem forwards_eq : forwards e.name e.value = e.kept := by
  have hnamed : e.name.length ≠ 0 := fun h => e.named (List.length_eq_zero_iff.mp h)
  simp [forwards, kept, e.plainName, e.nameEnds, e.valueEnds, hnamed]

theorem length_bytes : e.bytes.length = entryBytes e.name e.value := by
  simp only [bytes, text, entryBytes, List.length_append, List.length_cons, List.length_nil]
  omega

end Entry

/-- The bytes of a sequence of entries. -/
def written (entries : List Entry) : List UInt8 := entries.flatMap Entry.bytes

theorem written_cons (e : Entry) (entries : List Entry) :
    written (e :: entries) = e.text ++ nul :: written entries := by
  rw [written, List.flatMap_cons, Entry.bytes, List.append_assoc]
  rfl

theorem written_append (left right : List Entry) :
    written (left ++ right) = written left ++ written right := List.flatMap_append

/-- The first NUL ends the first entry. -/
theorem cut_unique {front front' rest rest' : List UInt8} (h : nul ∉ front) (h' : nul ∉ front')
    (heq : front ++ nul :: rest = front' ++ nul :: rest') : front = front' ∧ rest = rest' := by
  have hcut := congrArg (indexOf [nul]) heq
  rw [indexOf_single h, indexOf_single h'] at hcut
  obtain ⟨hfront, hrest⟩ := List.append_inj heq (Option.some.inj hcut)
  exact ⟨hfront, (List.cons.inj hrest).2⟩

/-- The first `=` ends the name. -/
theorem Entry.text_injective {e e' : Entry} (h : e.text = e'.text) : e = e' := by
  have hcut := congrArg (indexOf [equals]) h
  rw [text, text, indexOf_single e.plainName, indexOf_single e'.plainName] at hcut
  obtain ⟨hname, hvalue⟩ := List.append_inj h (Option.some.inj hcut)
  cases e
  cases e'
  cases hname
  cases (List.cons.inj hvalue).2
  rfl

/-- **A value is one sequence of entries.** -/
theorem written_injective {entries entries' : List Entry} (h : written entries = written entries') :
    entries = entries' := by
  induction entries generalizing entries' with
  | nil =>
    cases entries' with
    | nil => rfl
    | cons e entries' => simp [written, Entry.bytes] at h
  | cons e entries ih =>
    cases entries' with
    | nil => simp [written, Entry.bytes] at h
    | cons e' entries' =>
      rw [written_cons, written_cons] at h
      obtain ⟨htext, hrest⟩ := cut_unique e.nul_not_mem_text e'.nul_not_mem_text h
      rw [Entry.text_injective htext, ih hrest]

theorem getLast_written (entries : List Entry) :
    written entries = [] ∨ (written entries).getLast? = some nul := by
  rcases List.eq_nil_or_concat entries with rfl | ⟨init, last, rfl⟩
  · exact .inl rfl
  · refine .inr ?_
    have hlast : written [last] = last.text ++ [nul] := by rw [written_cons]; rfl
    rw [List.concat_eq_append, written_append, hlast, ← List.append_assoc, List.getLast?_concat]

/-! ## The buffer -/

section Copy

variable {bytes source : List UInt8} {place : Nat}

theorem take_copyForwards (hplace : place ≤ bytes.length) :
    (copyForwards bytes place source).take (place + source.length) =
      bytes.take place ++ source := by
  have hlength : (bytes.take place ++ source).length = place + source.length := by
    rw [List.length_append, List.length_take, Nat.min_eq_left hplace]
  rw [copyForwards, ← hlength, List.take_left']
  rfl

theorem drop_copyForwards (hplace : place ≤ bytes.length) {n : Nat}
    (hn : place + source.length ≤ n) :
    (copyForwards bytes place source).drop n = bytes.drop n := by
  have hlength : (bytes.take place ++ source).length = place + source.length := by
    rw [List.length_append, List.length_take, Nat.min_eq_left hplace]
  rw [copyForwards, List.drop_append, List.drop_eq_nil_of_le (by omega), List.nil_append,
    List.drop_drop, hlength]
  congr 1
  omega

end Copy

/-- The buffer holds the entries kept so far, and still the rest as it came. -/
structure Scan.Stands (scan : Scan) (done : List Entry) (rest : List UInt8) : Prop where
  kept : scan.kept = (written done).length
  filled : scan.bytes.take scan.kept = written done
  count : scan.count = done.length
  rest : scan.bytes.drop scan.start = rest
  behind : scan.kept ≤ scan.start
  within : scan.start ≤ scan.bytes.length

namespace Scan

variable {self : Scan} {done : List Entry} {rest : List UInt8}

theorem Stands.start_lt (h : self.Stands done rest) : self.start < self.bytes.length ↔ rest ≠ [] := by
  rw [← h.rest, ne_eq, List.drop_eq_nil_iff]
  exact Nat.not_le.symm

/-- **One entry**: it is kept, or passed over. -/
theorem Stands.take_entry {e : Entry} (h : self.Stands done (e.text ++ nul :: rest)) :
    ∃ next, self.take = .ok next ∧
      next.Stands (done ++ if e.kept then [e] else []) rest := by
  have hstop := indexOfPos_single h.rest e.nul_not_mem_text
  have hentry : slice self.bytes self.start (self.start + e.text.length) = e.text := by
    rw [slice, h.rest, Nat.add_sub_cancel_left, List.take_left' rfl]
  have hwhole : slice self.bytes self.start (self.start + e.text.length + 1) = e.bytes := by
    rw [slice, h.rest, Nat.add_assoc, Nat.add_sub_cancel_left, Entry.bytes,
      ← List.singleton_append, ← List.append_assoc, List.take_left' (by simp)]
  have hcut : indexOf [equals] e.text = some e.name.length := indexOf_single e.plainName
  obtain ⟨n, hn⟩ : ∃ n, e.name.length = n + 1 :=
    Nat.exists_eq_succ_of_ne_zero fun hzero => e.named (List.length_eq_zero_iff.mp hzero)
  have hname : e.text.take (n + 1) = e.name := by
    rw [Entry.text, ← hn, List.take_left' rfl]
  have hvalue : e.text.drop (n + 1 + 1) = e.value := by
    rw [Entry.text, ← hn, ← List.drop_drop, List.drop_left' rfl]
    rfl
  have hrest : self.bytes.drop (self.start + e.text.length + 1) = rest := by
    rw [Nat.add_assoc, ← List.drop_drop, h.rest, ← List.drop_drop, List.drop_left' rfl]
    rfl
  have hlength := congrArg List.length h.rest
  simp only [List.length_drop, List.length_append, List.length_cons] at hlength
  unfold take
  simp only [hstop, hentry, hcut, hn, hname, hvalue, hwhole, e.forwards_eq]
  have hkept : self.kept ≤ self.bytes.length := h.behind.trans h.within
  have hbytes : e.bytes.length = e.text.length + 1 := by simp [Entry.bytes]
  cases he : e.kept with
  | false =>
    refine ⟨_, rfl, ?_⟩
    exact {
      kept := by simpa using h.kept
      filled := by simpa using h.filled
      count := by simpa using h.count
      rest := hrest
      behind := by
        have := h.behind
        simp only
        omega
      within := by
        have := h.within
        simp only
        omega }
  | true =>
    refine ⟨_, rfl, ?_⟩
    have hwritten : written (done ++ [e]) = written done ++ e.bytes := by
      rw [written_append, written, written, List.flatMap_singleton]
    exact {
      kept := by
        simp only [if_true, hwritten, List.length_append, e.length_bytes]
        rw [h.kept]
      filled := by
        simp only [if_true, hwritten, ← e.length_bytes, take_copyForwards hkept, h.filled]
      count := by simp [h.count]
      rest := by
        have hbehind := h.behind
        simp only
        rw [drop_copyForwards hkept (by omega), hrest]
      behind := by
        have hbehind := h.behind
        simp only [← e.length_bytes]
        omega
      within := by
        have hwithin := h.within
        have hbehind := h.behind
        simp only [copyForwards, List.length_append, List.length_take, List.length_drop]
        omega }

theorem Stands.take_invalid {front : List UInt8} (h : self.Stands done (front ++ nul :: rest))
    (hfront : nul ∉ front) (hbad : ∀ e : Entry, e.text ≠ front) :
    self.take = .error .invalidEnvironment := by
  have hstop := indexOfPos_single h.rest hfront
  have hentry : slice self.bytes self.start (self.start + front.length) = front := by
    rw [slice, h.rest, Nat.add_sub_cancel_left, List.take_left' rfl]
  unfold take
  simp only [hstop, hentry]
  by_cases hequals : equals ∈ front
  · obtain ⟨name, value, rfl, hname⟩ := List.eq_append_cons_of_mem hequals
    rw [indexOf_single hname]
    cases name with
    | nil => rfl
    | cons first name =>
      exact absurd rfl (hbad ⟨first :: name, value, List.cons_ne_nil _ _, hname,
        fun hmem => hfront (List.mem_append_left _ hmem),
        fun hmem => hfront (List.mem_append_right _ (List.mem_cons_of_mem _ hmem))⟩)
  · rw [indexOf_single_none hequals]

/-- **The loop reads entries**, or finds what is none. -/
theorem Stands.run (fuel : Nat) (h : self.Stands done rest) (hfuel : rest.length ≤ fuel)
    (hend : rest = [] ∨ rest.getLast? = some nul) :
    (∃ entries final, rest = written entries ∧ run fuel self = .ok final ∧
      final.Stands (done ++ entries.filter Entry.kept) []) ∨
    (run fuel self = .error .invalidEnvironment ∧ ∀ entries, rest ≠ written entries) := by
  induction fuel generalizing self done rest with
  | zero =>
    obtain rfl := List.length_eq_zero_iff.mp (Nat.le_zero.mp hfuel)
    refine .inl ⟨[], self, rfl, if_neg fun hlt => h.start_lt.mp hlt rfl, ?_⟩
    simpa using h
  | succ fuel ih =>
    by_cases hempty : rest = []
    · subst hempty
      refine .inl ⟨[], self, rfl, if_neg fun hlt => h.start_lt.mp hlt rfl, ?_⟩
      simpa using h
    · have hlast := hend.resolve_left hempty
      have hmem : nul ∈ rest := List.mem_of_getLast? hlast
      obtain ⟨front, more, rfl, hfront⟩ := List.eq_append_cons_of_mem hmem
      have hrun : Scan.run (fuel + 1) self = self.take >>= Scan.run fuel :=
        if_pos (h.start_lt.mpr hempty)
      by_cases hentry : ∃ e : Entry, e.text = front
      · obtain ⟨e, rfl⟩ := hentry
        obtain ⟨next, hnext, hstands⟩ := h.take_entry
        have hmore : more = [] ∨ more.getLast? = some nul := by
          rcases List.eq_nil_or_concat more with rfl | ⟨init, last, rfl⟩
          · exact .inl rfl
          · refine .inr ?_
            rw [List.concat_eq_append, ← List.cons_append, ← List.append_assoc,
              List.getLast?_concat] at hlast
            rw [List.concat_eq_append, List.getLast?_concat, hlast]
        have hshort : more.length ≤ fuel := by
          simp only [List.length_append, List.length_cons] at hfuel
          omega
        rw [hrun, hnext, ok_bind]
        rcases ih hstands hshort hmore with ⟨entries, final, rfl, hfinal, hlater⟩ | ⟨herror, hnone⟩
        · refine .inl ⟨e :: entries, final, (written_cons e entries).symm, hfinal, ?_⟩
          have hfilter : (e :: entries).filter Entry.kept =
              (if e.kept then [e] else []) ++ entries.filter Entry.kept := by
            rw [List.filter_cons]
            split <;> rfl
          rw [hfilter, ← List.append_assoc]
          exact hlater
        · refine .inr ⟨herror, fun entries heq => ?_⟩
          cases entries with
          | nil => simp [written] at heq
          | cons first entries =>
            rw [written_cons] at heq
            exact hnone entries (cut_unique e.nul_not_mem_text first.nul_not_mem_text heq).2
      · rw [not_exists] at hentry
        rw [hrun, h.take_invalid hfront hentry]
        refine .inr ⟨rfl, fun entries heq => ?_⟩
        cases entries with
        | nil => simp [written] at heq
        | cons first entries =>
          rw [written_cons] at heq
          exact hentry first (cut_unique hfront first.nul_not_mem_text heq).1.symm

end Scan

/-! ## The names -/

/-- The names are read back where the entries start. -/
theorem names_written (entries : List Entry) (front : List UInt8) :
    (starts (front ++ written entries) entries.length front.length >>=
      fun places => places.mapM (entryName (front ++ written entries))) =
        .ok (entries.map Entry.name) := by
  induction entries generalizing front with
  | nil => rfl
  | cons e entries ih =>
    have hdrop : (front ++ written (e :: entries)).drop front.length =
        e.text ++ nul :: written entries := by
      rw [List.drop_left' rfl, written_cons]
    have hname : (front ++ written (e :: entries)).drop front.length =
        e.name ++ equals :: (e.value ++ nul :: written entries) := by
      rw [hdrop, Entry.text, List.append_assoc]
      rfl
    have hread : entryName (front ++ written (e :: entries)) front.length = .ok e.name := by
      unfold entryName
      rw [indexOfPos_single hname e.plainName]
      simp only [slice, hname, Nat.add_sub_cancel_left, List.take_left' rfl]
    have hwhole : front ++ written (e :: entries) = (front ++ e.bytes) ++ written entries := by
      rw [written_cons, Entry.bytes]
      simp
    have hnext : front.length + e.text.length + 1 = (front ++ e.bytes).length := by
      simp [Entry.bytes, Nat.add_assoc]
    have hrest := ih (front ++ e.bytes)
    rw [← hwhole, ← hnext] at hrest
    obtain ⟨places, hplaces, hnames⟩ := bind_eq_ok.mp hrest
    rw [List.length_cons, starts, indexOfPos_single hdrop e.nul_not_mem_text]
    simp only [hplaces, Except.map, ok_bind, List.mapM_cons, hread, hnames]
    rfl

theorem rank_injective : Function.Injective rank :=
  List.map_injective_iff.mpr fun _ _ h => UInt8.toNat_inj.mp h

theorem sortedNames_written (entries : List Entry) :
    sortedNames (written entries) entries.length =
      .ok ((entries.map Entry.name).insertionSort fun a b => rank a ≤ rank b) := by
  have hnames := names_written entries []
  rw [List.nil_append] at hnames
  obtain ⟨places, hplaces, hread⟩ := bind_eq_ok.mp hnames
  rw [List.length_nil] at hplaces
  rw [sortedNames, hplaces, ok_bind, hread, ok_bind]
  rfl

/-- **A sequence of entries** is accepted without the ones of Rui's own names, unless one of the
others is there twice. -/
theorem received_written (entries : List Entry) : received (written entries) =
    if ((entries.filter Entry.kept).map Entry.name).Nodup then
      .ok (written (entries.filter Entry.kept))
    else .error .invalidEnvironment := by
  have hends : ¬ ((written entries).length ≠ 0 ∧ (written entries).getLast? ≠ some nul) := by
    rintro ⟨hlength, hno⟩
    rcases getLast_written entries with hnil | hlast
    · exact hlength (List.length_eq_zero_iff.mpr hnil)
    · exact hno hlast
  have hstands : Scan.Stands { bytes := written entries } [] (written entries) :=
    ⟨rfl, rfl, rfl, rfl, Nat.le_refl _, Nat.zero_le _⟩
  rcases hstands.run _ (Nat.le_refl _) (getLast_written entries) with
    ⟨entries', final, hsame, hfinal, hdone⟩ | ⟨_, hnone⟩
  · obtain rfl := written_injective hsame
    rw [List.nil_append] at hdone
    rw [received, if_neg hends]
    simp only [hfinal, ok_bind, hdone.filled, hdone.count, sortedNames_written, ok_bind]
    refine if_congr (SortedBy.nodup_iff_adjacent rank_injective _) rfl rfl
  · exact absurd rfl (hnone entries)

/-- **Anything else** is refused. -/
theorem received_other {bytes : List UInt8} (h : ∀ entries, bytes ≠ written entries) :
    received bytes = .error .invalidEnvironment := by
  by_cases hends : bytes.length ≠ 0 ∧ bytes.getLast? ≠ some nul
  · rw [received, if_pos hends]
    rfl
  · have hend : bytes = [] ∨ bytes.getLast? = some nul := by
      by_cases hnil : bytes = []
      · exact .inl hnil
      · refine .inr (not_not.mp fun hno => hends ⟨?_, hno⟩)
        exact fun hzero => hnil (List.length_eq_zero_iff.mp hzero)
    have hstands : Scan.Stands { bytes } [] bytes :=
      ⟨rfl, rfl, rfl, rfl, Nat.le_refl _, Nat.zero_le _⟩
    rcases hstands.run _ (Nat.le_refl _) hend with ⟨entries, _, hsame, _⟩ | ⟨herror, _⟩
    · exact absurd hsame (h entries)
    · rw [received, if_neg hends]
      simp only [herror]
      rfl

/-- **`received`** takes the sequences of entries no kept name of which repeats, and keeps their
entries in order. -/
theorem received_eq_ok {bytes value : List UInt8} : received bytes = .ok value ↔
    ∃ entries, bytes = written entries ∧ ((entries.filter Entry.kept).map Entry.name).Nodup ∧
      value = written (entries.filter Entry.kept) := by
  constructor
  · intro h
    by_cases hwritten : ∃ entries, bytes = written entries
    · obtain ⟨entries, rfl⟩ := hwritten
      rw [received_written] at h
      split at h
      · next hnodup =>
        cases h
        exact ⟨entries, rfl, hnodup, rfl⟩
      · cases h
    · rw [received_other (not_exists.mp hwritten)] at h
      cases h
  · rintro ⟨entries, rfl, hnodup, rfl⟩
    rw [received_written, if_pos hnodup]

/-- No unwrapping in `received` fails. -/
theorem received_ne_unreachable (bytes : List UInt8) : received bytes ≠ .error .unreachable := by
  by_cases hwritten : ∃ entries, bytes = written entries
  · obtain ⟨entries, rfl⟩ := hwritten
    rw [received_written]
    split <;> exact fun hno => (by cases hno)
  · rw [received_other (not_exists.mp hwritten)]
    exact fun hno => (by cases hno)

end Rui.ChildEnvironments
