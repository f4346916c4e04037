import Rui.SessionEnvironments.Room

/-!
# Offering an environment

Each part of `offer` by what it leaves: the reference in hand, the Session's
own entry emptied, room, the value installed, and the entry written.
-/

namespace Rui.SessionEnvironments
open Library

theorem Session.head (s : Session) : s.bytes.head? ≠ some 0 := by
  have halphabet : 0 ∉ sessionAlphabet := by decide +kernel
  obtain ⟨bytes, hvalid⟩ := s
  cases bytes with
  | nil => simp
  | cons byte rest =>
    simp only [validSessionId, Bool.and_eq_true, List.all_cons, List.contains_iff_mem] at hvalid
    rintro ⟨⟩
    exact halphabet hvalid.2.1

variable {e : Entry}

theorem Session.used (s : Session) (h : e.session = s.bytes) : e.unused = false := by
  unfold Entry.unused
  rw [h]
  exact beq_eq_false_iff_ne.mpr s.head

/-- The one reference an offer holds in hand. -/
def pending (v index : Nat) : Nat := if v = index then 1 else 0

theorem names_of_used (h : e.unused = false) (index : Nat) :
    e.names index = pending e.value index := by simp [Entry.names, pending, h]

namespace Table

variable {t : Table} {extra : Nat → Nat} {p : Offer}

/-! ## Searches -/

variable {s : Session} {i v : Nat} {bytes : List UInt8} {held : Interned}

theorem find_none (h : t.find s.bytes = none) (i : Nat) : (t.entry i).session ≠ s.bytes := by
  intro heq
  have hlt := lt_of_used (s.used heq)
  have hnone := List.findIdx?_eq_none_iff.mp h (t.entry i)
    (List.mem_of_getElem? (entries_getElem? hlt))
  simp [heq] at hnone

theorem find_some (h : t.find s.bytes = some i) : (t.entry i).session = s.bytes := by
  obtain ⟨hlt, hfound, _⟩ := List.findIdx?_eq_some_iff_getElem.mp h
  simpa [entry, List.getD_eq_getElem?_getD, hlt] using hfound

theorem equalValue_none (h : t.equalValue bytes = none) (hheld : t.value i = some held) :
    held.bytes ≠ bytes := by
  have hnone := List.findIdx?_eq_none_iff.mp h (some held)
    (List.mem_of_getElem? (value_eq_some.mp hheld))
  simpa using hnone

theorem equalValue_some (h : t.equalValue bytes = some i) :
    ∃ held, t.value i = some held ∧ held.bytes = bytes := by
  obtain ⟨hlt, hfound, _⟩ := List.findIdx?_eq_some_iff_getElem.mp h
  cases hvalue : t.values[i] with
  | none => simp [hvalue] at hfound
  | some held =>
    refine ⟨held, value_eq_some.mpr (by rw [List.getElem?_eq_getElem hlt, hvalue]), ?_⟩
    simpa [hvalue] using hfound

/-- The least recently used of the places met. -/
theorem oldest_spec (h : 0 < t.entries.length)
    (hused : ∀ i, i < t.entries.length → (t.entry i).unused = false) :
    ∃ victim, t.oldest = some victim ∧ victim < t.entries.length ∧
      ∀ i, i < t.entries.length → (t.entry victim).used ≤ (t.entry i).used := by
  have hturns : ∀ n, n < t.entries.length → ∃ victim,
      (List.range (n + 1)).foldl t.older none = some victim ∧ victim ≤ n ∧
      ∀ i ≤ n, (t.entry victim).used ≤ (t.entry i).used := by
    intro n
    induction n with
    | zero =>
      intro hn
      refine ⟨0, by simp [older, hused 0 hn], le_rfl, fun i hi => ?_⟩
      rw [Nat.le_zero.mp hi]
    | succ n ih =>
      intro hn
      obtain ⟨best, hbest, hle, hleast⟩ := ih (by omega)
      rw [List.range_succ, List.foldl_append, hbest]
      simp only [List.foldl_cons, List.foldl_nil, older, hused (n + 1) hn, Bool.false_eq_true,
        if_false]
      split
      case isTrue hless =>
        refine ⟨n + 1, rfl, le_rfl, fun i hi => ?_⟩
        rcases Nat.lt_or_ge n i with hlast | hbefore
        · rw [show i = n + 1 by omega]
        · have := hleast i hbefore
          omega
      case isFalse hless =>
        refine ⟨best, rfl, by omega, fun i hi => ?_⟩
        rcases Nat.lt_or_ge n i with hlast | hbefore
        · rw [show i = n + 1 by omega]
          omega
        · exact hleast i hbefore
  obtain ⟨victim, hvictim, hle, hleast⟩ := hturns (t.entries.length - 1) (by omega)
  rw [show t.entries.length - 1 + 1 = t.entries.length by omega] at hvictim
  exact ⟨victim, hvictim, by omega, fun i hi => hleast i (by omega)⟩

/-! ## The parts of an offer -/

theorem hold_spec (h : t.Counted fun _ => 0) (hheld : t.value v = some held) :
    t.hold (some v) = some (t.setValue v (some { held with refs := held.refs + 1 })) ∧
      (t.setValue v (some { held with refs := held.refs + 1 })).Counted (pending v) := by
  refine ⟨by simp [hold, hheld], h.write (value_eq_some.mp hheld) rfl rfl rfl
    (fun index hne => ?_) (fun a ha => ?_) fun hnone => (by cases hnone)⟩
  · simp [pending, Ne.symm hne, named, setValue]
  · have hrefs := h.refs v held hheld
    rw [← Option.some.inj ha]
    simp only [named, setValue, pending, if_true] at hrefs ⊢
    omega

theorem forget_spec (found : Option Nat) (h : t.Counted extra)
    (hfound : ∀ i, found = some i → (t.entry i).unused = false) :
    ∃ r, t.forget found p = some r ∧ r.1.Counted extra ∧ t.Gives p r.1 r.2 ∧
      ∀ i, r.1.entry i = if found = some i then .zero else t.entry i := by
  cases found with
  | none => exact ⟨(t, p), rfl, h, .refl t p, by simp⟩
  | some place =>
    have hused := hfound place rfl
    obtain ⟨r, hr, hsame, hcounted, hgives, _⟩ := h.drop (p := p) hused
    refine ⟨(r.1.setEntry place .zero, r.2), by simp [forget, hr], hcounted, hgives, fun i => ?_⟩
    rw [entry_setEntry _ (by rw [hsame]; exact lt_of_used hused)]
    simp [entry, hsame]

/-- What taking a candidate leaves. -/
structure Installs (t : Table) (p : Offer) (candidate : Interned) (dropped : List Nat)
    (r : Table × Offer × Nat) : Prop where
  chosen : Chosen t.values candidate.capacity dropped
  counted : r.1.Counted (pending r.2.2)
  entries : ∀ i, r.1.entry i = if Entry.goes dropped (t.entry i) then .zero else t.entry i
  grows : t.entries.length ≤ r.1.entries.length
  places : t.entries.length ≤ maxSessions → r.1.entries.length ≤ maxSessions
  value : r.1.value r.2.2 = some { candidate with refs := 1 }
  unnamed : r.1.named r.2.2 = 0
  values : ∀ i, i ≠ r.2.2 → ∀ held, r.1.value i = some held →
    ∃ was, t.value i = some was ∧ held = { was with refs := held.refs }
  within : r.1.valueBytes ≤ maxValueBytes
  owned : ∀ id, r.1.holds id + r.2.1.frees id =
    t.holds id + p.frees id + if candidate.id = id then 1 else 0
  uses : r.1.uses = t.uses
  taken : r.2.1.candidate = none

theorem install_spec {candidate : Interned} (h : t.Counted fun _ => 0)
    (hcapacity : candidate.capacity ≤ maxEnvironmentBytes) :
    ∃ r dropped, t.install none candidate p = some r ∧ t.Installs p candidate dropped r := by
  obtain ⟨mid, dropped, hmid, hchosen, hcounted, hgives, hentries, hcount, hbytes⟩ :=
    makeRoom_spec p h hcapacity
  obtain ⟨v, hv⟩ : ∃ v, mid.1.values.findIdx? Option.isNone = some v := by
    refine Option.ne_none_iff_exists'.mp fun hnone => ?_
    have hall := List.findIdx?_eq_none_iff.mp hnone
    have hones : tally one mid.1.values = tally (fun _ => 1) mid.1.values := by
      refine tally_congr fun value hvalue => ?_
      cases value with
      | none => simpa using hall _ hvalue
      | some held => rfl
    rw [hcounted.count, hones] at hcount
    simp [tally, hcounted.slots] at hcount
  obtain ⟨hlt, hnull, _⟩ := List.findIdx?_eq_some_iff_getElem.mp hv
  have hplace : mid.1.values[v]? = some none := by
    rw [List.getElem?_eq_getElem hlt, Option.isNone_iff_eq_none.mp hnull]
  have hread : mid.1.value v = none := by rw [Table.value, hplace]; rfl
  have hfree := hcounted.free v hread
  have hunnamed : mid.1.named v = 0 := by omega
  have hinstall : t.install none candidate p =
      some ({ mid.1.setValue v (some { candidate with refs := 1 }) with
          valueCount := mid.1.valueCount + 1
          valueBytes := mid.1.valueBytes + candidate.capacity },
        { mid.2 with candidate := none }, v) := by
    simp [install, hmid, hv]
  refine ⟨_, dropped, hinstall,
    hchosen, hcounted.write hplace rfl ?_ ?_ (fun index hne => ?_) (fun a ha => ?_)
      (fun hnone => (by cases hnone)), hentries, hgives.less.grows, hgives.less.places, ?_, hunnamed, ?_, ?_, ?_,
      hgives.less.uses, rfl⟩
  · simp
  · simp
  · simp [pending, Ne.symm hne, named, setValue]
  · rw [← Option.some.inj ha]
    change 1 = mid.1.named v + _ ∧ 0 < 1
    simp [hunnamed, pending]
  · have hset := value_setValue (t := mid.1) (j := v) (some { candidate with refs := 1 }) hlt
    rw [if_pos rfl] at hset
    exact hset
  · intro i hne held hheld
    have hset := value_setValue (t := mid.1) (j := i) (some { candidate with refs := 1 }) hlt
    rw [if_neg (Ne.symm hne)] at hset
    exact hgives.less.values i held (hset ▸ hheld)
  · change mid.1.valueBytes + candidate.capacity ≤ _
    exact hbytes
  · intro id
    have hsum := tally_set (f := owns id) (some { candidate with refs := 1 }) hplace
    have howned := hgives.owned id
    rw [owns_none, owns_some] at hsum
    simp only [holds, Offer.frees, setValue] at howned hsum ⊢
    omega

theorem touch_spec (h : t.Counted extra) (hheld : t.value v = some held) :
    t.touch v = some (t.setValue v (some { held with used := t.uses })) ∧
      (t.setValue v (some { held with used := t.uses })).Counted extra := by
  refine ⟨by simp [touch, hheld], h.write (value_eq_some.mp hheld) rfl rfl rfl
    (fun _ _ => rfl) (fun a ha => ?_) fun hnone => (by cases hnone)⟩
  rw [← Option.some.inj ha]
  exact ⟨h.refs v held hheld, h.positive v held hheld⟩

/-- Why a Session's entry stands where it does. -/
def Placed (t : Table) (found : Option Nat) (place : Nat) : Prop :=
  found = some place ∨ found = none ∧ (t.entry place).unused = true ∨
    found = none ∧ t.entries.length = maxSessions ∧
      (∀ i, i < maxSessions → (t.entry i).unused = false) ∧
      ∀ i, i < maxSessions → (t.entry place).used ≤ (t.entry i).used

theorem place_spec (found : Option Nat) (h : t.Counted extra)
    (hfound : ∀ i, found = some i → i < t.entries.length ∧ t.entry i = .zero)
    (hplaces : t.entries.length ≤ maxSessions) :
    ∃ r, t.place found p = some r ∧ r.2.2 < r.1.entries.length ∧
      (r.1.setEntry r.2.2 .zero).Counted extra ∧ t.Gives p (r.1.setEntry r.2.2 .zero) r.2.1 ∧
      (∀ i, i ≠ r.2.2 → r.1.entry i = t.entry i) ∧ t.Placed found r.2.2 := by
  have hempty : ∀ place, place < t.entries.length → (t.entry place).unused = true →
      (t.setEntry place .zero).Counted extra ∧ t.Gives p (t.setEntry place .zero) p :=
    fun place hlt hunused => by
      refine ⟨h.rewrite rfl rfl rfl fun index => ?_, ⟨rfl, le_rfl, by simp, by simp, fun i => ?_,
        fun _ held hheld => ⟨held, hheld, rfl⟩⟩, fun _ => rfl, rfl⟩
      · have := named_setEntry index .zero hlt
        rw [Entry.names_eq_zero.mpr (.inl hunused), Entry.names_zero] at this
        omega
      · rw [entry_setEntry _ hlt]
        split
        · exact .inr rfl
        · exact .inl rfl
  cases found with
  | some place =>
    obtain ⟨hlt, hzero⟩ := hfound place rfl
    obtain ⟨hcounted, hgives⟩ := hempty place hlt (by rw [hzero, Entry.zero_unused])
    exact ⟨(t, p, place), rfl, hlt, hcounted, hgives, fun _ _ => rfl, .inl rfl⟩
  | none =>
    unfold place freePlace
    cases hfree : t.entries.findIdx? Entry.unused with
    | some place =>
      obtain ⟨hlt, hunused, _⟩ := List.findIdx?_eq_some_iff_getElem.mp hfree
      have hread : (t.entry place).unused = true := by
        rwa [entry, List.getD_eq_getElem?_getD, List.getElem?_eq_getElem hlt]
      obtain ⟨hcounted, hgives⟩ := hempty place hlt hread
      exact ⟨(t, p, place), rfl, hlt, hcounted, hgives, fun _ _ => rfl, .inr (.inl ⟨rfl, hread⟩)⟩
    | none =>
      have hall : ∀ i, i < t.entries.length → (t.entry i).unused = false := fun i hi => by
        simpa using List.findIdx?_eq_none_iff.mp hfree _
          (List.mem_of_getElem? (entries_getElem? hi))
      by_cases hroom : t.entries.length < maxSessions
      · have hentry : ∀ i, ({ t with entries := t.entries ++ [Entry.zero] } : Table).entry i =
            t.entry i := fun i => by
          simp only [entry, List.getD_eq_getElem?_getD, List.getElem?_append]
          split
          · rfl
          · rename_i hi
            rw [List.getElem?_eq_none (l := t.entries) (by omega)]
            cases i - t.entries.length <;> rfl
        have hset : (t.entries ++ [Entry.zero]).set t.entries.length Entry.zero =
            t.entries ++ [Entry.zero] := by simp
        have hsame : ({ t with entries := t.entries ++ [Entry.zero] } : Table).setEntry
            t.entries.length .zero = { t with entries := t.entries ++ [Entry.zero] } := by
          rw [setEntry, hset]
        refine ⟨({ t with entries := t.entries ++ [.zero] }, p, t.entries.length),
          by simp [hroom], by simp, ?_, ?_, fun i _ => hentry i,
          .inr (.inl ⟨rfl, by rw [entry_of_le le_rfl, Entry.zero_unused]⟩)⟩
        · rw [hsame]
          refine h.rewrite rfl rfl rfl fun index => ?_
          simp [named]
        · rw [hsame]
          refine ⟨⟨rfl, le_rfl, by simp, fun _ => ?_, fun i => .inl (hentry i),
            fun _ held hheld => ⟨held, hheld, rfl⟩⟩, fun _ => rfl, rfl⟩
          simpa using hroom
      · have hfull : t.entries.length = maxSessions := by omega
        have hpos : 0 < t.entries.length := by
          rw [hfull]
          decide
        obtain ⟨victim, hvictim, hlt, hleast⟩ := oldest_spec hpos hall
        obtain ⟨r, hr, hsame, hcounted, hgives, _⟩ := h.drop (p := p) (hall victim hlt)
        refine ⟨(r.1, r.2, victim), by simp [hroom, hvictim, hr], by rw [hsame]; exact hlt,
          hcounted, hgives, fun i _ => by rw [entry, entry, hsame],
          .inr (.inr ⟨rfl, hfull, hfull ▸ hall, hfull ▸ hleast⟩)⟩

theorem Counted.setEntry {place : Nat} {e : Entry} (hlt : place < t.entries.length)
    (h : (t.setEntry place .zero).Counted (pending e.value)) (hused : e.unused = false) :
    (t.setEntry place e).Counted fun _ => 0 := by
  refine h.rewrite rfl rfl rfl fun index => ?_
  have hnew := named_setEntry index e hlt
  have hzero := named_setEntry index .zero hlt
  rw [Entry.names_zero] at hzero
  rw [names_of_used hused] at hnew
  omega

end Table

end Rui.SessionEnvironments
