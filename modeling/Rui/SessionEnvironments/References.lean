import Rui.SessionEnvironments.Table

/-!
# Reference counts of interned environments

A held value counts the entries that name it, and a reference an offer keeps in
hand counts as one more. Emptying an entry keeps the counts, and moves a value
nobody names to the offer.
-/

namespace Rui.SessionEnvironments
open Library

namespace Entry

/-- How often an entry names a value: never when it is unused. -/
def names (index : Nat) (e : Entry) : Nat :=
  if e.unused then 0 else if e.value = index then 1 else 0

@[simp] theorem zero_unused : zero.unused = true := by decide

@[simp] theorem names_zero (index : Nat) : zero.names index = 0 := by simp [names]

theorem names_self {e : Entry} (h : e.unused = false) : e.names e.value = 1 := by
  simp [names, h]

theorem names_eq_zero {e : Entry} {index : Nat} :
    e.names index = 0 ↔ (e.unused = true ∨ e.value ≠ index) := by
  unfold names
  by_cases hunused : e.unused <;> simp [hunused]

end Entry

/-- A place with a value counts for one. -/
def one (value : Option Interned) : Nat := value.elim 0 fun _ => 1

def weight (value : Option Interned) : Nat := value.elim 0 (·.capacity)

/-- Whether a place holds the value of an allocation. -/
def owns (id : Nat) (value : Option Interned) : Nat :=
  value.elim 0 fun held => if held.id = id then 1 else 0

@[simp] theorem one_some (held : Interned) : one (some held) = 1 := rfl
@[simp] theorem one_none : one none = 0 := rfl
@[simp] theorem weight_some (held : Interned) : weight (some held) = held.capacity := rfl
@[simp] theorem weight_none : weight none = 0 := rfl
@[simp] theorem owns_none (id : Nat) : owns id none = 0 := rfl

@[simp] theorem owns_some (id : Nat) (held : Interned) :
    owns id (some held) = if held.id = id then 1 else 0 := rfl

/-- How often an allocation stands in the released list. -/
def Offer.frees (self : Offer) (id : Nat) : Nat :=
  tally (fun held : Interned => if held.id = id then 1 else 0) self.released

namespace Table

variable {t t' : Table} {i j : Nat}

/-! ## Reading after writing -/

theorem value_eq_some {held : Interned} :
    t.value i = some held ↔ t.values[i]? = some (some held) := by
  simp [value, Option.join_eq_some_iff]

theorem lt_of_value {held : Interned} (h : t.value i = some held) : i < t.values.length :=
  (List.getElem?_eq_some_iff.mp (value_eq_some.mp h)).1

theorem value_setValue (v : Option Interned) (h : i < t.values.length) :
    (t.setValue i v).value j = if i = j then v else t.value j := by
  unfold value setValue
  by_cases hij : i = j
  · subst hij
    simp [h]
  · simp [hij]

theorem entries_getElem? (h : i < t.entries.length) : t.entries[i]? = some (t.entry i) := by
  simp [entry, List.getD_eq_getElem?_getD, h]

theorem entry_of_le (h : t.entries.length ≤ i) : t.entry i = .zero := by
  simp [entry, List.getD_eq_getElem?_getD, List.getElem?_eq_none h]

theorem lt_of_used (h : (t.entry i).unused = false) : i < t.entries.length := by
  by_contra hle
  rw [entry_of_le (by omega), Entry.zero_unused] at h
  cases h

theorem entry_setEntry (e : Entry) (h : i < t.entries.length) :
    (t.setEntry i e).entry j = if i = j then e else t.entry j := by
  unfold entry setEntry
  by_cases hij : i = j
  · subst hij
    simp [List.getD_eq_getElem?_getD, h]
  · simp [List.getD_eq_getElem?_getD, hij]

@[simp] theorem entry_setValue (v : Option Interned) : (t.setValue j v).entry i = t.entry i := rfl

@[simp] theorem value_setEntry (e : Entry) : (t.setEntry j e).value i = t.value i := rfl

@[simp] theorem length_setEntry (e : Entry) :
    (t.setEntry j e).entries.length = t.entries.length := by simp [setEntry]

/-! ## What names a value -/

/-- How many entries name a value. -/
def named (t : Table) (index : Nat) : Nat := tally (Entry.names index) t.entries

/-- How often an allocation is held. -/
def holds (t : Table) (id : Nat) : Nat := tally (owns id) t.values

theorem named_setEntry (index : Nat) (e : Entry) (h : i < t.entries.length) :
    (t.setEntry i e).named index + (t.entry i).names index = t.named index + e.names index :=
  tally_set e (entries_getElem? h)

theorem named_pos (h : (t.entry i).unused = false) : 0 < t.named (t.entry i).value := by
  have hmem : t.entry i ∈ t.entries := List.mem_of_getElem? (entries_getElem? (lt_of_used h))
  have hle := le_tally (f := Entry.names (t.entry i).value) hmem
  rw [Entry.names_self h] at hle
  exact hle

/-- The reference counts are exact, `extra` of them held by the offer at work. -/
structure Counted (t : Table) (extra : Nat → Nat) : Prop where
  slots : t.values.length = maxValues
  refs : ∀ index held, t.value index = some held → held.refs = t.named index + extra index
  positive : ∀ index held, t.value index = some held → 0 < held.refs
  free : ∀ index, t.value index = none → t.named index + extra index = 0
  count : t.valueCount = tally one t.values
  bytes : t.valueBytes = tally weight t.values

/-- The table after some entries are emptied and the values nobody names freed. -/
structure Less (t t' : Table) : Prop where
  uses : t'.uses = t.uses
  bytes : t'.valueBytes ≤ t.valueBytes
  grows : t.entries.length ≤ t'.entries.length
  places : t.entries.length ≤ maxSessions → t'.entries.length ≤ maxSessions
  entries : ∀ i, t'.entry i = t.entry i ∨ t'.entry i = .zero
  values : ∀ i held, t'.value i = some held →
    ∃ was, t.value i = some was ∧ held = { was with refs := held.refs }

theorem Less.refl (t : Table) : t.Less t :=
  ⟨rfl, le_rfl, le_rfl, id, fun _ => .inl rfl, fun _ held h => ⟨held, h, rfl⟩⟩

theorem Less.trans {t'' : Table} (h : t.Less t') (h' : t'.Less t'') : t.Less t'' := by
  refine ⟨h'.uses.trans h.uses, h'.bytes.trans h.bytes, h.grows.trans h'.grows,
    h'.places ∘ h.places, fun i => ?_, fun i held hheld => ?_⟩
  · rcases h'.entries i with hsame | hzero
    · rw [hsame]
      exact h.entries i
    · exact .inr hzero
  · obtain ⟨mid, hmid, hfrom⟩ := h'.values i held hheld
    obtain ⟨was, hwas, hfirst⟩ := h.values i mid hmid
    refine ⟨was, hwas, ?_⟩
    rw [hfrom, hfirst]

/-- What releasing does to a table and its offer: allocations move, none is lost. -/
structure Gives (t : Table) (p : Offer) (t' : Table) (p' : Offer) : Prop where
  less : t.Less t'
  owned : ∀ id, t'.holds id + p'.frees id = t.holds id + p.frees id
  candidate : p'.candidate = p.candidate

theorem Gives.refl (t : Table) (p : Offer) : t.Gives p t p := ⟨.refl t, fun _ => rfl, rfl⟩

theorem Gives.trans {t'' : Table} {p p' p'' : Offer} (h : t.Gives p t' p')
    (h' : t'.Gives p' t'' p'') : t.Gives p t'' p'' :=
  ⟨h.less.trans h'.less, fun id => (h'.owned id).trans (h.owned id),
    h'.candidate.trans h.candidate⟩

/-! ## Writing a value -/

variable {extra extra' : Nat → Nat} {p : Offer}

/-- **One value written** with its counters, while entries change with the references in hand. -/
theorem Counted.write {old new : Option Interned} (h : t.Counted extra)
    (hold : t.values[i]? = some old) (hvalues : t'.values = t.values.set i new)
    (hcount : t'.valueCount + one old = t.valueCount + one new)
    (hbytes : t'.valueBytes + weight old = t.valueBytes + weight new)
    (hothers : ∀ index, index ≠ i → t'.named index + extra' index = t.named index + extra index)
    (hsome : ∀ a, new = some a → a.refs = t'.named i + extra' i ∧ 0 < a.refs)
    (hnone : new = none → t'.named i + extra' i = 0) : t'.Counted extra' := by
  have hlt : i < t.values.length := (List.getElem?_eq_some_iff.mp hold).1
  have hread : ∀ index, t'.value index = if i = index then new else t.value index := fun index => by
    have := value_setValue (t := t) (j := index) new hlt
    rwa [setValue, value, ← hvalues] at this
  have hones := tally_set (f := one) new hold
  have hweights := tally_set (f := weight) new hold
  have hcountBefore := h.count
  have hbytesBefore := h.bytes
  refine ⟨by rw [hvalues, List.length_set, h.slots], fun index a ha => ?_, fun index a ha => ?_,
    fun index ha => ?_, by rw [hvalues]; omega, by rw [hvalues]; omega⟩
  · rw [hread] at ha
    split at ha
    case isTrue heq =>
      subst heq
      exact (hsome a ha).1
    case isFalse hne => rw [hothers index (Ne.symm hne), h.refs index a ha]
  · rw [hread] at ha
    split at ha
    · exact (hsome a ha).2
    · exact h.positive index a ha
  · rw [hread] at ha
    split at ha
    case isTrue heq =>
      subst heq
      exact hnone ha
    case isFalse hne => rw [hothers index (Ne.symm hne), h.free index ha]

/-- **Only entries written**, with the references in hand. -/
theorem Counted.rewrite (h : t.Counted extra) (hvalues : t'.values = t.values)
    (hcount : t'.valueCount = t.valueCount) (hbytes : t'.valueBytes = t.valueBytes)
    (hnamed : ∀ index, t'.named index + extra' index = t.named index + extra index) :
    t'.Counted extra' := by
  have hread : ∀ index, t'.value index = t.value index := fun index => by
    rw [value, value, hvalues]
  refine ⟨by rw [hvalues, h.slots], fun index a ha => ?_, fun index a ha => ?_,
    fun index ha => ?_, by rw [hcount, hvalues, h.count], by rw [hbytes, hvalues, h.bytes]⟩
  · rw [hnamed, h.refs index a (hread index ▸ ha)]
  · exact h.positive index a (hread index ▸ ha)
  · rw [hnamed, h.free index (hread index ▸ ha)]

theorem Counted.held (h : t.Counted extra) (hpos : 0 < t.named i + extra i) :
    ∃ held, t.value i = some held := by
  cases hvalue : t.value i with
  | none =>
    have := h.free i hvalue
    omega
  | some held => exact ⟨held, rfl⟩

/-! ## Releasing an entry's value -/

/-- What `release` does to a value. -/
def lessen (held : Interned) : Option Interned :=
  if held.refs = 1 then none else some { held with refs := held.refs - 1 }

/-- **Emptying an entry** succeeds, keeps the counts and hands on what it frees. -/
theorem Counted.drop (h : t.Counted extra) (hused : (t.entry j).unused = false) :
    ∃ r, t.release (t.entry j).value p = some r ∧ r.1.entries = t.entries ∧
      (r.1.setEntry j .zero).Counted extra ∧ t.Gives p (r.1.setEntry j .zero) r.2 ∧
      ∀ index, index ≠ (t.entry j).value → r.1.value index = t.value index := by
  obtain ⟨held, hvalue⟩ := h.held (Nat.lt_of_lt_of_le (named_pos hused) (Nat.le_add_right _ _))
  have hplace := lt_of_used hused
  have hlt := lt_of_value hvalue
  have hset := value_eq_some.mp hvalue
  have hpos := h.positive _ _ hvalue
  have hrefs := h.refs _ _ hvalue
  have hones := tally_set (f := one) (lessen held) hset
  have hweights := tally_set (f := weight) (lessen held) hset
  have hcount := h.count
  have hbytes := h.bytes
  have hnamed := fun index => named_setEntry (t := t) index .zero hplace
  have hself := hnamed (t.entry j).value
  rw [Entry.names_self hused, Entry.names_zero] at hself
  have hothers : ∀ index, index ≠ (t.entry j).value →
      (t.setEntry j .zero).named index + extra index = t.named index + extra index :=
    fun index hne => by
      have := hnamed index
      rw [Entry.names_eq_zero.mpr (.inr (Ne.symm hne)), Entry.names_zero] at this
      omega
  have hentries : ∀ i, (t.setEntry j .zero).entry i = t.entry i ∨
      (t.setEntry j .zero).entry i = .zero := fun i => by
    rw [entry_setEntry _ hplace]
    split
    · exact .inr rfl
    · exact .inl rfl
  have hgrows : t.entries.length ≤ (t.entries.set j .zero).length := (List.length_set).ge
  have hlength : t.entries.length ≤ maxSessions →
      (t.entries.set j .zero).length ≤ maxSessions := by
    rw [List.length_set]
    exact id
  have hless : ∀ i a, (t.setValue (t.entry j).value (lessen held)).value i = some a →
      ∃ was, t.value i = some was ∧ a = { was with refs := a.refs } := fun i a ha => by
    rw [value_setValue _ hlt] at ha
    split at ha
    case isTrue heq =>
      subst heq
      unfold lessen at ha
      split at ha
      · cases ha
      · exact ⟨held, hvalue, by rw [← Option.some.inj ha]⟩
    case isFalse => exact ⟨a, ha, rfl⟩
  have hframe : ∀ index, index ≠ (t.entry j).value →
      (t.setValue (t.entry j).value (lessen held)).value index = t.value index := fun index hne => by
    rw [value_setValue _ hlt, if_neg (Ne.symm hne)]
  have howned := fun id => tally_set (f := owns id) (lessen held) hset
  by_cases hlast : held.refs = 1
  · rw [lessen, if_pos hlast] at hones hweights hless hframe howned
    simp only [one_some, one_none, weight_some, weight_none] at hones hweights
    have hrelease : t.release (t.entry j).value p =
        some ({ t.setValue (t.entry j).value none with
            valueCount := t.valueCount - 1
            valueBytes := t.valueBytes - held.capacity },
          { p with released := { held with refs := 0 } :: p.released }) := by
      simp [release, hvalue, hlast, show t.valueCount ≠ 0 by omega,
        show ¬ t.valueBytes < held.capacity by omega]
    refine ⟨_, hrelease, rfl,
      h.write hset rfl ?_ ?_ hothers (fun a ha => (by cases ha)) fun _ => ?_,
      ⟨⟨rfl, Nat.sub_le _ _, hgrows, hlength, hentries, hless⟩, fun id => ?_, rfl⟩,
      hframe⟩
    · simp only [setEntry, one_some, one_none]
      omega
    · simp only [setEntry, weight_some, weight_none]
      omega
    · change (t.setEntry j .zero).named _ + _ = 0
      omega
    · have hid := howned id
      simp only [owns_some, owns_none] at hid
      simp only [Offer.frees, holds, tally_cons, setEntry, setValue]
      omega
  · rw [lessen, if_neg hlast] at hones hweights hless hframe howned
    have hrelease : t.release (t.entry j).value p =
        some (t.setValue (t.entry j).value (some { held with refs := held.refs - 1 }), p) := by
      simp [release, hvalue, hlast, show held.refs ≠ 0 by omega]
    refine ⟨_, hrelease, rfl,
      h.write hset rfl rfl rfl hothers (fun a ha => ?_) (fun ha => (by cases ha)),
      ⟨⟨rfl, le_rfl, hgrows, hlength, hentries, hless⟩, fun id => ?_, rfl⟩, hframe⟩
    · rw [← Option.some.inj ha]
      change held.refs - 1 = (t.setEntry j .zero).named _ + _ ∧ 0 < held.refs - 1
      omega
    · have hid := howned id
      simp only [owns_some] at hid
      simp only [holds, setEntry, setValue]
      omega

end Table

end Rui.SessionEnvironments
