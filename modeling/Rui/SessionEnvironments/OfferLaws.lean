import Rui.SessionEnvironments.Offers

/-!
# What one offer does

From a sound table an offer always ends, in a sound table: the Session has the
offered environment unless it holds one no lower, and another Session loses its
entry only to make room.
-/

namespace Rui.SessionEnvironments
open Library

namespace Table

variable {t : Table}

/-- What holds of the table between two calls. -/
structure Sound (t : Table) : Prop where
  counted : t.Counted fun _ => 0
  distinct : ∀ i j a b, t.value i = some a → t.value j = some b → a.bytes = b.bytes → i = j
  sizes : ∀ i a, t.value i = some a → a.bytes.length ≤ a.capacity ∧ a.capacity ≤ maxEnvironmentBytes
  within : t.valueBytes ≤ maxValueBytes
  places : t.entries.length ≤ maxSessions
  alone : ∀ i j, (t.entry i).unused = false → (t.entry i).session = (t.entry j).session → i = j
  sessions : ∀ i, (t.entry i).unused = false → ∃ s : Session, (t.entry i).session = s.bytes

variable {s : Session} {i capacity : Nat} {dropped : List Nat}

theorem Sound.find (h : t.Sound) (heq : (t.entry i).session = s.bytes) :
    t.find s.bytes = some i := by
  cases hfind : t.find s.bytes with
  | none => exact absurd heq (find_none hfind i)
  | some j =>
    rw [h.alone i j (s.used heq) (heq.trans (find_some hfind).symm)]

/-! ## What the other Sessions name -/

/-- How many Sessions other than one name a value. -/
def others (t : Table) (s : Session) (index : Nat) : Nat :=
  tally (fun e => if e.session = s.bytes then 0 else e.names index) t.entries

/-- The values other Sessions name, counted by them. -/
def othersNamed (t : Table) (s : Session) : List (Option Interned) :=
  t.values.mapIdx fun index value =>
    if t.others s index = 0 then none else value.map fun held => { held with refs := t.others s index }

/-- **Room is made** only by values that go first of those other Sessions name,
and the last of them was needed. -/
structure DroppedFor (t : Table) (s : Session) (capacity : Nat) (dropped : List Nat) : Prop where
  first : ∀ i ∈ dropped, ∃ held, ((t.othersNamed s)[i]?).join = some held ∧
    ∀ j, j ∉ dropped → ∀ other, ((t.othersNamed s)[j]?).join = some other → held.before other
  needed : dropped ≠ [] → ∃ last ∈ dropped, NoRoom (t.othersNamed s) capacity (dropped.erase last)

theorem droppedFor_nil (t : Table) (s : Session) (capacity : Nat) : t.DroppedFor s capacity [] :=
  ⟨by simp, by simp⟩

theorem Chosen.held {values : List (Option Interned)} (h : Chosen values capacity dropped)
    (hi : i ∈ dropped) : ∃ held, (values[i]?).join = some held := by
  induction h with
  | nil => cases hi
  | cons _ _ _ hvalue _ ih =>
    rcases List.mem_cons.mp hi with rfl | hi
    · exact ⟨_, hvalue⟩
    · exact ih hi

theorem Chosen.droppedFor (h : Chosen (t.othersNamed s) capacity dropped) :
    t.DroppedFor s capacity dropped := by
  refine ⟨fun i hi => ?_, fun hne => ?_⟩
  · obtain ⟨held, hheld⟩ := h.held hi
    exact ⟨held, hheld, fun j hj other hother => h.before hi hj hheld hother⟩
  · cases h with
    | nil => exact absurd rfl hne
    | cons _ hneeded _ _ _ => exact ⟨_, List.mem_cons_self, by simpa using hneeded⟩

theorem Sound.forgot (h : t.Sound) {u : Table} (hcounted : u.Counted fun _ => 0)
    (hplaces : u.entries.length ≤ maxSessions)
    (hentries : ∀ i, u.entry i = if t.find s.bytes = some i then .zero else t.entry i)
    (hvalues : ∀ i held, u.value i = some held →
      ∃ was, t.value i = some was ∧ held = { was with refs := held.refs }) :
    u.values = t.othersNamed s := by
  have hnamed : ∀ index, u.named index = t.others s index := fun index => by
    rw [named, others, tally_getD (d := .zero) (Entry.names_zero index) hplaces,
      tally_getD (d := .zero) (by simp) h.places]
    refine tally_congr fun i _ => ?_
    change (u.entry i).names index = if (t.entry i).session = s.bytes then 0 else (t.entry i).names index
    rw [hentries i]
    by_cases hown : (t.entry i).session = s.bytes
    · rw [if_pos (h.find hown), if_pos hown, Entry.names_zero]
    · rw [if_neg (fun hfind => hown (find_some hfind)), if_neg hown]
  apply List.ext_getElem?
  intro i
  simp only [othersNamed, List.getElem?_mapIdx]
  by_cases hi : i < t.values.length
  · have hu : i < u.values.length := by rw [hcounted.slots, ← h.counted.slots]; exact hi
    have hread : u.values[i]? = some (u.value i) := by simp [value, hu]
    have hwas : t.values[i]? = some (t.value i) := by simp [value, hi]
    rw [hread, hwas, Option.map_some, Option.some.injEq]
    cases hvalue : u.value i with
    | none =>
      have hfree := hcounted.free i hvalue
      rw [hnamed] at hfree
      rw [if_pos (by omega)]
    | some held =>
      have hpos := hcounted.positive i held hvalue
      have hrefs := hcounted.refs i held hvalue
      rw [hnamed, Nat.add_zero] at hrefs
      obtain ⟨was, hwas, heq⟩ := hvalues i held hvalue
      rw [if_neg (by omega), hwas, Option.map_some, ← hrefs, ← heq]
  · have hu : u.values.length ≤ i := by rw [hcounted.slots, ← h.counted.slots]; omega
    rw [List.getElem?_eq_none hu, List.getElem?_eq_none (by omega)]
    rfl

/-! ## Before the entry is written -/

/-- The table when an offer's value is held and its Session's old entry gone. -/
structure Ready (t : Table) (p : Offer) (s : Session) (c : Interned) (dropped : List Nat)
    (r : Table × Offer × Nat) : Prop where
  counted : r.1.Counted (pending r.2.2)
  uses : r.1.uses = t.uses + 1
  room : t.DroppedFor s c.capacity dropped
  entries : ∀ i, r.1.entry i =
    if t.find s.bytes = some i ∨ Entry.goes dropped (t.entry i) then .zero else t.entry i
  grows : t.entries.length ≤ r.1.entries.length
  places : r.1.entries.length ≤ maxSessions
  within : r.1.valueBytes ≤ maxValueBytes
  value : ∃ held, r.1.value r.2.2 = some held ∧ held.bytes = c.bytes ∧
    held.bytes.length ≤ held.capacity ∧ held.capacity ≤ maxEnvironmentBytes
  values : ∀ i, i ≠ r.2.2 → ∀ held, r.1.value i = some held → held.bytes ≠ c.bytes ∧
    ∃ was, t.value i = some was ∧ held.bytes = was.bytes ∧ held.capacity = was.capacity
  kept : ∀ i, 0 < r.1.named i → ∃ held was, r.1.value i = some held ∧ t.value i = some was ∧
    held.bytes = was.bytes
  owned : ∀ id, r.1.holds id + r.2.1.frees id =
    t.holds id + p.frees id + if r.2.1.candidate = none ∧ c.id = id then 1 else 0
  candidate : r.2.1.candidate = none ∨ r.2.1.candidate = p.candidate

variable {p : Offer} {s : Session} {c : Interned}

theorem Sound.ready_equal (h : t.Sound) (hcandidate : p.candidate = some c) {v : Nat}
    (hequal : t.equalValue c.bytes = some v) :
    ∃ table forgot r, ({ t with uses := t.uses + 1 } : Table).hold (some v) = some table ∧
      table.forget (t.find s.bytes) p = some forgot ∧
      forgot.1.install (some v) c forgot.2 = some r ∧ t.Ready p s c [] r := by
  obtain ⟨held, hheld, hbytes⟩ := equalValue_some hequal
  have hstart : ({ t with uses := t.uses + 1 } : Table).Counted fun _ => 0 :=
    h.counted.rewrite rfl rfl rfl fun _ => rfl
  obtain ⟨hhold, hcounted⟩ := hold_spec hstart hheld
  have hlt := lt_of_value hheld
  have hheldRead : ∀ i a, (({ t with uses := t.uses + 1 } : Table).setValue v
      (some { held with refs := held.refs + 1 })).value i = some a →
      ∃ was, t.value i = some was ∧ a = { was with refs := a.refs } := fun i a ha => by
    rw [value_setValue (t := { t with uses := t.uses + 1 }) _ hlt] at ha
    split at ha
    case isTrue heq =>
      subst heq
      exact ⟨held, hheld, by rw [← Option.some.inj ha]⟩
    case isFalse => exact ⟨a, ha, rfl⟩
  obtain ⟨forgot, hforget, hforgot, hgives, hentries⟩ := forget_spec (p := p)
    (t.find s.bytes) hcounted fun i hfind => s.used (find_some hfind)
  have hfrom : ∀ i a, forgot.1.value i = some a →
      ∃ was, t.value i = some was ∧ a = { was with refs := a.refs } := fun i a ha => by
    obtain ⟨mid, hmid, hfirst⟩ := hgives.less.values i a ha
    obtain ⟨was, hwas, hsecond⟩ := hheldRead i mid hmid
    exact ⟨was, hwas, by rw [hfirst, hsecond]⟩
  refine ⟨_, forgot, (forgot.1, forgot.2, v), hhold, hforget, rfl, hforgot, hgives.less.uses,
    droppedFor_nil t s c.capacity, fun i => ?_, hgives.less.grows, hgives.less.places h.places,
    hgives.less.bytes.trans h.within, ?_, fun i hne a ha => ?_, fun i hpos => ?_, fun id => ?_,
    .inr hgives.candidate⟩
  · rw [hentries i]
    simp [Entry.goes, entry, setValue]
  · obtain ⟨kept, hkept⟩ := hforgot.held (i := v) (by simp [pending])
    obtain ⟨was, hwas, heq⟩ := hfrom v kept hkept
    rw [hheld, Option.some.injEq] at hwas
    subst hwas
    refine ⟨kept, hkept, ?_⟩
    rw [heq]
    exact ⟨hbytes, h.sizes v held hheld⟩
  · obtain ⟨was, hwas, heq⟩ := hfrom i a ha
    rw [heq]
    refine ⟨fun hsame => hne ?_, was, hwas, rfl, rfl⟩
    exact h.distinct i v was held hwas hheld (hsame.trans hbytes.symm)
  · obtain ⟨kept, hkept⟩ := hforgot.held (Nat.lt_of_lt_of_le hpos (Nat.le_add_right _ _))
    obtain ⟨was, hwas, heq⟩ := hfrom i kept hkept
    exact ⟨kept, was, hkept, hwas, by rw [heq]⟩
  · have howned := hgives.owned id
    have hsum := tally_set (f := owns id) (some { held with refs := held.refs + 1 })
      (value_eq_some.mp hheld)
    simp only [hgives.candidate, hcandidate, reduceCtorEq, false_and, if_false]
    rw [owns_some, owns_some] at hsum
    simp only [holds, setValue] at howned hsum ⊢
    omega

theorem Sound.ready_fresh (h : t.Sound) (hcapacity : c.capacity ≤ maxEnvironmentBytes)
    (hlength : c.bytes.length ≤ c.capacity) (hequal : t.equalValue c.bytes = none) :
    ∃ forgot dropped r, ({ t with uses := t.uses + 1 } : Table).forget (t.find s.bytes) p =
        some forgot ∧ forgot.1.install none c forgot.2 = some r ∧ t.Ready p s c dropped r := by
  have hstart : ({ t with uses := t.uses + 1 } : Table).Counted fun _ => 0 :=
    h.counted.rewrite rfl rfl rfl fun _ => rfl
  obtain ⟨forgot, hforget, hforgot, hgives, hentries⟩ := forget_spec (p := p)
    (t.find s.bytes) hstart fun i hfind => s.used (find_some hfind)
  obtain ⟨r, dropped, hinstall, hinstalls⟩ := install_spec (p := forgot.2) hforgot hcapacity
  have hothers : forgot.1.values = t.othersNamed s :=
    h.forgot hforgot (hgives.less.places h.places) hentries hgives.less.values
  have hfrom : ∀ i, i ≠ r.2.2 → ∀ a, r.1.value i = some a →
      ∃ was, t.value i = some was ∧ a = { was with refs := a.refs } := fun i hne a ha => by
    obtain ⟨mid, hmid, hfirst⟩ := hinstalls.values i hne a ha
    obtain ⟨was, hwas, hsecond⟩ := hgives.less.values i mid hmid
    exact ⟨was, hwas, by rw [hfirst, hsecond]⟩
  refine ⟨forgot, dropped, r, hforget, hinstall, hinstalls.counted,
    hinstalls.uses.trans hgives.less.uses, (hothers ▸ hinstalls.chosen).droppedFor, fun i => ?_,
    hgives.less.grows.trans hinstalls.grows, hinstalls.places (hgives.less.places h.places),
    hinstalls.within, ⟨_, hinstalls.value, rfl, hlength, hcapacity⟩, fun i hne a ha => ?_,
    fun i hpos => ?_, fun id => ?_, .inl hinstalls.taken⟩
  · rw [hinstalls.entries i, hentries i]
    by_cases hfind : t.find s.bytes = some i
    · simp [hfind, Entry.goes]
    · simp [hfind, entry]
  · obtain ⟨was, hwas, heq⟩ := hfrom i hne a ha
    rw [heq]
    exact ⟨fun hsame => equalValue_none hequal hwas hsame, was, hwas, rfl, rfl⟩
  · have hne : i ≠ r.2.2 := fun heq => by
      rw [heq, hinstalls.unnamed] at hpos
      omega
    obtain ⟨kept, hkept⟩ := hinstalls.counted.held (Nat.lt_of_lt_of_le hpos (Nat.le_add_right _ _))
    obtain ⟨was, hwas, heq⟩ := hfrom i hne kept hkept
    exact ⟨kept, was, hkept, hwas, by rw [heq]⟩
  · rw [hinstalls.owned id, hinstalls.taken, hgives.owned id]
    simp [holds]

/-! ## The offer -/

/-- The table after an offer was taken: what stands where, and why. -/
structure Offered (t : Table) (p : Offer) (s : Session) (rank : Rank) (c : Interned)
    (dropped : List Nat) (place : Nat) (r : Table × Offer) : Prop where
  sound : r.1.Sound
  session : (r.1.entry place).session = s.bytes
  rank : (r.1.entry place).rank = rank
  value : ∃ held, r.1.value (r.1.entry place).value = some held ∧ held.bytes = c.bytes
  others : ∀ i, i ≠ place →
    r.1.entry i = if Entry.goes dropped (t.entry i) then .zero else t.entry i
  kept : ∀ i, i ≠ place → (r.1.entry i).unused = false → ∃ held was,
    r.1.value (t.entry i).value = some held ∧ t.value (t.entry i).value = some was ∧
      held.bytes = was.bytes
  room : t.DroppedFor s c.capacity dropped
  placed : t.find s.bytes = some place ∨ t.find s.bytes = none ∧
    ((t.entry place).unused = true ∨ Entry.goes dropped (t.entry place) = true ∨
      t.entries.length = maxSessions ∧ (∀ i, i < maxSessions → (t.entry i).unused = false) ∧
        ∀ i, i < maxSessions → (t.entry place).used ≤ (t.entry i).used)
  owned : ∀ id, r.1.holds id + r.2.frees id =
    t.holds id + p.frees id + if r.2.candidate = none ∧ c.id = id then 1 else 0
  candidate : r.2.candidate = none ∨ r.2.candidate = p.candidate

theorem unused_congr {e e' : Entry} (h : e.session = e'.session) : e.unused = e'.unused := by
  rw [Entry.unused, Entry.unused, h]

/-- **The last part of an offer**: the value is used, and the Session's entry written. -/
theorem Ready.settle (h : t.Sound) {ready : Table × Offer × Nat}
    (hready : t.Ready p s c dropped ready) (rank : Rank) :
    ∃ used placed, ready.1.touch ready.2.2 = some used ∧
      used.place (t.find s.bytes) ready.2.1 = some placed ∧
      t.Offered p s rank c dropped placed.2.2
        (placed.1.setEntry placed.2.2
          ⟨s.bytes, ready.2.2, rank.origin, rank.admission, placed.1.uses⟩, placed.2.1) := by
  obtain ⟨held, hheld, hbytes, hsizes⟩ := hready.value
  obtain ⟨htouch, hcounted⟩ := touch_spec hready.counted hheld
  have hlt := lt_of_value hheld
  obtain ⟨placed, hplace, hinside, hempty, hgives, hsame, hwhy⟩ := place_spec
    (p := ready.2.1) (t.find s.bytes) hcounted
    (fun i hfind => ⟨Nat.lt_of_lt_of_le (lt_of_used (s.used (find_some hfind))) hready.grows, by
      rw [entry_setValue, hready.entries i, if_pos (.inl hfind)]⟩) hready.places
  have hentry : ∀ i, (placed.1.setEntry placed.2.2
      ⟨s.bytes, ready.2.2, rank.origin, rank.admission, placed.1.uses⟩).entry i =
      if placed.2.2 = i then ⟨s.bytes, ready.2.2, rank.origin, rank.admission, placed.1.uses⟩
      else placed.1.entry i := fun i => entry_setEntry _ hinside
  have hown : ∀ i, i ≠ placed.2.2 → t.find s.bytes ≠ some i := fun i hne hfind => by
    rcases hwhy with hfound | ⟨hnone, _⟩ | ⟨hnone, _⟩
    · exact hne (Option.some.inj (hfind.symm.trans hfound))
    · rw [hfind] at hnone
      cases hnone
    · rw [hfind] at hnone
      cases hnone
  have hothers : ∀ i, i ≠ placed.2.2 → (placed.1.setEntry placed.2.2
      ⟨s.bytes, ready.2.2, rank.origin, rank.admission, placed.1.uses⟩).entry i =
      if Entry.goes dropped (t.entry i) then .zero else t.entry i := fun i hne => by
    rw [hentry, if_neg (Ne.symm hne), hsame i hne, entry_setValue, hready.entries i]
    simp [hown i hne]
  have hread : ∀ i a, placed.1.value i = some a → ∃ b, ready.1.value i = some b ∧
      a.bytes = b.bytes ∧ a.capacity = b.capacity := fun i a ha => by
    obtain ⟨mid, hmid, hfirst⟩ := hgives.less.values i a ha
    rw [value_setValue _ hlt] at hmid
    split at hmid
    case isTrue heq =>
      subst heq
      rw [hfirst, ← Option.some.inj hmid]
      exact ⟨held, hheld, rfl, rfl⟩
    case isFalse => exact ⟨mid, hmid, by rw [hfirst], by rw [hfirst]⟩
  have hnew : (⟨s.bytes, ready.2.2, rank.origin, rank.admission, placed.1.uses⟩ : Entry).unused =
      false := s.used rfl
  have hsound : (placed.1.setEntry placed.2.2
      ⟨s.bytes, ready.2.2, rank.origin, rank.admission, placed.1.uses⟩).Counted fun _ => 0 :=
    Counted.setEntry hinside hempty hnew
  refine ⟨_, placed, htouch, hplace, ⟨hsound, ?_, ?_, ?_, ?_, ?_, ?_⟩, ?_, ?_, ?_, hothers, ?_,
    hready.room, ?_, ?_, ?_⟩
  · intro i j a b ha hb hab
    obtain ⟨a', ha', habytes, _⟩ := hread i a ha
    obtain ⟨b', hb', hbbytes, _⟩ := hread j b hb
    rw [habytes, hbbytes] at hab
    by_cases hi : i = ready.2.2
    · by_cases hj : j = ready.2.2
      · rw [hi, hj]
      · rw [hi, hheld, Option.some.injEq] at ha'
        rw [← ha', hbytes] at hab
        exact absurd hab.symm (hready.values j hj b' hb').1
    · by_cases hj : j = ready.2.2
      · rw [hj, hheld, Option.some.injEq] at hb'
        rw [← hb', hbytes] at hab
        exact absurd hab (hready.values i hi a' ha').1
      · obtain ⟨_, was, hwas, hwasBytes, _⟩ := hready.values i hi a' ha'
        obtain ⟨_, was', hwas', hwasBytes', _⟩ := hready.values j hj b' hb'
        exact h.distinct i j was was' hwas hwas' (by rw [← hwasBytes, hab, hwasBytes'])
  · intro i a ha
    obtain ⟨a', ha', habytes, hacapacity⟩ := hread i a ha
    rw [habytes, hacapacity]
    by_cases hi : i = ready.2.2
    · rw [hi, hheld, Option.some.injEq] at ha'
      exact ha' ▸ hsizes
    · obtain ⟨_, was, hwas, hwasBytes, hwasCapacity⟩ := hready.values i hi a' ha'
      rw [hwasBytes, hwasCapacity]
      exact h.sizes i was hwas
  · exact hgives.less.bytes.trans hready.within
  · have := hgives.less.places hready.places
    simpa using this
  · intro i j hused hsession
    have hused' := hused
    rw [unused_congr hsession] at hused'
    by_cases hi : placed.2.2 = i
    · by_cases hj : placed.2.2 = j
      · rw [← hi, ← hj]
      · rw [hothers j (Ne.symm hj)] at hsession hused'
        rw [hentry i, if_pos hi] at hsession
        split at hsession
        · rw [if_pos ‹_›, Entry.zero_unused] at hused'
          cases hused'
        · exact absurd (h.find hsession.symm) (hown j (Ne.symm hj))
    · rw [hothers i (Ne.symm hi)] at hused hsession
      split at hused
      · rw [Entry.zero_unused] at hused
        cases hused
      · rename_i hstays
        rw [if_neg hstays] at hsession
        by_cases hj : placed.2.2 = j
        · rw [hentry j, if_pos hj] at hsession
          exact absurd (h.find hsession) (hown i (Ne.symm hi))
        · rw [hothers j (Ne.symm hj)] at hsession hused'
          split at hused'
          · rw [Entry.zero_unused] at hused'
            cases hused'
          · rename_i hstays'
            rw [if_neg hstays'] at hsession
            exact h.alone i j hused hsession
  · intro i hused
    by_cases hi : placed.2.2 = i
    · exact ⟨s, by rw [hentry i, if_pos hi]⟩
    · rw [hothers i (Ne.symm hi)] at hused ⊢
      split
      · rw [if_pos ‹_›, Entry.zero_unused] at hused
        cases hused
      · rw [if_neg ‹_›] at hused
        exact h.sessions i hused
  · simp [hentry]
  · simp [hentry, Entry.rank]
  · obtain ⟨last, hlast⟩ := hempty.held (i := ready.2.2) (by simp [pending])
    obtain ⟨b, hb, hlastBytes, _⟩ := hread _ last hlast
    rw [hheld, Option.some.injEq] at hb
    exact ⟨last, by simpa [hentry] using hlast, by rw [hlastBytes, ← hb, hbytes]⟩
  · intro i hne hused
    have hnamed := named_pos hused
    have hlast := hsound.held (Nat.lt_of_lt_of_le hnamed (Nat.le_add_right _ _))
    rw [hothers i hne] at hused hlast
    split at hused
    · rw [Entry.zero_unused] at hused
      cases hused
    · rename_i hstays
      rw [if_neg hstays] at hlast
      obtain ⟨last, hlast⟩ := hlast
      obtain ⟨b, hb, hlastBytes, _⟩ := hread _ last hlast
      have hentryReady : ready.1.entry i = t.entry i := by
        rw [hready.entries i, if_neg (by simp [hown i hne, hstays])]
      have hpos : 0 < ready.1.named (t.entry i).value := by
        rw [← hentryReady]
        exact named_pos (by rw [hentryReady]; exact hused)
      obtain ⟨kept, was, hkept, hwas, hkeptBytes⟩ := hready.kept _ hpos
      rw [hb, Option.some.injEq] at hkept
      subst hkept
      exact ⟨last, was, hlast, hwas, hlastBytes.trans hkeptBytes⟩
  · rcases hwhy with hfound | ⟨hnone, hunused⟩ | ⟨hnone, hfull, hall, hleast⟩
    · exact .inl hfound
    · refine .inr ⟨hnone, ?_⟩
      rw [entry_setValue, hready.entries placed.2.2] at hunused
      by_cases hgoes : Entry.goes dropped (t.entry placed.2.2)
      · exact .inr (.inl hgoes)
      · rw [if_neg (by simp [hnone, hgoes])] at hunused
        exact .inl hunused
    · have hread : ∀ i, i < maxSessions → ready.1.entry i = t.entry i := fun i hi => by
        have hused := hall i hi
        rw [entry_setValue, hready.entries i] at hused
        rw [hready.entries i]
        split at hused
        · rw [Entry.zero_unused] at hused
          cases hused
        · rw [if_neg ‹_›]
      have hlength := h.places
      have hlast : maxSessions - 1 < t.entries.length := by
        have hlt : maxSessions - 1 < maxSessions := by decide
        refine lt_of_used ?_
        rw [← hread _ hlt]
        exact hall _ hlt
      have hplaceLt : placed.2.2 < maxSessions := by
        refine Nat.lt_of_lt_of_le hinside ?_
        simpa using hgives.less.places hready.places
      refine .inr ⟨hnone, .inr (.inr ⟨by omega, fun i hi => ?_, fun i hi => ?_⟩)⟩
      · rw [← hread i hi]
        exact hall i hi
      · rw [← hread i hi, ← hread _ hplaceLt]
        exact hleast i hi
  · intro id
    have hsum := tally_set (f := owns id) (some { held with used := ready.1.uses })
      (value_eq_some.mp hheld)
    have howned := hgives.owned id
    have hbefore := hready.owned id
    rw [owns_some, owns_some] at hsum
    rw [hgives.candidate]
    simp only [holds, setValue, Table.setEntry] at hsum howned hbefore ⊢
    omega
  · rw [hgives.candidate]
    exact hready.candidate

/-- **An offer always ends**: refused by a rank no lower, or taken. -/
theorem Sound.offer (h : t.Sound) (s : Session) (rank : Rank) (hcandidate : p.candidate = some c)
    (hcapacity : c.capacity ≤ maxEnvironmentBytes) (hlength : c.bytes.length ≤ c.capacity) :
    (∃ i, t.find s.bytes = some i ∧ rank.outranks (t.entry i).rank = false ∧
      t.offer s rank p = some (t, p)) ∨
    ((∀ i, t.find s.bytes = some i → rank.outranks (t.entry i).rank = true) ∧
      ∃ r dropped place, t.offer s rank p = some r ∧ t.Offered p s rank c dropped place r) := by
  by_cases hrefused : (t.find s.bytes).any fun index => !rank.outranks (t.entry index).rank
  · obtain ⟨i, hfind, hrank⟩ : ∃ i, t.find s.bytes = some i ∧
        rank.outranks (t.entry i).rank = false := by
      cases hfind : t.find s.bytes with
      | none => simp [hfind] at hrefused
      | some i => exact ⟨i, rfl, by simpa [hfind] using hrefused⟩
    refine .inl ⟨i, hfind, hrank, ?_⟩
    simp only [Table.offer, hcandidate, Option.bind_eq_bind, Option.bind_some, hrefused, if_true]
  · refine .inr ⟨fun i hfind => ?_, ?_⟩
    · simpa [hfind] using hrefused
    · cases hequal : t.equalValue c.bytes with
      | some v =>
        obtain ⟨table, forgot, ready, hhold, hforget, hinstall, hready⟩ :=
          h.ready_equal (s := s) hcandidate hequal
        obtain ⟨used, placed, htouch, hplace, hoffered⟩ := hready.settle h rank
        refine ⟨_, [], _, ?_, hoffered⟩
        simp only [Table.offer, hcandidate, Option.bind_eq_bind, Option.bind_some, if_neg hrefused]
        simp only [hequal, hhold, Option.bind_some, hforget, hinstall, htouch, hplace]
      | none =>
        obtain ⟨forgot, dropped, ready, hforget, hinstall, hready⟩ :=
          h.ready_fresh (s := s) (p := p) hcapacity hlength hequal
        obtain ⟨used, placed, htouch, hplace, hoffered⟩ := hready.settle h rank
        refine ⟨_, dropped, _, ?_, hoffered⟩
        simp only [Table.offer, hcandidate, Option.bind_eq_bind, Option.bind_some, if_neg hrefused]
        simp only [hequal, hold, Option.bind_some, hforget, hinstall, htouch, hplace]

end Table

end Rui.SessionEnvironments
