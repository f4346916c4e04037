import Rui.SessionEnvironments.Runs

/-!
# The register over every run

Every call of a run ends, the counts are exact after it, and each Session has
what the rule says.
-/

namespace Rui.SessionEnvironments
open Library

namespace Table

variable {t : Table} {p : Offer} {s : Session} {c : Interned}

/-! ## One Session's environment -/

theorem environmentOf_none (h : ∀ i, (t.entry i).session ≠ s.bytes) : t.environmentOf s = none := by
  cases hfind : t.find s.bytes with
  | none => simp [environmentOf, hfind]
  | some i => exact absurd (find_some hfind) (h i)

variable {i : Nat} {held : Interned} {s' : Session}

theorem Sound.environmentOf (h : t.Sound) (hsession : (t.entry i).session = s.bytes)
    (hheld : t.value (t.entry i).value = some held) :
    t.environmentOf s = some ((t.entry i).rank, held.bytes) := by
  simp [Table.environmentOf, h.find hsession, hheld]

theorem Sound.entryOf (h : t.Sound) (hfind : t.find s.bytes = some i) :
    (t.entry i).session = s.bytes ∧ (t.entry i).unused = false ∧
      ∃ held, t.value (t.entry i).value = some held ∧
        t.environmentOf s = some ((t.entry i).rank, held.bytes) := by
  have hsession := find_some hfind
  have hused := s.used hsession
  obtain ⟨held, hheld⟩ := h.exact.names i hused
  exact ⟨hsession, hused, held, hheld, h.environmentOf hsession hheld⟩

variable {rank : Rank} {dropped : List Nat} {place : Nat} {r : Table × Offer}

theorem Offered.own (h : t.Offered p s rank c dropped place r) :
    r.1.environmentOf s = some (rank, c.bytes) := by
  obtain ⟨held, hheld, hbytes⟩ := h.value
  rw [h.sound.environmentOf h.session hheld, h.rank, hbytes]

theorem Offered.stays (h : t.Offered p s rank c dropped place r) (hother : s.bytes ≠ s'.bytes)
    {j : Nat} (hsession : (r.1.entry j).session = s'.bytes) :
    j ≠ place ∧ r.1.entry j = t.entry j ∧ Entry.goes dropped (t.entry j) = false := by
  have hne : j ≠ place := fun heq => hother (by rw [← h.session, ← heq, hsession])
  have hused := s'.used hsession
  rw [h.others j hne] at hused ⊢
  split at hused
  · rw [Entry.zero_unused] at hused
    cases hused
  · rename_i hgoes
    exact ⟨hne, by rw [if_neg hgoes], by simpa using hgoes⟩

/-- **Another Session's environment** stays, or is replaced to make room. -/
theorem Offered.other (h : t.Sound) (hoffered : t.Offered p s rank c dropped place r)
    (hother : s.bytes ≠ s'.bytes) :
    r.1.environmentOf s' = t.environmentOf s' ∨ ∃ i, t.find s'.bytes = some i ∧
      r.1.environmentOf s' = none ∧ t.Replaces s c.capacity i := by
  cases hfind : t.find s'.bytes with
  | none =>
    left
    rw [environmentOf_none (t := t) (find_none hfind), environmentOf_none]
    intro j hsession
    obtain ⟨_, hsame, _⟩ := hoffered.stays hother hsession
    exact find_none hfind j (hsame ▸ hsession)
  | some i =>
    obtain ⟨hsession, hused, held, hheld, henvironment⟩ := h.entryOf hfind
    have hgone : (i = place ∨ Entry.goes dropped (t.entry i) = true) →
        r.1.environmentOf s' = none := fun hwhy => by
      refine environmentOf_none fun j hj => ?_
      obtain ⟨hne, hsame, hgoes⟩ := hoffered.stays hother hj
      rw [hsame] at hj
      have hij : i = j := h.alone i j hused (hsession.trans hj.symm)
      rcases hwhy with hplace | hgoing
      · exact hne (hij ▸ hplace)
      · rw [hij, hgoes] at hgoing
        cases hgoing
    have hdrops : Entry.goes dropped (t.entry i) = true → t.Replaces s c.capacity i := fun hgoes =>
      .inl ⟨dropped, hoffered.room, by
        simp only [Entry.goes, Bool.and_eq_true, List.contains_iff_mem] at hgoes
        exact hgoes.2⟩
    by_cases hplace : i = place
    · refine .inr ⟨i, rfl, hgone (.inl hplace), ?_⟩
      rcases hoffered.placed with hown | ⟨_, hunused | hgoes | hevicted⟩
      · exact absurd (hsession ▸ hplace ▸ find_some hown) (Ne.symm hother)
      · rw [← hplace, hused] at hunused
        cases hunused
      · exact hdrops (hplace ▸ hgoes)
      · exact .inr (hplace ▸ hevicted)
    · by_cases hgoes : Entry.goes dropped (t.entry i)
      · exact .inr ⟨i, rfl, hgone (.inr hgoes), hdrops hgoes⟩
      · have hsame : r.1.entry i = t.entry i := by rw [hoffered.others i hplace, if_neg hgoes]
        obtain ⟨last, was, hlast, hwas, hbytes⟩ := hoffered.kept i hplace (by rw [hsame, hused])
        rw [hheld, Option.some.injEq] at hwas
        left
        rw [henvironment, hoffered.sound.environmentOf (i := i) (hsame ▸ hsession) (hsame ▸ hlast),
          hsame, hbytes, ← hwas]

/-! ## A copy -/

/-- What a look finds in an environment. -/
def Look.of (length : Nat) : Option (Rank × List UInt8) → Look
  | none => .missing
  | some environment =>
    if environment.2.length ≠ length then .length environment.2.length else .bytes environment.2

theorem Sound.used (h : t.Sound) {place : Nat} (uses : Nat) (hused : (t.entry place).unused = false)
    (hheld : t.value (t.entry place).value = some held) :
    let t' := ({ t with uses } : Table).setEntry place { t.entry place with used := uses }
    let t'' := t'.setValue (t.entry place).value (some { held with used := uses })
    t''.Sound ∧ (∀ s, t''.environmentOf s = t.environmentOf s) ∧
      ∀ id, t''.holds id = t.holds id := by
  intro t' t''
  have hplace := lt_of_used hused
  have hlt := lt_of_value hheld
  have hentry : ∀ i, t''.entry i = { t.entry i with used := (t''.entry i).used } := fun i => by
    have : t''.entry i = _ := entry_setEntry (t := { t with uses }) (j := i) _ hplace
    rw [this]
    split
    case isTrue heq => rw [← heq]
    case isFalse => rfl
  have hsession : ∀ i, (t''.entry i).session = (t.entry i).session := fun i => by rw [hentry i]
  have hunused : ∀ i, (t''.entry i).unused = (t.entry i).unused := fun i =>
    unused_congr (hsession i)
  have hvalue : ∀ i, t''.value i =
      if (t.entry place).value = i then some { held with used := uses } else t.value i := fun i =>
    value_setValue (t := t') _ hlt
  have hback : ∀ i a, t''.value i = some a →
      ∃ b, t.value i = some b ∧ a.bytes = b.bytes ∧ a.capacity = b.capacity := fun i a ha => by
    rw [hvalue] at ha
    split at ha
    case isTrue heq => exact ⟨held, heq ▸ hheld, by rw [← Option.some.inj ha]; simp⟩
    case isFalse => exact ⟨a, ha, rfl, rfl⟩
  have hcounted : t''.Counted fun _ => 0 := by
    have hmid : t'.Counted fun _ => 0 := h.counted.rewrite rfl rfl rfl fun index => by
      have := named_setEntry (t := { t with uses }) index { t.entry place with used := uses } hplace
      change t'.named index + (t.entry place).names index = t.named index +
        (t.entry place).names index at this
      omega
    have hmidHeld : t'.value (t.entry place).value = some held := hheld
    exact (touch_spec hmid hmidHeld).2
  have hsound : t''.Sound := by
    refine ⟨hcounted, fun i j a b ha hb hab => ?_, fun i a ha => ?_, h.within, ?_,
      fun i j hi hij => ?_, fun i hi => ?_⟩
    · obtain ⟨a', ha', habytes, _⟩ := hback i a ha
      obtain ⟨b', hb', hbbytes, _⟩ := hback j b hb
      exact h.distinct i j a' b' ha' hb' (by rw [← habytes, hab, hbbytes])
    · obtain ⟨a', ha', habytes, hacapacity⟩ := hback i a ha
      rw [habytes, hacapacity]
      exact h.sizes i a' ha'
    · have := h.places
      simpa [t'', t', setEntry, setValue] using this
    · rw [hsession, hsession] at hij
      exact h.alone i j (hunused i ▸ hi) hij
    · rw [hsession]
      exact h.sessions i (hunused i ▸ hi)
  refine ⟨hsound, fun s => ?_, fun id => ?_⟩
  · cases hfind : t.find s.bytes with
    | none =>
      rw [environmentOf_none (t := t) (find_none hfind), environmentOf_none]
      exact fun i => by rw [hsession]; exact find_none hfind i
    | some i =>
      obtain ⟨hi, _, was, hwas, henvironment⟩ := h.entryOf hfind
      have hread : ∃ last, t''.value (t''.entry i).value = some last ∧ last.bytes = was.bytes := by
        rw [hentry i, hvalue]
        simp only
        split
        case isTrue heq =>
          rw [← heq, hheld, Option.some.injEq] at hwas
          exact ⟨_, rfl, by rw [← hwas]⟩
        case isFalse => exact ⟨was, hwas, rfl⟩
      obtain ⟨last, hlast, hbytes⟩ := hread
      rw [henvironment, hsound.environmentOf ((hsession i).trans hi) hlast, hbytes, hentry i]
      rfl
  · have hsum := tally_set (f := owns id) (some { held with used := uses })
      (value_eq_some.mp hheld)
    rw [owns_some, owns_some] at hsum
    change tally (owns id) (t.values.set _ _) = tally (owns id) t.values
    simp only at hsum
    omega

/-- **A look** tells what the Session holds, and changes no environment. -/
theorem Sound.look (h : t.Sound) (s : Session) (length : Nat) :
    ∃ t', t.look s length = some (Look.of length (t.environmentOf s), t') ∧ t'.Sound ∧
      (∀ s', t'.environmentOf s' = t.environmentOf s') ∧ ∀ id, t'.holds id = t.holds id := by
  unfold Table.look
  cases hfind : t.find s.bytes with
  | none =>
    refine ⟨t, ?_, h, fun _ => rfl, fun _ => rfl⟩
    rw [environmentOf_none (find_none hfind)]
    rfl
  | some i =>
    obtain ⟨_, hused, held, hheld, henvironment⟩ := h.entryOf hfind
    rw [henvironment]
    by_cases hlength : held.bytes.length = length
    · obtain ⟨hsound, hsame, hholds⟩ := h.used (t.uses + 1) hused hheld
      refine ⟨_, ?_, hsound, hsame, hholds⟩
      have htouched : (({ t with uses := t.uses + 1 } : Table).setEntry i
          { t.entry i with used := t.uses + 1 }).touch (t.entry i).value =
          some ((({ t with uses := t.uses + 1 } : Table).setEntry i
            { t.entry i with used := t.uses + 1 }).setValue (t.entry i).value
              (some { held with used := t.uses + 1 })) := by
        simp only [touch, value_setEntry]
        rw [show ({ t with uses := t.uses + 1 } : Table).value (t.entry i).value = some held from hheld]
        rfl
      simp only [hheld, Option.bind_eq_bind, Option.bind_some, hlength, ne_eq, not_true, if_false,
        Look.of]
      rw [show ({ t with uses := t.uses + 1 } : Table).entry i = t.entry i from rfl, htouched,
        Option.bind_some]
    · refine ⟨t, ?_, h, fun _ => rfl, fun _ => rfl⟩
      simp [hheld, Look.of, hlength]

theorem sound_empty : Table.empty.Sound := by
  have hentry : ∀ i, Table.empty.entry i = .zero := fun i => entry_of_le (Nat.zero_le i)
  have hvalue : ∀ i, Table.empty.value i = none := fun i => by
    simp only [Table.value, Table.empty, List.getElem?_replicate]
    split <;> rfl
  have hnone : ∀ i, ¬ (Table.empty.entry i).unused = false := fun i => by simp [hentry]
  have hzero : ∀ f : Option Interned → Nat, f none = 0 → tally f Table.empty.values = 0 :=
    fun f hf => tally_eq_zero.mpr fun value hin => by rw [List.eq_of_mem_replicate hin, hf]
  refine ⟨⟨by simp [Table.empty], fun i held h => ?_, fun i held h => ?_, fun _ _ => rfl,
    (hzero one rfl).symm, (hzero weight rfl).symm⟩, fun i j a b h => ?_, fun i a h => ?_,
    Nat.zero_le _, Nat.zero_le _, fun i j h => absurd h (hnone i), fun i h => absurd h (hnone i)⟩
  all_goals
    rw [hvalue] at h
    cases h

end Table

/-! ## Allocations over a run -/

theorem count_ids (values : List (Option Interned)) (id : Nat) :
    (values.filterMap fun value => value.map (·.id)).count id = tally (owns id) values := by
  induction values with
  | nil => rfl
  | cons value values ih =>
    cases value with
    | none => simpa using ih
    | some held =>
      simp only [List.filterMap_cons, Option.map_some, List.count_cons, tally_cons, owns_some, ih,
        beq_iff_eq]
      omega

theorem Offer.count_released (self : Offer) (id : Nat) :
    (self.released.map (·.id)).count id = self.frees id := by
  unfold Offer.frees
  induction self.released with
  | nil => rfl
  | cons held rest ih =>
    simp only [List.map_cons, List.count_cons, tally_cons, ih, beq_iff_eq]
    omega

namespace World

/-- The table is sound, and each allocation it took it holds or has released, once. -/
structure Sound (w : World) : Prop where
  table : w.table.Sound
  owned : ∀ id, w.table.holds id + w.freed.count id = w.taken.count id
  once : w.taken.Nodup
  born : ∀ id ∈ w.taken, id < w.born

theorem sound_empty : World.empty.Sound := by
  refine ⟨Table.sound_empty, fun id => ?_, List.nodup_nil, fun id h => (by cases h)⟩
  rw [Table.holds, tally_eq_zero.mpr fun value hin => ?_]
  · rfl
  · rw [List.eq_of_mem_replicate hin, owns_none]

theorem Sound.step {w : World} (h : w.Sound) (call : Call) :
    ∃ w', w.step call = some w' ∧ w'.Sound ∧
      (∀ s i, w.table.find s.bytes = some i → w.Keeps call w' s i) ∧
      ∀ s, (w.table.environmentOf s ≠ none → w'.table.environmentOf s ≠ none) →
        w'.table.environmentOf s = (offersTo s [call]).foldl raise (w.table.environmentOf s) := by
  cases call with
  | look s length =>
    obtain ⟨t', hlook, hsound, hsame, hholds⟩ := h.table.look s length
    refine ⟨{ w with table := t' }, by simp [World.step, hlook],
      ⟨hsound, fun id => by rw [hholds, h.owned], h.once, h.born⟩, fun s' i _ => .inl (hsame s'),
      fun s' _ => by simpa [offersTo] using hsame s'⟩
  | offer s rank environment =>
    rcases h.table.offer s rank (p := w.prepare environment) rfl environment.bounded
      environment.fits with ⟨i, hfind, hrank, hoffer⟩ | ⟨hhigher, r, dropped, place, hoffer, htaken⟩
    · refine ⟨⟨w.table, w.born + 1, w.taken, w.freed⟩, by
          rw [World.step, hoffer, Option.map_some]
          rfl,
        ⟨h.table, h.owned, h.once, fun id hid => Nat.lt_succ_of_lt (h.born id hid)⟩,
        fun _ _ _ => .inl rfl, fun s' _ => ?_⟩
      by_cases hs : s.bytes = s'.bytes
      · obtain ⟨_, _, held, _, henvironment⟩ := h.table.entryOf (hs ▸ hfind)
        rw [henvironment]
        simp [offersTo, hs, raise, hrank]
      · simp [offersTo, hs]
    · refine ⟨⟨r.1, w.born + 1, if r.2.candidate.isNone then w.born :: w.taken else w.taken,
        r.2.released.map (·.id) ++ w.freed⟩, by simp [World.step, hoffer], ⟨htaken.sound,
        fun id => ?_, ?_, fun id hid => ?_⟩, fun s' i hfind => ?_, fun s' hkept => ?_⟩
      · have howned := htaken.owned id
        have hbefore := h.owned id
        have hempty : (w.prepare environment).frees id = 0 := rfl
        rw [List.count_append, Offer.count_released]
        rcases htaken.candidate with hnone | hsame
        · simp only [hnone, Option.isNone_none, true_and, if_true, List.count_cons, beq_iff_eq]
            at howned ⊢
          omega
        · rw [hsame] at howned ⊢
          simp only [prepare, Option.isNone_some, reduceCtorEq, false_and, if_false,
            Bool.false_eq_true] at howned ⊢
          simp only [prepare] at hempty
          omega
      · split
        · exact List.nodup_cons.mpr ⟨fun hin => absurd (h.born _ hin) (Nat.lt_irrefl _), h.once⟩
        · exact h.once
      · simp only at hid
        split at hid
        · rcases List.mem_cons.mp hid with rfl | hid
          · exact Nat.lt_succ_self _
          · exact Nat.lt_succ_of_lt (h.born id hid)
        · exact Nat.lt_succ_of_lt (h.born id hid)
      · by_cases hs : s.bytes = s'.bytes
        · obtain rfl : s = s' := by
            cases s
            cases s'
            simpa using hs
          exact .inr (.inl ⟨rank, environment, rfl, hhigher i hfind, htaken.own⟩)
        · rcases htaken.other h.table hs with hsame | ⟨j, hj, hgone, hwhy⟩
          · exact .inl hsame
          · rw [hfind, Option.some.injEq] at hj
            exact .inr (.inr ⟨s, rank, environment, rfl, hs, hgone, hj ▸ hwhy⟩)
      · by_cases hs : s.bytes = s'.bytes
        · obtain rfl : s = s' := by
            cases s
            cases s'
            simpa using hs
          rw [htaken.own]
          cases hfind : w.table.find s.bytes with
          | none =>
            rw [Table.environmentOf_none (Table.find_none hfind)]
            simp [offersTo, raise]
          | some i =>
            obtain ⟨_, _, held, _, henvironment⟩ := h.table.entryOf hfind
            rw [henvironment]
            simp [offersTo, raise, hhigher i hfind]
        · rcases htaken.other h.table hs with hsame | ⟨j, hj, hgone, _⟩
          · simpa [offersTo, hs] using hsame
          · obtain ⟨_, _, held, _, henvironment⟩ := h.table.entryOf hj
            exact absurd hgone (hkept (by rw [henvironment]; simp))

theorem Sound.run {w : World} (h : w.Sound) (calls : List Call) :
    ∃ w', w.run calls = some w' ∧ w'.Sound := by
  induction calls generalizing w with
  | nil => exact ⟨w, rfl, h⟩
  | cons call rest ih =>
    obtain ⟨next, hnext, hsound, _⟩ := h.step call
    obtain ⟨w', hrun, hlast⟩ := ih hsound
    exact ⟨w', by rw [World.run, hnext, Option.bind_some, hrun], hlast⟩

variable {w : World} {calls : List Call}

/-- While nothing is replaced, a Session's environment follows what is offered. -/
theorem Sound.follows {w' : World} (h : w.Sound) (hkept : w.Unreplaced calls)
    (hrun : w.run calls = some w') (s : Session) :
    w'.table.environmentOf s = (offersTo s calls).foldl raise (w.table.environmentOf s) := by
  induction calls generalizing w with
  | nil =>
    rw [World.run, Option.some.injEq] at hrun
    rw [hrun]
    rfl
  | cons call rest ih =>
    obtain ⟨next, hnext, hsound, _, hfollows⟩ := h.step call
    obtain ⟨hstays, hrest⟩ := hkept next hnext
    rw [World.run, hnext, Option.bind_some] at hrun
    rw [ih hsound hrest hrun, hfollows s (hstays s), ← List.foldl_append, offersTo, offersTo,
      offersTo, ← List.filterMap_append, List.singleton_append]

theorem Sound.highest (hkept : World.empty.Unreplaced calls) (hrun : World.empty.run calls = some w)
    (s : Session) : Highest (offersTo s calls) (w.table.environmentOf s) := by
  rw [sound_empty.follows hkept hrun s]
  have hstart : World.empty.table.environmentOf s = none :=
    Table.environmentOf_none fun i hi => by
      have hused := s.used hi
      rw [Table.entry_of_le (Nat.zero_le i), Entry.zero_unused] at hused
      cases hused
  have hnothing : Highest [] none := rfl
  rw [hstart]
  exact hnothing.foldl

end World

/-- **Every sequence of offers and copies** ends with the table exact: its counts
and sums, one entry a Session, no value held twice, each allocation taken held
or released once. Every further call ends, keeps each Session's environment but
for a higher rank or for room, and tells a copy what the Session holds. While
nothing is replaced for room, each Session holds the highest-ranked environment
offered to it, in whatever order. -/
theorem session_environments_hold (calls : List Call) :
    ∃ w, World.empty.run calls = some w ∧ w.table.Exact ∧ w.taken.Nodup ∧
      (w.held ++ w.freed).Perm w.taken ∧
      (∀ call, ∃ w', w.step call = some w' ∧
        ∀ s i, w.table.find s.bytes = some i → w.Keeps call w' s i) ∧
      (∀ s length, ∃ t', w.table.look s length =
        some (Table.Look.of length (w.table.environmentOf s), t')) ∧
      (World.empty.Unreplaced calls → ∀ s, Highest (offersTo s calls) (w.table.environmentOf s) ∧
        ∀ calls' w', World.empty.run calls' = some w' → World.empty.Unreplaced calls' →
          (offersTo s calls).Perm (offersTo s calls') →
          (∀ a ∈ offersTo s calls, ∀ b ∈ offersTo s calls, a.1 = b.1 → a.2 = b.2) →
          w'.table.environmentOf s = w.table.environmentOf s) := by
  obtain ⟨w, hrun, hsound⟩ := World.sound_empty.run calls
  refine ⟨w, hrun, hsound.table.exact, hsound.once, ?_, fun call => ?_, fun s length => ?_,
    fun hkept s => ?_⟩
  · refine List.perm_iff_count.mpr fun id => ?_
    rw [List.count_append, World.held, count_ids]
    exact hsound.owned id
  · obtain ⟨w', hstep, _, hkeeps, _⟩ := hsound.step call
    exact ⟨w', hstep, hkeeps⟩
  · obtain ⟨t', hlook, _⟩ := hsound.table.look s length
    exact ⟨t', hlook⟩
  · have hhighest := World.Sound.highest hkept hrun s
    refine ⟨hhighest, fun calls' w' hrun' hkept' hperm htie => ?_⟩
    exact (hhighest.unique (World.Sound.highest hkept' hrun' s) hperm htie).symm

end Rui.SessionEnvironments
