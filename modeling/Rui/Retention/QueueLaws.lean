import Rui.Retention.Queue

/-!
# Every charge has one owner

The counter is the sum of what the threads hold and what the kept entries are
charged with. A thread that removes a file is the only one to do so, and its
entry stays as it left it until it says how the removal went.
-/

namespace Rui.Retention
open Library

/-- What an entry owns of the counter. -/
def Entry.charge (e : Entry) : Nat :=
  match e.state with
  | .retained | .evicting | .failed => e.charged
  | .free | .reserved => 0

/-- The entry a thread removes the file of, and what it remembers of it: the
generation, the charge and the file's name. -/
def Task.removes : Task → Option (Nat × Nat × Nat × List UInt8)
  | .removal _ index generation charged name _ => some (index, generation, charged, name)
  | _ => none

def Evicting.Within (total : Nat) : Evicting → Prop
  | .reserving _ => True
  | .reclaiming _ limit => limit ≤ total

/-- The limits a thread works with are within the budget's. -/
def Task.Within (total : Nat) : Task → Prop
  | .loading _ limit _ => limit ≤ total
  | .charging amount limit seen _ => limit ≤ total ∧ seen + amount ≤ limit
  | .loadingUpTo _ limit _ => limit ≤ total
  | .chargingUpTo _ limit seen _ => limit ≤ total ∧ seen < limit
  | .evicting on => on.Within total
  | .removal _ _ _ _ _ (.evicting on) => on.Within total
  | _ => True

/-- A task that removes nothing and keeps within the budget. -/
def Task.Plain (total : Nat) (task : Task) : Prop := task.Within total ∧ task.removes = none

variable {total limit amount seen : Nat}

theorem beginCharge_plain (charging : Charging) (h : limit ≤ total) :
    (beginCharge total amount limit charging).Plain total := by
  unfold beginCharge
  split
  · exact ⟨h, rfl⟩
  · cases charging with
    | plain => exact ⟨trivial, rfl⟩
    | allocating reclaims =>
      dsimp only
      split
      · exact ⟨trivial, rfl⟩
      · split
        · exact ⟨Nat.min_le_left _ _, rfl⟩
        · exact ⟨Nat.min_le_left _ _, rfl⟩
    | reclaiming => exact ⟨h, rfl⟩

theorem tryCharge_plain (charging : Charging) (h : limit ≤ total) :
    (tryCharge total amount limit seen charging).Plain total := by
  unfold tryCharge
  split
  · rename_i hroom
    exact ⟨⟨h, hroom.2⟩, rfl⟩
  · cases charging with
    | plain => exact ⟨trivial, rfl⟩
    | allocating reclaims =>
      simp only [refused]
      split
      · exact beginCharge_plain _ (Nat.min_le_left _ _)
      · exact ⟨trivial, rfl⟩
    | reclaiming => exact ⟨h, rfl⟩

theorem tryChargeUpTo_plain {maximum : Nat} (reclaims : Bool) (h : limit ≤ total) :
    (tryChargeUpTo total maximum limit seen reclaims).Plain total := by
  unfold tryChargeUpTo
  split
  · rename_i hroom
    exact ⟨⟨h, hroom.1⟩, rfl⟩
  · split
    · exact beginCharge_plain _ (Nat.min_le_left _ _)
    · exact ⟨trivial, rfl⟩

namespace World

variable {w w' : World} {i : Nat} {t t' : Thread}

/-- The invariant of every run. -/
structure Sound (w : World) : Prop where
  sum : w.used = tally Thread.held w.threads + tally Entry.charge w.entries
  within : w.used ≤ w.limit
  tasks : ∀ t ∈ w.threads, t.task.Within w.limit
  matching : ∀ (j : Nat) (t : Thread) (k g : Nat) (c : Nat × List UInt8),
    w.threads[j]? = some t → t.task.removes = some (k, g, c) →
    ∃ e : Entry, w.entries[k]? = some e ∧ e.state = .evicting ∧ e.generation = g ∧
      (e.charged, e.name) = c
  alone : ∀ (j j' : Nat) (t t' : Thread) (k g g' : Nat) (c c' : Nat × List UInt8),
    w.threads[j]? = some t → w.threads[j']? = some t' →
    t.task.removes = some (k, g, c) → t'.task.removes = some (k, g', c') → j = j'

/-- **What a step may do**: it moves charges without losing any, and leaves the
entries that other threads are removing. -/
theorem Sound.update (h : w.Sound) (ht : w.threads[i]? = some t) (t' : Thread)
    (hthreads : w'.threads = w.threads.set i t') (hlimit : w'.limit = w.limit)
    (hsum : w'.used + t.held + tally Entry.charge w.entries =
      w.used + t'.held + tally Entry.charge w'.entries)
    (hle : w'.used ≤ w.limit) (htask : t'.task.Within w.limit)
    (hmine : ∀ k g c, t'.task.removes = some (k, g, c) →
      (∃ e : Entry, w'.entries[k]? = some e ∧ e.state = .evicting ∧ e.generation = g ∧
        (e.charged, e.name) = c) ∧
        (t.task.removes = some (k, g, c) ∨
          ∀ e : Entry, w.entries[k]? = some e → e.state ≠ .evicting))
    (hothers : ∀ (k : Nat) (e : Entry), w.entries[k]? = some e → e.state = .evicting →
      (∀ g c, t.task.removes ≠ some (k, g, c)) → w'.entries[k]? = some e) : w'.Sound := by
  have hheld := tally_set (f := Thread.held) t' ht
  have hbefore := h.sum
  have hlt : i < w.threads.length := (List.getElem?_eq_some_iff.mp ht).1
  have hread : ∀ j, w'.threads[j]? = if i = j then some t' else w.threads[j]? := fun j => by
    rw [hthreads, List.getElem?_set]
    by_cases hij : i = j
    · rw [if_pos hij, if_pos hij, if_pos hlt]
    · rw [if_neg hij, if_neg hij]
  -- A removal of the thread at work is not that of another thread.
  have hown : ∀ j u k g g' c c', j ≠ i → w.threads[j]? = some u →
      u.task.removes = some (k, g, c) → t'.task.removes = some (k, g', c') → False := by
    intro j u k g g' c c' hne hu hremoves hmineRemoves
    obtain ⟨e, he, hstate, _⟩ := h.matching j u k g c hu hremoves
    rcases (hmine k g' c' hmineRemoves).2 with hsame | hfree
    · exact hne (h.alone j i u t k g g' c c' hu ht hremoves hsame)
    · exact hfree e he hstate
  refine ⟨by rw [hthreads]; omega, by rw [hlimit]; exact hle, fun u hu => ?_,
    fun j u k g c hu hremoves => ?_, fun j j' u u' k g g' c c' hu hu' hremoves hremoves' => ?_⟩
  · rw [hlimit]
    rw [hthreads] at hu
    rcases List.mem_or_eq_of_mem_set hu with hu | rfl
    · exact h.tasks u hu
    · exact htask
  · rw [hread] at hu
    split at hu
    case isTrue =>
      rw [← Option.some.inj hu] at hremoves
      exact (hmine k g c hremoves).1
    case isFalse hne =>
      obtain ⟨e, he, hstate, hrest⟩ := h.matching j u k g c hu hremoves
      refine ⟨e, hothers k e he hstate fun g' c' hsame => ?_, hstate, hrest⟩
      exact hne (h.alone i j t u k g' g c' c ht hu hsame hremoves)
  · rw [hread] at hu hu'
    split at hu
    case isTrue heq =>
      split at hu'
      case isTrue heq' => rw [← heq, ← heq']
      case isFalse hne' =>
        rw [← Option.some.inj hu] at hremoves
        exact (hown j' u' k g' g c' c (Ne.symm hne') hu' hremoves' hremoves).elim
    case isFalse hne =>
      split at hu'
      case isTrue heq' =>
        rw [← Option.some.inj hu'] at hremoves'
        exact (hown j u k g g' c c' (Ne.symm hne) hu hremoves hremoves').elim
      case isFalse => exact h.alone j j' u u' k g g' c c' hu hu' hremoves hremoves'

/-! ## What a step does to the entries -/

/-- How one step of a thread changes an entry. -/
inductive Moves (w : World) (task : Task) (w' : World) (index : Nat) : Entry → Entry → Prop
  | same {e : Entry} : Moves w task w' index e e
  | reserved {e e' : Entry} (before : e.state = .free) (after : e'.state = .reserved) :
    Moves w task w' index e e'
  | published {e : Entry} (before : e.state = .reserved) :
    Moves w task w' index e { e with state := .retained }
  | cancelled {e : Entry} (before : e.state = .reserved) :
    Moves w task w' index e (.emptied e.generation)
  | evicted {e : Entry} (before : e.state = .retained)
    (oldest : ∀ (k : Nat) (other : Entry), w.entries[k]? = some other → other.state = .retained →
      e.sequence ≤ other.sequence) :
    Moves w task w' index e { e with state := .evicting }
  | cleaned {e : Entry} (before : e.state = .retained ∨ e.state = .failed)
    (cleaning : task = .cleaning index) :
    Moves w task w' index e { e with state := .evicting }
  | failed {e : Entry} {on : Removing} (before : e.state = .evicting)
    (removal : task = .removal .unremoved index e.generation e.charged e.name on) :
    Moves w task w' index e { e with state := .failed }
  | freed {e : Entry} {on : Removing} (before : e.state = .evicting)
    (removal : task = .removal .removed index e.generation e.charged e.name on)
    (released : w'.used + e.charged = w.used) :
    Moves w task w' index e (.emptied e.generation)

/-- What a step leaves, and how it came there. -/
structure Follows (w : World) (i : Nat) (t : Thread) (act : Act) (w' : World) : Prop where
  sound : w'.Sound
  limit : w'.limit = w.limit
  entries : ∀ index e, w.entries[index]? = some e →
    ∃ e', w'.entries[index]? = some e' ∧ Moves w t.task w' index e e'
  others : ∀ (j : Nat) (u : Thread), j ≠ i → w'.threads[j]? = some u →
    w.threads[j]? = some u ∨ u.task = .idle
  confirmed : ∀ (u : Thread) index g c name on, w'.threads[i]? = some u →
    u.task = .removal .removed index g c name on →
      act = .remove true ∧ t.task = .removal .removing index g c name on

/-- A step that crashes nothing, and follows the rules if it is taken. -/
def Good (w : World) (i : Nat) (t : Thread) (act : Act) : Outcome → Prop
  | .refused => True
  | .crashed => False
  | .next w' => w.Follows i t act w'

/-! ## Steps that touch no entry -/

variable {act : Act} {task : Task} {g c k : Nat} {name : List UInt8} {on : Removing} {e : Entry}

theorem not_removed_of_plain (h : task.removes = none) {index : Nat} :
    task ≠ .removal .removed index g c name on := by
  rintro rfl
  cases h

theorem getElem?_setThread (ht : w.threads[i]? = some t) :
    (w.threads.set i t')[i]? = some t' :=
  List.getElem?_set_self (List.getElem?_eq_some_iff.mp ht).1

theorem unconfirmed (ht : w.threads[i]? = some t) (t' : Thread)
    (hthreads : w'.threads = w.threads.set i t') (hplain : t'.task.removes = none)
    (u : Thread) (index g c : Nat) (name : List UInt8) (on : Removing) (hu : w'.threads[i]? = some u)
    (htask : u.task = .removal .removed index g c name on) :
    act = .remove true ∧ t.task = .removal .removing index g c name on := by
  rw [hthreads, getElem?_setThread ht, Option.some.injEq] at hu
  rw [← hu] at htask
  exact absurd htask (not_removed_of_plain hplain)

theorem others_set (t' : Thread) (hthreads : w'.threads = w.threads.set i t') (j : Nat)
    (u : Thread) (hj : j ≠ i) (hu : w'.threads[j]? = some u) :
    w.threads[j]? = some u ∨ u.task = .idle := by
  rw [hthreads, List.getElem?_set_ne (Ne.symm hj)] at hu
  exact .inl hu

/-- The counter and a thread's charges move together. -/
theorem Sound.charges (h : w.Sound) (ht : w.threads[i]? = some t) (used held : Nat)
    (hsum : used + t.held = w.used + held) (hle : used ≤ w.limit) (hplain : task.Plain w.limit) :
    w.Follows i t act (({ w with used } : World).setThread i { held, task }) := by
  refine ⟨h.update ht { held, task } rfl rfl ?_ hle hplain.1 (fun k g c hremoves => ?_)
    (fun k e he _ _ => he), rfl, fun index e he => ⟨e, he, .same⟩,
    others_set { held, task } rfl, unconfirmed ht { held, task } rfl hplain.2⟩
  · simp only [setThread]
    omega
  · rw [hplain.2] at hremoves
    cases hremoves

theorem Sound.goOn (h : w.Sound) (ht : w.threads[i]? = some t) (hplain : task.Plain w.limit) :
    w.Good i t act (w.goOn i t task) :=
  h.charges ht w.used t.held rfl h.within hplain

theorem idle_plain (total : Nat) : Task.idle.Plain total := ⟨trivial, rfl⟩

/-! ## Steps that write entries -/

variable {held n : Nat} {best : Option (Nat × Entry)}
  {past : List (Library.Step World (Nat × Act))}

/-- Entries written by a thread that removes none of them and is charged for
what they take or leave. -/
theorem Sound.entries (h : w.Sound) (ht : w.threads[i]? = some t) (nextSequence : Nat)
    {entries : List Entry} (hplain : task.Plain w.limit)
    (hsum : t.held + tally Entry.charge w.entries = held + tally Entry.charge entries)
    (hmoves : ∀ index e, w.entries[index]? = some e → ∃ e', entries[index]? = some e' ∧
      (e.state = .evicting → e' = e) ∧
      Moves w t.task (({ w with entries, nextSequence } : World).setThread i { held, task }) index
        e e') :
    w.Follows i t act (({ w with entries, nextSequence } : World).setThread i { held, task }) := by
  refine ⟨h.update ht { held, task } rfl rfl ?_ h.within hplain.1 (fun k g c hremoves => ?_)
    (fun k e he hstate _ => ?_), rfl, fun index e he => ?_,
    others_set { held, task } rfl, unconfirmed ht { held, task } rfl hplain.2⟩
  · simp only [setThread]
    omega
  · rw [hplain.2] at hremoves
    cases hremoves
  · obtain ⟨e', he', hsame, _⟩ := hmoves k e he
    exact hsame hstate ▸ he'
  · obtain ⟨e', he', _, hmove⟩ := hmoves index e he
    exact ⟨e', he', hmove⟩

theorem entries_set {entries : List Entry} (he : entries[k]? = some e) (e' : Entry) (index : Nat) :
    (entries.set k e')[index]? = if k = index then some e' else entries[index]? := by
  rw [List.getElem?_set]
  by_cases hk : k = index
  · rw [if_pos hk, if_pos hk, if_pos (List.getElem?_eq_some_iff.mp he).1]
  · rw [if_neg hk, if_neg hk]

/-- What the first `n` turns of `evictOldest`'s search have found. -/
def Oldest (entries : List Entry) (n : Nat) : Option (Nat × Entry) → Prop
  | none => ∀ k < n, ∀ other, entries[k]? = some other → other.state ≠ .retained
  | some best => entries[best.1]? = some best.2 ∧ best.2.state = .retained ∧
      ∀ k < n, ∀ other, entries[k]? = some other → other.state = .retained →
        best.2.sequence ≤ other.sequence

theorem Oldest.skip {entries : List Entry} (h : Oldest entries n best)
    (hn : ∀ e, entries[n]? = some e → e.state ≠ .retained) : Oldest entries (n + 1) best := by
  have hlast : ∀ k, k < n + 1 → k < n ∨ k = n := fun k hk => by omega
  cases best with
  | none =>
    intro k hk other hother
    rcases hlast k hk with hk | rfl
    · exact h k hk other hother
    · exact hn other hother
  | some best =>
    refine ⟨h.1, h.2.1, fun k hk other hother hretained => ?_⟩
    rcases hlast k hk with hk | rfl
    · exact h.2.2 k hk other hother hretained
    · exact absurd hretained (hn other hother)

theorem Oldest.older {entries : List Entry} (h : Oldest entries n best) :
    Oldest entries (n + 1) (older entries best n) := by
  have hlast : ∀ k, k < n + 1 → k < n ∨ k = n := fun k hk => by omega
  unfold Retention.older
  cases hn : entries[n]? with
  | none => exact h.skip fun e he => by rw [hn] at he; cases he
  | some entry =>
    by_cases hstate : entry.state = .retained
    · simp only [hstate, ne_eq, not_true, if_false]
      -- The entry found is taken if it is the first or has a lesser sequence.
      have htaken : (∀ k < n, ∀ other, entries[k]? = some other → other.state = .retained →
          entry.sequence ≤ other.sequence) → Oldest entries (n + 1) (some (n, entry)) := by
        refine fun hleast => ⟨hn, hstate, fun k hk other hother hretained => ?_⟩
        rcases hlast k hk with hk | rfl
        · exact hleast k hk other hother hretained
        · rw [hn, Option.some.injEq] at hother
          rw [hother]
      cases best with
      | none =>
        exact htaken fun k hk other hother hretained => absurd hretained (h k hk other hother)
      | some best =>
        dsimp only
        split
        · rename_i hless
          refine htaken fun k hk other hother hretained => ?_
          have := h.2.2 k hk other hother hretained
          omega
        · rename_i hless
          refine ⟨h.1, h.2.1, fun k hk other hother hretained => ?_⟩
          rcases hlast k hk with hk | rfl
          · exact h.2.2 k hk other hother hretained
          · rw [hn, Option.some.injEq] at hother
            rw [← hother]
            omega
    · simp only [hstate, ne_eq, not_false_eq_true, if_true]
      refine h.skip fun e he => ?_
      rw [hn, Option.some.injEq] at he
      exact he ▸ hstate

theorem oldestRetained_spec {entries : List Entry} {oldest : Nat × Entry}
    (h : oldestRetained entries = some oldest) :
    entries[oldest.1]? = some oldest.2 ∧ oldest.2.state = .retained ∧
      ∀ (k : Nat) (other : Entry), entries[k]? = some other → other.state = .retained →
        oldest.2.sequence ≤ other.sequence := by
  have hturns : ∀ n, Oldest entries n ((List.range n).foldl (older entries) none) := by
    intro n
    induction n with
    | zero => exact fun k hk => absurd hk (Nat.not_lt_zero k)
    | succ n ih =>
      rw [List.range_succ, List.foldl_append, List.foldl_cons, List.foldl_nil]
      exact ih.older
  have hall := hturns entries.length
  rw [oldestRetained] at h
  rw [h] at hall
  exact ⟨hall.1, hall.2.1, fun k other hother =>
    hall.2.2 k (List.getElem?_eq_some_iff.mp hother).1 other hother⟩

/-- A thread that begins to remove an entry's file. -/
theorem Sound.select (h : w.Sound) (ht : w.threads[i]? = some t) (he : w.entries[k]? = some e)
    (hstate : e.state = .retained ∨ e.state = .failed)
    (hon : (Task.removal .removing k e.generation e.charged e.name on).Within w.limit)
    (hmoves : ∀ w', Moves w t.task w' k e { e with state := .evicting }) :
    w.Good i t act (w.select i t k e on) := by
  have hread := entries_set he { e with state := .evicting }
  have hnot : e.state ≠ .evicting := by
    rcases hstate with hstate | hstate <;> simp [hstate]
  have hcharge : e.charge = e.charged := by
    rcases hstate with hstate | hstate <;> simp [Entry.charge, hstate]
  have hsum := tally_set (f := Entry.charge) { e with state := .evicting } he
  refine ⟨h.update ht { t with task := (.removal .removing k e.generation e.charged e.name on) }
    rfl rfl ?_ h.within hon (fun k' g c hremoves => ?_) (fun k' e' he' hevicting _ => ?_),
    rfl, fun index e' he' => ?_,
    others_set { t with task := (.removal .removing k e.generation e.charged e.name on) } rfl,
    fun u index g c name on' hu htask => ?_⟩
  · simp only [setThread, setEntry, hcharge, show Entry.charge { e with state := .evicting } =
      e.charged from rfl] at hsum ⊢
    omega
  · simp only [Task.removes, Option.some.injEq, Prod.mk.injEq] at hremoves
    obtain ⟨rfl, rfl, rfl⟩ := hremoves
    refine ⟨⟨{ e with state := .evicting }, ?_, rfl, rfl, rfl⟩, .inr fun other hother => ?_⟩
    · exact (hread k).trans (if_pos rfl)
    · rw [he, Option.some.injEq] at hother
      exact hother ▸ hnot
  · refine (hread k').trans ?_
    rw [if_neg]
    · exact he'
    · rintro rfl
      rw [he, Option.some.injEq] at he'
      exact hnot (he' ▸ hevicting)
  · by_cases hk : k = index
    · subst hk
      rw [he, Option.some.injEq] at he'
      exact ⟨_, (hread k).trans (if_pos rfl), he' ▸ hmoves _⟩
    · exact ⟨e', (hread index).trans (by rw [if_neg hk, he']), .same⟩
  · have hself := (getElem?_setThread ht).symm.trans hu
    rw [Option.some.injEq] at hself
    rw [← hself] at htask
    cases htask

theorem Sound.settle (h : w.Sound) (ht : w.threads[i]? = some t) (used : Nat) {c : Nat × List UInt8}
    {e' : Entry} (hremoves : t.task.removes = some (k, g, c)) (he : w.entries[k]? = some e)
    (hplain : task.Plain w.limit) (hsum : used + e.charge = w.used + e'.charge)
    (hle : used ≤ w.limit)
    (hmoves : Moves w t.task ((({ w with used } : World).setEntry k e').setThread i { t with task })
      k e e') :
    w.Follows i t act ((({ w with used } : World).setEntry k e').setThread i { t with task }) := by
  have hread := entries_set he e'
  have htally := tally_set (f := Entry.charge) e' he
  refine ⟨h.update ht { t with task } rfl rfl ?_ hle hplain.1 (fun k' g' c' hnew => ?_)
    (fun k' other hother hevicting hnot => ?_), rfl, fun index other hother => ?_,
    others_set { t with task } rfl, unconfirmed ht { t with task } rfl hplain.2⟩
  · simp only [setThread, setEntry]
    omega
  · rw [hplain.2] at hnew
    cases hnew
  · refine (hread k').trans ?_
    rw [if_neg]
    · exact hother
    · rintro rfl
      exact hnot g c hremoves
  · by_cases hk : k = index
    · subst hk
      rw [he, Option.some.injEq] at hother
      exact ⟨e', (hread k).trans (if_pos rfl), hother ▸ hmoves⟩
    · exact ⟨other, (hread index).trans (by rw [if_neg hk, hother]), .same⟩

/-! ## The queue's sections -/

theorem freePair_spec {entries : List Entry} {pair : Nat × Nat} (h : freePair entries = some pair) :
    pair.1 ≠ pair.2 ∧
      ∀ k, k = pair.1 ∨ k = pair.2 → ∃ e, entries[k]? = some e ∧ e.state = .free := by
  unfold freePair at h
  split at h
  case h_2 => cases h
  case h_1 first second rest hfree =>
    rw [Option.some.injEq] at h
    subst h
    have hnodup := List.nodup_range (n := entries.length).filter
      fun index => (entries[index]?).any fun entry => entry.state == .free
    rw [hfree] at hnodup
    refine ⟨fun heq : first = second => ?_, fun k hk => ?_⟩
    · rw [heq] at hnodup
      exact (List.nodup_cons.mp hnodup).1 List.mem_cons_self
    · have hmem : k ∈ first :: second :: rest := by
        rcases hk with rfl | rfl
        · exact List.mem_cons_self
        · exact List.mem_cons_of_mem _ List.mem_cons_self
      rw [← hfree, List.mem_filter, Option.any_eq_true] at hmem
      obtain ⟨_, e, he, hstate⟩ := hmem
      exact ⟨e, he, by simpa using hstate⟩

theorem Sound.pair (h : w.Sound) (ht : w.threads[i]? = some t) {a b : Nat} {ea eb ea' eb' : Entry}
    {nextSequence : Nat} (hne : a ≠ b) (ha : w.entries[a]? = some ea) (hb : w.entries[b]? = some eb)
    (hnota : ea.state ≠ .evicting) (hnotb : eb.state ≠ .evicting)
    (hsum : t.held + (ea.charge + eb.charge) = held + (ea'.charge + eb'.charge))
    (hmovea : ∀ w', Moves w t.task w' a ea ea') (hmoveb : ∀ w', Moves w t.task w' b eb eb') :
    w.Follows i t act (({ w with entries := (w.entries.set a ea').set b eb', nextSequence } :
      World).setThread i { held, task := .idle }) := by
  have hb' : (w.entries.set a ea')[b]? = some eb := by rw [entries_set ha, if_neg hne, hb]
  refine h.entries ht _ (idle_plain _) ?_ fun index e he => ?_
  · have hseta := tally_set (f := Entry.charge) ea' ha
    have hsetb := tally_set (f := Entry.charge) eb' hb'
    omega
  · rw [entries_set hb', entries_set ha]
    by_cases hib : b = index
    · subst hib
      rw [hb, Option.some.injEq] at he
      subst he
      exact ⟨eb', if_pos rfl, fun hstate => absurd hstate hnotb, hmoveb _⟩
    · by_cases hia : a = index
      · subst hia
        rw [ha, Option.some.injEq] at he
        subst he
        exact ⟨ea', by rw [if_neg hib, if_pos rfl], fun hstate => absurd hstate hnota, hmovea _⟩
      · exact ⟨e, by rw [if_neg hib, if_neg hia, he], fun _ => rfl, .same⟩

theorem Sound.reserving (h : w.Sound) (ht : w.threads[i]? = some t) {request : Request}
    (htask : t.task = .reserving request) : w.Good i t act (w.lock i t) := by
  simp only [lock, htask]
  split
  · exact h.goOn ht (idle_plain _)
  · cases hpair : freePair w.entries with
    | none => exact h.goOn ht ⟨trivial, rfl⟩
    | some pair =>
      obtain ⟨hne, hfree⟩ := freePair_spec hpair
      obtain ⟨a, ha, hfreea⟩ := hfree pair.1 (.inl rfl)
      obtain ⟨b, hb, hfreeb⟩ := hfree pair.2 (.inr rfl)
      simp only [ha, hb]
      refine h.pair ht hne ha hb (by simp [hfreea]) (by simp [hfreeb]) ?_
        (fun _ => .reserved hfreea rfl) (fun _ => .reserved hfreeb rfl)
      simp [Entry.charge, hfreea, hfreeb, reserve]

theorem current_spec {entries : List Entry} {token : Token} (h : current entries token = .ok e) :
    entries[token.index]? = some e ∧ e.generation = token.generation := by
  unfold current at h
  cases he : entries[token.index]? with
  | none => simp [he] at h
  | some entry =>
    simp only [he] at h
    split at h
    · cases h
    · rename_i hgeneration
      cases h
      exact ⟨rfl, not_not.mp hgeneration⟩

theorem publishable_spec {entries : List Entry} {stdout stderr : Token} {pair : Entry × Entry}
    (h : publishable entries stdout stderr = .ok pair) :
    stdout.index ≠ stderr.index ∧ entries[stdout.index]? = some pair.1 ∧
      entries[stderr.index]? = some pair.2 ∧ pair.1.state = .reserved ∧
      pair.2.state = .reserved := by
  unfold publishable at h
  cases hout : current entries stdout with
  | error e => simp [hout, Except.bind] at h
  | ok out =>
    cases herr : current entries stderr with
    | error e => simp [hout, herr, Except.bind] at h
    | ok err =>
      simp only [hout, herr, Except.bind] at h
      split at h
      · cases h
      · rename_i hok
        cases h
        simp only [not_or, not_not] at hok
        exact ⟨hok.1, (current_spec hout).1, (current_spec herr).1, hok.2.1, hok.2.2⟩

theorem Sound.publishPair (h : w.Sound) (ht : w.threads[i]? = some t) (stdout stderr : Token) :
    w.Good i t act (w.publishPair i t stdout stderr) := by
  unfold World.publishPair
  cases hpair : publishable w.entries stdout stderr with
  | error e => exact h.goOn ht (idle_plain _)
  | ok pair =>
    obtain ⟨hne, hout, herr, hreserved, hreserved'⟩ := publishable_spec hpair
    dsimp only
    split
    · trivial
    · rename_i howned
      refine h.pair ht hne hout herr (by simp [hreserved]) (by simp [hreserved']) ?_
        (fun _ => .published hreserved) (fun _ => .published hreserved')
      simp only [Entry.charge, hreserved, hreserved']
      omega

theorem Sound.releaseReservation (h : w.Sound) (ht : w.threads[i]? = some t) (token : Token) :
    w.Good i t act ((w.releaseReservation token).goOn i t .idle) := by
  unfold World.releaseReservation
  cases htoken : current w.entries token with
  | error e => exact h.goOn ht (idle_plain _)
  | ok entry =>
    dsimp only
    split
    · rename_i hreserved
      obtain ⟨hentry, -⟩ := current_spec htoken
      have hset := tally_set (f := Entry.charge) (.emptied entry.generation) hentry
      have hbefore : entry.charge = 0 := by simp [Entry.charge, hreserved]
      have hafter : (Entry.emptied entry.generation).charge = 0 := rfl
      refine h.entries ht w.nextSequence (idle_plain _) (by omega)
        fun index e he => ?_
      rw [entries_set hentry]
      by_cases hindex : token.index = index
      · subst hindex
        rw [hentry, Option.some.injEq] at he
        subst he
        exact ⟨_, if_pos rfl, fun hstate => by simp [hreserved] at hstate, .cancelled hreserved⟩
      · exact ⟨e, by rw [if_neg hindex, he], fun _ => rfl, .same⟩
    · exact h.goOn ht (idle_plain _)

theorem evicted_plain {total : Nat} {on : Evicting} (h : on.Within total) :
    (evicted total on).Plain total := by
  cases on with
  | reserving request => exact ⟨trivial, rfl⟩
  | reclaiming amount limit => exact beginCharge_plain _ h

/-- What an evictor or a cleaner does once its entry is settled. -/
theorem Sound.finish (h : w.Sound) (ht : w.threads[i]? = some t) {k g c : Nat} {name : List UInt8}
    {on : Removing} {task : Task} (htask : t.task = .removal .removed k g c name on)
    (hplain : task.Plain w.limit) : w.Good i t act (w.finish i t k g c task) := by
  have hremoves : t.task.removes = some (k, g, c, name) := by rw [htask]; rfl
  obtain ⟨e, he, hstate, rfl, hkept⟩ := h.matching i t k g (c, name) ht hremoves
  cases hkept
  have hcharge : e.charge = e.charged := by simp [Entry.charge, hstate]
  have hle : e.charge ≤ tally Entry.charge w.entries := le_tally (List.mem_of_getElem? he)
  have hsum := h.sum
  have hwithin := h.within
  unfold World.finish
  rw [if_neg (by omega)]
  refine h.settle ht _ hremoves he hplain ?_ (by omega) (.freed hstate htask ?_)
  · simp only [show (Entry.emptied e.generation).charge = 0 from rfl]
    omega
  · simp only [setThread, setEntry]
    omega

theorem Sound.markEvictionFailed (h : w.Sound) (ht : w.threads[i]? = some t)
    (htask : t.task = .removal .unremoved k g c name on) (hplain : task.Plain w.limit) :
    w.Good i t act ((w.markEvictionFailed k g).goOn i t task) := by
  have hremoves : t.task.removes = some (k, g, c, name) := by rw [htask]; rfl
  obtain ⟨e, he, hstate, rfl, hkept⟩ := h.matching i t k g (c, name) ht hremoves
  cases hkept
  simp only [World.markEvictionFailed, he, hstate, and_self, if_true]
  refine h.settle ht w.used hremoves he hplain ?_ h.within (.failed hstate htask)
  simp [Entry.charge, hstate]

/-- **One locked section.** -/
theorem Sound.lock (h : w.Sound) (ht : w.threads[i]? = some t) : w.Good i t act (w.lock i t) := by
  have hwithin := h.tasks t (List.mem_of_getElem? ht)
  cases htask : t.task with
  | reserving request => exact h.reserving ht htask
  | evicting on =>
    rw [htask] at hwithin
    simp only [World.lock, htask]
    cases holdest : oldestRetained w.entries with
    | none => exact h.goOn ht (idle_plain _)
    | some oldest =>
      obtain ⟨he, hretained, hleast⟩ := oldestRetained_spec holdest
      exact h.select ht he (.inl hretained) hwithin
        fun _ => .evicted hretained hleast
  | removal phase k g c name on =>
    rw [htask] at hwithin
    cases phase with
    | removing => simp only [World.lock, htask]; trivial
    | removed =>
      cases on with
      | evicting on =>
        have hremoves : t.task.removes = some (k, g, c, name) := by rw [htask]; rfl
        obtain ⟨e, he, hstate, hgeneration, -⟩ := h.matching i t k g (c, name) ht hremoves
        simp only [World.lock, htask, he, hstate, hgeneration, ne_eq, not_true, or_self, if_false]
        exact h.finish ht htask (evicted_plain hwithin)
      | cleaning index =>
        simp only [World.lock, htask]
        exact h.finish ht htask ⟨trivial, rfl⟩
    | unremoved =>
      cases on with
      | evicting on =>
        simp only [World.lock, htask]
        exact h.markEvictionFailed ht htask (idle_plain _)
      | cleaning index =>
        simp only [World.lock, htask]
        exact h.markEvictionFailed ht htask ⟨trivial, rfl⟩
  | cleaning index =>
    simp only [World.lock, htask]
    cases he : w.entries[index]? with
    | none => exact h.goOn ht (idle_plain _)
    | some e =>
      dsimp only
      split
      · exact h.goOn ht ⟨trivial, rfl⟩
      · rename_i hkept
        have hstate : e.state = .retained ∨ e.state = .failed := by
          simpa only [not_and_or, not_not] using hkept
        exact h.select ht he hstate trivial
          fun _ => .cleaned hstate htask
  | _ => simp only [World.lock, htask]; trivial

/-! ## Every step -/

theorem task_idle (hidle : t.task.isIdle = true) : t.task = .idle := by
  cases htask : t.task with
  | idle => rfl
  | _ => simp [htask, Task.isIdle] at hidle

/-- A new thread owns no charge. -/
theorem Sound.spawn (h : w.Sound) (ht : w.threads[i]? = some t) (hidle : t.task = .idle) :
    w.Follows i t act { w with threads := w.threads ++ [{}] } := by
  have hread : ∀ (j : Nat) (u : Thread), (w.threads ++ [({} : Thread)])[j]? = some u →
      w.threads[j]? = some u ∨ u = {} := fun j u hu => by
    rw [List.getElem?_append] at hu
    split at hu
    · exact .inl hu
    · exact .inr (List.mem_singleton.mp (List.mem_of_getElem? hu))
  refine ⟨⟨?_, h.within, fun u hu => ?_, fun j u k g c hu hremoves => ?_,
    fun j j' u u' k g g' c c' hu hu' hremoves hremoves' => ?_⟩, rfl,
    fun index e he => ⟨e, he, .same⟩, fun j u _ hu => ?_, fun u index g c name on hu htask => ?_⟩
  · simpa using h.sum
  · rcases List.mem_append.mp hu with hu | hu
    · exact h.tasks u hu
    · rw [List.mem_singleton.mp hu]
      trivial
  · rcases hread j u hu with hu | rfl
    · exact h.matching j u k g c hu hremoves
    · cases hremoves
  · rcases hread j u hu with hu | rfl
    · rcases hread j' u' hu' with hu' | rfl
      · exact h.alone j j' u u' k g g' c c' hu hu' hremoves hremoves'
      · cases hremoves'
    · cases hremoves
  · rcases hread j u hu with hu | rfl
    · exact .inl hu
    · exact .inr rfl
  · have hlt := (List.getElem?_eq_some_iff.mp ht).1
    rw [List.getElem?_append_left hlt, ht, Option.some.injEq] at hu
    rw [← hu, hidle] at htask
    cases htask

/-- A removal's outcome is the thread's own to know. -/
theorem Sound.remove (h : w.Sound) (ht : w.threads[i]? = some t) (confirmed : Bool)
    (htask : t.task = .removal .removing k g c name on) : w.Good i t (.remove confirmed)
      (w.goOn i t (.removal (if confirmed then .removed else .unremoved) k g c name on)) := by
  have hremoves : t.task.removes = some (k, g, c, name) := by rw [htask]; rfl
  have hwithin : ∀ phase, (Task.removal phase k g c name on).Within w.limit := fun phase => by
    have hbefore := h.tasks t (List.mem_of_getElem? ht)
    rw [htask] at hbefore
    cases on with
    | evicting on => exact hbefore
    | cleaning index => trivial
  refine ⟨h.update ht { t with
      task := (.removal (if confirmed then .removed else .unremoved) k g c name on) }
    rfl rfl (by rfl) h.within (hwithin _) (fun k' g' c' hnew => ?_) (fun k' e he _ _ => he),
    rfl, fun index e he => ⟨e, he, .same⟩, others_set { t with
      task := (.removal (if confirmed then .removed else .unremoved) k g c name on) } rfl,
    fun u index g' c' name' on' hu hremoved => ?_⟩
  · have hsame : t.task.removes = some (k', g', c') := hremoves.trans hnew
    exact ⟨h.matching i t k' g' c' ht hsame, .inl hsame⟩
  · have hself := (getElem?_setThread ht).symm.trans hu
    rw [Option.some.injEq] at hself
    rw [← hself] at hremoved
    cases confirmed with
    | false => cases hremoved
    | true =>
      rw [htask]
      cases hremoved
      exact ⟨rfl, rfl⟩

theorem Sound.load (h : w.Sound) (ht : w.threads[i]? = some t) :
    w.Good i t .load (w.act i t .load) := by
  have hwithin := h.tasks t (List.mem_of_getElem? ht)
  cases htask : t.task with
  | loading amount limit charging =>
    rw [htask] at hwithin
    simp only [World.act, htask]
    exact h.goOn ht (tryCharge_plain _ hwithin)
  | loadingUpTo maximum limit reclaims =>
    rw [htask] at hwithin
    simp only [World.act, htask]
    exact h.goOn ht (tryChargeUpTo_plain _ hwithin)
  | _ => simp only [World.act, htask]; trivial

/-- A counter is moved only from the value the thread saw. -/
theorem Sound.exchange (h : w.Sound) (ht : w.threads[i]? = some t) (stored : Bool) :
    w.Good i t (.exchange stored) (w.act i t (.exchange stored)) := by
  have hwithin := h.tasks t (List.mem_of_getElem? ht)
  cases htask : t.task with
  | charging amount limit seen charging =>
    rw [htask] at hwithin
    obtain ⟨hlimit, hroom⟩ := hwithin
    simp only [World.act, htask]
    split
    · rename_i hseen
      exact h.charges ht (seen + amount) (t.held + amount) (by omega) (by omega) (idle_plain _)
    · exact h.goOn ht (tryCharge_plain _ hlimit)
  | chargingUpTo maximum limit seen reclaims =>
    rw [htask] at hwithin
    obtain ⟨hlimit, hroom⟩ := hwithin
    simp only [World.act, htask]
    split
    · rename_i hseen
      exact h.charges ht (seen + min maximum (limit - seen))
        (t.held + min maximum (limit - seen)) (by omega) (by omega) (idle_plain _)
    · exact h.goOn ht (tryChargeUpTo_plain _ hlimit)
  | _ => simp only [World.act, htask]; trivial

theorem Sound.release (h : w.Sound) (ht : w.threads[i]? = some t) (amount : Nat) :
    w.Good i t (.release amount) (w.act i t (.release amount)) := by
  simp only [World.act]
  split
  · rename_i howned
    have hheld : t.held ≤ tally Thread.held w.threads := le_tally (List.mem_of_getElem? ht)
    have hsum := h.sum
    have hwithin := h.within
    rw [if_neg (by omega)]
    exact h.charges ht (w.used - amount) (t.held - amount) (by omega) (by omega) (idle_plain _)
  · trivial

/-- **Every step** crashes nothing and leaves every charge with one owner. -/
theorem Sound.good (h : w.Sound) (ht : w.threads[i]? = some t) (act : Act) :
    w.Good i t act (w.act i t act) := by
  have hstart : ∀ (p : Prop) [Decidable p] (task : Task), (p → task.Plain w.limit) →
      w.Good i t act (if p then w.goOn i t task else .refused) := fun p _ task hplain => by
    split
    · rename_i hp
      exact h.goOn ht (hplain hp)
    · trivial
  cases act with
  | spawn =>
    simp only [World.act]
    split
    · rename_i hidle
      exact h.spawn ht (task_idle hidle)
    · trivial
  | charge amount limit charging => exact hstart _ _ fun hp => beginCharge_plain _ hp.2.1
  | chargeUpTo maximum limit reclaims => exact hstart _ _ fun hp => ⟨hp.2, rfl⟩
  | load => exact h.load ht
  | exchange stored => exact h.exchange ht stored
  | release amount => exact h.release ht amount
  | reservePair request => exact hstart _ _ fun _ => ⟨trivial, rfl⟩
  | publishPair stdout stderr =>
    simp only [World.act]
    split
    · rename_i hidle
      exact h.publishPair ht stdout stderr
    · trivial
  | releaseReservation token =>
    simp only [World.act]
    split
    · rename_i hidle
      exact h.releaseReservation ht token
    · trivial
  | cleanupAll => exact hstart _ _ fun _ => ⟨trivial, rfl⟩
  | lock => exact h.lock ht
  | remove confirmed =>
    cases htask : t.task with
    | removal phase k g c name on =>
      cases phase with
      | removing =>
        simp only [World.act, htask]
        exact h.remove ht confirmed htask
      | _ => simp only [World.act, htask]; trivial
    | _ => simp only [World.act, htask]; trivial

/-! ## Every run -/

theorem Sound.next {label : Nat × Act} (h : w.Sound) (hnext : w.Next label w') :
    ∃ t, w.threads[label.1]? = some t ∧ w.Follows label.1 t label.2 w' := by
  unfold Next step at hnext
  cases ht : w.threads[label.1]? with
  | none => simp [ht] at hnext
  | some t =>
    simp only [ht] at hnext
    have hgood := h.good ht label.2
    rw [hnext] at hgood
    exact ⟨t, rfl, hgood⟩

end World

/-- A step, if it can be taken. -/
def World.take (self : World) (label : Nat × Act) : Option World :=
  match self.step label.1 label.2 with
  | .next next => some next
  | _ => none

end Rui.Retention
