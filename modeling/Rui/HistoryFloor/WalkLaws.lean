import Rui.HistoryFloor.Walk

/-!
# Each level's floor is just below the oldest unit it keeps

However the units come in pages, and though the walk stops once level 1 has its floor.
The floors go deeper with the level, and each deeper choice leaves out more units.
-/

namespace Rui.HistoryFloor

/-! ## What each level keeps -/

/-- The bytes of the newest `count` units. -/
def running (units : List Row) (count : Nat) : Nat :=
  (units.take count).foldl (fun total row => addSaturating total row.size) 0

/-- Unit `i` is kept: it is the newest, or it and every newer unit fit the limit. -/
def Kept (limit : Nat) (units : List Row) (i : Nat) : Prop :=
  i = 0 ∨ running units (i + 1) ≤ limit

/-- The floor of a level: none where every unit is kept, else just below the oldest
that is. -/
inductive LevelFloor (limit : Nat) (units : List Row) : Nat → Prop
  | none (hall : ∀ i < units.length, Kept limit units i) : LevelFloor limit units 0
  | below {i : Nat} {row : Row} (hrow : units[i]? = some row)
    (holdest : ∀ j < units.length, Kept limit units j ↔ j ≤ i) (hmore : i + 1 < units.length) :
    LevelFloor limit units (row.start - 1)

/-- Units newest first, each of which begins below the one before and the boundary. -/
structure Descends (boundary : Nat) (units : List Row) : Prop where
  strictly : units.Pairwise fun newer older => older.start < newer.start
  positive : ∀ row ∈ units, 0 < row.start
  below : ∀ row ∈ units, row.start < boundary

variable {boundary limit : Nat} {units taken rest : List Row} {row : Row}

theorem Descends.prefix_of (h : Descends boundary (taken ++ rest)) : Descends boundary taken :=
  ⟨(List.pairwise_append.mp h.strictly).1,
    fun row hrow => h.positive row (List.mem_append_left _ hrow),
    fun row hrow => h.below row (List.mem_append_left _ hrow)⟩

variable {i floor past previous j count limit' floor' : Nat} {choices : List Choice}
  {choice : Choice}

theorem Descends.start_lt (h : Descends boundary units) {newer older : Row}
    (hi : units[i]? = some newer) (hj : units[j]? = some older) (hlt : i < j) :
    older.start < newer.start := by
  obtain ⟨hlow, rfl⟩ := List.getElem?_eq_some_iff.mp hi
  obtain ⟨hhigh, rfl⟩ := List.getElem?_eq_some_iff.mp hj
  exact List.pairwise_iff_getElem.mp h.strictly i j hlow hhigh hlt

theorem running_succ (h : units[count]? = some row) :
    running units (count + 1) = addSaturating (running units count) row.size := by
  rw [running, List.take_add_one, h, List.foldl_append]
  rfl

theorem running_le_succ (units : List Row) (count : Nat) :
    running units count ≤ running units (count + 1) := by
  cases h : units[count]? with
  | none =>
    have hlength := List.getElem?_eq_none_iff.mp h
    rw [running, running, List.take_of_length_le hlength,
      List.take_of_length_le (Nat.le_succ_of_le hlength)]
  | some row =>
    have hlargest : running units count ≤ largest := by
      cases count with
      | zero => exact Nat.zero_le _
      | succ count =>
        have hlt : count < units.length := by
          have := (List.getElem?_eq_some_iff.mp h).1
          omega
        rw [running_succ (List.getElem?_eq_getElem hlt)]
        exact Nat.min_le_right _ _
    rw [running_succ h, addSaturating]
    exact Nat.le_min.mpr ⟨Nat.le_add_right _ _, hlargest⟩

theorem running_mono (units : List Row) : Monotone (running units) :=
  monotone_nat_of_le_succ (running_le_succ units)

theorem running_append (h : count ≤ taken.length) (rest : List Row) :
    running (taken ++ rest) count = running taken count := by
  rw [running, running, List.take_append_of_le_length h]

theorem Kept.newer (h : Kept limit units j) (hle : i ≤ j) : Kept limit units i := by
  rcases h with rfl | h
  · exact .inl (Nat.le_zero.mp hle)
  · exact .inr ((running_mono units (Nat.succ_le_succ hle)).trans h)

theorem Kept.limit_le (h : Kept limit units i) (hle : limit ≤ limit') : Kept limit' units i :=
  h.imp_right fun hfits => hfits.trans hle

theorem kept_append (h : i < taken.length) (rest : List Row) :
    Kept limit (taken ++ rest) i ↔ Kept limit taken i := by
  rw [Kept, Kept, running_append h]

/-- A floor that was found stays, whatever older units come. -/
theorem LevelFloor.append (h : LevelFloor limit taken floor) (hfound : floor ≠ 0) (rest : List Row) :
    LevelFloor limit (taken ++ rest) floor := by
  cases h with
  | none => exact absurd rfl hfound
  | @below i row hrow holdest hmore =>
    have hlt : i < taken.length := by omega
    refine .below (i := i) (by rwa [List.getElem?_append_left hlt]) ?_ ?_
    · intro j _
      by_cases hj : j < taken.length
      · rw [kept_append hj, holdest j hj]
      · -- The unit past the oldest kept one is not kept, so no older one is.
        have hnot : ¬ Kept limit (taken ++ rest) (i + 1) := by
          rw [kept_append hmore, holdest _ hmore]
          omega
        exact ⟨fun hkept => absurd (hkept.newer (by omega)) hnot, fun hle => by omega⟩
    · rw [List.length_append]
      omega

/-- A floor is positive where units begin at 1 or above. -/
theorem LevelFloor.below_ne_zero (hdesc : Descends boundary units) (hrow : units[i]? = some row)
    (hmore : i + 1 < units.length) : row.start - 1 ≠ 0 := by
  have hnext := List.getElem?_eq_getElem hmore
  have hlt := hdesc.start_lt hrow hnext (Nat.lt_succ_self i)
  have hpos := hdesc.positive _ (List.getElem_mem hmore)
  omega

/-- A smaller limit has a floor no lower. -/
theorem LevelFloor.mono (hdesc : Descends boundary units) (h : LevelFloor limit units floor)
    (h' : LevelFloor limit' units floor') (hle : limit' ≤ limit) : floor ≤ floor' := by
  cases h with
  | none => exact Nat.zero_le _
  | @below i row hrow holdest hmore =>
    cases h' with
    | none hall =>
      have hkept := (holdest _ hmore).mp ((hall _ hmore).limit_le hle)
      omega
    | @below i' row' hrow' holdest' hmore' =>
      have hkept : i' ≤ i :=
        (holdest i' (by omega)).mp (((holdest' i' (by omega)).mpr le_rfl).limit_le hle)
      rcases Nat.eq_or_lt_of_le hkept with rfl | hlt
      · rw [hrow] at hrow'
        cases hrow'
        exact le_rfl
      · have := hdesc.start_lt hrow' hrow hlt
        omega

theorem LevelFloor.unique (hdesc : Descends boundary units) (h : LevelFloor limit units floor)
    (h' : LevelFloor limit units floor') : floor = floor' :=
  Nat.le_antisymm (h.mono hdesc h' le_rfl) (h'.mono hdesc h le_rfl)

/-- The next older unit finds the floor, or leaves what was found. -/
theorem LevelFloor.snoc {newest : Row} (hdesc : Descends boundary (taken ++ [row]))
    (h : LevelFloor limit taken floor) (hlast : taken.getLast? = some newest) :
    LevelFloor limit (taken ++ [row])
      (if floor = 0 ∧ limit < running (taken ++ [row]) (taken.length + 1) then newest.start - 1
        else floor) := by
  have hpos : 0 < taken.length := by
    cases taken with
    | nil => cases hlast
    | cons _ _ => exact Nat.succ_pos _
  have hlength : (taken ++ [row]).length = taken.length + 1 := by simp
  cases h with
  | none hall =>
    have hkept : ∀ j < taken.length, Kept limit (taken ++ [row]) j := fun j hj =>
      (kept_append hj [row]).mpr (hall j hj)
    by_cases hover : limit < running (taken ++ [row]) (taken.length + 1)
    · rw [if_pos ⟨rfl, hover⟩]
      refine .below (i := taken.length - 1) ?_ ?_ (by omega)
      · rw [List.getElem?_append_left (by omega), ← List.getLast?_eq_getElem?]
        exact hlast
      · intro j hj
        refine ⟨fun h => ?_, fun hle => hkept j (by omega)⟩
        by_contra hnot
        obtain rfl : j = taken.length := by omega
        rcases h with h | h <;> omega
    · rw [if_neg fun h => hover h.2]
      refine .none fun j hj => ?_
      by_cases hj' : j < taken.length
      · exact hkept j hj'
      · obtain rfl : j = taken.length := by omega
        exact .inr (Nat.not_lt.mp hover)
  | @below i older hrow holdest hmore =>
    have hfound := LevelFloor.below_ne_zero hdesc.prefix_of hrow hmore
    rw [if_neg fun h => hfound h.1]
    exact LevelFloor.append (.below hrow holdest hmore) hfound [row]

/-! ## What the walk has found -/

/-- The walk after these units. -/
structure Walked (targets : Fin levels → Nat) (boundary : Nat) (taken : List Row) (walk : Walk) :
    Prop where
  aims : walk.targets = targets
  floors : ∀ i, LevelFloor (targets i) taken (walk.floors i)
  total : walk.total = running taken taken.length
  units : walk.units = taken.length
  cursor : walk.cursor = (taken.getLast?.map Row.start).getD boundary

variable {targets : Fin levels → Nat} {walk : Walk}

theorem Walked.init (window reservation boundary : Nat) :
    Walked (fun i => target window reservation (i + 1)) boundary []
      (.init window reservation boundary) where
  aims := rfl
  floors _ := .none fun _ hi => absurd hi (Nat.not_lt_zero _)
  total := rfl
  units := rfl
  cursor := rfl

theorem Walked.start_lt (h : Walked targets boundary taken walk)
    (hdesc : Descends boundary (taken ++ row :: rest)) : row.start < walk.cursor := by
  rw [h.cursor]
  cases hlast : taken.getLast? with
  | none => exact hdesc.below row (by simp)
  | some newest =>
    exact (List.pairwise_append.mp hdesc.strictly).2.2 newest (List.mem_of_getLast? hlast) row
      List.mem_cons_self

theorem LevelFloor.of_length_le_one (h : LevelFloor limit units floor) (hlength : units.length ≤ 1) :
    floor = 0 := by
  cases h with
  | none => rfl
  | below _ _ hmore => omega

/-- **One unit.** The walk takes it, and goes on exactly while level 1 has no floor. -/
theorem Walked.take (h : Walked targets boundary taken walk)
    (hdesc : Descends boundary (taken ++ [row])) : ∃ next,
      walk.take row.start row.size = some (next, decide (next.floors 0 = 0)) ∧
        Walked targets boundary (taken ++ [row]) next ∧ next.pageRows = walk.pageRows := by
  have htotal : addSaturating walk.total row.size =
      running (taken ++ [row]) (taken ++ [row]).length := by
    rw [List.length_append, List.length_singleton,
      running_succ (show (taken ++ [row])[taken.length]? = some row by simp), h.total,
      running_append le_rfl]
  have hcursor : row.start = ((taken ++ [row]).getLast?.map Row.start).getD boundary := by
    rw [List.getLast?_concat]
    rfl
  rw [Walk.take, if_pos (h.start_lt hdesc)]
  cases hlast : taken.getLast? with
  | none =>
    obtain rfl := List.getLast?_eq_none_iff.mp hlast
    have hnone : ∀ i, walk.floors i = 0 := fun i => (h.floors i).of_length_le_one (Nat.zero_le _)
    simp only [h.units, List.length_nil, Nat.zero_add, if_true]
    refine ⟨{ walk with
      cursor := row.start
      total := addSaturating walk.total row.size
      units := 1 }, by simp only [hnone, decide_true], ⟨h.aims, ?_, htotal, rfl, hcursor⟩, rfl⟩
    intro i
    show LevelFloor (targets i) [row] (walk.floors i)
    rw [hnone]
    refine .none fun j hj => .inl ?_
    simpa using hj
  | some newest =>
    have hunits : ¬ walk.units + 1 = 1 := by
      rw [h.units]
      cases taken with
      | nil => cases hlast
      | cons _ _ => simp
    simp only [if_neg hunits]
    refine ⟨_, rfl, ⟨h.aims, ?_, htotal, ?_, hcursor⟩, rfl⟩
    · intro i
      have hsnoc := (h.floors i).snoc hdesc hlast
      simp only [h.aims, htotal, List.length_append, List.length_singleton]
      rwa [h.cursor, hlast, Option.map_some, Option.getD_some]
    · rw [List.length_append, List.length_singleton]
      exact congrArg (· + 1) h.units

/-- One page: it is taken whole, or up to the unit that gives level 1 its floor. -/
theorem Walked.page {rows : List Row} (h : Walked targets boundary taken walk)
    (hdesc : Descends boundary (taken ++ rows)) : ∃ next seen unseen,
      rows = seen ++ unseen ∧ walk.page rows = some next ∧
        Walked targets boundary (taken ++ seen) next ∧ (unseen = [] ∨ next.floors 0 ≠ 0) ∧
          next.pageRows = walk.pageRows + seen.length := by
  induction rows generalizing taken walk with
  | nil => exact ⟨walk, [], [], rfl, rfl, by rwa [List.append_nil], .inl rfl, rfl⟩
  | cons row rows ih =>
    have hcounted : Walked targets boundary taken { walk with pageRows := walk.pageRows + 1 } :=
      ⟨h.aims, h.floors, h.total, h.units, h.cursor⟩
    have hone : Descends boundary (taken ++ [row]) := by
      have hall : Descends boundary (taken ++ [row] ++ rows) := by simpa using hdesc
      exact hall.prefix_of
    obtain ⟨next, htake, hwalked, hrows⟩ := hcounted.take hone
    have hrows : next.pageRows = walk.pageRows + 1 := hrows
    have hvisit : walk.visit row = some (next, decide (next.floors 0 = 0)) := htake
    by_cases hfloor : next.floors 0 = 0
    · have hall : Descends boundary (taken ++ [row] ++ rows) := by simpa using hdesc
      obtain ⟨final, seen, unseen, rfl, hpage, hfinal, hstop, hcount⟩ := ih hwalked hall
      refine ⟨final, row :: seen, unseen, rfl, ?_, by simpa using hfinal, hstop, ?_⟩
      · simp only [Walk.page, hvisit, Option.bind_some, hfloor, decide_true, if_true]
        exact hpage
      · rw [hcount, hrows, List.length_cons]
        omega
    · refine ⟨next, [row], rows, rfl, ?_, hwalked, .inr hfloor, hrows⟩
      simp [Walk.page, hvisit, hfloor]

/-- Pages: all of their units are taken, or level 1 has its floor. -/
theorem Walked.feed {pages : List (List Row)} (h : Walked targets boundary taken walk)
    (hdesc : Descends boundary (taken ++ pages.flatten)) : ∃ next seen unseen,
      pages.flatten = seen ++ unseen ∧ walk.feed pages = some next ∧
        Walked targets boundary (taken ++ seen) next ∧ (unseen = [] ∨ next.floors 0 ≠ 0) := by
  induction pages generalizing taken walk with
  | nil => exact ⟨walk, [], [], rfl, rfl, by rwa [List.append_nil], .inl rfl⟩
  | cons rows pages ih =>
    by_cases hdone : walk.floors 0 = 0
    · have hfresh : Walked targets boundary taken { walk with pageRows := 0 } :=
        ⟨h.aims, h.floors, h.total, h.units, h.cursor⟩
      have hall : Descends boundary (taken ++ rows ++ pages.flatten) := by
        simpa [List.append_assoc] using hdesc
      obtain ⟨next, seen, unseen, rfl, hpage, hwalked, hstop, -⟩ := hfresh.page hall.prefix_of
      have hfeed : walk.feed ((seen ++ unseen) :: pages) = next.feed pages := by
        simp only [Walk.feed, Walk.done, hdone, ne_eq, not_true_eq_false, decide_false,
          Bool.false_eq_true, if_false, hpage, Option.bind_some]
      rw [hfeed]
      by_cases hfound : next.floors 0 = 0
      · obtain rfl : unseen = [] := hstop.resolve_right fun h => h hfound
        rw [List.append_nil] at hall ⊢
        obtain ⟨final, more, left, hmore, hfinal, hlast, hend⟩ := ih hwalked hall
        refine ⟨final, seen ++ more, left, ?_, hfinal, by rwa [← List.append_assoc], hend⟩
        rw [List.flatten_cons, hmore, List.append_assoc]
      · refine ⟨next, seen, unseen ++ pages.flatten, ?_, ?_, hwalked, .inr hfound⟩
        · rw [List.flatten_cons, List.append_assoc]
        · cases pages with
          | nil => rfl
          | cons _ _ => simp [Walk.feed, Walk.done, hfound]
    · refine ⟨walk, [], (rows :: pages).flatten, rfl, ?_, by rwa [List.append_nil], .inr hdone⟩
      simp [Walk.feed, Walk.done, hdone]

theorem target_mono {level level' : Nat} (window reservation : Nat) (h : level ≤ level') :
    target window reservation level' ≤ target window reservation level := by
  rw [target, target, Nat.shiftRight_eq_div_pow, Nat.shiftRight_eq_div_pow]
  exact Nat.div_le_div_left (Nat.pow_le_pow_right (by decide) (by omega)) (by positivity)

/-- **The early stop changes nothing.** Once level 1 has its floor every deeper level
has its own, so the units that were not seen find no other. -/
theorem Walked.whole (h : Walked targets boundary taken walk)
    (hdesc : Descends boundary (taken ++ rest)) (htargets : Antitone targets)
    (hstop : rest = [] ∨ walk.floors 0 ≠ 0) (i : Fin levels) :
    LevelFloor (targets i) (taken ++ rest) (walk.floors i) := by
  rcases hstop with rfl | hfound
  · rw [List.append_nil]
    exact h.floors i
  · refine (h.floors i).append ?_ rest
    have hle := (h.floors 0).mono hdesc.prefix_of (h.floors i) (htargets (Fin.zero_le i))
    omega

/-! ## Reading pages below the cursor -/

/-- What begins below the cursor is what was not taken yet. -/
theorem Walked.readUnits (h : Walked targets boundary taken walk)
    (hdesc : Descends boundary (taken ++ rest)) :
    readUnits (taken ++ rest) walk.cursor = rest.take pageRows := by
  have htaken : taken.filter (fun row => decide (row.start < walk.cursor)) = [] := by
    refine List.filter_eq_nil_iff.mpr fun row hrow => ?_
    rw [decide_eq_true_iff, h.cursor, Nat.not_lt]
    cases hlast : taken.getLast? with
    | none =>
      rw [List.getLast?_eq_none_iff.mp hlast] at hrow
      cases hrow
    | some newest =>
      obtain ⟨i, hi⟩ := List.mem_iff_getElem?.mp hrow
      rw [List.getLast?_eq_getElem?] at hlast
      have hlt := (List.getElem?_eq_some_iff.mp hi).1
      rcases Nat.lt_or_ge i (taken.length - 1) with hless | hmore
      · exact (hdesc.prefix_of.start_lt hi hlast hless).le
      · obtain rfl : i = taken.length - 1 := by omega
        rw [hlast] at hi
        cases hi
        exact le_rfl
  have hrest : rest.filter (fun row => decide (row.start < walk.cursor)) = rest := by
    refine List.filter_eq_self.mpr fun row hrow => decide_eq_true ?_
    rw [h.cursor]
    cases hlast : taken.getLast? with
    | none => exact hdesc.below row (List.mem_append_right _ hrow)
    | some newest =>
      exact (List.pairwise_append.mp hdesc.strictly).2.2 newest (List.mem_of_getLast? hlast) row
        hrow
  rw [HistoryFloor.readUnits, List.filter_append, htaken, hrest, List.nil_append]

/-- The loop ends, having taken every unit or found level 1's floor. -/
theorem Walked.read {fuel : Nat} (h : Walked targets boundary taken walk)
    (hdesc : Descends boundary (taken ++ rest)) (hfuel : rest.length < fuel) :
    ∃ next seen unseen, rest = seen ++ unseen ∧
      Walk.read (taken ++ rest) fuel walk = some next ∧
        Walked targets boundary (taken ++ seen) next ∧ (unseen = [] ∨ next.floors 0 ≠ 0) := by
  induction fuel generalizing taken rest walk with
  | zero => omega
  | succ fuel ih =>
    by_cases hdone : walk.floors 0 = 0
    · have hfresh : Walked targets boundary taken { walk with pageRows := 0 } :=
        ⟨h.aims, h.floors, h.total, h.units, h.cursor⟩
      have hsplit : taken ++ rest = taken ++ rest.take pageRows ++ rest.drop pageRows := by
        rw [List.append_assoc, List.take_append_drop]
      have hpage : Descends boundary (taken ++ rest.take pageRows) := by
        rw [hsplit] at hdesc
        exact hdesc.prefix_of
      obtain ⟨next, seen, unseen, hrows, hread, hwalked, hstop, hcount⟩ := hfresh.page hpage
      have hcount : next.pageRows = seen.length := by
        rw [hcount]
        exact Nat.zero_add _
      have hlength := congrArg List.length hrows
      rw [List.length_take, List.length_append] at hlength
      have hturn : Walk.read (taken ++ rest) (fuel + 1) walk =
          if seen.length < pageRows then some next else next.read (taken ++ rest) fuel := by
        simp only [Walk.read, Walk.done, hdone, ne_eq, not_true_eq_false, decide_false,
          Bool.false_eq_true, if_false, h.readUnits hdesc, hread, Option.bind_some, hcount]
      rw [hturn]
      by_cases hshort : seen.length < pageRows
      · refine ⟨next, seen, unseen ++ rest.drop pageRows, ?_, if_pos hshort, hwalked, ?_⟩
        · rw [← List.append_assoc, ← hrows, List.take_append_drop]
        · rcases hstop with rfl | hfound
          · refine .inl ?_
            rw [List.length_nil] at hlength
            rw [List.nil_append, List.drop_eq_nil_iff]
            omega
          · exact .inr hfound
      · rw [if_neg hshort]
        obtain rfl : unseen = [] := List.eq_nil_of_length_eq_zero (by omega)
        rw [List.append_nil] at hrows
        rw [hsplit, hrows] at hdesc ⊢
        have hpos : 0 < pageRows := by decide
        obtain ⟨final, more, left, hmore, hfinal, hlast, hend⟩ :=
          ih hwalked hdesc (by rw [List.length_drop]; omega)
        refine ⟨final, seen ++ more, left, ?_, hfinal, by rwa [← List.append_assoc], hend⟩
        rw [List.append_assoc, ← hmore, ← hrows, List.take_append_drop]
    · refine ⟨walk, [], rest, rfl, ?_, by rwa [List.append_nil], .inr hdone⟩
      simp [Walk.read, Walk.done, hdone]

/-! ## Going deeper -/

theorem deeper_go {among : List (Fin levels)}
    (h : Walk.deeper.go walk past previous among = some choice) : ∃ i ∈ among, past ≤ i ∧
      previous < walk.floors i ∧ choice = ⟨walk.floors i, i + 1⟩ := by
  induction among with
  | nil => cases h
  | cons i among ih =>
    rw [Walk.deeper.go] at h
    by_cases hhere : past ≤ i ∧ previous < walk.floors i
    · rw [if_pos hhere] at h
      cases h
      exact ⟨i, List.mem_cons_self, hhere.1, hhere.2, rfl⟩
    · rw [if_neg hhere] at h
      obtain ⟨j, hj, hrest⟩ := ih h
      exact ⟨j, List.mem_cons_of_mem _ hj, hrest⟩

theorem deeper_eq (h : walk.deeper past previous = some choice) : ∃ i : Fin levels, past ≤ i ∧
      previous < walk.floors i ∧ choice = ⟨walk.floors i, i + 1⟩ := by
  obtain ⟨i, -, hrest⟩ := deeper_go h
  exact ⟨i, hrest⟩

/-- The choices got by passing the last floor and level on. -/
inductive Recovers (walk : Walk) : Nat → Nat → List Choice → Prop
  | nil {past previous : Nat} : Recovers walk past previous []
  | cons {past previous : Nat} {choice : Choice} {choices : List Choice}
    (hdeeper : walk.deeper past previous = some choice)
    (hrest : Recovers walk choice.level choice.floor choices) :
    Recovers walk past previous (choice :: choices)

/-- The units a floor drops. -/
def dropped (units : List Row) (floor : Nat) : List Row :=
  units.filter fun row => decide (row.start ≤ floor)

/-- A choice of this walk, past a level and a floor. -/
def Deeper (walk : Walk) (past previous : Nat) (choice : Choice) : Prop :=
  past < choice.level ∧ choice.level ≤ levels ∧ previous < choice.floor ∧
    ∃ i, choice.floor = walk.floors i

theorem Deeper.trans {first second : Choice} (h : Deeper walk past previous first)
    (h' : Deeper walk first.level first.floor second) : Deeper walk past previous second :=
  ⟨h.1.trans h'.1, h'.2.1, h.2.2.1.trans h'.2.2.1, h'.2.2.2⟩

theorem Recovers.deeper (h : Recovers walk past previous choices) :
    (∀ c ∈ choices, Deeper walk past previous c) ∧
      choices.Pairwise (fun a b => Deeper walk a.level a.floor b) := by
  induction h with
  | nil => exact ⟨fun c hc => absurd hc List.not_mem_nil, .nil⟩
  | cons hdeeper _ ih =>
    obtain ⟨i, hlevel, hfloor, rfl⟩ := deeper_eq hdeeper
    have hfirst : Deeper walk _ _ ⟨walk.floors i, i + 1⟩ :=
      ⟨Nat.lt_succ_of_le hlevel, i.isLt, hfloor, i, rfl⟩
    refine ⟨fun c hc => ?_, List.pairwise_cons.mpr ⟨ih.1, ih.2⟩⟩
    rcases List.mem_cons.mp hc with rfl | hc
    · exact hfirst
    · exact hfirst.trans (ih.1 c hc)

theorem Recovers.length_le (h : Recovers walk past previous choices) :
    choices.length ≤ levels - past := by
  induction h with
  | nil => exact Nat.zero_le _
  | @cons past _ _ _ hdeeper _ ih =>
    obtain ⟨i, hlevel, -, rfl⟩ := deeper_eq hdeeper
    have hlt := i.isLt
    simp only [List.length_cons] at ih ⊢
    omega

/-- A higher floor drops a unit that a floor just below a unit kept. -/
theorem dropped_lt {a b : Nat} (hlt : a < b) (hunit : ∃ row ∈ units, a < row.start ∧ row.start ≤ b) :
    (dropped units a).length < (dropped units b).length := by
  obtain ⟨row, hrow, hlow, hhigh⟩ := hunit
  have hsub : (dropped units a).Sublist (dropped units b) :=
    List.monotone_filter_right units fun row h =>
      decide_eq_true ((of_decide_eq_true h).trans hlt.le)
  refine Nat.lt_of_le_of_ne hsub.length_le fun heq => ?_
  have hmem : row ∈ dropped units b := List.mem_filter.mpr ⟨hrow, decide_eq_true hhigh⟩
  rw [← hsub.eq_of_length heq] at hmem
  have := of_decide_eq_true (List.mem_filter.mp hmem).2
  omega

/-- A floor that was found is just below a unit, and drops an older one. -/
theorem LevelFloor.found (hdesc : Descends boundary units) (h : LevelFloor limit units floor)
    (hfound : floor ≠ 0) :
    (∃ row ∈ units, row.start = floor + 1) ∧ ∃ row ∈ units, row.start ≤ floor := by
  cases h with
  | none => exact absurd rfl hfound
  | @below i row hrow _ hmore =>
    have hnext := List.getElem?_eq_getElem hmore
    have hlt := hdesc.start_lt hrow hnext (Nat.lt_succ_self i)
    refine ⟨⟨row, List.mem_of_getElem? hrow, by omega⟩, _, List.getElem_mem hmore, by omega⟩

/-! ## The whole walk -/

/-- A walk that takes every unit, floor or no floor. -/
def Walk.takeAll (walk : Walk) : List Row → Option Walk
  | [] => some walk
  | row :: rest => (walk.take row.start row.size).bind fun taken => taken.1.takeAll rest

theorem Walked.takeAll (h : Walked targets boundary taken walk)
    (hdesc : Descends boundary (taken ++ rest)) : ∃ whole, walk.takeAll rest = some whole ∧
      Walked targets boundary (taken ++ rest) whole := by
  induction rest generalizing taken walk with
  | nil => exact ⟨walk, rfl, by rwa [List.append_nil]⟩
  | cons row rest ih =>
    have hall : Descends boundary (taken ++ [row] ++ rest) := by simpa using hdesc
    obtain ⟨next, htake, hwalked, -⟩ := h.take hall.prefix_of
    obtain ⟨whole, hwhole, hfinal⟩ := ih hwalked hall
    refine ⟨whole, ?_, by simpa using hfinal⟩
    rw [Walk.takeAll, htake]
    exact hwhole

theorem target_antitone (window reservation : Nat) :
    Antitone fun i : Fin levels => target window reservation (i + 1) := fun _ _ h =>
  target_mono window reservation (Nat.succ_le_succ h)

theorem Recovers.drops (hdesc : Descends boundary units)
    (hfloors : ∀ i, LevelFloor (targets i) units (walk.floors i))
    (h : Recovers walk past previous choices) : choices.Pairwise (fun a b =>
        (dropped units a.floor).length < (dropped units b.floor).length) ∧
      ∀ c ∈ choices, (∀ row ∈ units, previous < row.start) →
        (dropped units previous).length < (dropped units c.floor).length := by
  obtain ⟨hall, hpairs⟩ := h.deeper
  have hfound : ∀ c ∈ choices, (∃ row ∈ units, row.start = c.floor + 1) ∧
      ∃ row ∈ units, row.start ≤ c.floor := by
    intro c hc
    obtain ⟨-, -, hlt, i, hfloor⟩ := hall c hc
    have hlevel := hfloors i
    rw [← hfloor] at hlevel
    exact hlevel.found hdesc (by omega)
  refine ⟨hpairs.imp_of_mem fun ha _ hdeeper => ?_, fun c hc habove => ?_⟩
  · obtain ⟨row, hrow, hstart⟩ := (hfound _ ha).1
    have hlt := hdeeper.2.2.1
    exact dropped_lt hlt ⟨row, hrow, by omega, by omega⟩
  · obtain ⟨row, hrow, hle⟩ := (hfound c hc).2
    exact dropped_lt (hall c hc).2.2.1 ⟨row, hrow, habove row hrow, hle⟩

/-- **The walk.** Fed its units newest first, in pages of any split, until it is done, it
ends with each level's floor just below the oldest unit the level keeps. The floors never
decrease with the level, and they are those of a walk that never stops and of the loop
that reads its own pages. Choices got by passing the last floor and level on strictly
increase in both, so they are at most `levels`, and each drops more units than the last. -/
theorem walk_floors {window reservation boundary : Nat} {pages : List (List Row)}
    (hdesc : Descends boundary pages.flatten) :
    ∃ walk, (Walk.init window reservation boundary).feed pages = some walk ∧
      (∀ i : Fin levels, LevelFloor (target window reservation (i + 1)) pages.flatten (walk.floors i)) ∧
      Monotone walk.floors ∧
      (∃ whole, (Walk.init window reservation boundary).takeAll pages.flatten = some whole ∧
        whole.floors = walk.floors) ∧
      (∀ fuel, pages.flatten.length < fuel → ∃ read,
        Walk.read pages.flatten fuel (.init window reservation boundary) = some read ∧
          read.floors = walk.floors) ∧
      ∀ past previous choices, Recovers walk past previous choices →
        (choices.map Choice.level).Pairwise (· < ·) ∧
        (choices.map Choice.floor).Pairwise (· < ·) ∧
        (∀ c ∈ choices, past < c.level ∧ previous < c.floor) ∧ choices.length ≤ levels ∧
        choices.Pairwise (fun a b => (dropped pages.flatten a.floor).length <
          (dropped pages.flatten b.floor).length) ∧
        ∀ c ∈ choices, (∀ row ∈ pages.flatten, previous < row.start) →
          (dropped pages.flatten previous).length < (dropped pages.flatten c.floor).length := by
  have htargets := target_antitone window reservation
  have hstart := Walked.init window reservation boundary
  obtain ⟨walk, seen, unseen, hpages, hfeed, hwalked, hstop⟩ := hstart.feed hdesc
  have hsplit : Descends boundary ([] ++ seen ++ unseen) := by
    rwa [List.nil_append, ← hpages]
  have hfloors : ∀ i : Fin levels, LevelFloor (target window reservation (i + 1)) pages.flatten
      (walk.floors i) := by
    intro i
    have hlevel := hwalked.whole hsplit htargets hstop i
    rwa [List.nil_append, ← hpages] at hlevel
  have hwhole : Descends boundary ([] ++ pages.flatten) := hdesc
  refine ⟨walk, hfeed, hfloors, ?_, ?_, ?_, ?_⟩
  · exact fun i j hij => (hfloors i).mono hdesc (hfloors j) (htargets hij)
  · obtain ⟨whole, htake, hfinal⟩ := hstart.takeAll hwhole
    exact ⟨whole, htake, funext fun i => (hfinal.floors i).unique hdesc (hfloors i)⟩
  · intro fuel hfuel
    obtain ⟨read, before, after, hunits, hread, hreadWalked, hreadStop⟩ :=
      hstart.read hwhole hfuel
    have hreadSplit : Descends boundary ([] ++ before ++ after) := by
      rwa [List.nil_append, ← hunits]
    refine ⟨read, hread, funext fun i => ?_⟩
    have hlevel := hreadWalked.whole hreadSplit htargets hreadStop i
    rw [List.nil_append, ← hunits] at hlevel
    exact hlevel.unique hdesc (hfloors i)
  · intro past previous choices hchoices
    obtain ⟨hall, hpairs⟩ := hchoices.deeper
    obtain ⟨hdrops, hfirst⟩ := hchoices.drops hdesc hfloors
    refine ⟨?_, ?_, fun c hc => ⟨(hall c hc).1, (hall c hc).2.2.1⟩, ?_, hdrops, hfirst⟩
    · exact List.pairwise_map.mpr (hpairs.imp fun h => h.1)
    · exact List.pairwise_map.mpr (hpairs.imp fun h => h.2.2.1)
    · exact hchoices.length_le.trans (Nat.sub_le _ _)

/-- Five units in two pages, for targets of 400, 100 and 25 bytes. -/
def spread : List (List Row) :=
  [[⟨90, 10⟩, ⟨80, 10⟩], [⟨70, 10⟩, ⟨60, 90⟩, ⟨50, 300⟩]]

theorem walk_floors_spread : ∃ walk, (Walk.init 100 0 100).feed spread = some walk ∧
    LevelFloor 400 spread.flatten 59 ∧ LevelFloor 100 spread.flatten 69 ∧
      LevelFloor 25 spread.flatten 79 ∧ Monotone walk.floors := by
  obtain ⟨walk, hfeed, hfloors, hmono, -⟩ :=
    @walk_floors 100 0 100 spread ⟨by decide, by decide, by decide⟩
  refine ⟨walk, hfeed, ?_⟩
  cases hfeed
  exact ⟨hfloors 0, hfloors 1, hfloors 2, hmono⟩

/-! ## The next compaction -/

theorem deeper_go_first {past previous : Nat} {among : List (Fin levels)}
    (hsorted : among.Pairwise (· < ·)) (hseen : ∀ j ∉ among, past ≤ j → walk.floors j ≤ previous) :
    match Walk.deeper.go walk past previous among with
    | none => ∀ i : Fin levels, past ≤ i → walk.floors i ≤ previous
    | some choice => ∃ i : Fin levels, choice = ⟨walk.floors i, i + 1⟩ ∧ past ≤ i ∧
        previous < walk.floors i ∧ ∀ j < i, past ≤ j → walk.floors j ≤ previous := by
  induction among with
  | nil => exact fun i => hseen i List.not_mem_nil
  | cons i among ih =>
    obtain ⟨hfirst, hrest⟩ := List.pairwise_cons.mp hsorted
    rw [Walk.deeper.go]
    split_ifs with hhere
    · refine ⟨i, rfl, hhere.1, hhere.2, fun j hlt => hseen j fun hmem => ?_⟩
      rcases List.mem_cons.mp hmem with rfl | hmem
      · exact lt_irrefl _ hlt
      · exact lt_asymm hlt (hfirst j hmem)
    · refine ih hrest fun j hj hpast => ?_
      by_cases heq : j = i
      · exact Nat.le_of_not_lt fun hlt => hhere ⟨heq ▸ hpast, heq ▸ hlt⟩
      · exact hseen j (by simp [heq, hj]) hpast

/-- **What settlement and admission both ask**: the first level past the overflowed
compaction's own whose floor drops more than its own did, or than its base's where it has none;
and none where no level does. -/
theorem deeperFloor_first {facts : Facts} {fuel : Nat}
    (hdesc : Descends facts.admissionPosition units) (hfuel : units.length < fuel) :
    let previous := facts.historyFloor.getD (facts.baseFloor.getD 0)
    ∃ (floors : Fin levels → Nat) (answer : Option Room),
      (∀ i : Fin levels,
        LevelFloor (target facts.contextWindow facts.outputReservation (i + 1)) units (floors i)) ∧
      deeperFloor facts units fuel = some answer ∧
      match answer with
      | none => ∀ i : Fin levels, facts.historyLevel.getD 0 ≤ i → floors i ≤ previous
      | some room => ∃ i : Fin levels,
          room = ⟨⟨floors i, i + 1⟩, previous, facts.firstMessage⟩ ∧
          facts.historyLevel.getD 0 ≤ i ∧ previous < floors i ∧
          ∀ j < i, facts.historyLevel.getD 0 ≤ j → floors j ≤ previous := by
  intro previous
  have hstart := Walked.init facts.contextWindow facts.outputReservation facts.admissionPosition
  have hwhole : Descends facts.admissionPosition ([] ++ units) := hdesc
  obtain ⟨walk, seen, unseen, rfl, hread, hwalked, hstop⟩ := hstart.read hwhole hfuel
  have hfloors := hwalked.whole hdesc (target_antitone _ _) hstop
  rw [List.nil_append] at hread
  rw [deeperFloor]
  split
  case isTrue hpast =>
    exact ⟨walk.floors, none, hfloors, rfl, fun i hi => absurd i.isLt (by omega)⟩
  case isFalse =>
    have hfirst := @deeper_go_first walk (facts.historyLevel.getD 0) facts.previous _
      (List.pairwise_lt_finRange levels) fun j hj => absurd (List.mem_finRange j) hj
    refine ⟨walk.floors, _, hfloors, by rw [hread]; rfl, ?_⟩
    dsimp only [Walk.deeper]
    cases hgo : Walk.deeper.go walk _ facts.previous (List.finRange levels) with
    | none =>
      rw [hgo] at hfirst
      exact hfirst
    | some choice =>
      rw [hgo] at hfirst
      obtain ⟨i, rfl, hrest⟩ := hfirst
      exact ⟨i, rfl, hrest⟩

/-- A compaction of level 1 that dropped to 59 goes to the floor of level 2. -/
theorem deeperFloor_first_spread : ∃ floors : Fin levels → Nat,
    (∀ i : Fin levels, LevelFloor (target 100 0 (i + 1)) spread.flatten (floors i)) ∧
      deeperFloor ⟨100, some 59, some 1, some 40, 1, 0, 100⟩ spread.flatten 6 =
        some (some ⟨⟨floors 1, 2⟩, 59, 1⟩) ∧ 59 < floors 1 := by
  obtain ⟨floors, answer, hfloors, hdeeper, hfirst⟩ :=
    @deeperFloor_first spread.flatten ⟨100, some 59, some 1, some 40, 1, 0, 100⟩ 6
      ⟨by decide, by decide, by decide⟩ (by decide)
  refine ⟨floors, hfloors, ?_⟩
  have hread : deeperFloor ⟨100, some 59, some 1, some 40, 1, 0, 100⟩ spread.flatten 6 =
      some (some ⟨⟨69, 2⟩, 59, 1⟩) := rfl
  rw [hread, Option.some_inj] at hdeeper
  subst hdeeper
  obtain ⟨i, hroom, -⟩ := hfirst
  have hlevel : i = 1 :=
    Fin.ext (Nat.succ.inj (congrArg (fun room => room.choice.level) hroom)).symm
  subst hlevel
  have hfloor : 69 = floors 1 := congrArg (fun room => room.choice.floor) hroom
  rw [hread, ← hfloor]
  exact ⟨rfl, by decide⟩

end Rui.HistoryFloor
