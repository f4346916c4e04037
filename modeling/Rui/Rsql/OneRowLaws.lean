import Rui.Rsql.Joined

/-!
# One row at most

What a conjunct pins is one source's column where the engine finds the name there,
and one value where the two sides are of one type. Then the rows a pinned source
adds agree on a key in every two rows of the result, so there are not two.
-/

namespace Rui.Rsql

/-! ## Pins as they are meant -/

section
variable (engine : Engine) (schema : Schema) (db : Db) (args : Nat → Value) (core : Core)

/-- A conjunct over the first `m` sources, an ON's or the WHERE's. -/
def Core.Stands (term : Term) (m : Nat) : Prop :=
  (∃ (i : Nat) (source : Source) (on : Expr), core.sources[i]? = some source ∧
    source.on = some on ∧ term.condition ∈ conjuncts on ∧
    term.only = (if source.join = .left then some i else none) ∧ m = i + 1) ∨
  ∃ condition, core.where_ = some condition ∧ term.condition ∈ conjuncts condition ∧
    term.only = none ∧ m = core.sources.length

/-- The engine reads the name as this source's column: of the first `m` sources it alone has it. -/
def Core.Reads (m : Nat) (c : Column) (index : Nat) : Prop :=
  (∃ source, core.sources[index]? = some source ∧ index < m ∧
    (source.bind schema db none).has engine c = true) ∧
  ∀ (i : Nat) (source : Source), i < m → core.sources[i]? = some source →
    (source.bind schema db none).has engine c = true → i = index

/-- The engine reads the name as no other source's column. It may refuse it. -/
def Core.Only (m : Nat) (c : Column) (index : Nat) : Prop :=
  ∀ i, core.Reads engine schema db m c i → i = index

/-- A value that the column has in a row of the source. -/
def Core.Has (index : Nat) (c : Column) (v : Value) : Prop :=
  ∃ source, core.sources[index]? = some source ∧
    ∃ row ∈ source.rows db, v = row (engine.fold c.name)

/-- A side that is the same for every row once some sources are pinned, and the values it may have:
a parameter, a constant, or a column read as no source's but a pinned one's. -/
inductive Core.Steady (pinned : List Bool) (m : Nat) : Expr → (Value → Prop) → Prop
  | parameter (k : Nat) : Steady pinned m (.parameter k) (· = args k)
  | session (k : Nat) : Steady pinned m (.session k) (· = args k)
  | constant (text : String) : Steady pinned m (.constant text) (· = engine.literal text)
  | column (c : Column) (index : Nat) (hpinned : pinned[index]? = some true)
      (honly : core.Only engine schema db m c index) :
      Steady pinned m (.column c) (core.Has engine db index c)

/-- A source that conjuncts pin as the engine reads them: each column of one of its keys equals what
is the same for every row, and is of one type with it. -/
def Core.Pinned (pinned : List Bool) (index : Nat) (source : Source) : Prop :=
  ∃ key ∈ schema.keys source.table, ∀ column ∈ key,
    ∃ (term : Term) (m : Nat) (c : Column) (value : Expr) (range : Value → Prop),
      core.Stands term m ∧ (term.only = none ∨ term.only = some index) ∧
      (term.condition = .equality (.column c) value ∨
        term.condition = .equality value (.column c)) ∧
      c.name = column.name ∧ core.Only engine schema db m c index ∧
      core.Steady engine schema db args pinned m value range ∧
      ∀ a b, core.Has engine db index c a → range b → a ≠ .null → b ≠ .null → a.rank = b.rank

/-- No source is left that the pinned ones pin. -/
def Closed (pinned : List Bool) : Prop :=
  ∀ (i : Nat) (source : Source), core.sources[i]? = some source → source.defined = false →
    pins schema core pinned i source = true → pinned[i]? = some true

/-- No source is left that the conjuncts pin as the engine reads them. -/
def Core.Settled (pinned : List Bool) : Prop :=
  ∀ (i : Nat) (source : Source), core.sources[i]? = some source → source.defined = false →
    core.Pinned engine schema db args pinned i source → pinned[i]? = some true

/-- Where the conjuncts pin no source more, as the engine reads them, the analysis pins none. -/
def Core.Plain : Prop :=
  ∀ pinned, core.Settled engine schema db args pinned → Closed schema core pinned

end

/-! ## Values of columns -/

section
variable {engine : Engine} {schema : Schema} {db : Db} {args : Nat → Value} {core : Core}

variable {scope : Scope} {pinned wider : List Bool} {index : Nat} {c : Column} {source : Source}
  {condition : Expr}

theorem find_mem {b : Bound} (h : scope.find engine c = some b) :
    scope.filter (·.has engine c) = [b] ∧ b ∈ scope ∧ b.has engine c = true := by
  simp only [Scope.find] at h
  split at h
  case h_1 each heach =>
    obtain rfl := Option.some.inj h
    exact ⟨heach, List.mem_filter.mp (heach ▸ List.mem_singleton_self each)⟩
  case h_2 => cases h

theorem filter_one {α : Type} {p : α → Bool} {l : List α} {b x y : α} (h : l.filter p = [b])
    {i j : Nat} (hi : l[i]? = some x) (hj : l[j]? = some y) (hx : p x = true) (hy : p y = true) :
    i = j := by
  have hapart : l.Pairwise fun x y => ¬(p x = true ∧ p y = true) := by
    refine List.pairwise_iff_forall_sublist.mpr fun hsub ⟨hx, hy⟩ => ?_
    have hlength := (hsub.filter p).length_le
    simp [h, hx, hy] at hlength
  obtain ⟨_, rfl⟩ := List.getElem?_eq_some_iff.mp hi
  obtain ⟨_, rfl⟩ := List.getElem?_eq_some_iff.mp hj
  rw [List.pairwise_iff_getElem] at hapart
  rcases Nat.lt_trichotomy i j with hlt | heq | hlt
  · exact absurd ⟨hx, hy⟩ (hapart i j _ _ hlt)
  · exact heq
  · exact absurd ⟨hy, hx⟩ (hapart j i _ _ hlt)

/-- A column that is not NULL is of a row of the one source it is read as. -/
theorem Core.Only.row {scope : Scope} (hjoined : Joined engine schema db args core.sources scope)
    {m : Nat} {c : Column} {index : Nat} (honly : core.Only engine schema db m c index)
    (h : Scope.value engine (scope.take m) c ≠ .null) :
    ∃ source r, core.sources[index]? = some source ∧ r ∈ source.rows db ∧
      scope[index]? = some (source.bind schema db (some r)) ∧
      Scope.value engine (scope.take m) c = r (engine.fold c.name) := by
  simp only [Scope.value] at h ⊢
  cases hfind : Scope.find engine (scope.take m) c with
  | none => exact absurd (by rw [hfind]) h
  | some b =>
    simp only [hfind, Bound.value] at h ⊢
    obtain ⟨hone, hin, hhas⟩ := find_mem hfind
    obtain ⟨i, hi⟩ := List.mem_iff_getElem?.mp hin
    have htake := hi
    rw [List.getElem?_take] at hi
    split at hi
    case isFalse => cases hi
    case isTrue hm =>
      have hlt : i < core.sources.length := hjoined.length ▸ (List.getElem?_eq_some_iff.mp hi).1
      obtain ⟨row, hrow, hmem, -⟩ := hjoined.bound i _ (List.getElem?_eq_getElem hlt)
      obtain rfl := Option.some.inj (hi.symm.trans hrow)
      have halone : ∀ j source, j < m → core.sources[j]? = some source →
          (source.bind schema db none).has engine c = true → j = i := by
        intro j source hj hsource hhas'
        obtain ⟨row', hrow', -⟩ := hjoined.bound j source hsource
        exact filter_one hone ((List.getElem?_take_of_lt hj).trans hrow') htake hhas' hhas
      obtain rfl := honly i ⟨⟨_, List.getElem?_eq_getElem hlt, hm, hhas⟩, halone⟩
      cases row with
      | none => exact absurd rfl h
      | some r => exact ⟨_, r, List.getElem?_eq_getElem hlt, hmem r rfl, hrow, rfl⟩

/-! ## Terms hold -/

theorem fixes_sides {column : IndexColumn}
    (h : fixes condition core.sources pinned index column = true) :
    ∃ side value, (condition = .equality side value ∨ condition = .equality value side) ∧
      names side core.sources index column = true ∧
      fixed value core.sources pinned index = true := by
  simp only [fixes] at h
  split at h
  case h_2 => cases h
  case h_1 left right =>
    simp only [Bool.or_eq_true, Bool.and_eq_true] at h
    rcases h with ⟨hnames, hfixed⟩ | ⟨hnames, hfixed⟩
    · exact ⟨left, right, .inl rfl, hnames, hfixed⟩
    · exact ⟨right, left, .inr rfl, hnames, hfixed⟩

theorem fixed_column (h : fixed (.column c) core.sources pinned index = true) :
    ∃ (i : Nat) (source : Source), pinned[i]? = some true ∧ i ≠ index ∧
      core.sources[i]? = some source ∧ c.table = some source.aliasName := by
  simp only [fixed, List.any_eq_true, List.mem_range, Bool.and_eq_true, decide_eq_true_eq] at h
  obtain ⟨i, hi, ⟨hpinned, hne⟩, hsource⟩ := h
  rw [List.getElem?_eq_getElem hi, Option.any_some, decide_eq_true_eq] at hsource
  refine ⟨i, core.sources[i], ?_, hne, List.getElem?_eq_getElem hi, hsource⟩
  cases hp : pinned[i]? with
  | none => simp [hp] at hpinned
  | some b => simpa [hp] using hpinned

variable (engine schema db args core) in
/-- What a source that is pinned is: a table whose rows in any two rows of the result agree on one
of its keys. -/
def Same (i : Nat) : Prop :=
  ∀ source, core.sources[i]? = some source → source.defined = false ∧
    ∀ scope ∈ core.scopes engine schema db args, ∀ other ∈ core.scopes engine schema db args,
      ∀ r r', scope[i]? = some (source.bind schema db (some r)) →
        other[i]? = some (source.bind schema db (some r')) →
        ∃ key ∈ schema.keys source.table, Agree engine key r r'

section
variable (hkeyed : db.Keyed engine schema) {pinned : List Bool}
  (hsame : ∀ i : Nat, pinned[i]? = some true → Same engine schema db args core i)
  {scope other : Scope}
  (hscope : scope ∈ core.scopes engine schema db args)
  (hother : other ∈ core.scopes engine schema db args)

include hkeyed hsame hscope hother

end

/-! ## Sweeps -/

theorem sweeps_keep (P : List Bool → Prop)
    (hvisit : ∀ pinned index, P pinned → P (visit schema core pinned index)) (more : Nat)
    (h : P pinned) : P (sweeps schema core more pinned) := by
  have hfold : ∀ (indexes : List Nat) {pinned : List Bool}, P pinned →
      P (indexes.foldl (visit schema core) pinned) := by
    intro indexes
    induction indexes with
    | nil => exact id
    | cons index rest ih => exact fun h => ih (hvisit _ index h)
  induction more generalizing pinned with
  | zero => exact h
  | succ more ih =>
    simp only [sweeps]
    split
    · exact h
    · exact ih (hfold _ h)

variable (schema core) in
theorem visit_count (pinned : List Bool) (index : Nat) :
    visit schema core pinned index = pinned ∨
      (visit schema core pinned index).count false < pinned.count false := by
  simp only [visit]
  cases core.sources[index]? with
  | none => exact .inl rfl
  | some own =>
    simp only
    split
    case isTrue => exact .inl rfl
    case isFalse hopen =>
      rcases Nat.lt_or_ge index pinned.length with hlt | hge
      case inr => exact .inl (List.set_eq_of_length_le hge)
      case inl =>
        have hwas : pinned[index] = false := by
          simp only [List.getElem?_eq_getElem hlt, Option.getD_some, Bool.or_eq_true, not_or] at hopen
          exact Bool.eq_false_iff.mpr hopen.1
        cases pins schema core pinned index own with
        | false => exact .inl (hwas ▸ List.set_getElem_self hlt)
        | true =>
          right
          have hpos : 0 < pinned.count false :=
            List.count_pos_iff.mpr (hwas ▸ List.getElem_mem hlt)
          rw [List.count_set hlt, hwas]
          exact Nat.sub_lt hpos Nat.one_pos

variable (schema core) in
theorem foldl_count (indexes : List Nat) (pinned : List Bool) :
    indexes.foldl (visit schema core) pinned = pinned ∨
      (indexes.foldl (visit schema core) pinned).count false < pinned.count false := by
  induction indexes generalizing pinned with
  | nil => exact .inl rfl
  | cons index rest ih =>
    simp only [List.foldl_cons]
    rcases visit_count schema core pinned index with heq | hlt
    · rw [heq]
      exact ih pinned
    · rcases ih (visit schema core pinned index) with heq | hmore
      · exact .inr (heq.symm ▸ hlt)
      · exact .inr (Nat.lt_trans hmore hlt)

/-- **Enough sweeps are made**: another would pin nothing. -/
theorem sweeps_settle (more : Nat) (pinned : List Bool) (h : pinned.count false ≤ more) :
    sweep schema core (sweeps schema core more pinned) = sweeps schema core more pinned := by
  induction more generalizing pinned with
  | zero =>
    rcases foldl_count schema core _ pinned with heq | hlt
    · exact heq
    · omega
  | succ more ih =>
    simp only [sweeps]
    split
    case isTrue heq => exact heq
    case isFalse hne =>
      apply ih
      rcases foldl_count schema core _ pinned with heq | hlt
      · exact absurd heq hne
      · simp only [sweep]
        omega

theorem visit_length (pinned : List Bool) (index : Nat) :
    (visit schema core pinned index).length = pinned.length := by
  simp only [visit]
  split
  · rfl
  · split <;> simp

theorem sweeps_length (more : Nat) (pinned : List Bool) :
    (sweeps schema core more pinned).length = pinned.length :=
  sweeps_keep (·.length = pinned.length)
    (fun now index h => (visit_length now index).trans h) more rfl

theorem pins_mono (h : ∀ i : Nat, pinned[i]? = some true → wider[i]? = some true)
    (hpins : pins schema core pinned index source = true) :
    pins schema core wider index source = true := by
  simp only [pins, List.any_eq_true, List.all_eq_true, Bool.and_eq_true] at hpins ⊢
  obtain ⟨key, hkey, hall⟩ := hpins
  refine ⟨key, hkey, fun column hcolumn => ?_⟩
  obtain ⟨term, hterm, honly, hfixes⟩ := hall column hcolumn
  obtain ⟨side, value, hsides, hnames, hfixed⟩ := fixes_sides hfixes
  have hwider : fixed value core.sources wider index = true := by
    cases value with
    | column c =>
      obtain ⟨i, source, hpinned, hne, hsource, htable⟩ := fixed_column hfixed
      have hi := (List.getElem?_eq_some_iff.mp hsource).1
      simp only [fixed, List.any_eq_true, List.mem_range]
      exact ⟨i, hi, by simp [h i hpinned, hne, hsource, htable]⟩
    | _ => exact hfixed
  refine ⟨term, hterm, honly, ?_⟩
  rcases hsides with heq | heq <;> simp [heq, fixes, hnames, hwider]

theorem foldl_visits {indexes : List Nat} (h : indexes.foldl (visit schema core) pinned = pinned) :
    ∀ i ∈ indexes, visit schema core pinned i = pinned := by
  induction indexes with
  | nil => exact fun _ hi => absurd hi List.not_mem_nil
  | cons index rest ih =>
    rw [List.foldl_cons] at h
    have hhere : visit schema core pinned index = pinned := by
      rcases visit_count schema core pinned index with heq | hlt
      · exact heq
      · rcases foldl_count schema core rest (visit schema core pinned index) with heq | hmore
        · exact heq.symm.trans h
        · rw [h] at hmore
          exact absurd hmore (Nat.lt_asymm hlt)
    rw [hhere] at h
    exact List.forall_mem_cons.mpr ⟨hhere, ih h⟩

theorem sweeps_below (hclosed : Closed schema core wider) (more : Nat)
    (h : ∀ i : Nat, pinned[i]? = some true → wider[i]? = some true) :
    ∀ i : Nat, (sweeps schema core more pinned)[i]? = some true → wider[i]? = some true := by
  refine sweeps_keep (fun now => ∀ i : Nat, now[i]? = some true → wider[i]? = some true)
    (fun now index hnow i hi => ?_) more h
  simp only [visit] at hi
  split at hi
  case h_1 => exact hnow i hi
  case h_2 source hsource =>
    split at hi
    case isTrue => exact hnow i hi
    case isFalse hopen =>
      rw [Bool.or_eq_true, not_or, Bool.not_eq_true, Bool.not_eq_true] at hopen
      by_cases heq : index = i
      · rw [List.getElem?_set, if_pos heq] at hi
        split at hi
        · exact heq ▸ hclosed index source hsource hopen.2 (pins_mono hnow (Option.some.inj hi))
        · cases hi
      · exact hnow i (List.getElem?_set_ne heq ▸ hi)

theorem sweeps_closed (h : pinned.length = core.sources.length) :
    Closed schema core (sweeps schema core core.sources.length pinned) := by
  intro i source hsource hdefined hpins
  have hi := (List.getElem?_eq_some_iff.mp hsource).1
  have hlast : sweep schema core (sweeps schema core core.sources.length pinned) = _ :=
    sweeps_settle _ pinned (List.count_le_length.trans h.le)
  have hsettled := foldl_visits hlast i (List.mem_range.mpr hi)
  have hlength : (sweeps schema core core.sources.length pinned).length = _ := sweeps_length _ _
  rw [← h, ← hlength] at hi
  simp only [visit, hsource, hdefined, hpins, Bool.or_false] at hsettled
  split at hsettled
  case isTrue hpinned =>
    rw [List.getElem?_eq_getElem hi] at hpinned ⊢
    exact congrArg some hpinned
  case isFalse =>
    rw [← hsettled, List.getElem?_set_self hi]

theorem pinsOneRow_within (h : pinsOneRow schema core = true) (hclosed : Closed schema core wider) :
    ∀ i < core.sources.length, wider[i]? = some true := by
  intro i hi
  have hlength : (sweeps schema core core.sources.length (core.sources.map fun _ => false)).length =
      core.sources.length := (sweeps_length _ _).trans (List.length_map _)
  rw [pinsOneRow, List.all_eq_true] at h
  refine sweeps_below hclosed core.sources.length (fun j hj => ?_) i
    ((List.getElem?_eq_getElem (by rw [hlength]; exact hi)).trans
      (congrArg some (h _ (List.getElem_mem _))))
  obtain ⟨_, -, hfalse⟩ := Option.map_eq_some_iff.mp (List.getElem?_map ▸ hj)
  cases hfalse

/-- **Whatever order the sources come in**: all are pinned where every closed set has all. -/
theorem pinsOneRow_closed : pinsOneRow schema core = true ↔
    ∀ pinned, Closed schema core pinned → ∀ i < core.sources.length, pinned[i]? = some true := by
  refine ⟨fun h _ hclosed => pinsOneRow_within h hclosed, fun h => ?_⟩
  have hstart : (core.sources.map fun _ => false).length = core.sources.length := List.length_map _
  rw [pinsOneRow, List.all_eq_true]
  intro now hnow
  obtain ⟨i, hi, rfl⟩ := List.getElem_of_mem hnow
  have htrue := h _ (sweeps_closed hstart) i (by rwa [sweeps_length, hstart] at hi)
  exact Option.some.inj ((List.getElem?_eq_getElem hi).symm.trans htrue)

end

/-! ## One alias for two sources -/

variable {core : Core} {index : Nat} {c : Column}

end Rui.Rsql
