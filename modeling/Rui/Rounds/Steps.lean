import Rui.Rounds.Access

/-!
# What a step returns

Each statement on its own: what it finds and changes when it runs on a database,
and what its caller then gets. Stepping one through an Access returns that, or
fails.
-/

namespace Rui.Rounds

open Library Rui.Changes Rui.Batch

variable {φ ρ γ : Type}

/-! ## Stepping a statement when it is queued -/

def atMostEager (max : Nat) (singleRow : Bool) (items : List ρ) : List (Option ρ) → Option (List ρ)
  | [] => some items
  | row :: rest =>
    if items.length = max then none
    else
      match row with
      | none => none
      | some row =>
        if singleRow then some (items ++ [row]) else atMostEager max singleRow (items ++ [row]) rest

def eachEager (visit : List ρ → Bool) (seen : List ρ) : Nat → List (Option ρ) → Option (List ρ)
  | 0, _ => some seen
  | _ + 1, [] => some seen
  | limit + 1, row :: rest =>
    match row with
    | none => none
    | some row =>
      if visit (seen ++ [row]) then eachEager visit (seen ++ [row]) limit rest
      else some (seen ++ [row])

/-- What a read of one row returns once it found `row`. -/
def lastEager (singleRow : Bool) (row : ρ) (rest : List (Option ρ)) : Option (List ρ) :=
  if singleRow || rest.isEmpty then some [row] else none

/-- The rows a read returns of those it finds, or that it may not find them. -/
def Read.eager (read : Read φ ρ) (rows : List (Option ρ)) : Option (List ρ) :=
  match read.cardinality, rows with
  | .one, [] | .one, none :: _ | .optional, none :: _ => none
  | .optional, [] => some []
  | .one, some row :: rest | .optional, some row :: rest => lastEager read.singleRow row rest
  | .atMost max, rows => atMostEager max read.singleRow [] rows
  | .each limit visit, rows => eachEager visit [] limit rows

/-- What a statement finds or changes, and the database after it. -/
def Work.does (work : Work φ ρ γ) (d : Db (Rows φ)) : Answer ρ × Db (Rows φ) :=
  match work with
  | .read query => (.rows (query.rows d), d)
  | .write change handed _ | .piece change handed =>
    (.changed (change.run handed d).2, (change.run handed d).1)

/-- What the caller gets for an answer. -/
def Work.judge (work : Work φ ρ γ) (answer : Answer ρ) : Option (List ρ) :=
  match work, answer with
  | .read query, .rows rows => query.eager rows
  | .write _ _ expect, .changed changed =>
    match expect.check changed with
    | .ok () => some []
    | .error _ => none
  | .piece _ _, .changed _ => some []
  | _, _ => none

/-- Steps a statement at once: what its caller gets, and the database after it. -/
def Work.eager (work : Work φ ρ γ) (d : Db (Rows φ)) : Option (List ρ × Db (Rows φ)) :=
  (work.judge (work.does d).1).map fun rows => (rows, (work.does d).2)

/-- Steps each statement at once, in order, while none fails. -/
def eagerly : List (Work φ ρ γ) → Db (Rows φ) → Option (List (List ρ) × Db (Rows φ))
  | [], d => some ([], d)
  | work :: rest, d =>
    match work.eager d with
    | none => none
    | some (rows, d) => (eagerly rest d).map fun (results, d) => (rows :: results, d)

variable {works : List (Work φ ρ γ)} {d d'' : Db (Rows φ)} {results : List (List ρ)}
  {loose spec : Db φ} {P : Body (Rows φ) → Prop}

theorem eagerly_snoc {work : Work φ ρ γ} {d' : Db (Rows φ)} {rows : List ρ}
    (h : eagerly works d = some (results, d')) (hw : work.eager d' = some (rows, d'')) :
    eagerly (works ++ [work]) d = some (results ++ [rows], d'') := by
  induction works generalizing d results with
  | nil =>
    cases h
    simp only [List.nil_append, eagerly, hw, Option.map_some]
  | cons first works ih =>
    simp only [eagerly, List.cons_append] at h ⊢
    cases hf : first.eager d with
    | none => simp [hf] at h
    | some found =>
      simp only [hf, Option.map_eq_some_iff] at h
      obtain ⟨⟨results', d₁⟩, hrest, heq⟩ := h
      cases heq
      simp only [ih hrest, Option.map_some, List.cons_append]

/-- What survives a call to the engine that changes no row, done or failed. -/
structure Asked (a a' : Access φ ρ γ) : Prop where
  same : a' = { a with body := a'.body, names := a'.names }
  body : a'.body = { a.body with store := { a.body.store with engine := a'.body.store.engine } }
  broken : ∀ base loose spec, Broken base a.body loose spec → Broken base a'.body loose spec

theorem Asked.refl (a : Access φ ρ γ) : Asked a a := ⟨rfl, rfl, fun _ _ _ h => h⟩

variable {a : Access φ ρ γ}

theorem Asked.trans {a' a'' : Access φ ρ γ} (h : Asked a a') (h' : Asked a' a'') : Asked a a'' where
  same := by
    rw [h'.same, h.same]
  body := by
    rw [h'.body, h.body]
  broken base loose spec hb := h'.broken base loose spec (h.broken base loose spec hb)

theorem Within.failed {s : Store φ} (h : Within s loose spec) {engine : Engine (Db φ)}
    (hc : engine.committed = s.engine.committed)
    (htx : engine.transaction = s.engine.transaction ∨ engine.transaction = none) :
    Within { s with engine } loose spec := by
  cases h with
  | settled h => exact .settled (h.failed hc htx)
  | first batch committed savepoint equal transaction bounded =>
    refine .first batch (hc.trans committed) savepoint equal ?_ bounded
    rcases htx with heq | hnone
    · rw [heq]
      exact transaction
    · exact .inl hnone
  | «open» batch committed grows transaction savepoint bounded =>
    refine .open batch (hc.trans committed) grows ?_ savepoint bounded
    rcases htx with heq | hnone
    · rw [heq]
      exact transaction
    · exact .inl hnone

theorem read_broken {base : Store φ} {b : Body φ} (h : Broken base b loose spec) :
    Broken base b.read.2 loose spec := by
  have hsame : b.read.2.store.engine.committed = b.store.engine.committed ∧
      (b.read.2.store.engine.transaction = b.store.engine.transaction ∨
        b.read.2.store.engine.transaction = none) := by
    rcases Engine.read_cases b.store.engine with ⟨_, hc, htx, _⟩ | ⟨_, hc, htx, _⟩
    · exact ⟨hc, .inl htx⟩
    · exact ⟨hc, htx⟩
  exact ⟨⟨⟨h.generation, h.changes⟩, h.fenced, h.fresh⟩, (Within.failed h.within) hsame.1 hsame.2,
    fun hclosed => (h.unopened hclosed).failed hsame.1 hsame.2⟩

namespace Access

theorem fail_same (a : Access φ ρ γ) : a.fail.2 = { a with names := a.fail.2.names } := by
  unfold fail
  split <;> rfl

theorem engine_read (a : Access φ ρ γ) :
    a.engine.2 = { a with body := a.body.read.2, names := a.engine.2.names } ∧
      (a.engine.1 = .ok () ↔ a.body.read.1 = .ok) := by
  unfold engine
  rcases hr : a.body.read with ⟨outcome, body⟩
  cases outcome with
  | ok => exact ⟨rfl, by simp⟩
  | failed => exact ⟨by rw [fail_same], by simp⟩
  | panic => exact ⟨by rw [fail_same], by simp⟩

theorem engine_asked (a : Access φ ρ γ) : Asked a a.engine.2 := by
  obtain ⟨hsame, _⟩ := a.engine_read
  have hbody : a.engine.2.body = a.body.read.2 := by rw [hsame]
  refine ⟨by rw [hbody]; exact hsame, ?_, fun base loose spec h => ?_⟩
  · rw [hbody]
    rfl
  · rw [hbody]
    exact read_broken h

theorem network_asked (a : Access φ ρ γ) : Asked a a.network.2 := by
  unfold network
  split
  · exact .refl a
  · exact a.engine_asked

end Access

/-- What a request of the engine that was done keeps. -/
def Stays (P : Body (Rows φ) → Prop) : Prop := ∀ b, P b → b.read.1 = .ok → P b.read.2

theorem Stays.engine (hP : Stays P) (h : P a.body) (hok : a.engine.1 = .ok ()) :
    P a.engine.2.body := by
  obtain ⟨hsame, hiff⟩ := a.engine_read
  rw [hsame]
  exact hP _ h (hiff.mp hok)

theorem Stays.network (hP : Stays P) (h : P a.body) (hok : a.network.1 = .ok ()) :
    P a.network.2.body := by
  unfold Access.network at hok ⊢
  split at hok
  · exact h
  · exact hP.engine h hok

theorem stays_broken (base : Store (Rows φ)) (loose spec : Db (Rows φ)) :
    Stays fun b => Broken base b loose spec := fun _ h _ => read_broken h

/-! ## Running a statement

A step asks the engine only; one that returned rows returned those its answer says. -/

/-- How a step that should return `expected` turns out. -/
structure Says (P : Body (Rows φ) → Prop) (a : Access φ ρ γ) (expected : Option (List ρ))
    (r : Access.Stepped φ ρ γ) : Prop where
  asked : Asked a r.2
  kept : ∀ rows, r.1 = .ok rows → expected = some rows ∧ P r.2.body

section

variable {P : Body (Rows φ) → Prop} (hP : Stays P) {a : Access φ ρ γ}

theorem Says.ok {rows : List ρ} (h : P a.body) : Says P a (some rows) (.ok rows, a) :=
  ⟨.refl a, fun _ heq => by cases heq; exact ⟨rfl, h⟩⟩

variable {expected : Option (List ρ)}

theorem Says.error (e : Error γ) : Says P a expected (.error e, a) :=
  ⟨.refl a, fun _ heq => (nomatch heq)⟩

include hP

theorem nextRow_says {row : Access φ ρ γ → Access.Stepped φ ρ γ} (h : P a.body)
    (hrow : ∀ a', P a'.body → Says P a' expected (row a')) : Says P a expected (a.nextRow row) := by
  have hasked := a.engine_asked
  have hstays := hP.engine h
  unfold Access.nextRow
  rcases he : a.engine with ⟨asked, a'⟩
  rw [he] at hasked hstays
  cases asked with
  | error name => exact ⟨hasked, fun _ heq => (nomatch heq)⟩
  | ok =>
    obtain ⟨hmore, hkept⟩ := hrow a' (hstays rfl)
    exact ⟨hasked.trans hmore, hkept⟩

theorem lastRow_says (h : P a.body) (singleRow : Bool) (row : ρ) (rest : List (Option ρ)) :
    Says P a (lastEager singleRow row rest) (a.lastRow singleRow row rest) := by
  unfold Access.lastRow lastEager
  cases singleRow with
  | true => exact .ok h
  | false =>
    apply nextRow_says hP h
    intro a' h'
    cases rest with
    | nil => exact .ok h'
    | cons second rest => exact .error _

theorem atMostRows_says (max : Nat) (singleRow : Bool) (rows : List (Option ρ)) :
    ∀ (items : List ρ) (a : Access φ ρ γ), P a.body →
      Says P a (atMostEager max singleRow items rows)
        (Access.atMostRows max singleRow items rows a) := by
  induction rows with
  | nil =>
    intro items a h
    exact nextRow_says hP h fun a' h' => .ok h'
  | cons row rest ih =>
    intro items a h
    unfold Access.atMostRows atMostEager
    apply nextRow_says hP h
    intro a' h'
    split
    · exact .error _
    · cases row with
      | none => exact .error _
      | some row =>
        cases singleRow with
        | true => exact .ok h'
        | false => exact ih (items ++ [row]) a' h'

theorem eachRows_says (visit : List ρ → Bool) (limit : Nat) :
    ∀ (seen : List ρ) (rows : List (Option ρ)) (a : Access φ ρ γ), P a.body →
      Says P a (eachEager visit seen limit rows) (Access.eachRows visit seen limit rows a) := by
  induction limit with
  | zero =>
    intro seen rows a h
    exact .ok h
  | succ limit ih =>
    intro seen rows a h
    cases rows with
    | nil => exact nextRow_says hP h fun a' h' => .ok h'
    | cons row rest =>
      unfold Access.eachRows eachEager
      apply nextRow_says hP h
      intro a' h'
      cases row with
      | none => exact .error _
      | some row =>
        dsimp only
        split
        · exact ih (seen ++ [row]) rest a' h'
        · exact .ok h'

theorem runRead_says (h : P a.body) (read : Read φ ρ) (rows : List (Option ρ)) :
    Says P a (read.eager rows) (a.runRead read rows) := by
  unfold Access.runRead Read.eager
  cases read.cardinality with
  | one =>
    apply nextRow_says hP h
    intro a' h'
    rcases rows with _ | ⟨_ | row, rest⟩
    · exact .error _
    · exact .error _
    · exact lastRow_says hP h' read.singleRow row rest
  | optional =>
    apply nextRow_says hP h
    intro a' h'
    rcases rows with _ | ⟨_ | row, rest⟩
    · exact .ok h'
    · exact .error _
    · exact lastRow_says hP h' read.singleRow row rest
  | atMost max => exact atMostRows_says hP max read.singleRow rows [] a h
  | each limit visit => exact eachRows_says hP visit limit [] rows a h

theorem runWrite_says (h : P a.body) (expect : Expect γ) (changed : Nat) :
    Says P a (match expect.check changed with | .ok () => some [] | .error _ => none)
      (a.runWrite expect changed) := by
  have hasked := a.network_asked
  have hstays := hP.network h
  unfold Access.runWrite
  rcases he : a.network with ⟨asked, a'⟩
  rw [he] at hasked hstays
  cases asked with
  | error name => exact ⟨hasked, fun _ heq => (nomatch heq)⟩
  | ok =>
    refine ⟨hasked, fun rows heq => ⟨?_, hstays rfl⟩⟩
    cases hc : expect.check changed with
    | error e => simp [hc, Except.map] at heq
    | ok => simp_all [Except.map]

theorem respond_says (h : P a.body) (work : Work φ ρ γ) (answer : Answer ρ) :
    Says P a (work.judge answer) (a.respond work answer) := by
  cases work with
  | piece change handed =>
    cases answer with
    | rows rows => exact .error _
    | changed changed => exact .ok h
    | error name => exact .error _
  | read query =>
    cases answer with
    | rows rows => exact runRead_says hP h query rows
    | changed changed => exact .error _
    | error name => exact .error _
  | write change handed expect =>
    cases answer with
    | rows rows => exact .error _
    | changed changed => exact runWrite_says hP h expect changed
    | error name => exact .error _

end

end Rui.Rounds
