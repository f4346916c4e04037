import Rui.Rounds.Steps

/-!
# What a pass does

SQLite runs each statement as it is stepped; MySQL's server runs them all and
then answers. Either way a pass that records no failure leaves the database and
the results of stepping each statement when it was queued.
-/

namespace Rui.Rounds

open Library Rui.Changes Rui.Batch

variable {φ ρ γ : Type}

/-! ## What running statements leaves alone -/

/-- What survives running and stepping statements. -/
structure Moved (a a' : Access φ ρ γ) : Prop where
  same : a' = { a with
    body := a'.body
    names := a'.names
    wire := { a.wire with answers := a'.wire.answers } }
  body : a'.body = { a.body with
    store := { a.body.store with engine := a'.body.store.engine }
    effects := a'.body.effects }

theorem Moved.refl (a : Access φ ρ γ) : Moved a a := ⟨rfl, rfl⟩

variable {a a' : Access φ ρ γ}

theorem Moved.trans {a'' : Access φ ρ γ} (h : Moved a a') (h' : Moved a' a'') : Moved a a'' where
  same := by
    rw [h'.same, h.same]
  body := by
    rw [h'.body, h.body]

theorem Asked.moved (h : Asked a a') : Moved a a' where
  same := by
    rw [h.same]
  body := by
    rw [h.body]

theorem Moved.opened (h : Moved a a') : a'.body.opened = a.body.opened := by
  rw [h.body]

theorem Moved.handed (h : Moved a a') : a'.body.handed = a.body.handed := by
  rw [h.body]

theorem Moved.kind (h : Moved a a') : a'.kind = a.kind := by
  rw [h.same]

theorem Moved.failure (h : Moved a a') : a'.failure = a.failure := by
  rw [h.same]

theorem Moved.ledger (h : Moved a a') : a'.ledger = a.ledger := by
  rw [h.same]

/-! ## Running one statement -/

/-- The identities a statement is bound to are its Access's. -/
def Work.Bound (handed : Identity → List Nat) : Work φ ρ γ → Prop
  | .read _ => True
  | .write _ taken _ | .piece _ taken => ∀ column, ∀ id ∈ taken column, id ∈ handed column

/-- The transaction stands, and the Access made `d` of the database it found. -/
structure Stands (base : Store (Rows φ)) (loose spec : Db (Rows φ)) (b : Body (Rows φ))
    (d : Db (Rows φ)) : Prop extends Inside base b loose spec where
  made : played b.effects spec = d

section

variable {base : Store (Rows φ)} {loose spec : Db (Rows φ)}

theorem stays_stands (d : Db (Rows φ)) : Stays fun b => Stands base loose spec b d := by
  intro b h hok
  rcases read_goes h.toInside with ⟨_, hin⟩ | ⟨hfailed, _⟩
  · exact ⟨hin, h.made⟩
  · rw [hok] at hfailed
    cases hfailed

variable {a a' : Access φ ρ γ} {d : Db (Rows φ)} {works rest : List (Work φ ρ γ)}
  {work : Work φ ρ γ}

theorem engine_stands (h : Stands base loose spec a.body d) :
    a.engine.1 = .ok () ∧ Stands base loose spec a.engine.2.body d ∨
      ∃ name, a.engine.1 = .error name := by
  cases he : a.engine.1 with
  | ok => exact .inl ⟨rfl, (stays_stands d).engine h he⟩
  | error name => exact .inr ⟨name, rfl⟩

theorem Stands.view {b : Body (Rows φ)} (h : Stands base loose spec b d) (hopen : b.opened = true) :
    Opened b.store loose spec (played b.effects spec) ∧ b.store.engine.view = d := by
  rcases h.state with ⟨hclosed, _⟩ | ⟨_, ho⟩
  · exact absurd (hclosed.symm.trans hopen) Bool.noConfusion
  · refine ⟨ho, ?_⟩
    rcases ho.state with ⟨_, _, _, htx⟩ | ⟨_, _, htx⟩
    · exact (view_of_some htx).trans h.made
    · exact (view_of_some htx).trans h.made

variable {taken : Identity → List Nat} {answers : List (Answer ρ)} {a'' : Access φ ρ γ}

theorem bound_run {change : Change (Rows φ)} {handed : Identity → List Nat}
    (h : ∀ column, ∀ id ∈ taken column, id ∈ handed column) (d : Db (Rows φ)) :
    (bound change taken).run handed d = change.run taken d :=
  if_pos fun column _ => h column

theorem write_body (change : Change (Rows φ)) (b : Body (Rows φ)) :
    (b.write change).2 = { b with
        store := { b.store with engine := (b.write change).2.store.engine }
        effects := (b.write change).2.effects } ∧
      ((b.write change).1 = .ok →
        (b.write change).2.effects = b.effects ++ [fun d => (change.run b.handed d).1]) := by
  unfold Body.write
  rcases b.store.engine.write (change.run b.handed) with ⟨ok, engine⟩
  cases ok with
  | true => exact ⟨rfl, fun _ => rfl⟩
  | false => exact ⟨rfl, fun h => (nomatch h)⟩

/-- How running a statement turns out. -/
structure Executes (base : Store (Rows φ)) (loose spec : Db (Rows φ)) (a : Access φ ρ γ)
    (answer : Answer ρ) (d' : Db (Rows φ)) (r : Answer ρ × Access φ ρ γ) : Prop where
  same : r.2 = { a with body := r.2.body, names := r.2.names }
  moved : Moved a r.2
  turns : r.1 = answer ∧ Stands base loose spec r.2.body d' ∨
    (∃ name, r.1 = .error name) ∧ Broken base r.2.body loose spec

theorem change_executes (h : Stands base loose spec a.body d) (hopen : a.body.opened = true)
    (change : Change (Rows φ)) (hbound : ∀ column, ∀ id ∈ taken column, id ∈ a.body.handed column) :
    Executes base loose spec a (.changed (change.run taken d).2) (change.run taken d).1
      (match a.body.write (bound change taken) with
        | (.ok, body) => (.changed ((bound change taken).run a.body.handed
            a.body.store.engine.view).2, { a with body })
        | (_, body) =>
          let (name, a) := { a with body }.fail
          (.error name, a)) := by
  obtain ⟨ho, hview⟩ := h.view hopen
  have hgoes := write_goes (bound change taken) h.toInside ho hopen
  obtain ⟨hbody, heffects⟩ := write_body (bound change taken) a.body
  rcases hr : a.body.write (bound change taken) with ⟨outcome, body⟩
  rw [hr] at hgoes hbody heffects
  rcases hgoes with ⟨hok, hin⟩ | ⟨hok, hbroken⟩
  · cases hok
    refine ⟨rfl, ⟨rfl, hbody⟩, .inl ⟨?_, hin, ?_⟩⟩
    · rw [hview, bound_run hbound]
    · rw [heffects rfl, played_snoc, h.made, bound_run hbound]
  · cases hok
    have hfail := Access.fail_same { a with body }
    have hsame : (Access.fail { a with body }).2.body = body := by rw [hfail]
    dsimp only at hbody hbroken ⊢
    refine ⟨?_, ⟨?_, ?_⟩, .inr ⟨⟨_, rfl⟩, ?_⟩⟩
    · rw [hsame]
      exact hfail
    · rw [hfail]
    · rw [hsame]
      exact hbody
    · rw [hsame]
      exact hbroken

theorem execute_executes (h : Stands base loose spec a.body d) (hopen : a.body.opened = true)
    (work : Work φ ρ γ) (hbound : work.Bound a.body.handed) :
    Executes base loose spec a (work.does d).1 (work.does d).2 (a.execute work) := by
  cases work with
  | read query =>
    refine ⟨rfl, .refl a, .inl ⟨?_, h⟩⟩
    simp only [Access.execute, Work.does, (h.view hopen).2]
  | write change taken expect => exact change_executes h hopen change hbound
  | piece change taken => exact change_executes h hopen change hbound

/-! ## A batch on the server -/

/-- The answers of statements run in order, and the database after them. -/
def doesAll : List (Work φ ρ γ) → Db (Rows φ) → List (Answer ρ) × Db (Rows φ)
  | [], d => ([], d)
  | work :: rest, d =>
    ((work.does d).1 :: (doesAll rest (work.does d).2).1, (doesAll rest (work.does d).2).2)

/-- The server ran `works` from `d`: it answered them all, or those before one that failed. -/
def Ran (base : Store (Rows φ)) (loose spec : Db (Rows φ)) (a : Access φ ρ γ)
    (works : List (Work φ ρ γ)) (d : Db (Rows φ)) (answers : List (Answer ρ)) : Prop :=
  answers = (doesAll works d).1 ∧ Stands base loose spec a.body (doesAll works d).2 ∨
    Broken base a.body loose spec ∧ ∃ before name, answers = before ++ [.error name] ∧
      before <+: (doesAll works d).1 ∧ before.length < works.length

theorem Ran.broken (h : Ran base loose spec a works d answers) : Broken base a.body loose spec := by
  rcases h with ⟨_, h⟩ | ⟨h, _⟩
  · exact h.toInside.broken
  · exact h

theorem hear_moved (h : Moved a a') (answer : Answer ρ) : Moved a (a'.hear answer) where
  same := by
    unfold Access.hear
    rw [h.same]
  body := h.body

theorem does_isError (work : Work φ ρ γ) (d : Db (Rows φ)) : (work.does d).1.isError = false := by
  cases work <;> rfl

theorem serve_ran (works : List (Work φ ρ γ)) : ∀ {a : Access φ ρ γ} {d : Db (Rows φ)},
    Stands base loose spec a.body d → a.body.opened = true →
    (∀ work ∈ works, work.Bound a.body.handed) →
    Moved a (a.serve works) ∧ ∃ answers, (a.serve works).wire.answers = a.wire.answers ++ answers ∧
      Ran base loose spec (a.serve works) works d answers := by
  induction works with
  | nil =>
    intro a d h hopen hbound
    exact ⟨.refl a, [], (List.append_nil _).symm, .inl ⟨rfl, h⟩⟩
  | cons work rest ih =>
    intro a d h hopen hbound
    have hasked := a.engine_asked
    have hbroken := hasked.broken base loose spec h.toInside.broken
    have hstands := engine_stands h
    unfold Access.serve
    rcases he : a.engine with ⟨asked, a₁⟩
    rw [he] at hasked hbroken hstands
    dsimp only at hasked hbroken hstands
    have hanswers₁ : a₁.wire.answers = a.wire.answers := by rw [hasked.same]
    cases asked with
    | error name =>
      exact ⟨hear_moved hasked.moved _, [.error name], congrArg (· ++ _) hanswers₁,
        .inr ⟨hbroken, [], name, rfl, List.nil_prefix, Nat.zero_lt_succ _⟩⟩
    | ok =>
      obtain ⟨_, h₁⟩ | ⟨_, hname⟩ := hstands
      · have hopen₁ : a₁.body.opened = true := hasked.moved.opened.trans hopen
        have hbound₁ : ∀ w ∈ work :: rest, w.Bound a₁.body.handed := by
          rw [hasked.moved.handed]
          exact hbound
        obtain ⟨hsame, hmoved, hturns⟩ :=
          execute_executes h₁ hopen₁ work (hbound₁ work List.mem_cons_self)
        dsimp only
        rcases hx : a₁.execute work with ⟨answer, a₂⟩
        rw [hx] at hsame hmoved hturns
        dsimp only at hsame hmoved hturns ⊢
        have hmoved₂ := hear_moved (hasked.moved.trans hmoved) answer
        have hanswers₂ : (a₂.hear answer).wire.answers = a.wire.answers ++ [answer] := by
          unfold Access.hear
          rw [hsame]
          exact congrArg (· ++ _) hanswers₁
        rcases hturns with ⟨rfl, h₂⟩ | ⟨⟨name, rfl⟩, hbroken₂⟩
        · rw [does_isError]
          simp only [Bool.false_eq_true, if_false]
          have hbound₂ : ∀ w ∈ rest, w.Bound a₂.body.handed := fun w hw => by
            rw [hmoved.handed]
            exact hbound₁ w (List.mem_cons_of_mem _ hw)
          obtain ⟨hmoved₃, answers, hlater, hran⟩ :=
            ih (a := a₂.hear (work.does d).1) h₂ (hmoved.opened.trans hopen₁) hbound₂
          refine ⟨hmoved₂.trans hmoved₃, (work.does d).1 :: answers, ?_, ?_⟩
          · rw [hlater, hanswers₂, List.append_assoc, List.singleton_append]
          · rcases hran with ⟨hall, h₃⟩ | ⟨hbroken₃, before, name, hall, hprefix, hshort⟩
            · exact .inl ⟨congrArg _ hall, h₃⟩
            · exact .inr ⟨hbroken₃, (work.does d).1 :: before, name, congrArg _ hall,
                List.cons_prefix_cons.mpr ⟨rfl, hprefix⟩, Nat.succ_lt_succ hshort⟩
        · exact ⟨hmoved₂, [.error name], hanswers₂, .inr ⟨hbroken₂, [], name, rfl,
            List.nil_prefix, Nat.zero_lt_succ _⟩⟩
      · cases hname

/-! ## Stepping what is queued -/

/-- What is left to step, from `d`: SQLite has it before it, MySQL's server ran it. -/
def Ready (base : Store (Rows φ)) (loose spec : Db (Rows φ)) (a : Access φ ρ γ)
    (works : List (Work φ ρ γ)) (d : Db (Rows φ)) : Prop :=
  match a.kind with
  | .sqlite => Stands base loose spec a.body d
  | .mysql => Ran base loose spec a works d a.wire.answers

theorem Ready.broken (h : Ready base loose spec a works d) : Broken base a.body loose spec := by
  unfold Ready at h
  split at h
  · exact h.toInside.broken
  · exact h.broken

theorem Ready.done (h : Ready base loose spec a [] d) :
    Stands base loose spec a.body d ∧ (a.kind = .mysql → a.wire.answers = []) := by
  unfold Ready at h
  split at h
  · rename_i hkind
    exact ⟨h, fun hm => nomatch hkind.symm.trans hm⟩
  · rcases h with ⟨hnone, h⟩ | ⟨_, _, _, _, _, hshort⟩
    · exact ⟨h, fun _ => hnone⟩
    · exact absurd hshort (Nat.not_lt_zero _)

theorem respond_error (a : Access φ ρ γ) (work : Work φ ρ γ) (name : Failure) :
    a.respond work (.error name) = (.error (.failure name), a) := by
  cases work <;> rfl

theorem eager_of_judge {rows : List ρ} (h : work.judge (work.does d).1 = some rows) :
    work.eager d = some (rows, (work.does d).2) := by
  simp only [Work.eager, h, Option.map_some]

/-- How stepping one queued statement turns out. -/
structure Enters (base : Store (Rows φ)) (loose spec : Db (Rows φ)) (a : Access φ ρ γ)
    (work : Work φ ρ γ) (rest : List (Work φ ρ γ)) (d : Db (Rows φ))
    (r : Access.Stepped φ ρ γ) : Prop where
  moved : Moved a r.2
  broken : Broken base r.2.body loose spec
  kept : ∀ rows, r.1 = .ok rows →
    ∃ d', work.eager d = some (rows, d') ∧ Ready base loose spec r.2 rest d'

theorem respond_enters (a₁ : Access φ ρ γ) (P : Body (Rows φ) → Prop) (hP : Stays P) (h : P a₁.body)
    (hmoved : Moved a a₁) (hbroken : Broken base a₁.body loose spec)
    (hready : ∀ a₂, Asked a₁ a₂ → P a₂.body → Ready base loose spec a₂ rest (work.does d).2) :
    Enters base loose spec a work rest d (a₁.respond work (work.does d).1) := by
  obtain ⟨hasked, hkept⟩ := respond_says hP h work (work.does d).1
  refine ⟨hmoved.trans hasked.moved, hasked.broken _ _ _ hbroken, fun rows hok => ?_⟩
  obtain ⟨hjudge, hafter⟩ := hkept rows hok
  exact ⟨_, eager_of_judge hjudge, hready _ hasked hafter⟩

theorem runEntry_sqlite (hkind : a.kind = .sqlite) (h : Stands base loose spec a.body d)
    (hopen : a.body.opened = true) (hbound : work.Bound a.body.handed) :
    Enters base loose spec a work rest d (a.runEntry work) := by
  obtain ⟨_, hmoved, hturns⟩ := execute_executes h hopen work hbound
  unfold Access.runEntry Access.answer
  rw [hkind]
  dsimp only
  rcases hx : a.execute work with ⟨answer, a₁⟩
  rw [hx] at hmoved hturns
  dsimp only at hmoved hturns ⊢
  rcases hturns with ⟨rfl, h₁⟩ | ⟨⟨name, rfl⟩, hbroken⟩
  · apply respond_enters a₁ _ (stays_stands (work.does d).2) h₁ hmoved h₁.toInside.broken
    intro a₂ hasked h₂
    unfold Ready
    rw [hasked.moved.kind, hmoved.kind, hkind]
    exact h₂
  · rw [respond_error]
    exact ⟨hmoved, hbroken, fun _ hok => nomatch hok⟩

theorem runEntry_cons (hkind : a.kind = .mysql) (work : Work φ ρ γ) {answer : Answer ρ}
    (h : a.wire.answers = answer :: answers) :
    a.runEntry work = (a.unread answers).respond work answer := by
  simp only [Access.runEntry, Access.answer, hkind, h]

theorem runEntry_mysql (hkind : a.kind = .mysql)
    (h : Ran base loose spec a (work :: rest) d a.wire.answers) :
    Enters base loose spec a work rest d (a.runEntry work) := by
  have hmoved : ∀ answers, Moved a (a.unread answers) := fun answers => ⟨rfl, rfl⟩
  have hready : ∀ answers (a₂ : Access φ ρ γ), Asked (a.unread answers) a₂ →
      Ran base loose spec a₂ rest (work.does d).2 answers →
      Ready base loose spec a₂ rest (work.does d).2 := by
    intro answers a₂ hasked hran
    have hkind₂ : a₂.kind = .mysql := hasked.moved.kind.trans hkind
    have hanswers : a₂.wire.answers = answers := by
      rw [hasked.same]
      rfl
    simp only [Ready, hkind₂, hanswers]
    exact hran
  rcases h with ⟨hall, h⟩ | ⟨hbroken, before, name, hall, hprefix, hshort⟩
  · rw [runEntry_cons hkind work hall]
    apply respond_enters (a.unread (doesAll rest (work.does d).2).1) _ (stays_stands _) h
      (hmoved _) h.toInside.broken
    intro a₂ hasked h₂
    exact hready _ _ hasked (.inl ⟨rfl, h₂⟩)
  · cases before with
    | nil =>
      rw [runEntry_cons hkind work hall, respond_error]
      exact ⟨hmoved _, hbroken, fun _ hok => nomatch hok⟩
    | cons answer before =>
      rw [List.cons_append] at hall
      rw [runEntry_cons hkind work hall]
      obtain ⟨rfl, hrest⟩ := List.cons_prefix_cons.mp hprefix
      apply respond_enters (a.unread (before ++ [Answer.error name])) _ (stays_broken base loose spec)
        hbroken (hmoved _) hbroken
      intro a₂ hasked h₂
      exact hready _ _ hasked
        (.inr ⟨h₂, before, name, rfl, hrest, Nat.lt_of_succ_lt_succ hshort⟩)

theorem runEntry_enters (h : Ready base loose spec a (work :: rest) d)
    (hopen : a.body.opened = true) (hbound : work.Bound a.body.handed) :
    Enters base loose spec a work rest d (a.runEntry work) := by
  unfold Ready at h
  split at h
  · exact runEntry_sqlite ‹_› h hopen hbound
  · exact runEntry_mysql ‹_› h

/-! ## The loop of a pass -/

/-- What the loop of a pass changes. -/
structure Loops (a : Access φ ρ γ) (works : List (Work φ ρ γ)) (a' : Access φ ρ γ) : Prop where
  same : a' = { a with
    body := a'.body
    names := a'.names
    failure := a'.failure
    failedSql := a'.failedSql
    wire := { a.wire with answers := a'.wire.answers }
    ledger := { a.ledger with
      stepped := a'.ledger.stepped
      results := a'.ledger.results
      failed := a'.ledger.failed } }
  body : a'.body = { a.body with
    store := { a.body.store with engine := a'.body.store.engine }
    effects := a'.body.effects }
  stepped : ∃ n, a'.ledger.stepped = a.ledger.stepped ++ works.take n ∧
    (a'.failure = none → works.take n = works)
  failed : a'.failure = a.failure ∧ a'.ledger.failed = a.ledger.failed ∨
    ∃ e, a.failure = none ∧ a'.failure = some e ∧ a'.ledger.failed = a.ledger.failed ++ [e]

/-- After a failure nothing is stepped. -/
theorem stepAll_failed (h : a.failure ≠ none) (entries : List (Queued φ ρ γ)) :
    a.stepAll entries = a := by
  cases entries with
  | nil => rfl
  | cons entry rest =>
    unfold Access.stepAll
    rw [if_pos (Option.isSome_iff_ne_none.mpr h)]

/-- What the steps returned is what the first of them return when stepped at once. -/
def Returned (spec : Db (Rows φ)) (ledger : Ledger φ ρ γ) : Prop :=
  ∃ before d, before <+: ledger.stepped ∧ eagerly before spec = some (ledger.results, d)

/-- How the loop of a pass turns out. -/
structure Stepping (base : Store (Rows φ)) (loose spec : Db (Rows φ)) (a : Access φ ρ γ)
    (works : List (Work φ ρ γ)) (a' : Access φ ρ γ) : Prop extends Loops a works a' where
  broken : Broken base a'.body loose spec
  kept : a'.failure = none → ∃ d, eagerly a'.ledger.stepped spec = some (a'.ledger.results, d) ∧
    Ready base loose spec a' [] d
  returned : Returned spec a'.ledger

theorem stepAll_stepping (entries : List (Queued φ ρ γ)) : ∀ {a : Access φ ρ γ}
    {d : Db (Rows φ)}, a.failure = none → Ready base loose spec a (entries.map (·.work)) d →
    a.body.opened = true → (∀ entry ∈ entries, entry.work.Bound a.body.handed) →
    eagerly a.ledger.stepped spec = some (a.ledger.results, d) →
    Stepping base loose spec a (entries.map (·.work)) (a.stepAll entries) := by
  induction entries with
  | nil =>
    intro a d hnone h hopen hbound heager
    exact ⟨⟨rfl, rfl, ⟨0, (List.append_nil _).symm, fun _ => rfl⟩, .inl ⟨rfl, rfl⟩⟩, h.broken,
      fun _ => ⟨d, heager, h⟩, a.ledger.stepped, d, List.prefix_rfl, heager⟩
  | cons entry rest ih =>
    intro a d hnone h hopen hbound heager
    unfold Access.stepAll
    rw [if_neg (by rw [hnone]; exact Bool.false_ne_true)]
    have hnow : Ready base loose spec (a.enter entry.work)
        (entry.work :: rest.map (·.work)) d := h
    obtain ⟨hmoved, hbroken, hkept⟩ :=
      runEntry_enters hnow hopen (hbound entry List.mem_cons_self)
    rcases hr : (a.enter entry.work).runEntry entry.work with ⟨answered, a₁⟩
    rw [hr] at hmoved hbroken hkept
    dsimp only at hmoved hbroken hkept ⊢
    have hledger : a₁.ledger = { a.ledger with stepped := a.ledger.stepped ++ [entry.work] } :=
      hmoved.ledger
    have hfailure : a₁.failure = none := hmoved.failure.trans hnone
    cases answered with
    | error e =>
      dsimp only
      rw [stepAll_failed (by simp [Access.record])]
      refine ⟨⟨?_, hmoved.body, ⟨1, ?_, fun hf => ?_⟩, .inr ⟨e, hnone, rfl, ?_⟩⟩, hbroken,
        fun hf => ?_, a.ledger.stepped, d, ?_, ?_⟩
      · unfold Access.record
        rw [hmoved.same]
        rfl
      · simp [Access.record, hledger]
      · simp [Access.record] at hf
      · simp [Access.record, hledger]
      · simp [Access.record] at hf
      · simp [Access.record, hledger]
      · simpa [Access.record, hledger] using heager
    | ok rows =>
      obtain ⟨d', heager', hready⟩ := hkept rows rfl
      have hstepped : eagerly a₁.ledger.stepped spec =
          some (a₁.ledger.results ++ [rows], d') := by
        rw [hledger]
        exact eagerly_snoc heager heager'
      have hbound₁ : ∀ e ∈ rest, e.work.Bound a₁.body.handed := by
        rw [hmoved.handed]
        exact fun e he => hbound e (List.mem_cons_of_mem _ he)
      obtain ⟨⟨hsame, hbody, ⟨n, htake, hfull⟩, hfailed⟩, hbroken₂, hkept₂, hreturned⟩ :=
        ih (a := a₁.receive rows) hfailure hready (hmoved.opened.trans hopen) hbound₁ hstepped
      dsimp only
      refine ⟨⟨?_, ?_, ⟨n + 1, ?_, fun hf => ?_⟩, ?_⟩, hbroken₂, hkept₂, hreturned⟩
      · rw [hsame]
        unfold Access.receive
        rw [hmoved.same]
        rfl
      · rw [hbody]
        unfold Access.receive
        rw [hmoved.body]
        rfl
      · rw [htake]
        simp [Access.receive, hledger]
      · rw [List.map_cons, List.take_succ_cons, hfull hf]
      · have hsame₁ : (a₁.receive rows).failure = a.failure := hfailure.trans hnone.symm
        have hsame₂ : (a₁.receive rows).ledger.failed = a.ledger.failed := by
          unfold Access.receive
          rw [hledger]
        rw [hsame₁, hsame₂] at hfailed
        exact hfailed

/-! ## A whole pass -/

/-- The recorded failures: the first stays, unless a lost connection or ownership replaces it on
MySQL. -/
def Sticky (kind : Kind) (failure : Option (Error γ)) : List (Error γ) → Prop
  | [] => failure = none
  | first :: later =>
    failure = (first :: later).getLast? ∧ ∀ e ∈ later, kind = .mysql ∧ e.fences = true

theorem Sticky.record {kind : Kind} {failure : Option (Error γ)} {failed : List (Error γ)}
    (h : Sticky kind failure failed) (e : Error γ)
    (hmay : failure = none ∨ kind = .mysql ∧ e.fences = true) :
    Sticky kind (some e) (failed ++ [e]) := by
  cases failed with
  | nil => exact ⟨rfl, fun _ hin => nomatch hin⟩
  | cons first later =>
    obtain ⟨hlast, hlater⟩ := h
    have hnot : failure ≠ none := by
      rw [hlast]
      exact List.getLast?_eq_none_iff.not.mpr (List.cons_ne_nil _ _)
    refine ⟨?_, fun e' hin => ?_⟩
    · show some e = ((first :: later) ++ [e]).getLast?
      rw [List.getLast?_concat]
    · rcases List.mem_append.mp hin with hold | hnew
      · exact hlater e' hold
      · rw [List.mem_singleton.mp hnew]
        exact hmay.resolve_left hnot

/-- After a failure nothing is stepped, and the failure stays or another is recorded. -/
def Silent (a a' : Access φ ρ γ) : Prop :=
  a'.failure ≠ none ∧ a.ledger.failed <+: a'.ledger.failed ∧
    a'.ledger.stepped = a.ledger.stepped ∧ a'.ledger.results = a.ledger.results

theorem Silent.refl (h : a.failure ≠ none) : Silent a a :=
  ⟨h, List.prefix_rfl, rfl, rfl⟩

theorem Silent.trans (h : Silent a a') (h' : Silent a' a'') : Silent a a'' := by
  obtain ⟨_, hfailed, hstepped, hresults⟩ := h
  obtain ⟨hf, hfailed', hstepped', hresults'⟩ := h'
  exact ⟨hf, hfailed.trans hfailed', hstepped'.trans hstepped, hresults'.trans hresults⟩

/-- What the parts of a pass change. -/
structure Turns (a a' : Access φ ρ γ) : Prop where
  same : a' = { a with
    body := a'.body
    names := a'.names
    failure := a'.failure
    failedSql := a'.failedSql
    queue := a'.queue
    wire := a'.wire
    ledger := { a.ledger with
      stepped := a'.ledger.stepped
      results := a'.ledger.results
      failed := a'.ledger.failed } }
  body : a'.body = { a.body with
    store := { a.body.store with engine := a'.body.store.engine }
    effects := a'.body.effects }
  sticky : Sticky a.kind a.failure a.ledger.failed → Sticky a.kind a'.failure a'.ledger.failed
  after : a.failure ≠ none → Silent a a'

theorem Turns.refl (a : Access φ ρ γ) : Turns a a := ⟨rfl, rfl, id, .refl⟩

theorem Turns.kind (h : Turns a a') : a'.kind = a.kind := by
  rw [h.same]

theorem Turns.trans (h : Turns a a') (h' : Turns a' a'') : Turns a a'' where
  same := by
    rw [h'.same, h.same]
  body := by
    rw [h'.body, h.body]
  sticky hs := h.kind ▸ h'.sticky (h.kind.symm ▸ h.sticky hs)
  after hf := (h.after hf).trans (h'.after (h.after hf).1)

theorem Moved.turns (h : Moved a a') : Turns a a' where
  same := by
    rw [h.same]
  body := h.body
  sticky hs := by
    rw [h.failure, h.ledger]
    exact hs
  after hf := by
    refine ⟨h.failure ▸ hf, ?_, ?_, ?_⟩ <;> rw [h.ledger]

theorem Loops.turns (h : Loops a works a') (hnone : a.failure = none) : Turns a a' where
  same := by
    rw [h.same]
  body := h.body
  sticky hs := by
    rcases h.failed with ⟨hf, hl⟩ | ⟨e, _, hf, hl⟩
    · rw [hf, hl]
      exact hs
    · rw [hf, hl]
      exact hs.record e (.inl hnone)
  after hf := absurd hnone hf

theorem record_turns (e : Error γ) (hmay : a.failure = none ∨ a.kind = .mysql ∧ e.fences = true) :
    Turns a (a.record e) where
  same := rfl
  body := rfl
  sticky hs := hs.record e hmay
  after _ := ⟨Option.some_ne_none e, List.prefix_append _ _, rfl, rfl⟩

theorem latch_turns (ended : Except Failure Unit) (hmysql : ended = .ok () ∨ a.kind = .mysql) :
    Turns a (a.latch ended) := by
  unfold Access.latch
  cases ended with
  | ok => exact .refl a
  | error name =>
    have hkind : a.kind = .mysql := hmysql.resolve_left (fun h => nomatch h)
    dsimp only
    split
    · rename_i hmay
      apply record_turns
      rw [Bool.or_eq_true, Option.isNone_iff_eq_none] at hmay
      exact hmay.imp_right fun hf => ⟨hkind, hf⟩
    · exact .refl a

theorem latch_body (a : Access φ ρ γ) (ended : Except Failure Unit) :
    (a.latch ended).body = a.body := by
  unfold Access.latch
  split
  · rfl
  · split <;> rfl

/-- An error at the end of a pass is never lost. -/
theorem latch_none {ended : Except Failure Unit} (h : (a.latch ended).failure = none) :
    ended = .ok () ∧ a.failure = none ∧
      a.latch ended = a := by
  unfold Access.latch at h ⊢
  cases ended with
  | ok => exact ⟨rfl, h, rfl⟩
  | error name =>
    dsimp only at h
    split at h
    · cases h
    · rename_i hmay
      simp [h] at hmay

end

end Rui.Rounds
