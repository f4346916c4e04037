import Rui.Rounds.Passes

/-!
# What the queue holds

Between the calls of a transition: what is queued has not run, or MySQL's server
ran it alone. A pass takes it all; queuing a statement passes first where it must.
-/

namespace Rui.Rounds

open Library Rui.Changes Rui.Batch

variable {φ ρ γ : Type} {base : Store (Rows φ)} {loose spec : Db (Rows φ)}

/-- What is queued waits on the database `d`. -/
def Waits (base : Store (Rows φ)) (loose spec : Db (Rows φ)) (a : Access φ ρ γ)
    (d : Db (Rows φ)) : Prop :=
  match a.kind with
  | .sqlite => Stands base loose spec a.body d ∧ a.wire = {}
  | .mysql =>
    a.wire.longQuery = false ∧ a.wire.answers = [] ∧ a.wire.batch = a.queue.map (·.work) ∧
        Stands base loose spec a.body d ∨
      a.wire.longQuery = true ∧ a.queue ≠ [] ∧ a.wire.batch = [] ∧
        Ran base loose spec a (a.queue.map (·.work)) d a.wire.answers

variable {a a' : Access φ ρ γ}

theorem Asked.turns (h : Asked a a') : Turns a a' := h.moved.turns

theorem Asked.queue (h : Asked a a') : a'.queue = a.queue := by
  rw [h.same]

theorem Asked.wire (h : Asked a a') : a'.wire = a.wire := by
  rw [h.same]

variable {works : List (Work φ ρ γ)} {d : Db (Rows φ)}

theorem Ran.engine {answers : List (Answer ρ)} (h : Ran base loose spec a works d answers)
    (hok : a.engine.1 = .ok ()) : Ran base loose spec a.engine.2 works d answers := by
  rcases h with ⟨hall, h⟩ | ⟨hbroken, hrest⟩
  · exact .inl ⟨hall, (stays_stands _).engine h hok⟩
  · exact .inr ⟨a.engine_asked.broken _ _ _ hbroken, hrest⟩

/-! ## The parts of a pass -/

/-- How the start of a pass turns out. -/
structure Starts (base : Store (Rows φ)) (loose spec : Db (Rows φ)) (a : Access φ ρ γ)
    (d : Db (Rows φ)) (r : Except Failure Unit × Access φ ρ γ) : Prop where
  turns : Turns a r.2
  queue : r.2.queue = a.queue
  failure : r.2.failure = a.failure
  ledger : r.2.ledger = a.ledger
  broken : Broken base r.2.body loose spec
  ready : r.1 = .ok () → Ready base loose spec r.2 (a.queue.map (·.work)) d

theorem sent_turns (h : Moved a a') : Turns a a'.sent where
  same := by
    unfold Access.sent
    rw [h.same]
  body := h.body
  sticky hs := by
    rw [← h.failure, ← h.ledger] at hs
    exact hs
  after hf := by
    rw [← h.failure] at hf
    refine ⟨hf, ?_, ?_, ?_⟩ <;> rw [← h.ledger]
    · exact List.prefix_rfl
    · rfl
    · rfl

theorem startPass_starts (h : Waits base loose spec a d) (hopen : a.body.opened = true)
    (hbound : ∀ entry ∈ a.queue, entry.work.Bound a.body.handed) :
    Starts base loose spec a d a.startPass := by
  unfold Waits at h
  unfold Access.startPass
  cases hkind : a.kind with
  | sqlite =>
    rw [hkind] at h
    refine ⟨.refl a, rfl, rfl, rfl, h.1.toInside.broken, fun _ => ?_⟩
    unfold Ready
    rw [hkind]
    exact h.1
  | mysql =>
    rw [hkind] at h
    dsimp only at h ⊢
    -- Whether the server runs the batch now or ran a long statement before, it ran what is queued.
    have hserved : Moved a (a.serve a.wire.batch) ∧ Ran base loose spec (a.serve a.wire.batch)
        (a.queue.map (·.work)) d (a.serve a.wire.batch).wire.answers := by
      rcases h with ⟨_, hanswers, hbatch, h⟩ | ⟨_, _, hbatch, h⟩
      · have hworks : ∀ work ∈ a.queue.map (·.work), work.Bound a.body.handed := by
          intro work hin
          obtain ⟨entry, hentry, rfl⟩ := List.mem_map.mp hin
          exact hbound entry hentry
        obtain ⟨hmoved, answers, hall, hran⟩ := serve_ran (a.queue.map (·.work)) h hopen hworks
        rw [hanswers, List.nil_append] at hall
        rw [hbatch, hall]
        exact ⟨hmoved, hran⟩
      · rw [hbatch]
        exact ⟨.refl a, h⟩
    obtain ⟨hmoved, hran⟩ := hserved
    have hasked := (a.serve a.wire.batch).sent.engine_asked
    have hturns := (sent_turns hmoved).trans hasked.turns
    refine ⟨hturns, ?_, ?_, ?_, hasked.broken _ _ _ hran.broken, fun hok => ?_⟩
    · rw [hasked.same]
      unfold Access.sent
      rw [hmoved.same]
    · rw [hasked.same]
      exact hmoved.failure
    · rw [hasked.same]
      exact hmoved.ledger
    · have hafter := Ran.engine (a := (a.serve a.wire.batch).sent) hran hok
      unfold Ready
      rw [hturns.kind, hkind, hasked.wire]
      exact hafter

/-- How the end of a pass, or an emptying of the queue, turns out. -/
structure Closes (a : Access φ ρ γ) (r : Except Failure Unit × Access φ ρ γ) : Prop where
  turns : Turns a r.2
  failure : r.2.failure = a.failure
  ledger : r.2.ledger = a.ledger
  broken : ∀ base loose spec, Broken base a.body loose spec → Broken base r.2.body loose spec
  named : r.1 = .ok () ∨ a.kind = .mysql

theorem Closes.latch {r : Except Failure Unit × Access φ ρ γ} (h : Closes a r) :
    Turns a (r.2.latch r.1) ∧
      (∀ base loose spec, Broken base a.body loose spec →
        Broken base (r.2.latch r.1).body loose spec) ∧
      (r.2.latch r.1).ledger.stepped = a.ledger.stepped ∧
      (r.2.latch r.1).ledger.results = a.ledger.results ∧
      ((r.2.latch r.1).failure = none → r.1 = .ok () ∧ a.failure = none ∧ r.2.latch r.1 = r.2) := by
  have hlatch : Turns r.2 (r.2.latch r.1) :=
    latch_turns r.1 (h.named.imp_right fun hkind => h.turns.kind.trans hkind)
  have hledger : (r.2.latch r.1).ledger.stepped = r.2.ledger.stepped ∧
      (r.2.latch r.1).ledger.results = r.2.ledger.results := by
    unfold Access.latch
    split
    · exact ⟨rfl, rfl⟩
    · split <;> exact ⟨rfl, rfl⟩
  refine ⟨h.turns.trans hlatch, fun base loose spec hb => ?_, ?_, ?_, fun hnone => ?_⟩
  · rw [latch_body]
    exact h.broken base loose spec hb
  · rw [hledger.1, h.ledger]
  · rw [hledger.2, h.ledger]
  · obtain ⟨hok, hf, hsame⟩ := latch_none hnone
    exact ⟨hok, h.failure.symm.trans hf, hsame⟩

/-! ## A pass -/

/-- What has been stepped so far: it failed nowhere, and the rest waits. -/
def Good (base : Store (Rows φ)) (loose spec : Db (Rows φ)) (a : Access φ ρ γ) : Prop :=
  ∃ d, eagerly a.ledger.stepped spec = some (a.ledger.results, d) ∧ Waits base loose spec a d

/-- What a pass needs to start from. -/
structure Passable (base : Store (Rows φ)) (loose spec : Db (Rows φ)) (a : Access φ ρ γ) :
    Prop where
  broken : Broken base a.body loose spec
  opened : a.queue ≠ [] → a.body.opened = true
  bound : ∀ entry ∈ a.queue, entry.work.Bound a.body.handed
  good : a.failure = none → Good base loose spec a

/-- How a pass turns out. -/
structure Passes (base : Store (Rows φ)) (loose spec : Db (Rows φ)) (a a' : Access φ ρ γ) :
    Prop where
  turns : Turns a a'
  broken : Broken base a'.body loose spec
  queue : a'.queue = []
  wire : a'.wire = {}
  stepped : ∃ n, a'.ledger.stepped = a.ledger.stepped ++ (a.queue.map (·.work)).take n ∧
    (a'.failure = none → (a.queue.map (·.work)).take n = a.queue.map (·.work))
  good : a'.failure = none → a.failure = none ∧ ∃ d,
    eagerly a'.ledger.stepped spec = some (a'.ledger.results, d) ∧
      Stands base loose spec a'.body d
  returned : Returned spec a.ledger → Returned spec a'.ledger

/-- How the loop of a pass turns out, with its start. -/
structure Sweeps (base : Store (Rows φ)) (loose spec : Db (Rows φ)) (a a' : Access φ ρ γ) :
    Prop where
  turns : Turns a a'
  broken : Broken base a'.body loose spec
  queue : a'.queue = a.queue
  stepped : ∃ n, a'.ledger.stepped = a.ledger.stepped ++ (a.queue.map (·.work)).take n ∧
    (a'.failure = none → (a.queue.map (·.work)).take n = a.queue.map (·.work))
  good : a'.failure = none → a.failure = none ∧ ∃ d,
    eagerly a'.ledger.stepped spec = some (a'.ledger.results, d) ∧
      Stands base loose spec a'.body d
  returned : Returned spec a.ledger → Returned spec a'.ledger
  short : a.queue = [] → a'.wire = a.wire ∧ a'.body = a.body

theorem Returned.congr {ledger ledger' : Ledger φ ρ γ} (h : Returned spec ledger)
    (hstepped : ledger'.stepped = ledger.stepped) (hresults : ledger'.results = ledger.results) :
    Returned spec ledger' := by
  unfold Returned
  rw [hstepped, hresults]
  exact h

theorem sweeps_failed (hturns : Turns a a') (hbroken : Broken base a'.body loose spec)
    (hqueue : a'.queue = a.queue) (hstepped : a'.ledger.stepped = a.ledger.stepped)
    (hresults : a'.ledger.results = a.ledger.results) (hf : a'.failure ≠ none)
    (hshort : a.queue = [] → a'.wire = a.wire ∧ a'.body = a.body) : Sweeps base loose spec a a' :=
  ⟨hturns, hbroken, hqueue, ⟨0, by rw [hstepped, List.take_zero, List.append_nil],
    fun hnone => absurd hnone hf⟩, fun hnone => absurd hnone hf,
    fun h => h.congr hstepped hresults, hshort⟩

theorem Loops.queue (h : Loops a works a') : a'.queue = a.queue := by
  rw [h.same]

theorem sweep (h : Passable base loose spec a) :
    Sweeps base loose spec a (a.start.stepAll a.queue) := by
  unfold Access.start
  by_cases hmay : (!a.queue.isEmpty && a.failure.isNone) = true
  · rw [if_pos hmay]
    rw [Bool.and_eq_true, Bool.not_eq_true', List.isEmpty_eq_false_iff,
      Option.isNone_iff_eq_none] at hmay
    obtain ⟨hsome, hnone⟩ := hmay
    obtain ⟨d, heager, hwaits⟩ := h.good hnone
    obtain ⟨hturns, hqueue, hfailure, hledger, hbroken, hready⟩ :=
      startPass_starts hwaits (h.opened hsome) h.bound
    rcases hr : a.startPass with ⟨started, a₁⟩
    rw [hr] at hturns hqueue hfailure hledger hbroken hready
    dsimp only at hturns hqueue hfailure hledger hbroken hready ⊢
    have hshort : ∀ a' : Access φ ρ γ, a.queue = [] → a'.wire = a.wire ∧ a'.body = a.body :=
      fun _ hempty => absurd hempty hsome
    cases started with
    | error name =>
      dsimp only
      rw [stepAll_failed (Option.some_ne_none _)]
      have hrecord : Turns a₁ (a₁.record (.failure name)) :=
        record_turns _ (.inl (hfailure.trans hnone))
      refine sweeps_failed (hturns.trans hrecord) hbroken hqueue ?_ ?_ (Option.some_ne_none _)
        (hshort _)
      · unfold Access.record
        rw [hledger]
      · unfold Access.record
        rw [hledger]
    | ok =>
      dsimp only
      have hbody := hturns.body
      have hopen₁ : a₁.body.opened = true := by
        rw [hbody]
        exact h.opened hsome
      have hbound₁ : ∀ entry ∈ a.queue, entry.work.Bound a₁.body.handed := by
        rw [hbody]
        exact h.bound
      have heager₁ : eagerly a₁.ledger.stepped spec = some (a₁.ledger.results, d) := by
        rw [hledger]
        exact heager
      obtain ⟨hloops, hbroken₂, hkept, hreturned⟩ := stepAll_stepping a.queue (hfailure.trans hnone)
        (hready rfl) hopen₁ hbound₁ heager₁
      refine ⟨hturns.trans (hloops.turns (hfailure.trans hnone)), hbroken₂,
        hloops.queue.trans hqueue, ?_, fun hf => ⟨hnone, ?_⟩, fun _ => hreturned, hshort _⟩
      · obtain ⟨n, htake, hfull⟩ := hloops.stepped
        exact ⟨n, by rw [htake, hledger], hfull⟩
      · obtain ⟨d', heager', hready'⟩ := hkept hf
        exact ⟨d', heager', hready'.done.1⟩
  · rw [if_neg hmay]
    by_cases hf : a.failure = none
    · have hempty : a.queue = [] := by
        rw [hf] at hmay
        simpa using hmay
      rw [hempty]
      obtain ⟨d, heager, hwaits⟩ := h.good hf
      refine ⟨.refl a, h.broken, rfl, ⟨0, ?_, fun _ => ?_⟩, fun _ => ⟨hf, d, heager, ?_⟩,
        id, fun _ => ⟨rfl, rfl⟩⟩
      · rw [List.take_zero, List.append_nil]
        rfl
      · rw [hempty]
        rfl
      · unfold Waits at hwaits
        split at hwaits
        · exact hwaits.1
        · rcases hwaits with ⟨_, _, _, hstands⟩ | ⟨_, hnot, _⟩
          · exact hstands
          · exact absurd hempty hnot
    · rw [stepAll_failed hf]
      exact sweeps_failed (.refl a) h.broken rfl rfl rfl hf fun _ => ⟨rfl, rfl⟩

end Rui.Rounds
