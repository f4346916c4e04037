import Rui.Batch.Rollback

/-!
# What a write does to a batch

One lemma for each thing a body does: it keeps the transaction that the batch
expects, or it fails where a rollback may start. Then the whole body, and the
whole write from `enter` to `release`.
-/

namespace Rui.Batch

open Library Rui.Changes

variable {φ : Type}

/-- The effects of a write, one after another. -/
def played (effects : List (Db φ → Db φ)) (d : Db φ) : Db φ := effects.foldl (fun d f => f d) d

@[simp] theorem played_snoc (effects : List (Db φ → Db φ)) (f : Db φ → Db φ) (d : Db φ) :
    played (effects ++ [f]) d = f (played effects d) := List.foldl_append

/-- What only the end of an entry point changes. -/
structure Keeps (s s' : Store φ) : Prop where
  generation : s'.commitGeneration = s.commitGeneration
  changes : s'.changes = s.changes

variable {s base : Store φ} {loose current : Db φ} {engine : Engine (Db φ)} {b : Body φ}

theorem Keeps.trans {s' s'' : Store φ} (h : Keeps s s') (h' : Keeps s' s'') : Keeps s s'' :=
  ⟨h'.generation.trans h.generation, h'.changes.trans h.changes⟩

theorem Frame.keeps {s' : Store φ} (h : Frame s s') : Keeps s s' := ⟨h.generation, h.changes⟩

/-! ## An open transaction -/

/-- A write's transaction is open, and `current` is what it has made of `spec`. -/
structure Opened (s : Store φ) (loose spec current : Db φ) : Prop where
  committed : s.engine.committed = loose
  grows : Grows loose spec
  adds : Grows spec current
  bounded : Bounded current s.identities.next
  state : s.batch = .first ∧ loose = spec ∧ s.savepoint = false ∧
      s.engine.transaction = some ⟨current, none⟩ ∨
    s.batch = .open ∧ s.savepoint = true ∧ s.engine.transaction = some ⟨current, some spec⟩

theorem Settled.failed {spec : Db φ} (h : Settled s loose spec)
    (hc : engine.committed = s.engine.committed)
    (htx : engine.transaction = s.engine.transaction ∨ engine.transaction = none) :
    Settled { s with engine } loose spec := by
  refine ⟨hc.trans h.committed, h.savepoint, h.grows, h.bounded, ?_⟩
  have hstate := h.state
  cases hb : s.batch with
  | none => rw [hb] at hstate; exact hstate
  | first => rw [hb] at hstate; exact hstate
  | lost => trivial
  | ready =>
    rw [hb] at hstate
    obtain ⟨hnone, hrest⟩ := hstate
    rw [hnone, or_self] at htx
    exact ⟨htx, hrest⟩
  | «open» =>
    rw [hb] at hstate
    rcases htx with heq | hnone
    · exact hstate.imp heq.trans heq.trans
    · exact .inr hnone

theorem Steady.done {spec : Db φ} (h : Steady s loose spec)
    (hc : engine.committed = s.engine.committed) (htx : engine.transaction = s.engine.transaction) :
    Steady { s with engine } loose spec :=
  ⟨h.toSettled.failed hc (.inl htx), h.kept, fun hb => htx.trans (h.transaction hb)⟩

theorem Opened.failed {spec : Db φ} (h : Opened s loose spec current)
    (hf : Engine.Failed s.engine engine) : Within { s with engine } loose spec := by
  obtain ⟨hc, ht, _⟩ := hf
  rcases h.state with ⟨hb, heq, hs, htx⟩ | ⟨hb, hs, htx⟩
  · refine .first hb (hc.trans h.committed) hs heq ?_ (h.bounded.mono h.adds)
    rw [htx] at ht
    exact ht.symm.imp id fun hsome => ⟨current, hsome⟩
  · refine .open hb (hc.trans h.committed) h.grows ?_ hs (h.bounded.mono h.adds)
    rw [htx] at ht
    exact ht.symm.imp id fun hsome => ⟨current, hsome⟩

theorem Opened.done {spec : Db φ} (h : Opened s loose spec current)
    (hc : engine.committed = s.engine.committed) (htx : engine.transaction = s.engine.transaction) :
    Opened { s with engine } loose spec current :=
  ⟨hc.trans h.committed, h.grows, h.adds, h.bounded,
    h.state.imp (fun ⟨hb, heq, hs, ht⟩ => ⟨hb, heq, hs, htx.trans ht⟩)
      fun ⟨hb, hs, ht⟩ => ⟨hb, hs, htx.trans ht⟩⟩

theorem Opened.applied {spec : Db φ} (h : Opened s loose spec current) {e : Engine (Db φ)}
    (hc : e.committed = s.engine.committed) (htx : e.transaction = s.engine.transaction)
    (change : Db φ → Db φ × Nat) (hadds : Grows current (change current).1)
    (hbounded : Bounded (change current).1 s.identities.next) :
    Opened { s with engine := e.apply change } loose spec (change current).1 ∧
      (e.apply change).totalChanges = e.totalChanges + (change current).2 := by
  obtain ⟨saved, hsome⟩ : ∃ saved, s.engine.transaction = some ⟨current, saved⟩ := by
    rcases h.state with ⟨_, _, _, ht⟩ | ⟨_, _, ht⟩ <;> exact ⟨_, ht⟩
  have happly : e.apply change = { e with
      totalChanges := e.totalChanges + (change current).2
      transaction := some ⟨(change current).1, saved⟩ } := by
    have hview : e.view = current := view_of_some (htx.trans hsome)
    rw [Engine.apply, hview]
    simp only [htx.trans hsome]
  rw [happly]
  refine ⟨⟨hc.trans h.committed, h.grows, h.adds.trans hadds, hbounded, ?_⟩, rfl⟩
  rcases h.state with ⟨hb, heq, hs, ht⟩ | ⟨hb, hs, ht⟩
  · rw [hsome] at ht
    cases ht
    exact .inl ⟨hb, heq, hs, rfl⟩
  · rw [hsome] at ht
    cases ht
    exact .inr ⟨hb, hs, rfl⟩

theorem Opened.within {spec : Db φ} (h : Opened s loose spec current) : Within s loose spec :=
  have hsame : Engine.Failed s.engine s.engine := ⟨rfl, .inl rfl, rfl⟩
  h.failed hsame

theorem Opened.inTransaction {spec : Db φ} (h : Opened s loose spec current) :
    s.engine.inTransaction = true := by
  rcases h.state with ⟨_, _, _, htx⟩ | ⟨_, _, htx⟩ <;> simp [Engine.inTransaction, htx]

theorem begin_spec {spec : Db φ} (h : Steady s loose spec) :
    (s.begin.1 = .ok ∧ Opened s.begin.2 loose spec spec ∨
        s.begin.1 = .failed ∧ Settled s.begin.2 loose spec) ∧
      Frame s s.begin.2 ∧ s.begin.2.identities = s.identities := by
  have hstate := h.state
  unfold Store.begin
  cases hbatch : s.batch with
  | none => exact absurd hstate (by rw [hbatch]; exact id)
  | first => exact absurd hstate (by rw [hbatch]; exact id)
  | lost => exact absurd hbatch h.kept
  | ready =>
    rw [hbatch] at hstate
    obtain ⟨hnone, hequal, hcount, hsecond⟩ := hstate
    subst hequal
    obtain ⟨hc, hrest⟩ := Engine.control_begin hnone
    have hn := s.engine.control_totalChanges .begin
    rcases hr : s.engine.control .begin with ⟨ok, engine⟩
    rw [hr] at hc hrest hn
    simp only [hcount, hsecond, and_self, if_true, Store.control, hr]
    rcases hrest with ⟨hok, htx⟩ | ⟨hok, htx⟩
    · cases hok
      refine ⟨.inl ⟨rfl, hc.trans h.committed, .refl loose, .refl loose, h.bounded, .inl ⟨rfl, rfl,
        h.savepoint, ?_⟩⟩, ⟨rfl, rfl, rfl, hc, hn⟩, rfl⟩
      rw [← h.committed]
      exact htx
    · cases hok
      exact ⟨.inr ⟨rfl, hc.trans h.committed, h.savepoint, .refl loose, h.bounded,
        by rw [hbatch]; exact ⟨htx, rfl, hcount, hsecond⟩⟩, ⟨rfl, rfl, rfl, hc, hn⟩, rfl⟩
  | «open» =>
    have htx := h.transaction hbatch
    obtain ⟨hc, hrest⟩ := Engine.control_savepoint htx
    have hn := s.engine.control_totalChanges .savepoint
    rcases hr : s.engine.control .savepoint with ⟨ok, engine⟩
    rw [hr] at hc hrest hn
    simp only [h.savepoint, Bool.false_eq_true, if_false, Store.control, hr]
    rcases hrest with ⟨hok, htx'⟩ | ⟨hok, htx'⟩
    · cases hok
      exact ⟨.inl ⟨rfl, hc.trans h.committed, h.grows, .refl spec, h.bounded,
        .inr ⟨hbatch, rfl, htx'⟩⟩, ⟨rfl, rfl, rfl, hc, hn⟩, rfl⟩
    · cases hok
      exact ⟨.inr ⟨rfl, hc.trans h.committed, rfl, h.grows, h.bounded,
        by simp only [Bool.false_eq_true, if_false, hbatch]; exact htx'⟩,
        ⟨rfl, rfl, rfl, hc, hn⟩, rfl⟩

/-- Commits an open transaction: what it made is now the batch's. -/
theorem commit_spec {spec : Db φ} (h : Opened s loose spec current) :
    (s.commit.1 = .ok ∧ Steady s.commit.2 loose current ∨
        s.commit.1 = .failed ∧ Within s.commit.2 loose spec) ∧
      Frame s s.commit.2 := by
  unfold Store.commit
  rcases h.state with ⟨hb, heq, hs, htx⟩ | ⟨hb, hs, htx⟩
  · simp only [hb]
    have hsettled : Settled { s with batch := .open } loose current :=
      ⟨h.committed, hs, h.grows.trans h.adds, h.bounded, .inl htx⟩
    exact ⟨.inl ⟨trivial, hsettled, State.noConfusion, fun _ => htx⟩, ⟨rfl, rfl, rfl, rfl, rfl⟩⟩
  · obtain ⟨hc, hrest⟩ := Engine.control_release htx
    have hn := s.engine.control_totalChanges .release
    rcases hr : s.engine.control .release with ⟨ok, engine⟩
    rw [hr] at hc hrest hn
    simp only [hb, Store.control, hr]
    rcases hrest with ⟨hok, htx'⟩ | ⟨hok, htx'⟩
    · cases hok
      have hsettled : Settled { s with engine, batch := .open, savepoint := false } loose current :=
        ⟨hc.trans h.committed, rfl, h.grows.trans h.adds, h.bounded, .inl htx'⟩
      exact ⟨.inl ⟨rfl, hsettled, State.noConfusion, fun _ => htx'⟩, ⟨rfl, rfl, rfl, hc, hn⟩⟩
    · cases hok
      have hwithin : Within { s with engine } loose spec :=
        h.failed ⟨hc, by rw [htx]; exact htx', hn⟩
      simp only [hb] at hwithin
      exact ⟨.inr ⟨rfl, hwithin⟩, ⟨rfl, rfl, rfl, hc, hn⟩⟩

/-! ## A body under way -/

/-- What every body keeps: only its own rows, with identities no row had. -/
structure Steps (base : Store φ) (b : Body φ) (spec : Db φ) : Prop extends Keeps base b.store where
  fenced : b.store.fenced = false
  fresh : ∀ column, ∀ id ∈ b.handed column, id ∉ spec.ids column

/-- A body whose steps were all done: before its transaction, or in it. -/
structure Inside (base : Store φ) (b : Body φ) (loose spec : Db φ) : Prop
    extends Steps base b spec where
  below : ∀ column, ∀ id ∈ b.handed column, id < b.store.identities.next column
  total : base.engine.totalChanges ≤ b.store.engine.totalChanges
  still : b.store.engine.totalChanges = base.engine.totalChanges → played b.effects spec = spec
  state : b.opened = false ∧ b.effects = [] ∧ Steady b.store loose spec ∨
    b.opened = true ∧ Opened b.store loose spec (played b.effects spec)

/-- A body with a failed step: a rollback may start, and one that did not open its transaction has
nothing to roll back. -/
structure Broken (base : Store φ) (b : Body φ) (loose spec : Db φ) : Prop
    extends Steps base b spec where
  within : Within b.store loose spec
  unopened : b.opened = false → Settled b.store loose spec

/-- How a step of a body may turn out. -/
def Goes (base : Store φ) (loose spec : Db φ) (r : Outcome × Body φ) : Prop :=
  r.1 = .ok ∧ Inside base r.2 loose spec ∨ r.1 = .failed ∧ Broken base r.2 loose spec

/-- How a step inside the transaction may turn out. -/
def Acts (base : Store φ) (loose spec : Db φ) (r : Outcome × Body φ) : Prop :=
  Goes base loose spec r ∧ (r.1 = .ok → r.2.opened = true)

theorem Inside.within {spec : Db φ} (h : Inside base b loose spec) : Within b.store loose spec := by
  rcases h.state with ⟨_, _, hsteady⟩ | ⟨_, hopened⟩
  · exact .settled hsteady.toSettled
  · exact hopened.within

/-- A body whose steps were all done may still end with an error. -/
theorem Inside.broken {spec : Db φ} (h : Inside base b loose spec) : Broken base b loose spec := by
  refine ⟨h.toSteps, h.within, fun hopened => ?_⟩
  rcases h.state with ⟨_, _, hsteady⟩ | ⟨ho, _⟩
  · exact hsteady.toSettled
  · exact absurd (hopened.symm.trans ho) Bool.noConfusion

theorem ensureOpen_goes {spec : Db φ} (h : Inside base b loose spec) :
    Acts base loose spec b.ensureOpen := by
  unfold Body.ensureOpen
  rcases h.state with ⟨hclosed, heffects, hsteady⟩ | ⟨hopen, hopened⟩
  · simp only [hclosed, Bool.false_eq_true, if_false]
    obtain ⟨hrest, hframe, hids⟩ := begin_spec hsteady
    have hsteps : Steps base { b with store := b.store.begin.2, opened := true } spec :=
      ⟨h.toKeeps.trans hframe.keeps, hframe.fenced.trans h.fenced, h.fresh⟩
    rcases hrest with ⟨hok, hopened⟩ | ⟨hok, hsettled⟩
    · refine ⟨.inl ⟨hok, hsteps, ?_, ?_, ?_, .inr ⟨rfl, ?_⟩⟩, fun _ => rfl⟩
      · rw [hids]
        exact h.below
      · rw [hframe.total]
        exact h.total
      · rw [hframe.total]
        exact h.still
      · rw [heffects]
        exact hopened
    · refine ⟨.inr ⟨hok, hsteps, .settled hsettled, fun h => (nomatch h)⟩, fun hf => ?_⟩
      exact Outcome.noConfusion (hok.symm.trans hf)
  · simp only [hopen, if_true]
    exact ⟨.inl ⟨rfl, h⟩, fun _ => hopen⟩

theorem after_goes {spec : Db φ} (h : Inside base b loose spec) {act : Body φ → Outcome × Body φ}
    (hact : ∀ b : Body φ, Inside base b loose spec →
      Opened b.store loose spec (played b.effects spec) → b.opened = true →
      Goes base loose spec (act b)) : Goes base loose spec (b.after act) := by
  obtain ⟨hgoes, hopen⟩ := ensureOpen_goes h
  unfold Body.after
  rcases he : b.ensureOpen with ⟨outcome, b'⟩
  rw [he] at hgoes hopen
  rcases hgoes with ⟨hok, hin⟩ | ⟨hok, hbroken⟩
  · cases hok
    have hopened := hopen rfl
    rcases hin.state with ⟨hclosed, _⟩ | ⟨_, hstate⟩
    · exact absurd (hclosed.symm.trans hopened) Bool.noConfusion
    · exact hact b' hin hstate hopened
  · cases hok
    exact .inr ⟨rfl, hbroken⟩

theorem read_goes {spec : Db φ} (h : Inside base b loose spec) : Goes base loose spec b.read := by
  have hcases := Engine.read_cases b.store.engine
  unfold Body.read
  rcases hr : b.store.engine.read with ⟨ok, engine⟩
  rw [hr] at hcases
  have hsteps : Steps base { b with store := { b.store with engine } } spec :=
    ⟨⟨h.generation, h.changes⟩, h.fenced, h.fresh⟩
  rcases hcases with ⟨hok, hc, htx, hn⟩ | ⟨hok, hfailed⟩
  · cases hok
    refine .inl ⟨rfl, hsteps, h.below, hn ▸ h.total, hn ▸ h.still, ?_⟩
    rcases h.state with ⟨hclosed, heffects, hs⟩ | ⟨hopen, ho⟩
    · exact .inl ⟨hclosed, heffects, hs.done hc htx⟩
    · exact .inr ⟨hopen, ho.done hc htx⟩
  · cases hok
    refine .inr ⟨rfl, hsteps, ?_, fun hclosed => ?_⟩
    · rcases h.state with ⟨_, _, hs⟩ | ⟨_, ho⟩
      · exact .settled (hs.toSettled.failed hfailed.1 hfailed.2.1)
      · exact ho.failed hfailed
    · rcases h.state with ⟨_, _, hs⟩ | ⟨hopen, _⟩
      · exact hs.toSettled.failed hfailed.1 hfailed.2.1
      · exact absurd (hclosed.symm.trans hopen) Bool.noConfusion

theorem write_goes {spec : Db φ} (change : Change φ) (h : Inside base b loose spec)
    (ho : Opened b.store loose spec (played b.effects spec)) (hopen : b.opened = true) :
    Goes base loose spec (b.write change) := by
  unfold Body.write
  rcases Engine.write_cases b.store.engine (change.run b.handed) with
    ⟨e₀, hc, htx, hn, heq⟩ | ⟨hok, hfailed⟩
  · rw [heq]
    have hsteps : Steps base { b with
        store := { b.store with engine := e₀.apply (change.run b.handed) }
        effects := b.effects ++ [fun d => (change.run b.handed d).1] } spec :=
      ⟨⟨h.generation, h.changes⟩, h.fenced, h.fresh⟩
    obtain ⟨hopened, htotal⟩ := ho.applied hc htx (change.run b.handed)
      (change.keeps b.handed _) fun column id hid => by
        rcases change.takes b.handed _ column id hid with hold | hnew
        · exact ho.bounded column id hold
        · exact h.below column id hnew
    rw [hn] at htotal
    have hle := h.total
    refine .inl ⟨rfl, hsteps, h.below, ?_, fun hsame => ?_, .inr ⟨hopen, ?_⟩⟩
    · simp only [htotal]
      omega
    · simp only [htotal] at hsame
      have hstill := change.still b.handed (played b.effects spec) (by omega)
      rw [played_snoc, hstill]
      exact h.still (by omega)
    · rw [played_snoc]
      exact hopened
  · rcases hw : b.store.engine.write (change.run b.handed) with ⟨ok, engine⟩
    rw [hw] at hok hfailed
    cases hok
    exact .inr ⟨rfl, ⟨⟨h.generation, h.changes⟩, h.fenced, h.fresh⟩, ho.failed hfailed,
      fun hclosed => absurd (hclosed.symm.trans hopen) Bool.noConfusion⟩

theorem identity_goes {spec : Db φ} (column : Identity) (h : Inside base b loose spec)
    (ho : Opened b.store loose spec (played b.effects spec)) (hopen : b.opened = true) :
    Goes base loose spec (b.identity column) := by
  have hbroken : Broken base { b with store := b.store } loose spec := h.broken
  unfold Body.identity Store.takeIdentity
  rw [ho.inTransaction]
  simp only [if_true]
  by_cases hle : b.store.identities.next column ≤ 2 ^ 63 - 1
  · simp only [hle, if_true]
    have hmono : ∀ c, b.store.identities.next c ≤
        if c = column then b.store.identities.next column + 1 else b.store.identities.next c := by
      intro c
      split
      · rename_i hc
        rw [hc]
        exact Nat.le_succ _
      · exact Nat.le_refl _
    have hhanded : ∀ c id, id ∈ (if c = column then b.store.identities.next column :: b.handed c
        else b.handed c) → id ∈ b.handed c ∨ c = column ∧ id = b.store.identities.next column := by
      intro c id hid
      split at hid
      · rename_i hc
        exact (List.mem_cons.mp hid).symm.imp_right fun heq => ⟨hc, heq⟩
      · exact .inl hid
    refine .inl ⟨rfl, ⟨⟨h.generation, h.changes⟩, h.fenced, fun c id hid hin => ?_⟩,
      fun c id hid => ?_, h.total, h.still, .inr ⟨hopen, ho.committed, ho.grows, ho.adds,
        fun c id hid => Nat.lt_of_lt_of_le (ho.bounded c id hid) (hmono c), ho.state⟩⟩
    · rcases hhanded c id hid with hold | ⟨hc, heq⟩
      · exact h.fresh c id hold hin
      · have := ho.bounded c id (ho.adds c id hin)
        rw [heq, hc] at this
        exact absurd this (Nat.lt_irrefl _)
    · rcases hhanded c id hid with hold | ⟨hc, heq⟩
      · exact Nat.lt_of_lt_of_le (h.below c id hold) (hmono c)
      · rw [heq, hc]
        simp only [if_true]
        exact Nat.lt_succ_self _
  · simp only [hle, if_false]
    exact .inr ⟨rfl, hbroken⟩

theorem now_goes {spec : Db φ} (clock : Option Nat) (h : Inside base b loose spec)
    (ho : Opened b.store loose spec (played b.effects spec)) (hopen : b.opened = true) :
    Goes base loose spec ((b.store.transactionSecond clock).1,
      { b with store := (b.store.transactionSecond clock).2 }) := by
  have hsame : Inside base { b with store := b.store } loose spec := h
  unfold Store.transactionSecond
  split
  · exact .inl ⟨rfl, hsame⟩
  · split
    · exact .inr ⟨rfl, hsame.broken⟩
    · exact .inr ⟨rfl, hsame.broken⟩
    · rw [ho.inTransaction]
      exact .inl ⟨rfl, ⟨⟨h.generation, h.changes⟩, h.fenced, h.fresh⟩, h.below, h.total, h.still,
        .inr ⟨hopen, ho.committed, ho.grows, ho.adds, ho.bounded, ho.state⟩⟩

theorem touch_same (b : Body φ) (entry : Entry) :
    ∃ touched, b.touch entry = { b with store := { b.store with touched } } := by
  unfold Body.touch
  dsimp only
  split <;> exact ⟨_, rfl⟩

theorem touch_inside {spec : Db φ} (entry : Entry) (h : Inside base b loose spec) :
    Inside base (b.touch entry) loose spec := by
  obtain ⟨touched, heq⟩ := touch_same b entry
  rw [heq]
  refine ⟨⟨⟨h.generation, h.changes⟩, h.fenced, h.fresh⟩, h.below, h.total, h.still, ?_⟩
  rcases h.state with ⟨hclosed, heffects, hs⟩ | ⟨hopen, ho⟩
  · exact .inl ⟨hclosed, heffects,
      ⟨hs.committed, hs.savepoint, hs.grows, hs.bounded, hs.state⟩, hs.kept, hs.transaction⟩
  · exact .inr ⟨hopen, ho.committed, ho.grows, ho.adds, ho.bounded, ho.state⟩

/-- **Every step** keeps the transaction the batch expects, or fails where a rollback may start. -/
theorem step_goes {spec : Db φ} (h : Inside base b loose spec) (step : Step φ) :
    Goes base loose spec (b.step step) := by
  cases step with
  | peek => exact read_goes h
  | read => exact after_goes h fun b hin _ _ => read_goes hin
  | change change => exact after_goes h fun b hin ho hopen => write_goes change hin ho hopen
  | identity column => exact after_goes h fun b hin ho hopen => identity_goes column hin ho hopen
  | now clock => exact after_goes h fun b hin ho hopen => now_goes clock hin ho hopen
  | touch entry => exact .inl ⟨rfl, touch_inside entry h⟩

theorem run_goes {spec : Db φ} (h : Inside base b loose spec) (steps : List (Step φ)) :
    Goes base loose spec (b.run steps) := by
  induction steps generalizing b with
  | nil => exact .inl ⟨rfl, h⟩
  | cons step steps ih =>
    have hgoes := step_goes h step
    unfold Body.run
    rcases hs : b.step step with ⟨outcome, b'⟩
    rw [hs] at hgoes
    rcases hgoes with ⟨hok, hin⟩ | ⟨hok, hbroken⟩
    · cases hok
      exact ih hin
    · cases hok
      exact .inr ⟨rfl, hbroken⟩

/-! ## The end of a write -/

/-- Between writes: the batch can still commit, or the Store is fenced. -/
structure Between (s : Store φ) (loose spec : Db φ) : Prop extends Settled s loose spec where
  steady : s.fenced = false → Steady s loose spec

theorem Between.of_steady {spec : Db φ} (h : Steady s loose spec) :
    Between s loose spec := ⟨h.toSettled, fun _ => h⟩

theorem Between.fence {spec : Db φ} (h : Settled s loose spec) : Between s.fence loose spec :=
  ⟨⟨h.committed, h.savepoint, h.grows, h.bounded, h.state⟩, fun hf => (nomatch hf)⟩

/-- What a write adds to the batch. -/
def Answer.spec (answer : Answer) (effects : List (Db φ → Db φ)) (spec : Db φ) : Db φ :=
  if answer = .committed then played effects spec else spec

/-- How a whole body turns out: what closing the connection would leave is `loose'`. -/
structure Ends (base : Store φ) (loose' spec : Db φ) (r : Answer × Body φ) : Prop
    extends Keeps base r.2.store where
  fresh : ∀ column, ∀ id ∈ r.2.handed column, id ∉ spec.ids column
  checked : r.1 ≠ .panicked
  adds : Grows spec (r.1.spec r.2.effects spec)
  between : Between r.2.store loose' (r.1.spec r.2.effects spec)
  still : r.2.store.engine.totalChanges = base.engine.totalChanges →
    r.1.spec r.2.effects spec = spec

/-- Refusing an error of a body rolls its transaction back, or fences. -/
theorem refuse_ends {spec : Db φ} (ordinary : Bool) (hkeeps : Keeps base b.store)
    (hfresh : ∀ column, ∀ id ∈ b.handed column, id ∉ spec.ids column)
    (h : Within b.store loose spec) : Ends base loose spec (b.refuse ordinary) := by
  obtain ⟨hsettled, hsteady⟩ := rollbackAfterError_spec h
  have hframe := rollbackAfterError_frame b.store
  unfold Body.refuse
  rcases hr : b.store.rollbackAfterError with ⟨ok, store⟩
  rw [hr] at hsettled hsteady hframe
  have hkeeps' := hkeeps.trans hframe.keeps
  cases hboth : ok && ordinary with
  | true =>
    simp only [hboth, if_true]
    rw [Bool.and_eq_true] at hboth
    exact ⟨hkeeps', hfresh, Answer.noConfusion, .refl spec, .of_steady (hsteady hboth.1),
      fun _ => rfl⟩
  | false =>
    simp only [hboth, Bool.false_eq_true, if_false]
    exact ⟨⟨hkeeps'.generation, hkeeps'.changes⟩, hfresh, Answer.noConfusion, .refl spec,
      .fence hsettled, fun _ => rfl⟩

theorem abandon_spec {spec : Db φ} (h : Broken base b loose spec) :
    Keeps base b.abandon.2.store ∧ b.abandon.2.handed = b.handed ∧
      Settled b.abandon.2.store loose spec := by
  unfold Body.abandon
  cases hopen : b.opened with
  | true =>
    exact ⟨h.toKeeps.trans (rollbackAfterError_frame b.store).keeps, rfl,
      (rollbackAfterError_spec h.within).1⟩
  | false => exact ⟨h.toKeeps, rfl, h.unopened hopen⟩

/-- **An error** leaves the batch as it was, or fences. -/
theorem fail_ends {spec : Db φ} (ordinary : Bool) (h : Broken base b loose spec) :
    Ends base loose spec (b.fail ordinary) := by
  obtain ⟨hkeeps, hhanded, hsettled⟩ := abandon_spec h
  have hfresh : ∀ column, ∀ id ∈ b.abandon.2.handed column, id ∉ spec.ids column := by
    rw [hhanded]
    exact h.fresh
  exact refuse_ends _ hkeeps hfresh (.settled hsettled)

theorem finish_commit_ends {spec : Db φ} (h : Inside base b loose spec) :
    Ends base loose spec (b.finish .commit) := by
  obtain ⟨hgoes, hopen⟩ := ensureOpen_goes h
  unfold Body.finish Body.after
  rcases he : b.ensureOpen with ⟨outcome, b'⟩
  rw [he] at hgoes hopen
  rcases hgoes with ⟨hok, hin⟩ | ⟨hok, hbroken⟩
  · cases hok
    have hopened := hopen rfl
    rcases hin.state with ⟨hclosed, _⟩ | ⟨_, ho⟩
    · exact absurd (hclosed.symm.trans hopened) Bool.noConfusion
    · obtain ⟨hcommit, hframe⟩ := commit_spec ho
      dsimp only
      rcases hc : b'.store.commit with ⟨outcome, store⟩
      rw [hc] at hcommit hframe
      rcases hcommit with ⟨hok, hsteady⟩ | ⟨hok, hwithin⟩
      · cases hok
        refine ⟨hin.toKeeps.trans hframe.keeps, hin.fresh, Answer.noConfusion, ho.adds,
          .of_steady hsteady, fun hsame => ?_⟩
        exact hin.still (hframe.total.symm.trans hsame)
      · cases hok
        exact fail_ends false ⟨⟨hin.toKeeps.trans hframe.keeps, hframe.fenced.trans hin.fenced,
          hin.fresh⟩, hwithin, fun hclosed => absurd (hclosed.symm.trans hopened) Bool.noConfusion⟩
  · cases hok
    exact fail_ends false hbroken

theorem finish_ends {spec : Db φ} (h : Inside base b loose spec) (ending : Ending) :
    Ends base loose spec (b.finish ending) := by
  cases ending with
  | commit => exact finish_commit_ends h
  | error ordinary => exact fail_ends ordinary h.broken
  | abandon =>
    obtain ⟨hkeeps, hhanded, hsettled⟩ := abandon_spec h.broken
    have hsteady : b.abandon.1 = true → Steady b.abandon.2.store loose spec := by
      unfold Body.abandon
      rcases h.state with ⟨hclosed, _, hs⟩ | ⟨hopen, _⟩
      · simp only [hclosed, Bool.false_eq_true, if_false]
        exact fun _ => hs
      · simp only [hopen, if_true]
        exact (rollbackAfterError_spec h.within).2
    unfold Body.finish
    rcases ha : b.abandon with ⟨ok, b'⟩
    rw [ha] at hkeeps hhanded hsettled hsteady
    have hfresh : ∀ column, ∀ id ∈ b'.handed column, id ∉ spec.ids column := by
      rw [hhanded]
      exact h.fresh
    cases ok with
    | true =>
      exact ⟨hkeeps, hfresh, Answer.noConfusion, .refl spec, .of_steady (hsteady rfl),
        fun _ => rfl⟩
    | false => exact refuse_ends false hkeeps hfresh (.settled hsettled)

theorem access_ends {spec : Db φ} (h : Inside base b loose spec) (steps : List (Step φ))
    (ending : Ending) : Ends base loose spec (b.access steps ending) := by
  have hgoes := run_goes h steps
  unfold Body.access
  rcases hr : b.run steps with ⟨outcome, b'⟩
  rw [hr] at hgoes
  rcases hgoes with ⟨hok, hin⟩ | ⟨hok, hbroken⟩
  · cases hok
    exact finish_ends hin ending
  · cases hok
    exact fail_ends false hbroken

theorem Steady.equal {spec : Db φ} (h : Steady s loose spec) (hout : s.engine.inTransaction = false) :
    loose = spec := by
  have hstate := h.state
  cases hb : s.batch with
  | none => exact absurd hstate (by rw [hb]; exact id)
  | first => exact absurd hstate (by rw [hb]; exact id)
  | lost => exact absurd hb h.kept
  | ready =>
    rw [hb] at hstate
    exact hstate.2.1
  | «open» => simp [Engine.inTransaction, h.transaction hb] at hout

theorem Steady.applied {spec : Db φ} (h : Steady s loose spec) {e : Engine (Db φ)}
    (hc : e.committed = s.engine.committed) (htx : e.transaction = s.engine.transaction)
    (change : Db φ → Db φ × Nat) (hadds : Grows spec (change spec).1)
    (hbounded : Bounded (change spec).1 s.identities.next) :
    Steady { s with engine := e.apply change }
        (if s.engine.inTransaction then loose else (change loose).1) (change spec).1 ∧
      (e.apply change).totalChanges = e.totalChanges + (change spec).2 := by
  have hstate := h.state
  cases hb : s.batch with
  | none => exact absurd hstate (by rw [hb]; exact id)
  | first => exact absurd hstate (by rw [hb]; exact id)
  | lost => exact absurd hb h.kept
  | ready =>
    rw [hb] at hstate
    obtain ⟨hnone, hequal, hcount, hsecond⟩ := hstate
    subst hequal
    have hcommitted : e.committed = loose := hc.trans h.committed
    have happly : e.apply change = { e with
        totalChanges := e.totalChanges + (change loose).2
        committed := (change loose).1 } := by
      have hview : e.view = loose := (view_of_none (htx.trans hnone)).trans hcommitted
      rw [Engine.apply, hview]
      simp only [htx.trans hnone, hcommitted]
    rw [happly]
    simp only [Engine.inTransaction, hnone, Option.isSome_none, Bool.false_eq_true, if_false]
    exact ⟨⟨⟨rfl, h.savepoint, .refl _, hbounded, ⟨htx.trans hnone, rfl, hcount, hsecond⟩⟩,
      State.noConfusion, fun hopen => (by cases hopen)⟩, trivial⟩
  | «open» =>
    have hsome := h.transaction hb
    have happly : e.apply change = { e with
        totalChanges := e.totalChanges + (change spec).2
        transaction := some ⟨(change spec).1, none⟩ } := by
      have hview : e.view = spec := view_of_some (htx.trans hsome)
      rw [Engine.apply, hview]
      simp only [htx.trans hsome]
    rw [happly]
    simp only [Engine.inTransaction, hsome, Option.isSome_some, if_true]
    exact ⟨⟨⟨hc.trans h.committed, h.savepoint, h.grows.trans hadds, hbounded, .inl rfl⟩,
      State.noConfusion, fun _ => rfl⟩, trivial⟩

/-- A `.single` Access that does not commit changes nothing. -/
theorem ends_of_not_committed {r : Answer × Body φ} {spec : Db φ} (alone : Bool)
    (hkeeps : Keeps base r.2.store) (hhanded : r.2.handed = fun _ => [])
    (hanswer : r.1 ≠ .committed) (hchecked : r.1 ≠ .panicked) (h : Between r.2.store loose spec) :
    Ends base (if alone then loose else r.1.spec r.2.effects loose) spec r := by
  have hspec : ∀ d, r.1.spec r.2.effects d = d := fun d => if_neg hanswer
  rw [hspec, ite_self]
  refine ⟨hkeeps, fun _ id hid => ?_, hchecked, ?_, ?_, fun _ => hspec spec⟩
  · rw [hhanded] at hid
    cases hid
  · rw [hspec]
    exact .refl spec
  · rw [hspec]
    exact h

/-- A whole `.single` Access. Outside a transaction its statement commits itself. -/
theorem single_ends {spec : Db φ} (h : Steady base loose spec) (found : Bool) (change : Change φ)
    (one : ∀ d, (change.run (fun _ => []) d).2 ≤ 1) :
    let r := Body.single { store := base } found change
    Ends base (if base.engine.inTransaction then loose else r.1.spec r.2.effects loose) spec r := by
  have hread := Engine.read_cases base.engine
  unfold Body.single Body.read
  dsimp only
  rcases hr : base.engine.read with ⟨ok, engine⟩
  rw [hr] at hread
  rcases hread with ⟨hok, hc, htx, hn⟩ | ⟨hok, hc, htx, _⟩
  · cases hok
    cases found with
    | false =>
      exact ends_of_not_committed _ ⟨rfl, rfl⟩ rfl Answer.noConfusion Answer.noConfusion
        (.of_steady (h.done hc htx))
    | true =>
      simp only [if_true, Body.write]
      rcases Engine.write_cases engine (change.run fun _ => []) with
        ⟨e₀, hc', htx', hn', heq⟩ | ⟨hok, hc', htx', _⟩
      · rw [heq]
        obtain ⟨hsteady, htotal⟩ := h.applied (hc'.trans hc) (htx'.trans htx)
          (change.run fun _ => []) (change.keeps _ spec) fun column id hid => by
            rcases change.takes _ spec column id hid with hold | hnew
            · exact h.bounded column id hold
            · cases hnew
        have hle := one spec
        have hstill := change.still (fun _ => []) spec
        simp only [htotal, hn']
        by_cases hrows : (change.run (fun _ => []) spec).2 = 1
        · simp only [hrows, if_true]
          refine ⟨⟨rfl, rfl⟩, fun _ _ hid => (nomatch hid), Answer.noConfusion,
            change.keeps _ spec, .of_steady hsteady, fun hsame => ?_⟩
          have hmore : (e₀.apply (change.run fun _ => [])).totalChanges = base.engine.totalChanges :=
            hsame
          rw [htotal, hn', hn, hrows] at hmore
          omega
        · -- The statement changed no row, so the guard's failure leaves nothing behind.
          have hnot : ¬ engine.totalChanges + (change.run (fun _ => []) spec).2 =
              engine.totalChanges + 1 := by omega
          have hspec : (change.run (fun _ => []) spec).1 = spec := hstill (by omega)
          have hloose : (if base.engine.inTransaction = true then loose else
              (change.run (fun _ => []) loose).1) = loose := by
            cases hin : base.engine.inTransaction with
            | true => rfl
            | false =>
              rw [h.equal hin]
              exact hspec
          rw [hspec, hloose] at hsteady
          simp only [hnot, if_false]
          have hbetween : Between (Store.fence { base with engine := e₀.apply _ }) loose spec :=
            .fence hsteady.toSettled
          exact ends_of_not_committed (r := (.failed, { store := _, effects := _ })) _ ⟨rfl, rfl⟩ rfl
            Answer.noConfusion Answer.noConfusion hbetween
      · rcases hw : engine.write (change.run fun _ => []) with ⟨ok, engine'⟩
        rw [hw] at hok hc' htx'
        cases hok
        refine ends_of_not_committed _ ⟨rfl, rfl⟩ rfl Answer.noConfusion Answer.noConfusion
          (.fence (h.toSettled.failed (hc'.trans hc) ?_))
        rcases htx' with heq | hnone
        · exact .inl (heq.trans htx)
        · exact .inr hnone
  · cases hok
    exact ends_of_not_committed _ ⟨rfl, rfl⟩ rfl Answer.noConfusion Answer.noConfusion
      (.fence (h.toSettled.failed hc htx))

/-- **A whole body**, between two writes. -/
theorem body_ends {spec : Db φ} (h : Steady base loose spec) (hfenced : base.fenced = false)
    (w : Write φ) :
    Ends base (if base.alone w then (base.body w).1.spec (base.body w).2.effects loose else loose)
      spec (base.body w) := by
  cases w with
  | access steps ending =>
    have hin : Inside base { store := base } loose spec :=
      ⟨⟨⟨rfl, rfl⟩, hfenced, fun _ _ hid => (nomatch hid)⟩, fun _ _ hid => (nomatch hid),
        Nat.le_refl _, fun _ => rfl, .inl ⟨rfl, rfl, h⟩⟩
    exact access_ends hin steps ending
  | single found change one =>
    have hends := single_ends h found change one
    unfold Store.alone Store.body
    cases hin : base.engine.inTransaction with
    | true => simpa [hin] using hends
    | false => simpa [hin] using hends

end Rui.Batch
