import Rui.Batch.Store

/-!
# What a rollback leaves

Between two writes of a batch the Store is settled on two databases: what the
connection would leave if it closed, and what the batch has made so far. A write
under way adds to the second alone, and a rollback goes back to it.
-/

namespace Rui.Batch

open Library Rui.Changes

variable {φ : Type}

/-! ## Identities of rows -/

/-- No row of `d` is missing in `d'`. -/
def Grows (d d' : Db φ) : Prop := ∀ column, ∀ id ∈ d.ids column, id ∈ d'.ids column

theorem Grows.refl (d : Db φ) : Grows d d := fun _ _ h => h

variable {d spec loose : Db φ} {s : Store φ} {e : Engine (Db φ)}

theorem Grows.trans {d' d'' : Db φ} (h : Grows d d') (h' : Grows d' d'') : Grows d d'' :=
  fun column id hid => h' column id (h column id hid)

/-- Every row's identity is below the next one. -/
def Bounded (d : Db φ) (next : Identity → Nat) : Prop :=
  ∀ column, ∀ id ∈ d.ids column, id < next column

theorem Bounded.mono {d' : Db φ} {next : Identity → Nat} (h : Bounded d' next) (hg : Grows d d') :
    Bounded d next := fun column id hid => h column id (hg column id hid)

theorem Db.le_ceiling {column : Identity} {id : Nat} (h : id ∈ d.ids column) :
    id ≤ d.ceiling column := by
  unfold ceiling
  generalize d.ids column = ids at h
  induction ids with
  | nil => cases h
  | cons first rest ih =>
    rw [List.foldr_cons]
    rcases List.mem_cons.mp h with rfl | hin
    · exact Nat.le_max_left _ _
    · exact Nat.le_trans (ih hin) (Nat.le_max_right _ _)

theorem bounded_ceiling (d : Db φ) : Bounded d fun column => d.ceiling column + 1 :=
  fun _ _ h => Nat.lt_succ_of_le (Db.le_ceiling h)

/-! ## What a rollback keeps -/

/-- What only a commit, a fence or the end of an entry point changes. -/
structure Frame (s s' : Store φ) : Prop where
  fenced : s'.fenced = s.fenced
  generation : s'.commitGeneration = s.commitGeneration
  changes : s'.changes = s.changes
  committed : s'.engine.committed = s.engine.committed
  total : s'.engine.totalChanges = s.engine.totalChanges

theorem Frame.refl (s : Store φ) : Frame s s := ⟨rfl, rfl, rfl, rfl, rfl⟩

theorem Frame.trans {s' s'' : Store φ} (h : Frame s s') (h' : Frame s' s'') : Frame s s'' where
  fenced := h'.fenced.trans h.fenced
  generation := h'.generation.trans h.generation
  changes := h'.changes.trans h.changes
  committed := h'.committed.trans h.committed
  total := h'.total.trans h.total

/-- What loading identities leaves: the transaction, unless a read failed and took it along, and
every other column's next value. -/
structure Reloads (s : Store φ) (ok : Bool) (s' : Store φ) : Prop extends Frame s s' where
  batch : s'.batch = s.batch
  savepoint : s'.savepoint = s.savepoint
  second : s'.identities.second = s.identities.second
  count : s.identities.count = 0 → s'.identities.count = 0
  transaction : s'.engine.transaction = s.engine.transaction ∨
    ok = false ∧ s'.engine.transaction = none
  bounded : ∀ d, (s.engine.transaction ≠ none → d = s.engine.view) →
    (s.engine.transaction = none → d = s.engine.committed) →
    Bounded d s.identities.next → Bounded d s'.identities.next

theorem view_of_some {t : Transaction (Db φ)} (h : e.transaction = some t) :
    e.view = t.current := by
  rw [Engine.view, h]

theorem view_of_none (h : e.transaction = none) : e.view = e.committed := by
  rw [Engine.view, h]

theorem view_congr {e' : Engine (Db φ)} (hc : e'.committed = e.committed)
    (ht : e'.transaction = e.transaction) : e'.view = e.view := by
  rw [Engine.view, Engine.view, hc, ht]

theorem reload_reloads (columns : List Identity) (s : Store φ) :
    Reloads s (s.reload columns).1 (s.reload columns).2 := by
  induction columns generalizing s with
  | nil => exact ⟨.refl s, rfl, rfl, rfl, id, .inl rfl, fun _ _ _ h => h⟩
  | cons column columns ih =>
    rcases hr : s.engine.read with ⟨ok, engine⟩
    have hcases := Engine.read_cases s.engine
    rw [hr] at hcases
    rcases hcases with ⟨hok, hc, ht, hn⟩ | ⟨hok, hc, ht, hn⟩
    · cases hok
      simp only [Store.reload, hr]
      have h := ih { s with
        engine
        identities := { s.identities with
          next := fun c =>
            if c = column then engine.view.ceiling column + 1 else s.identities.next c } }
      refine ⟨⟨h.fenced, h.generation, h.changes, h.committed.trans hc, h.total.trans hn⟩,
        h.batch, h.savepoint, h.second, h.count, ?_, fun d hsome hnone hd => ?_⟩
      · rcases h.transaction with heq | hgone
        · exact .inl (heq.trans ht)
        · exact .inr hgone
      · have hview : engine.view = s.engine.view := view_congr hc ht
        have hd' : d = engine.view := by
          rw [hview]
          rcases htx : s.engine.transaction with _ | t
          · rw [hnone htx, view_of_none htx]
          · exact hsome (by simp [htx])
        apply h.bounded d (fun _ => hd') (fun hgone => by rw [hd', view_of_none hgone])
        intro c id hid
        by_cases hcol : c = column
        · simp only [hcol, if_true]
          rw [hcol, hd'] at hid
          exact Nat.lt_succ_of_le (Db.le_ceiling hid)
        · simp only [hcol, if_false]
          exact hd c id hid
    · cases hok
      simp only [Store.reload, hr]
      exact ⟨⟨rfl, rfl, rfl, hc, hn⟩, rfl, rfl, rfl, id, ht.imp id fun hgone => ⟨rfl, hgone⟩,
        fun _ _ _ h => h⟩

/-- Loading identities gives back what they took, or fails. -/
theorem loadIdentities_reloads (s : Store φ) (columns : Identity → Bool) :
    Reloads s (s.loadIdentities columns).1 (s.loadIdentities columns).2 ∧
      ((s.loadIdentities columns).1 = true →
        (s.loadIdentities columns).2.identities.count = 0) := by
  have h := reload_reloads (Identity.values.filter columns) s
  unfold Store.loadIdentities
  rcases hl : s.reload (Identity.values.filter columns) with ⟨ok, s'⟩
  rw [hl] at h
  cases ok with
  | false => exact ⟨h, fun hf => (nomatch hf)⟩
  | true =>
    have hcases := Engine.read_cases s'.engine
    rcases hr : s'.engine.read with ⟨ok, engine⟩
    rw [hr] at hcases
    have hkept : s'.engine.transaction = s.engine.transaction := by
      rcases h.transaction with heq | ⟨hf, _⟩
      · exact heq
      · cases hf
    rcases hcases with ⟨hok, hc, ht, hn⟩ | ⟨hok, hc, ht, hn⟩
    · cases hok
      simp only [hr]
      exact ⟨⟨⟨h.fenced, h.generation, h.changes, hc.trans h.committed, hn.trans h.total⟩,
        h.batch, h.savepoint, h.second, fun _ => rfl, .inl (ht.trans hkept), h.bounded⟩,
        fun _ => rfl⟩
    · cases hok
      simp only [hr]
      refine ⟨⟨⟨h.fenced, h.generation, h.changes, hc.trans h.committed, hn.trans h.total⟩,
        h.batch, h.savepoint, h.second, h.count, ?_, h.bounded⟩, fun hf => (nomatch hf)⟩
      rw [hkept] at ht
      exact ht.imp id fun hgone => ⟨rfl, hgone⟩

/-! ## Settled Stores -/

/-- Between writes: `loose` is what closing the connection would leave, and `spec` what the batch
has made so far. -/
structure Settled (s : Store φ) (loose spec : Db φ) : Prop where
  committed : s.engine.committed = loose
  savepoint : s.savepoint = false
  grows : Grows loose spec
  bounded : Bounded spec s.identities.next
  state : match s.batch with
    | .ready => s.engine.transaction = none ∧ loose = spec ∧ s.identities.count = 0 ∧
      s.identities.second = 0
    | .open => s.engine.transaction = some ⟨spec, none⟩ ∨ s.engine.transaction = none
    | .lost => True
    | .none | .first => False

/-- A settled Store whose batch can still commit. -/
structure Steady (s : Store φ) (loose spec : Db φ) : Prop extends Settled s loose spec where
  kept : s.batch ≠ .lost
  transaction : s.batch = .open → s.engine.transaction = some ⟨spec, none⟩

/-- Where a rollback may start: between writes, or in the first write's transaction or a later
write's savepoint, unless the engine has already rolled them back. -/
inductive Within (s : Store φ) (loose spec : Db φ) : Prop
  | settled (h : Settled s loose spec)
  | first (batch : s.batch = .first) (committed : s.engine.committed = loose)
    (savepoint : s.savepoint = false) (equal : loose = spec)
    (transaction : s.engine.transaction = none ∨
      ∃ current, s.engine.transaction = some ⟨current, none⟩)
    (bounded : Bounded spec s.identities.next)
  | open (batch : s.batch = .open) (committed : s.engine.committed = loose)
    (grows : Grows loose spec)
    (transaction : s.engine.transaction = none ∨
      ∃ current, s.engine.transaction = some ⟨current, some spec⟩)
    (savepoint : s.savepoint = true) (bounded : Bounded spec s.identities.next)

/-- Rolling back a transaction with no savepoint leaves none, or fails. -/
theorem rollbackTransaction_spec (s : Store φ) :
    Frame s s.rollbackTransaction.2 ∧ s.rollbackTransaction.2.batch = s.batch ∧
      s.rollbackTransaction.2.savepoint = s.savepoint ∧
      (Bounded s.engine.committed s.identities.next →
        Bounded s.engine.committed s.rollbackTransaction.2.identities.next) ∧
      (s.engine.transaction = none →
        s.rollbackTransaction.2.engine.transaction = none ∧
          (s.identities.count = 0 → s.rollbackTransaction.2.identities.count = 0) ∧
          s.rollbackTransaction.2.identities.second = 0) ∧
      (s.rollbackTransaction.1 = true →
        s.rollbackTransaction.2.engine.transaction = none ∧
          s.rollbackTransaction.2.identities.count = 0 ∧
          s.rollbackTransaction.2.identities.second = 0) := by
  -- With no transaction left, only the identities are loaded.
  have hload : ∀ s' : Store φ, Frame s s' → s'.batch = s.batch → s'.savepoint = s.savepoint →
      s'.engine.transaction = none → s'.identities.next = s.identities.next →
      s'.identities.taken = s.identities.taken → s'.identities.second = 0 →
      let r := s'.loadIdentities s'.identities.taken
      Frame s r.2 ∧ r.2.batch = s.batch ∧ r.2.savepoint = s.savepoint ∧
        (Bounded s.engine.committed s.identities.next →
          Bounded s.engine.committed r.2.identities.next) ∧
        r.2.engine.transaction = none ∧ (s.identities.count = 0 → r.2.identities.count = 0) ∧
        r.2.identities.second = 0 ∧ (r.1 = true → r.2.identities.count = 0) := by
    intro s' hframe hbatch hsave hnone hnext htaken hsecond
    obtain ⟨h, hcount⟩ := loadIdentities_reloads s' s'.identities.taken
    refine ⟨hframe.trans h.toFrame, h.batch.trans hbatch, h.savepoint.trans hsave, fun hb => ?_, ?_,
      fun hc => h.count ?_, h.second.trans hsecond, hcount⟩
    · apply h.bounded _ (fun hsome => absurd hnone hsome) (fun _ => hframe.committed.symm)
      rw [hnext]
      exact hb
    · rcases h.transaction with heq | ⟨_, hgone⟩
      · rw [heq, hnone]
      · exact hgone
    · unfold HostValues.count at hc ⊢
      rw [htaken]
      exact hc
  unfold Store.rollbackTransaction
  cases htx : s.engine.transaction with
  | none =>
    simp only [Engine.inTransaction, htx, Option.isSome_none, Bool.false_eq_true, if_false, if_true]
    obtain ⟨h₁, h₂, h₃, h₄, h₅, h₆, h₇, h₈⟩ := hload
      { s with identities := { s.identities with second := 0 } } ⟨rfl, rfl, rfl, rfl, rfl⟩ rfl rfl htx
      rfl rfl rfl
    exact ⟨h₁, h₂, h₃, h₄, fun _ => ⟨h₅, h₆, h₇⟩, fun hok => ⟨h₅, h₈ hok, h₇⟩⟩
  | some t =>
    have hrollback := Engine.control_rollback htx
    have htotal := Engine.control_totalChanges s.engine .rollback
    rcases hr : s.engine.control .rollback with ⟨ok, engine⟩
    rw [hr] at hrollback htotal
    obtain ⟨hc, hrest⟩ := hrollback
    simp only [Engine.inTransaction, htx, Option.isSome_some, if_true]
    rcases hrest with ⟨hok, hnone⟩ | ⟨hok, _⟩
    · cases hok
      simp only at hnone hc htotal
      simp only [hnone, Option.isSome_none, Bool.not_false, Bool.and_true, if_true]
      obtain ⟨h₁, h₂, h₃, h₄, h₅, _, h₇, h₈⟩ := hload
        { s with engine, identities := { s.identities with second := 0 } }
        ⟨rfl, rfl, rfl, hc, htotal⟩ rfl rfl hnone rfl rfl rfl
      exact ⟨h₁, h₂, h₃, h₄, fun h => (nomatch h), fun hok => ⟨h₅, h₈ hok, h₇⟩⟩
    · cases hok
      simp only [Bool.false_and, Bool.false_eq_true, if_false]
      exact ⟨⟨rfl, rfl, rfl, hc, htotal⟩, trivial, trivial, fun h => h, fun h => (nomatch h),
        fun h => (nomatch h)⟩

/-- Going back to a savepoint changes the engine alone. -/
theorem rollbackToSavepoint_frame (s : Store φ) (savepoint : Bool) :
    Frame s (s.rollbackToSavepoint savepoint).2 ∧
      (s.rollbackToSavepoint savepoint).2.batch = s.batch ∧
      (s.rollbackToSavepoint savepoint).2.savepoint = s.savepoint ∧
      (s.rollbackToSavepoint savepoint).2.identities = s.identities := by
  unfold Store.rollbackToSavepoint
  cases savepoint with
  | false => exact ⟨.refl s, rfl, rfl, rfl⟩
  | true =>
    have hc := s.engine.control_committed (show Control.rollbackTo ≠ .commit by decide)
    have hn := s.engine.control_totalChanges .rollbackTo
    rcases hr : s.engine.control .rollbackTo with ⟨ok, engine⟩
    rw [hr] at hc hn
    cases ok with
    | false => exact ⟨⟨rfl, rfl, rfl, hc, hn⟩, rfl, rfl, rfl⟩
    | true =>
      have hc' := engine.control_committed (show Control.release ≠ .commit by decide)
      have hn' := engine.control_totalChanges .release
      exact ⟨⟨rfl, rfl, rfl, hc'.trans hc, hn'.trans hn⟩, rfl, rfl, rfl⟩

theorem rollbackToSavepoint_transaction {savepoint : Bool}
    (h : (∃ current, s.engine.transaction = some ⟨current, some spec⟩) ∧ savepoint = true ∨
      s.engine.transaction = some ⟨spec, none⟩ ∧ savepoint = false)
    (hok : (s.rollbackToSavepoint savepoint).1 = true) :
    (s.rollbackToSavepoint savepoint).2.engine.transaction = some ⟨spec, none⟩ := by
  unfold Store.rollbackToSavepoint at hok ⊢
  rcases h with ⟨⟨current, htx⟩, rfl⟩ | ⟨htx, rfl⟩
  · have hto := (Engine.control_rollbackTo htx).2
    rcases hr : s.engine.control .rollbackTo with ⟨ok, engine⟩
    simp only [hr, if_true] at hto hok ⊢
    cases ok with
    | false => cases hok
    | true =>
      rcases hto with ⟨_, htx'⟩ | hno
      · rcases (Engine.control_release htx').2 with ⟨_, htx''⟩ | ⟨hno, _⟩
        · exact htx''
        · exact absurd (hok.symm.trans hno) Bool.noConfusion
      · cases hno
  · exact htx

theorem lostUnless_frame {r : Bool × Store φ} (h : Frame s r.2) :
    Frame s (Store.lostUnless r).2 := by
  obtain ⟨ok, s'⟩ := r
  cases ok with
  | true => exact h
  | false => exact ⟨h.fenced, h.generation, h.changes, h.committed, h.total⟩

theorem rollbackOpen_frame (s : Store φ) : Frame s s.rollbackOpen.2 := by
  unfold Store.rollbackOpen
  apply lostUnless_frame
  have h₀ : Frame s { s with savepoint := false } := ⟨rfl, rfl, rfl, rfl, rfl⟩
  split
  · have h := (rollbackToSavepoint_frame { s with savepoint := false } s.savepoint).1
    split
    · rename_i heq
      rw [heq] at h
      exact (h₀.trans h).trans (loadIdentities_reloads _ _).1.toFrame
    · exact h₀.trans h
  · exact h₀

theorem rollbackFirst_frame (s : Store φ) : Frame s s.rollbackFirst.2 := by
  have h := lostUnless_frame (rollbackTransaction_spec s).1
  unfold Store.rollbackFirst
  split
  · rename_i heq
    rw [heq] at h
    exact ⟨h.fenced, h.generation, h.changes, h.committed, h.total⟩
  · exact h

theorem rollbackAfterError_frame (s : Store φ) : Frame s s.rollbackAfterError.2 := by
  have h₀ : Frame s s.touchEverything := ⟨rfl, rfl, rfl, rfl, rfl⟩
  unfold Store.rollbackAfterError
  dsimp only
  split
  · exact h₀.trans (rollbackOpen_frame _)
  · exact h₀.trans (rollbackFirst_frame _)
  · exact h₀.trans (rollbackTransaction_spec _).1
  · exact h₀.trans (rollbackTransaction_spec _).1
  · exact h₀

theorem settled_lost (hc : s.engine.committed = loose) (hsave : s.savepoint = false)
    (hgrows : Grows loose spec) (hbounded : Bounded spec s.identities.next) :
    Settled { s with batch := .lost } loose spec :=
  ⟨hc, hsave, hgrows, hbounded, trivial⟩

theorem rollbackOpen_spec (batch : s.batch = .open) (hc : s.engine.committed = loose)
    (hgrows : Grows loose spec) (hbounded : Bounded spec s.identities.next)
    (h : s.engine.transaction = none ∨
      (∃ current, s.engine.transaction = some ⟨current, some spec⟩) ∧ s.savepoint = true ∨
      s.engine.transaction = some ⟨spec, none⟩ ∧ s.savepoint = false) :
    Settled s.rollbackOpen.2 loose spec ∧
      (s.rollbackOpen.1 = true → Steady s.rollbackOpen.2 loose spec) := by
  unfold Store.rollbackOpen
  rcases h with hnone | hsome
  · simp only [Engine.inTransaction, hnone, Option.isSome_none, Bool.false_eq_true, if_false]
    exact ⟨settled_lost (s := { s with savepoint := false }) hc rfl hgrows hbounded,
      fun h => (nomatch h)⟩
  · have hin : s.engine.inTransaction = true := by
      rcases hsome with ⟨⟨current, htx⟩, _⟩ | ⟨htx, _⟩ <;> simp [Engine.inTransaction, htx]
    simp only [hin, if_true]
    obtain ⟨hframe, hb, hs, hids⟩ :=
      rollbackToSavepoint_frame { s with savepoint := false } s.savepoint
    have htx := rollbackToSavepoint_transaction (s := { s with savepoint := false }) hsome
    rcases hr : Store.rollbackToSavepoint { s with savepoint := false } s.savepoint with ⟨ok, s'⟩
    rw [hr] at hframe hb hs hids htx
    cases ok with
    | false =>
      refine ⟨settled_lost (hframe.committed.trans hc) hs hgrows ?_, fun h => (nomatch h)⟩
      rw [hids]
      exact hbounded
    | true =>
      have htx' := htx rfl
      obtain ⟨hload, _⟩ := loadIdentities_reloads s' s'.identities.taken
      have hbounded' : Bounded spec (s'.loadIdentities s'.identities.taken).2.identities.next := by
        apply hload.bounded spec (fun _ => (view_of_some htx').symm)
          (fun hnone => by rw [htx'] at hnone; cases hnone)
        rw [hids]
        exact hbounded
      dsimp only
      rcases hl : s'.loadIdentities s'.identities.taken with ⟨ok, s''⟩
      rw [hl] at hload hbounded'
      have hc' := (hload.committed.trans hframe.committed).trans hc
      cases ok with
      | false =>
        exact ⟨settled_lost hc' (hload.savepoint.trans hs) hgrows hbounded', fun h => (nomatch h)⟩
      | true =>
        have hopen : s''.batch = .open := hload.batch.trans (hb.trans batch)
        have htx'' : s''.engine.transaction = some ⟨spec, none⟩ := by
          rcases hload.transaction with heq | ⟨hf, _⟩
          · rw [heq, htx']
          · cases hf
        have hsettled : Settled s'' loose spec :=
          ⟨hc', hload.savepoint.trans hs, hgrows, hbounded', by rw [hopen]; exact .inl htx''⟩
        refine ⟨hsettled, fun _ => ⟨hsettled, ?_, fun _ => htx''⟩⟩
        rw [Store.lostUnless, hopen]
        decide

theorem rollbackFirst_spec (hc : s.engine.committed = spec) (hsave : s.savepoint = false)
    (hbounded : Bounded spec s.identities.next) : Settled s.rollbackFirst.2 spec spec ∧
      (s.rollbackFirst.1 = true → Steady s.rollbackFirst.2 spec spec) := by
  obtain ⟨hframe, _, hs, hb, _, hdone⟩ := rollbackTransaction_spec s
  unfold Store.rollbackFirst
  rcases hr : s.rollbackTransaction with ⟨ok, s'⟩
  rw [hr] at hframe hs hb hdone
  rw [hc] at hb
  have hc' := hframe.committed.trans hc
  cases ok with
  | false =>
    exact ⟨settled_lost hc' (hs.trans hsave) (.refl spec) (hb hbounded), fun h => (nomatch h)⟩
  | true =>
    obtain ⟨hnone, hcount, hsecond⟩ := hdone rfl
    have hsettled : Settled { s' with batch := .ready } spec spec :=
      ⟨hc', hs.trans hsave, .refl spec, hb hbounded, ⟨hnone, rfl, hcount, hsecond⟩⟩
    exact ⟨hsettled, fun _ => ⟨hsettled, State.noConfusion, fun h => (nomatch h)⟩⟩

/-- **A rollback goes back to what the batch has made so far**, or the batch is lost. -/
theorem rollbackAfterError_spec (h : Within s loose spec) :
    Settled s.rollbackAfterError.2 loose spec ∧
      (s.rollbackAfterError.1 = true → Steady s.rollbackAfterError.2 loose spec) := by
  unfold Store.rollbackAfterError
  cases h with
  | settled h =>
    have hstate := h.state
    have hkeeps := h.savepoint
    cases hbatch : s.batch with
    | none => exact absurd hstate (by rw [hbatch]; exact id)
    | first => exact absurd hstate (by rw [hbatch]; exact id)
    | lost =>
      have hbatch' : s.touchEverything.batch = .lost := hbatch
      simp only [hbatch']
      exact ⟨⟨h.committed, h.savepoint, h.grows, h.bounded, by rw [hbatch']; trivial⟩,
        fun h => (nomatch h)⟩
    | «open» =>
      have hbatch' : s.touchEverything.batch = .open := hbatch
      rw [hbatch] at hstate
      simp only [hbatch']
      exact rollbackOpen_spec hbatch h.committed h.grows h.bounded
        (hstate.elim (fun htx => .inr (.inr ⟨htx, hkeeps⟩)) .inl)
    | ready =>
      have hbatch' : s.touchEverything.batch = .ready := hbatch
      rw [hbatch] at hstate
      obtain ⟨hnone, hequal, hcount, hsecond⟩ := hstate
      subst hequal
      obtain ⟨hframe, hb, hs, hbounded, hdone, hok⟩ := rollbackTransaction_spec s.touchEverything
      have hc : s.touchEverything.engine.committed = loose := h.committed
      rw [hc] at hbounded
      simp only [hbatch']
      rw [hbatch'] at hb
      obtain ⟨hnone', hcount', hsecond'⟩ := hdone hnone
      have hsettled : Settled s.touchEverything.rollbackTransaction.2 loose loose :=
        ⟨hframe.committed.trans hc, hs.trans hkeeps, h.grows, hbounded h.bounded,
          by rw [hb]; exact ⟨hnone', rfl, hcount' hcount, hsecond'⟩⟩
      exact ⟨hsettled, fun _ => ⟨hsettled, by rw [hb]; decide, fun h => by rw [hb] at h; cases h⟩⟩
  | first batch hc hsave hequal _ hbounded =>
    subst hequal
    have hbatch : s.touchEverything.batch = .first := batch
    simp only [hbatch]
    exact rollbackFirst_spec hc hsave hbounded
  | «open» batch hc hgrows htx hsave hbounded =>
    have hbatch : s.touchEverything.batch = .open := batch
    simp only [hbatch]
    exact rollbackOpen_spec batch hc hgrows hbounded (htx.imp id fun h => .inl ⟨h, hsave⟩)

end Rui.Batch
