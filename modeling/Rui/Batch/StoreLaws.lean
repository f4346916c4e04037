import Rui.Batch.WriteRuns

/-!
# What a batch of writes leaves

A write adds to the batch what it committed and nothing else. A batch is its
writes, and the Host a sequence of batches and reads: what is durable, which
identities are handed out, and what the change ring hears follow from one write
at a time.
-/

namespace Rui.Batch

open Library Rui.Changes

variable {φ : Type}

/-! ## One write -/

/-- What a write adds to a state. -/
def Ran.after (ran : Ran φ) (d : Db φ) : Db φ := ran.answer.spec ran.effects d

/-- From `s` to `s'`, the ring heard of `commits`, each under the next generation. -/
structure Logs (s : Store φ) (commits : List Commit) (s' : Store φ) : Prop where
  changes : s'.changes = s.changes.run commits
  generation : s'.commitGeneration = s.commitGeneration + commits.length
  generations : commits.map Commit.generation =
    List.range' (s.commitGeneration + 1) commits.length

theorem Logs.refl (s : Store φ) : Logs s [] s := ⟨rfl, rfl, rfl⟩

variable {s s' : Store φ} {commits : List Commit} {spec : Db φ}

theorem Logs.trans {s'' : Store φ} {more : List Commit} (h : Logs s commits s')
    (h' : Logs s' more s'') : Logs s (commits ++ more) s'' where
  changes := by rw [Ring.run_append, ← h.changes, h'.changes]
  generation := by rw [h'.generation, h.generation, List.length_append, Nat.add_assoc]
  generations := by
    rw [List.map_append, h.generations, h'.generations, h.generation, List.length_append]
    rw [Nat.add_right_comm, List.range'_append_1]

theorem Keeps.logs (h : Keeps s s') : Logs s [] s' :=
  ⟨h.changes, h.generation, rfl⟩

/-- What ending an entry point leaves alone. -/
structure Released (s s' : Store φ) : Prop where
  engine : s'.engine = s.engine
  fenced : s'.fenced = s.fenced
  identities : s'.identities = s.identities
  batch : s'.batch = s.batch
  savepoint : s'.savepoint = s.savepoint

theorem Settled.released {loose : Db φ} (h : Settled s loose spec) (hr : Released s s') :
    Settled s' loose spec := by
  refine ⟨hr.engine ▸ h.committed, hr.savepoint ▸ h.savepoint, h.grows, hr.identities ▸ h.bounded, ?_⟩
  rw [hr.batch, hr.engine, hr.identities]
  exact h.state

theorem Between.released {loose : Db φ} (h : Between s loose spec) (hr : Released s s') :
    Between s' loose spec := by
  refine ⟨h.toSettled.released hr, fun hfenced => ?_⟩
  have hs := h.steady (hr.fenced ▸ hfenced)
  exact ⟨hs.toSettled.released hr, hr.batch ▸ hs.kept, hr.batch ▸ hr.engine ▸ hs.transaction⟩

/-- Ending an entry point records what it touched, if it changed rows. -/
theorem release_logs {base : Store φ} (h : Keeps base s) (changes : Nat) :
    Logs base (s.release changes).1.toList (s.release changes).2 ∧
      Released s (s.release changes).2 ∧
      ((s.release changes).1 = none → s.engine.totalChanges = changes) := by
  unfold Store.release
  split
  · refine ⟨⟨?_, ?_, ?_⟩, ⟨rfl, rfl, rfl, rfl, rfl⟩, fun hnone => (nomatch hnone)⟩
    · exact congrArg (fun ring : Ring => ring.record (s.commitGeneration + 1) s.touched) h.changes
    · exact congrArg (· + 1) h.generation
    · exact congrArg (fun g => [g + 1]) h.generation
  · rename_i hsame
    exact ⟨h.logs, ⟨rfl, rfl, rfl, rfl, rfl⟩, fun _ => Decidable.not_not.mp hsame⟩

theorem Steady.view {loose : Db φ} (h : Steady s loose spec) : s.engine.view = spec := by
  cases hin : s.engine.inTransaction with
  | true =>
    have hstate := h.state
    cases hb : s.batch with
    | none => exact absurd hstate (by rw [hb]; exact id)
    | first => exact absurd hstate (by rw [hb]; exact id)
    | lost => exact absurd hb h.kept
    | ready =>
      rw [hb] at hstate
      simp [Engine.inTransaction, hstate.1] at hin
    | «open» => exact view_of_some (h.transaction hb)
  | false =>
    have hnone : s.engine.transaction = none := by simpa [Engine.inTransaction] using hin
    rw [view_of_none hnone, h.committed, h.equal hin]

/-- What one write did, between a Store and the one after it. -/
structure Wrote (s : Store φ) (loose spec : Db φ) (ran : Ran φ) (s' : Store φ) : Prop where
  checked : ran.answer ≠ .panicked
  between : Between s' (if ran.alone then ran.after loose else loose) (ran.after spec)
  saw : ∀ saw, ran.saw = some saw → saw = spec
  fresh : ∀ column, ∀ id ∈ ran.handed column, id ∉ spec.ids column
  adds : Grows spec (ran.after spec)
  keeps : Grows loose (if ran.alone then ran.after loose else loose)
  logs : Logs s ran.recorded.toList s'
  heard : ran.recorded = none → ran.after spec = spec

/-- **One write** adds what it committed, and nothing otherwise. -/
theorem write_wrote {loose : Db φ} (h : Between s loose spec) (w : Write φ) :
    Wrote s loose spec (s.write w).1 (s.write w).2 := by
  unfold Store.write
  split
  · exact ⟨Answer.noConfusion, h, fun _ hs => (by cases hs), fun _ _ hid => (by cases hid),
      .refl spec, .refl loose, .refl s, fun _ => rfl⟩
  · rename_i hfenced
    have hfenced : s.fenced = false := by simpa using hfenced
    have hs := h.steady hfenced
    have hbase : Steady { s with touched := {} } loose spec :=
      ⟨⟨hs.committed, hs.savepoint, hs.grows, hs.bounded, hs.state⟩, hs.kept, hs.transaction⟩
    have hends := body_ends hbase hfenced w
    have hreleased := release_logs hends.toKeeps s.engine.totalChanges
    dsimp only
    rcases hb : Store.body { s with touched := {} } w with ⟨answer, b⟩
    rw [hb] at hends hreleased
    obtain ⟨hlogs, hrest, hheard⟩ := hreleased
    dsimp only at hlogs hrest hheard ⊢
    rcases hr : b.store.release s.engine.totalChanges with ⟨recorded, store⟩
    rw [hr] at hlogs hrest hheard
    refine ⟨hends.checked, ?_, fun saw hsaw => ?_, hends.fresh, hends.adds, ?_,
      ⟨hlogs.changes, hlogs.generation, hlogs.generations⟩, fun hnone => hends.still (hheard hnone)⟩
    · exact hends.between.released hrest
    · rw [← Option.some.inj hsaw]
      exact hbase.view
    · -- A statement that commits itself runs where the batch has made nothing yet.
      dsimp only
      split
      · rename_i halone
        have hequal : loose = spec := hbase.equal <| by
          cases w with
          | access steps ending => cases halone
          | single found change one => simpa [Store.alone] using halone
        rw [hequal]
        exact hends.adds
      · exact .refl loose

/-! ## The writes of a batch -/

/-- The committed writes of a batch, one after another. -/
def serial (rans : List (Ran φ)) (d : Db φ) : Db φ := rans.foldl (fun d ran => ran.after d) d

/-- The writes of a batch whose one statement committed itself, one after another. -/
def loose (rans : List (Ran φ)) (d : Db φ) : Db φ :=
  rans.foldl (fun d ran => if ran.alone then ran.after d else d) d

/-- What the ring heard of a batch. -/
def commitsOf (rans : List (Ran φ)) : List Commit := rans.flatMap fun ran => ran.recorded.toList

/-- Each write found the state the committed writes before it left, took identities that no row of
it had, and was heard of if it changed it. -/
inductive Serial : List (Ran φ) → Db φ → Prop
  | nil (d : Db φ) : Serial [] d
  | cons {ran : Ran φ} {rans : List (Ran φ)} {d : Db φ}
    (checked : ran.answer ≠ .panicked)
    (saw : ∀ saw, ran.saw = some saw → saw = d)
    (fresh : ∀ column, ∀ id ∈ ran.handed column, id ∉ d.ids column)
    (adds : Grows d (ran.after d))
    (heard : ran.recorded = none → ran.after d = d)
    (rest : Serial rans (ran.after d)) : Serial (ran :: rans) d

theorem writes_wrote {l : Db φ} (h : Between s l spec) (writes : List (Write φ)) :
    Serial (s.writes writes).1 spec ∧ Grows l (loose (s.writes writes).1 l) ∧
      Between (s.writes writes).2 (loose (s.writes writes).1 l) (serial (s.writes writes).1 spec) ∧
      Logs s (commitsOf (s.writes writes).1) (s.writes writes).2 := by
  induction writes generalizing s l spec with
  | nil => exact ⟨.nil spec, .refl l, h, .refl s⟩
  | cons w rest ih =>
    have hw := write_wrote h w
    unfold Store.writes
    rcases hr : s.write w with ⟨ran, s'⟩
    rw [hr] at hw
    obtain ⟨hserial, hkeeps, hbetween, hlogs⟩ := ih hw.between
    exact ⟨.cons hw.checked hw.saw hw.fresh hw.adds hw.heard hserial, hw.keeps.trans hkeeps,
      hbetween, hw.logs.trans hlogs⟩

theorem writes_fenced (h : s.fenced = true) (writes : List (Write φ)) (d : Db φ) :
    Serial (s.writes writes).1 d ∧ serial (s.writes writes).1 d = d ∧
      loose (s.writes writes).1 d = d ∧ commitsOf (s.writes writes).1 = [] ∧ (s.writes writes).2 = s := by
  induction writes with
  | nil => exact ⟨.nil d, rfl, rfl, rfl, rfl⟩
  | cons w rest ih =>
    have hw : s.write w = ({ answer := .failed }, s) := by simp [Store.write, h]
    obtain ⟨hserial, hsame, hloose, hcommits, hstore⟩ := ih
    unfold Store.writes
    rw [hw]
    exact ⟨.cons Answer.noConfusion (fun _ hs => (nomatch hs)) (fun _ _ hid => (nomatch hid))
      (.refl d) (fun _ => rfl) hserial, hsame, hloose, hcommits, hstore⟩

variable {rans : List (Ran φ)} {d : Db φ} {commit : Commit}

theorem Serial.grows (h : Serial rans d) : Grows d (serial rans d) := by
  induction h with
  | nil d => exact .refl d
  | cons _ _ _ adds _ _ ih => exact adds.trans ih

/-! ## A whole batch -/

/-- Between requests: no batch, and no transaction unless the Store is fenced. -/
structure Rests (s : Store φ) : Prop where
  batch : s.batch = .none
  savepoint : s.savepoint = false
  count : s.identities.count = 0
  second : s.identities.second = 0
  idle : s.fenced = false → s.engine.transaction = none ∧
    Bounded s.engine.committed s.identities.next

/-- What `finishBatch` answers of a batch, and leaves. -/
structure Finishes (before : Store φ) (rans : List (Ran φ)) (finished : Outcome)
    (after : Store φ) : Prop where
  checked : finished ≠ .panic
  durable : finished = .ok →
    after.engine.committed = serial rans before.engine.committed
  lost : finished = .failed → after.fenced = true ∧
    (after.engine.committed = loose rans before.engine.committed ∨
      after.engine.committed = serial rans before.engine.committed)
  rests : Rests after

theorem finishBatch_finishes {before : Store φ}
    (h : Between s (loose rans before.engine.committed) (serial rans before.engine.committed)) :
    Finishes before rans s.finishBatch.1 s.finishBatch.2 ∧ Logs s [] s.finishBatch.2 := by
  have hstate := h.state
  unfold Store.finishBatch Store.commitBatch
  simp only [h.savepoint, Bool.false_eq_true, if_false]
  cases hb : s.batch with
  | none => exact absurd hstate (by rw [hb]; exact id)
  | first => exact absurd hstate (by rw [hb]; exact id)
  | lost =>
    refine ⟨⟨Outcome.noConfusion, fun hok => (by cases hok), fun _ => ⟨rfl, .inl h.committed⟩,
      ⟨rfl, h.savepoint, rfl, rfl, fun hf => (by cases hf)⟩⟩, ⟨rfl, rfl, rfl⟩⟩
  | ready =>
    rw [hb] at hstate
    obtain ⟨hnone, hequal, _⟩ := hstate
    refine ⟨⟨Outcome.noConfusion, fun _ => h.committed.trans hequal, fun hno => (by cases hno),
      ⟨rfl, h.savepoint, rfl, rfl, fun _ => ⟨hnone, ?_⟩⟩⟩, ⟨rfl, rfl, rfl⟩⟩
    exact (h.committed.trans hequal) ▸ h.bounded
  | «open» =>
    rw [hb] at hstate
    have hlost : ∀ engine : Engine (Db φ),
        (engine.committed = loose rans before.engine.committed ∨
          engine.committed = serial rans before.engine.committed) →
        Finishes before rans .failed
          { (Store.fence { s with engine }).settleIdentities with batch := .none } := by
      intro engine hc
      exact ⟨Outcome.noConfusion, fun hok => (by cases hok), fun _ => ⟨rfl, hc⟩,
        ⟨rfl, h.savepoint, rfl, rfl, fun hf => (by cases hf)⟩⟩
    rcases hr : s.engine.control .commit with ⟨ok, engine⟩
    simp only [Store.control, hr]
    rcases hstate with hsome | hnone
    · have hcommit := Engine.control_commit hsome
      rw [hr] at hcommit
      rcases hcommit with ⟨hok, hc, htx⟩ | ⟨hok, hc⟩
      · cases hok
        refine ⟨⟨Outcome.noConfusion, fun _ => hc, fun hno => (by cases hno),
          ⟨rfl, h.savepoint, rfl, rfl, fun _ => ⟨htx, ?_⟩⟩⟩, ⟨rfl, rfl, rfl⟩⟩
        exact (hc : engine.committed = _) ▸ h.bounded
      · cases hok
        exact ⟨hlost engine (hc.imp (fun hc => hc.trans h.committed) id), ⟨rfl, rfl, rfl⟩⟩
    · have hcommit := Engine.control_commit_none hnone
      rw [hr] at hcommit
      obtain ⟨hok, hc⟩ := hcommit
      cases hok
      exact ⟨hlost engine (.inl (hc.trans h.committed)), ⟨rfl, rfl, rfl⟩⟩

/-- **A batch**, from a Store at rest. -/
theorem request_batch (h : Rests s) (writes : List (Write φ)) :
    ∃ rans finished, (s.request (.batch writes)).2 = .batch rans finished ∧
      Serial rans s.engine.committed ∧
      Finishes s rans finished (s.request (.batch writes)).1 ∧
      Logs s (commitsOf rans) (s.request (.batch writes)).1 ∧
      Grows s.engine.committed (s.request (.batch writes)).1.engine.committed := by
  have hstart : s.startBatch = (.ok, { s with batch := .ready }) := by
    simp [Store.startBatch, h.batch, h.savepoint]
  -- The writes leave the Store between writes, also where they were all refused.
  have hwrites : ∀ rans s', (Store.writes { s with batch := .ready } writes) = (rans, s') →
      Serial rans s.engine.committed ∧ Grows s.engine.committed (loose rans s.engine.committed) ∧
        Logs s (commitsOf rans) s' ∧ Finishes s rans s'.finishBatch.1 s'.finishBatch.2 ∧
        Logs s' [] s'.finishBatch.2 := by
    intro rans s' hr
    cases hfenced : s.fenced with
    | false =>
      obtain ⟨hnone, hbounded⟩ := h.idle hfenced
      have hsteady : Steady { s with batch := .ready } s.engine.committed s.engine.committed :=
        ⟨⟨rfl, h.savepoint, .refl _, hbounded, ⟨hnone, rfl, h.count, h.second⟩⟩,
          State.noConfusion, fun hopen => (nomatch hopen)⟩
      obtain ⟨hserial, hkeeps, hbetween, hlogs⟩ := writes_wrote (.of_steady hsteady) writes
      rw [hr] at hserial hkeeps hbetween hlogs
      exact ⟨hserial, hkeeps, ⟨hlogs.changes, hlogs.generation, hlogs.generations⟩,
        finishBatch_finishes hbetween⟩
    | true =>
      obtain ⟨hserial, hsame, hloose, hcommits, hstore⟩ :=
        writes_fenced (s := { s with batch := .ready }) hfenced writes s.engine.committed
      rw [hr] at hserial hsame hloose hcommits hstore
      subst hstore
      have hfinish : Store.finishBatch { s with batch := .ready } =
          (.ok, s.settleIdentities) := by
        simp [Store.finishBatch, Store.commitBatch, h.savepoint, Store.settleIdentities, h.batch]
      rw [hfinish, hloose, hcommits]
      exact ⟨hserial, .refl _, ⟨rfl, rfl, rfl⟩, ⟨Outcome.noConfusion, fun _ => hsame.symm,
        fun hno => (nomatch hno), ⟨h.batch, h.savepoint, rfl, rfl,
          fun hf => absurd (hf.symm.trans hfenced) Bool.noConfusion⟩⟩, ⟨rfl, rfl, rfl⟩⟩
  rcases hr : Store.writes { s with batch := .ready } writes with ⟨rans, s'⟩
  obtain ⟨hserial, hkeeps, hlogs, hfinishes, hlogs'⟩ := hwrites rans s' hr
  have hrequest : s.request (.batch writes) = (s'.finishBatch.2, .batch rans s'.finishBatch.1) := by
    simp only [Store.request, hstart, hr]
  rw [hrequest]
  refine ⟨rans, s'.finishBatch.1, rfl, hserial, hfinishes, ?_, ?_⟩
  · simpa using hlogs.trans hlogs'
  · cases hf : s'.finishBatch.1 with
    | ok =>
      rw [hfinishes.durable hf]
      exact hserial.grows
    | failed =>
      rcases (hfinishes.lost hf).2 with hc | hc
      · rw [hc]
        exact hkeeps
      · rw [hc]
        exact hserial.grows
    | panic => exact absurd hf hfinishes.checked

/-! ## The Host's requests -/

/-- What the ring heard over a history. -/
def heard (past : List (Machine.Step (Store φ) (Store.Request φ) (Store.Reply φ))) : List Commit :=
  past.flatMap fun e =>
    match e.reply with
    | .batch rans _ => commitsOf rans
    | _ => []

theorem rests_opened (d : Db φ) (luck : List Luck) (sessions : Vector Id capacity)
    (workspaces : Vector UInt64 capacity) : Rests (Store.opened d luck sessions workspaces) :=
  ⟨rfl, rfl, rfl, rfl, fun _ => ⟨rfl, bounded_ceiling d⟩⟩

theorem request_rests (h : Rests s) (op : Store.Request φ) :
    Rests (s.request op).1 ∧ Logs s (heard [(Store.machine φ).stepFrom s op]) (s.request op).1 ∧
      Grows s.engine.committed (s.request op).1.engine.committed := by
  cases op with
  | read =>
    have hread : s.request .read = (s, if s.fenced then .fenced
        else .snapshot s.commitGeneration s.engine.view) := by
      dsimp only [Store.request]
      split <;> rfl
    have hheard : heard [(Store.machine φ).stepFrom s .read] = [] := by
      have hreply : ((Store.machine φ).stepFrom s .read).reply = if s.fenced then .fenced
          else .snapshot s.commitGeneration s.engine.view := congrArg Prod.snd hread
      simp only [heard, List.flatMap_cons, List.flatMap_nil, List.append_nil, hreply]
      cases s.fenced <;> rfl
    rw [hread, hheard]
    exact ⟨h, .refl s, .refl _⟩
  | batch writes =>
    obtain ⟨rans, finished, hreply, _, hfinishes, hlogs, hgrows⟩ := request_batch h writes
    have hheard : heard [(Store.machine φ).stepFrom s (.batch writes)] = commitsOf rans := by
      have hreply' : ((Store.machine φ).stepFrom s (.batch writes)).reply = .batch rans finished :=
        hreply
      unfold heard
      simp only [List.flatMap_cons, List.flatMap_nil, List.append_nil, hreply']
    rw [hheard]
    exact ⟨hfinishes.rests, hlogs, hgrows⟩

/-- A ring that heard of a commit after `since` answers that its Sessions may have changed. -/
theorem mayHaveChanged_of_heard {sessions : Vector Id capacity}
    {workspaces : Vector UInt64 capacity}
    (ordered : commits.Pairwise fun a b => a.generation ≤ b.generation) (hmem : commit ∈ commits)
    {since through : Nat} (hsince : since < commit.generation)
    (hthrough : commit.generation ≤ through) {session : Id} (htouch : commit.Touches none session) :
    ((Ring.init sessions workspaces).run commits).mayHaveChanged session since through = true := by
  have h := tracks_run sessions workspaces commits
  cases hc : ((Ring.init sessions workspaces).run commits).covers since with
  | false => simp [Ring.mayHaveChanged, hc]
  | true =>
    rw [h.mayHaveChanged_iff (log_ordered ordered) hc]
    have hwithin : TouchedWithin commits since through none session :=
      ⟨commit, hmem, hsince, hthrough, htouch⟩
    obtain ⟨slot, hslot, hs, ht, hsession, _⟩ := (h.touchedWithin_iff hc through none session).mp hwithin
    exact ⟨slot, hslot, hs, ht, hsession⟩

/-- Commits heard under consecutive generations come in their order. -/
theorem Logs.ordered (h : Logs s commits s') :
    commits.Pairwise fun a b => a.generation ≤ b.generation := by
  have hrange := List.pairwise_le_range' (s := s.commitGeneration + 1) (n := commits.length)
  rw [← h.generations, List.pairwise_map] at hrange
  exact hrange

/-- A commit heard is under a generation the Store counted. -/
theorem Logs.generation_mem (h : Logs s commits s') (hmem : commit ∈ commits) :
    s.commitGeneration < commit.generation ∧ commit.generation ≤ s'.commitGeneration := by
  have hin : commit.generation ∈ commits.map Commit.generation := List.mem_map_of_mem hmem
  rw [h.generations, List.mem_range'_1] at hin
  rw [h.generation]
  omega

/-- A step of the Host. -/
abbrev Served (φ : Type) := Machine.Step (Store φ) (Store.Request φ) (Store.Reply φ)

/-- What holds after every history: the ring heard all of it, and the rows and generations of the
past are behind. -/
structure Past (s : Store φ) (past : List (Served φ)) (now : Store φ) : Prop where
  rests : Rests now
  logs : Logs s (heard past) now
  rows : ∀ p ∈ past, Grows p.after.engine.committed now.engine.committed
  snapshots : ∀ p ∈ past, ∀ generation rows, p.reply = .snapshot generation rows →
    generation ≤ now.commitGeneration

theorem past_history (h : Rests s) (requests : List (Store.Request φ)) :
    Past s ((Store.machine φ).history s requests) ((Store.machine φ).last s requests) := by
  apply (Store.machine φ).history_induction (P := Past s)
  · exact ⟨h, .refl s, fun _ hp => (nomatch hp), fun _ hp => (nomatch hp)⟩
  · intro past now op hpast
    obtain ⟨hrests, hlogs, hgrows⟩ := request_rests hpast.rests op
    have hheard : heard (past ++ [(Store.machine φ).stepFrom now op]) =
        heard past ++ heard [(Store.machine φ).stepFrom now op] := List.flatMap_append
    have hle : now.commitGeneration ≤ (now.request op).1.commitGeneration :=
      hlogs.generation ▸ Nat.le_add_right _ _
    refine ⟨hrests, hheard ▸ hpast.logs.trans hlogs, fun p hp => ?_, fun p hp g rows hreply => ?_⟩
    · rcases List.mem_append.mp hp with hp | hp
      · exact (hpast.rows p hp).trans hgrows
      · rw [List.mem_singleton.mp hp]
        exact .refl _
    · rcases List.mem_append.mp hp with hp | hp
      · exact Nat.le_trans (hpast.snapshots p hp g rows hreply) hle
      · rw [List.mem_singleton.mp hp] at hreply
        have hg : g = now.commitGeneration := by
          cases op with
          | read =>
            have hread : (now.request .read).2 = .snapshot g rows := hreply
            dsimp only [Store.request] at hread
            split at hread
            · cases hread
            · cases hread
              rfl
          | batch writes =>
            obtain ⟨rans, finished, hbatch, _⟩ := request_batch hpast.rests writes
            exact nomatch (hbatch.symm.trans hreply)
        rw [hg]
        exact hle

/-- What the ring heard up to a step, of that step and those before it. -/
theorem logs_of_mem (h : Rests s) {requests : List (Store.Request φ)}
    {past future : List (Served φ)} {e f : Served φ}
    (hhistory : (Store.machine φ).history s requests = past ++ e :: future) (hf : f ∈ e :: future) :
    ∃ before, e ∈ before ∧ Logs s (heard before) f.after := by
  obtain ⟨between, later, hsplit⟩ := List.append_of_mem hf
  rw [hsplit, ← List.append_assoc] at hhistory
  obtain ⟨before, op, _, _, hpast, rfl⟩ := (Store.machine φ).history_split hhistory
  refine ⟨past ++ between ++ [(Store.machine φ).stepFrom ((Store.machine φ).last s before) op], ?_, ?_⟩
  · cases between with
    | nil =>
      rw [List.nil_append, List.cons.injEq] at hsplit
      simp [hsplit.1]
    | cons first between =>
      rw [List.cons_append, List.cons.injEq] at hsplit
      simp [hsplit.1]
  · have hlater := (past_history h (before ++ [op])).logs
    rw [(Store.machine φ).history_append, (Store.machine φ).last_append, ← hpast] at hlater
    exact hlater

theorem Serial.at {earlier later : List (Ran φ)} {ran : Ran φ}
    (h : Serial (earlier ++ ran :: later) d) :
    ran.answer ≠ .panicked ∧ (∀ saw, ran.saw = some saw → saw = serial earlier d) ∧
      (∀ column, ∀ id ∈ ran.handed column, id ∉ (serial earlier d).ids column) ∧
      Grows d (serial earlier d) ∧
      (ran.recorded = none → ran.after (serial earlier d) = serial earlier d) := by
  induction earlier generalizing d with
  | nil =>
    cases h with
    | cons checked saw fresh adds heard _ => exact ⟨checked, saw, fresh, .refl d, heard⟩
  | cons first earlier ih =>
    cases h with
    | cons _ _ _ adds _ rest =>
      obtain ⟨hchecked, hsaw, hfresh, hgrows, hheard⟩ := ih rest
      exact ⟨hchecked, hsaw, hfresh, adds.trans hgrows, hheard⟩

/-- **Batches of writes.** In any run of reads and batches on a Store just opened, whatever the
engine refuses, undoes or leaves unheard: no assertion is met; a batch that finished is its
committed writes one after another, and one that did not fences the Store and leaves either those
writes or only the ones that had committed themselves; each write found what the committed writes
before it left, with identities no row had; and the ring heard of every write that changed rows
under a generation that no earlier snapshot has, and says so from then on. -/
theorem batch_laws (d : Db φ) (luck : List Luck) (sessions : Vector Id capacity)
    (workspaces : Vector UInt64 capacity) (requests : List (Store.Request φ)) :
    ∀ past e future, (Store.machine φ).history (Store.opened d luck sessions workspaces) requests =
        past ++ e :: future → ∀ writes, e.op = .batch writes →
      ∃ rans finished, e.reply = .batch rans finished ∧
        finished ≠ .panic ∧ (∀ ran ∈ rans, ran.answer ≠ .panicked) ∧
        (finished = .ok →
          e.after.engine.committed = serial rans e.before.engine.committed) ∧
        (finished = .failed → e.after.fenced = true ∧
          (e.after.engine.committed = loose rans e.before.engine.committed ∨
            e.after.engine.committed = serial rans e.before.engine.committed)) ∧
        ∀ earlier ran later, rans = earlier ++ ran :: later →
          let found := serial earlier e.before.engine.committed
          (∀ saw, ran.saw = some saw → saw = found) ∧
          (∀ column, ∀ id ∈ ran.handed column, id ∉ found.ids column ∧
            ∀ p ∈ past, id ∉ p.after.engine.committed.ids column) ∧
          (ran.after found ≠ found → ∃ commit, ran.recorded = some commit ∧
            ∀ p ∈ past, ∀ generation rows, p.reply = .snapshot generation rows →
              generation < commit.generation ∧
              ∀ f ∈ e :: future, ∀ session, commit.Touches none session →
                f.after.changes.mayHaveChanged session generation f.after.commitGeneration =
                  true) := by
  intro past e future hhistory writes hop
  have hrests := rests_opened d luck sessions workspaces
  obtain ⟨before, op, after, hops, hpast, he⟩ := (Store.machine φ).history_split hhistory
  have hbefore := past_history hrests before
  rw [← hpast] at hbefore
  subst he
  have hop : op = .batch writes := hop
  subst hop
  obtain ⟨rans, finished, hreply, hserial, hfinishes, hlogs, _⟩ := request_batch hbefore.rests writes
  refine ⟨rans, finished, hreply, hfinishes.checked, fun ran hran => ?_, hfinishes.durable,
    hfinishes.lost, fun earlier ran later hrans => ?_⟩
  · obtain ⟨earlier, later, rfl⟩ := List.append_of_mem hran
    exact hserial.at.1
  · subst hrans
    obtain ⟨_, hsaw, hfresh, hgrows, hheard⟩ := hserial.at
    refine ⟨hsaw, fun column id hid => ⟨hfresh column id hid, fun p hp hin => ?_⟩, fun hchanged => ?_⟩
    · exact hfresh column id hid (hgrows column id (hbefore.rows p hp column id hin))
    · cases hrecorded : ran.recorded with
      | none => exact absurd (hheard hrecorded) hchanged
      | some commit =>
        have hmem : commit ∈ commitsOf (earlier ++ ran :: later) :=
          List.mem_flatMap.mpr ⟨ran, by simp, by simp [hrecorded]⟩
        have hnew := (hlogs.generation_mem hmem).1
        refine ⟨commit, rfl, fun p hp generation rows hsnapshot => ?_⟩
        have hold := hbefore.snapshots p hp generation rows hsnapshot
        refine ⟨Nat.lt_of_le_of_lt hold hnew, fun f hf session htouch => ?_⟩
        obtain ⟨all, hin, hlater⟩ := logs_of_mem hrests hhistory hf
        have hheard : commit ∈ heard all := by
          refine List.mem_flatMap.mpr ⟨_, hin, ?_⟩
          have hreply' : ((Store.machine φ).stepFrom
              ((Store.machine φ).last (Store.opened d luck sessions workspaces) before)
              (.batch writes)).reply = .batch (earlier ++ ran :: later) finished := hreply
          rw [hreply']
          exact hmem
        rw [hlater.changes]
        exact mayHaveChanged_of_heard hlater.ordered hheard (Nat.lt_of_le_of_lt hold hnew)
          (hlater.generation_mem hheard).2 htouch

/-- A change that adds a fact. -/
def addFact (fact : Nat) : Change (List Nat) where
  run _ d := ({ d with facts := d.facts ++ [fact] }, 1)
  keeps _ _ _ _ h := h
  takes _ _ _ _ h := .inl h
  still _ _ h := (nomatch h)

/-- Six writes of a batch: the second is abandoned, the third errs, the release of the fifth is
refused and fences the Store for the sixth. -/
def mixedWrites (session : Changes.Id) : List (Write (List Nat)) :=
  [.access [.touch ⟨session, 1⟩, .identity .turnId, .change (addFact 2)] .commit,
    .access [.identity .contentId, .change (addFact 3)] .abandon,
    .access [.change (addFact 5)] (.error true),
    .access [.read, .identity .contentId, .change (addFact 7)] .commit,
    .access [.change (addFact 11)] .commit,
    .access [.change (addFact 13)] .commit]

/-- Of the six, the committed ones are durable, the fifth found them, and the ring says of the first
that its Session changed. -/
theorem batch_laws_heard :
    let session : Changes.Id := Vector.replicate idBytes 0
    let s := Store.opened (φ := List Nat) ⟨fun _ => [], []⟩ (List.replicate 21 .done ++ [.refused])
      (Vector.replicate capacity session) (Vector.replicate capacity 0)
    let e := (Store.machine (List Nat)).stepFrom s (.batch (mixedWrites session))
    ∃ rans, e.reply = .batch rans .ok ∧ rans.map Ran.answer =
        [.committed, .abandoned, .failed, .committed, .failed, .failed] ∧
      e.after.fenced = true ∧ e.after.engine.committed.facts = [2, 7] ∧
      (∀ ran saw, rans[4]? = some ran → ran.saw = some saw → saw.facts = [2, 7]) ∧
      e.after.changes.mayHaveChanged session 0 e.after.commitGeneration = true := by
  intro session s e
  obtain ⟨rans, finished, hreply, _, _, hdurable, _, hran⟩ :=
    batch_laws (φ := List Nat) ⟨fun _ => [], []⟩ (List.replicate 21 .done ++ [.refused])
      (Vector.replicate capacity session) (Vector.replicate capacity 0) [.read, e.op]
      [(Store.machine (List Nat)).stepFrom s .read] e [] rfl _ rfl
  cases hreply
  refine ⟨_, rfl, rfl, rfl, congrArg Db.facts (hdurable rfl), fun ran saw hfifth hsaw => ?_, ?_⟩
  · obtain ⟨hfound, -, -⟩ := hran [_, _, _, _] ran [_] (by cases hfifth; rfl)
    exact congrArg Db.facts (hfound saw hsaw)
  · obtain ⟨-, -, hheard⟩ := hran [] _ [_, _, _, _, _] rfl
    obtain ⟨commit, hrecorded, htold⟩ := hheard fun hsame => by
      have hfacts : ([2] : List Nat) = [] := congrArg Db.facts hsame
      cases hfacts
    cases hrecorded
    refine (htold _ List.mem_cons_self 0 _ rfl).2 e List.mem_cons_self session ?_
    exact .inr ⟨⟨session, 1⟩, by decide, rfl, fun _ hkey => (nomatch hkey)⟩
/-- A statement that commits itself, then a write whose batch does not commit: the batch leaves the
first change and not the second. -/
theorem batch_laws_single :
    let session : Changes.Id := Vector.replicate idBytes 0
    let s := Store.opened (φ := List Nat) ⟨fun _ => [], []⟩
      [.done, .done, .done, .done, .refused] (Vector.replicate capacity session)
      (Vector.replicate capacity 0)
    let r := s.request (.batch [.single true (addFact 1) (fun _ => Nat.le_refl 1),
      .access [.change (addFact 2)] .commit])
    ∃ rans, r.2 = .batch rans .failed ∧ rans.map Ran.answer = [.committed, .committed] ∧
      r.1.engine.committed ≠ s.engine.committed ∧
      r.1.engine.committed ≠ serial rans s.engine.committed := by
  intro session s r
  refine ⟨_, rfl, rfl, fun h => ?_, fun h => ?_⟩
  · have hfacts : ([1] : List Nat) = [] := congrArg Db.facts h
    cases hfacts
  · have hfacts : ([1] : List Nat) = [1, 2] := congrArg Db.facts h
    cases hfacts

end Rui.Batch
