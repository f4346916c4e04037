import Mathlib

/-!
# An engine with one transaction

A database that one connection changes: statements outside a transaction are
their own, inside one they wait for its commit, and one savepoint marks a state
to go back to. Any request may fail, and an engine may roll the whole
transaction back by itself, or commit and lose the answer.
-/

namespace Library

universe u

/-- How a request turns out. -/
inductive Luck
  | done
  /-- It fails and changes nothing. -/
  | refused
  /-- It fails, and the whole transaction is rolled back. -/
  | undone
  /-- Its answer is lost: a commit happened, anything else did not. -/
  | unheard
  deriving DecidableEq, Repr

/-- Transaction control. -/
inductive Control
  | begin
  | commit
  | rollback
  | savepoint
  | release
  | rollbackTo
  deriving DecidableEq, Repr

/-- An open transaction: what it sees, and what its savepoint saved. -/
structure Transaction (δ : Type u) where
  current : δ
  saved : Option δ

/-- A database and its connection. What the next requests meet is `luck`; those after it are
done. -/
structure Engine (δ : Type u) where
  committed : δ
  transaction : Option (Transaction δ) := none
  /-- Advances with every row changed, rolled back or not. -/
  totalChanges : Nat := 0
  luck : List Luck := []

namespace Engine

variable {δ : Type u}

def inTransaction (e : Engine δ) : Bool := e.transaction.isSome

/-- What a statement sees. -/
def view (e : Engine δ) : δ :=
  match e.transaction with
  | none => e.committed
  | some t => t.current

/-- What the next request meets. -/
def draw (e : Engine δ) : Luck × Engine δ :=
  match e.luck with
  | [] => (.done, e)
  | luck :: rest => (luck, { e with luck := rest })

/-- A request that failed. -/
def fail (e : Engine δ) (luck : Luck) : Engine δ :=
  match luck with
  | .undone => { e with transaction := none }
  | _ => e

/-- Transaction control, as the engine means it. -/
def obey (e : Engine δ) (which : Control) : Bool × Engine δ :=
  match which, e.transaction with
  | .begin, none => (true, { e with transaction := some ⟨e.committed, none⟩ })
  | .savepoint, some t => (true, { e with transaction := some { t with saved := some t.current } })
  | .release, some ⟨current, some _⟩ => (true, { e with transaction := some ⟨current, none⟩ })
  | .rollbackTo, some ⟨_, some saved⟩ => (true, { e with transaction := some ⟨saved, some saved⟩ })
  | .rollback, some _ => (true, { e with transaction := none })
  | .commit, some t => (true, { e with committed := t.current, transaction := none })
  | _, _ => (false, e)

/-- Runs a transaction control, and answers whether it did. -/
def control (e : Engine δ) (which : Control) : Bool × Engine δ :=
  match e.draw with
  | (.done, e) => e.obey which
  | (.unheard, e) => (false, if which = .commit then (e.obey which).2 else e)
  | (luck, e) => (false, e.fail luck)

/-- A statement that changes nothing. -/
def read (e : Engine δ) : Bool × Engine δ :=
  match e.draw with
  | (.done, e) => (true, e)
  | (luck, e) => (false, e.fail luck)

/-- What a statement does: the database after it, and the rows it changed. -/
def apply (e : Engine δ) (change : δ → δ × Nat) : Engine δ :=
  let e := { e with totalChanges := e.totalChanges + (change e.view).2 }
  match e.transaction with
  | none => { e with committed := (change e.committed).1 }
  | some t => { e with transaction := some { t with current := (change t.current).1 } }

/-- A statement that may change rows. -/
def write (e : Engine δ) (change : δ → δ × Nat) : Bool × Engine δ :=
  match e.draw with
  | (.done, e) => (true, e.apply change)
  | (luck, e) => (false, e.fail luck)

/-! ## What a request can do

Each lemma says it without the luck: it is used up one by one and nothing else reads it. -/

theorem draw_same (e : Engine δ) : e.draw.2.committed = e.committed ∧
    e.draw.2.transaction = e.transaction ∧ e.draw.2.totalChanges = e.totalChanges := by
  unfold draw
  split <;> exact ⟨rfl, rfl, rfl⟩

theorem fail_same (e : Engine δ) (luck : Luck) : (e.fail luck).committed = e.committed ∧
    ((e.fail luck).transaction = e.transaction ∨ (e.fail luck).transaction = none) ∧
      (e.fail luck).totalChanges = e.totalChanges := by
  cases luck <;> simp [fail]

/-- A request that failed without effect, or with the transaction gone. -/
def Failed (e e' : Engine δ) : Prop :=
  e'.committed = e.committed ∧ (e'.transaction = e.transaction ∨ e'.transaction = none) ∧
    e'.totalChanges = e.totalChanges

theorem failed_draw (e : Engine δ) (luck : Luck) : Failed e (e.draw.2.fail luck) := by
  obtain ⟨hc, ht, hn⟩ := draw_same e
  obtain ⟨hc', ht', hn'⟩ := fail_same e.draw.2 luck
  exact ⟨hc'.trans hc, by rwa [ht] at ht', hn'.trans hn⟩

/-- Only a commit changes what is committed. -/
theorem obey_committed (e : Engine δ) {which : Control} (h : which ≠ .commit) :
    (e.obey which).2.committed = e.committed := by
  obtain ⟨committed, transaction, changes, luck⟩ := e
  cases which <;> rcases transaction with _ | ⟨current, _ | saved⟩ <;>
    first | rfl | exact absurd rfl h

variable {e : Engine δ} {t : Transaction δ} {current saved : δ}

theorem obey_begin (h : e.transaction = none) :
    e.obey .begin = (true, { e with transaction := some ⟨e.committed, none⟩ }) := by
  cases e
  cases h
  rfl

theorem obey_savepoint (h : e.transaction = some t) : e.obey .savepoint =
      (true, { e with transaction := some { t with saved := some t.current } }) := by
  cases e
  cases h
  rfl

theorem obey_release (h : e.transaction = some ⟨current, some saved⟩) :
    e.obey .release = (true, { e with transaction := some ⟨current, none⟩ }) := by
  cases e
  cases h
  rfl

theorem obey_rollbackTo (h : e.transaction = some ⟨current, some saved⟩) :
    e.obey .rollbackTo = (true, { e with transaction := some ⟨saved, some saved⟩ }) := by
  cases e
  cases h
  rfl

theorem obey_rollback (h : e.transaction = some t) :
    e.obey .rollback = (true, { e with transaction := none }) := by
  cases e
  cases h
  rfl

theorem obey_commit (h : e.transaction = some t) :
    e.obey .commit = (true, { e with committed := t.current, transaction := none }) := by
  cases e
  cases h
  rfl

theorem obey_commit_none (h : e.transaction = none) : e.obey .commit = (false, e) := by
  cases e
  cases h
  rfl

theorem obey_totalChanges (e : Engine δ) (which : Control) :
    (e.obey which).2.totalChanges = e.totalChanges := by
  obtain ⟨committed, transaction, changes, luck⟩ := e
  cases which <;> rcases transaction with _ | ⟨current, _ | saved⟩ <;> rfl

/-- A transaction control does what it means, or fails; a commit may happen and fail. -/
theorem control_cases (e : Engine δ) (which : Control) :
    (∃ e₀ : Engine δ, e₀.committed = e.committed ∧ e₀.transaction = e.transaction ∧
      e₀.totalChanges = e.totalChanges ∧ (e.control which = e₀.obey which ∨
        which = .commit ∧ e.control which = (false, (e₀.obey which).2))) ∨
    (e.control which).1 = false ∧ Failed e (e.control which).2 := by
  have hsame := draw_same e
  have hfailed := failed_draw e
  unfold control
  cases hd : e.draw with
  | mk luck e₀ =>
    rw [hd] at hsame hfailed
    cases luck with
    | done => exact .inl ⟨e₀, hsame.1, hsame.2.1, hsame.2.2, .inl rfl⟩
    | refused => exact .inr ⟨rfl, hfailed .refused⟩
    | undone => exact .inr ⟨rfl, hfailed .undone⟩
    | unheard =>
      by_cases hw : which = .commit
      · exact .inl ⟨e₀, hsame.1, hsame.2.1, hsame.2.2, .inr ⟨hw, by simp [hw]⟩⟩
      · refine .inr ⟨rfl, ?_⟩
        simp only [hw, if_false]
        exact hfailed .refused

theorem control_totalChanges (e : Engine δ) (which : Control) :
    (e.control which).2.totalChanges = e.totalChanges := by
  rcases control_cases e which with ⟨e₀, _, _, hn, heq | ⟨_, heq⟩⟩ | ⟨_, _, _, hn⟩
  · rw [heq, obey_totalChanges, hn]
  · rw [heq, obey_totalChanges, hn]
  · exact hn

theorem control_committed (e : Engine δ) {which : Control} (h : which ≠ .commit) :
    (e.control which).2.committed = e.committed := by
  rcases control_cases e which with ⟨e₀, hc, _, _, heq | ⟨hw, _⟩⟩ | ⟨_, hc, _⟩
  · rw [heq, obey_committed e₀ h, hc]
  · exact absurd hw h
  · exact hc

theorem control_begin (h : e.transaction = none) : (e.control .begin).2.committed = e.committed ∧
      ((e.control .begin).1 = true ∧
          (e.control .begin).2.transaction = some ⟨e.committed, none⟩ ∨
        (e.control .begin).1 = false ∧ (e.control .begin).2.transaction = none) := by
  rcases control_cases e .begin with ⟨e₀, hc, ht, _, heq | ⟨hw, _⟩⟩ | ⟨hok, hc, ht, _⟩
  · rw [h] at ht
    rw [heq, obey_begin ht]
    exact ⟨hc, .inl ⟨rfl, by rw [hc]⟩⟩
  · cases hw
  · rw [h, or_self] at ht
    exact ⟨hc, .inr ⟨hok, ht⟩⟩

theorem control_savepoint (h : e.transaction = some t) :
    (e.control .savepoint).2.committed = e.committed ∧
      ((e.control .savepoint).1 = true ∧
          (e.control .savepoint).2.transaction = some ⟨t.current, some t.current⟩ ∨
        (e.control .savepoint).1 = false ∧ ((e.control .savepoint).2.transaction = some t ∨
          (e.control .savepoint).2.transaction = none)) := by
  rcases control_cases e .savepoint with ⟨e₀, hc, ht, _, heq | ⟨hw, _⟩⟩ | ⟨hok, hc, ht, _⟩
  · rw [h] at ht
    rw [heq, obey_savepoint ht]
    exact ⟨hc, .inl ⟨rfl, rfl⟩⟩
  · cases hw
  · rw [h] at ht
    exact ⟨hc, .inr ⟨hok, ht⟩⟩

theorem control_release (h : e.transaction = some ⟨current, some saved⟩) :
    (e.control .release).2.committed = e.committed ∧
      ((e.control .release).1 = true ∧
          (e.control .release).2.transaction = some ⟨current, none⟩ ∨
        (e.control .release).1 = false ∧
          ((e.control .release).2.transaction = some ⟨current, some saved⟩ ∨
            (e.control .release).2.transaction = none)) := by
  rcases control_cases e .release with ⟨e₀, hc, ht, _, heq | ⟨hw, _⟩⟩ | ⟨hok, hc, ht, _⟩
  · rw [h] at ht
    rw [heq, obey_release ht]
    exact ⟨hc, .inl ⟨rfl, rfl⟩⟩
  · cases hw
  · rw [h] at ht
    exact ⟨hc, .inr ⟨hok, ht⟩⟩

theorem control_rollbackTo (h : e.transaction = some ⟨current, some saved⟩) :
    (e.control .rollbackTo).2.committed = e.committed ∧
      ((e.control .rollbackTo).1 = true ∧
          (e.control .rollbackTo).2.transaction = some ⟨saved, some saved⟩ ∨
        (e.control .rollbackTo).1 = false) := by
  rcases control_cases e .rollbackTo with ⟨e₀, hc, ht, _, heq | ⟨hw, _⟩⟩ | ⟨hok, hc, _, _⟩
  · rw [h] at ht
    rw [heq, obey_rollbackTo ht]
    exact ⟨hc, .inl ⟨rfl, rfl⟩⟩
  · cases hw
  · exact ⟨hc, .inr hok⟩

theorem control_rollback (h : e.transaction = some t) :
    (e.control .rollback).2.committed = e.committed ∧
      ((e.control .rollback).1 = true ∧ (e.control .rollback).2.transaction = none ∨
        (e.control .rollback).1 = false ∧ ((e.control .rollback).2.transaction = some t ∨
          (e.control .rollback).2.transaction = none)) := by
  rcases control_cases e .rollback with ⟨e₀, hc, ht, _, heq | ⟨hw, _⟩⟩ | ⟨hok, hc, ht, _⟩
  · rw [h] at ht
    rw [heq, obey_rollback ht]
    exact ⟨hc, .inl ⟨rfl, rfl⟩⟩
  · cases hw
  · rw [h] at ht
    exact ⟨hc, .inr ⟨hok, ht⟩⟩

theorem control_commit (h : e.transaction = some t) :
    (e.control .commit).1 = true ∧ (e.control .commit).2.committed = t.current ∧
        (e.control .commit).2.transaction = none ∨
      (e.control .commit).1 = false ∧ ((e.control .commit).2.committed = e.committed ∨
        (e.control .commit).2.committed = t.current) := by
  rcases control_cases e .commit with ⟨e₀, hc, ht, _, heq | ⟨_, heq⟩⟩ | ⟨hok, hc, _, _⟩
  · rw [h] at ht
    rw [heq, obey_commit ht]
    exact .inl ⟨rfl, rfl, rfl⟩
  · rw [h] at ht
    rw [heq, obey_commit ht]
    exact .inr ⟨rfl, .inr rfl⟩
  · exact .inr ⟨hok, .inl hc⟩

theorem control_commit_none (h : e.transaction = none) :
    (e.control .commit).1 = false ∧ (e.control .commit).2.committed = e.committed := by
  rcases control_cases e .commit with ⟨e₀, hc, ht, _, heq | ⟨_, heq⟩⟩ | ⟨hok, hc, _, _⟩
  · rw [h] at ht
    rw [heq, obey_commit_none ht]
    exact ⟨rfl, hc⟩
  · rw [h] at ht
    rw [heq, obey_commit_none ht]
    exact ⟨rfl, hc⟩
  · exact ⟨hok, hc⟩

theorem read_cases (e : Engine δ) :
    ((e.read).1 = true ∧ (e.read).2.committed = e.committed ∧
        (e.read).2.transaction = e.transaction ∧ (e.read).2.totalChanges = e.totalChanges) ∨
      (e.read).1 = false ∧ Failed e (e.read).2 := by
  have hsame := draw_same e
  have hfailed := failed_draw e
  unfold read
  cases hd : e.draw with
  | mk luck e₀ =>
    rw [hd] at hsame hfailed
    cases luck with
    | done => exact .inl ⟨rfl, hsame⟩
    | refused => exact .inr ⟨rfl, hfailed .refused⟩
    | undone => exact .inr ⟨rfl, hfailed .undone⟩
    | unheard => exact .inr ⟨rfl, hfailed .unheard⟩

theorem write_cases (e : Engine δ) (change : δ → δ × Nat) :
    (∃ e₀ : Engine δ, e₀.committed = e.committed ∧ e₀.transaction = e.transaction ∧
      e₀.totalChanges = e.totalChanges ∧ e.write change = (true, e₀.apply change)) ∨
      (e.write change).1 = false ∧ Failed e (e.write change).2 := by
  have hsame := draw_same e
  have hfailed := failed_draw e
  unfold write
  cases hd : e.draw with
  | mk luck e₀ =>
    rw [hd] at hsame hfailed
    cases luck with
    | done => exact .inl ⟨e₀, hsame.1, hsame.2.1, hsame.2.2, rfl⟩
    | refused => exact .inr ⟨rfl, hfailed .refused⟩
    | undone => exact .inr ⟨rfl, hfailed .undone⟩
    | unheard => exact .inr ⟨rfl, hfailed .unheard⟩

end Engine

end Library
