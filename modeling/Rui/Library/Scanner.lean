import Mathlib

/-!
# Scanners

A machine that reads one element at a time and goes on, ends or refuses. What a word does to it
follows from its parts, and a word that ends it is one that none of its proper beginnings end.
-/

namespace Library

universe u v w

variable {σ : Type u} {α : Type v} {δ : Type w}

/-- What one element does. -/
inductive Scanned (σ : Type u) (δ : Type w)
  | goes (s : σ)
  | done (d : δ)
  | malformed
  deriving DecidableEq, Repr

/-- What a word does: it may end after some of its elements. -/
inductive Scanning (σ : Type u) (δ : Type w)
  | goes (s : σ)
  | done (d : δ) (used : Nat)
  | malformed
  deriving DecidableEq, Repr

namespace Scanning

/-- The same, with elements before. -/
def after (before : Nat) : Scanning σ δ → Scanning σ δ
  | .goes s => .goes s
  | .done d used => .done d (before + used)
  | .malformed => .malformed

@[simp] theorem after_goes (before : Nat) (s : σ) :
    (goes s : Scanning σ δ).after before = .goes s := rfl

@[simp] theorem after_done (before used : Nat) (d : δ) :
    (done d used : Scanning σ δ).after before = .done d (before + used) := rfl

@[simp] theorem after_malformed (before : Nat) :
    (malformed : Scanning σ δ).after before = .malformed := rfl

theorem after_zero (x : Scanning σ δ) : x.after 0 = x := by
  cases x <;> simp

theorem after_after (m n : Nat) (x : Scanning σ δ) : (x.after m).after n = x.after (n + m) := by
  cases x <;> simp [Nat.add_assoc]

end Scanning

variable (read : σ → α → Scanned σ δ)

/-- Reads a word until it ends or is refused. -/
def scan (s : σ) : List α → Scanning σ δ
  | [] => .goes s
  | a :: word =>
    match read s a with
    | .goes s' => (scan s' word).after 1
    | .done d => .done d 1
    | .malformed => .malformed

@[simp] theorem scan_nil (s : σ) : scan read s [] = .goes s := rfl

variable {read} {s s' : σ} {front back : List α}

theorem scan_cons {a : α} {word : List α} (h : read s a = .goes s') :
    scan read s (a :: word) = (scan read s' word).after 1 := by
  rw [scan, h]

theorem scan_goes (h : scan read s front = .goes s') :
    scan read s (front ++ back) = (scan read s' back).after front.length := by
  induction front generalizing s with
  | nil =>
    cases h
    rw [List.nil_append, List.length_nil, Scanning.after_zero]
  | cons a front ih =>
    rw [scan] at h
    cases hread : read s a with
    | goes t =>
      rw [hread] at h
      cases hrest : scan read t front with
      | goes t' =>
        simp only [hrest, Scanning.after_goes] at h
        rw [List.cons_append, scan_cons hread, ih (hrest.trans h), Scanning.after_after,
          List.length_cons, Nat.add_comm]
      | done d used =>
        simp only [hrest] at h
        cases h
      | malformed =>
        simp only [hrest] at h
        cases h
    | done d =>
      rw [hread] at h
      cases h
    | malformed =>
      rw [hread] at h
      cases h

theorem scan_done {s : σ} {front back : List α} {d : δ} {used : Nat}
    (h : scan read s front = .done d used) :
    scan read s (front ++ back) = .done d used ∧ used ≤ front.length ∧ 1 ≤ used := by
  induction front generalizing s used with
  | nil => cases h
  | cons a front ih =>
    rw [scan] at h
    rw [List.cons_append, scan]
    cases hread : read s a with
    | goes t =>
      rw [hread] at h
      cases hrest : scan read t front with
      | goes t' =>
        simp only [hrest] at h
        cases h
      | done d' used' =>
        simp only [hrest, Scanning.after_done] at h
        cases h
        obtain ⟨hscan, hle, hpos⟩ := ih hrest
        simp only [hscan, Scanning.after_done, List.length_cons]
        exact ⟨trivial, by omega, by omega⟩
      | malformed =>
        simp only [hrest] at h
        cases h
    | done d' =>
      rw [hread] at h
      cases h
      exact ⟨rfl, by simp, le_rfl⟩
    | malformed =>
      rw [hread] at h
      cases h

theorem scan_malformed (h : scan read s front = .malformed) :
    scan read s (front ++ back) = .malformed := by
  induction front generalizing s with
  | nil => cases h
  | cons a front ih =>
    rw [scan] at h
    rw [List.cons_append, scan]
    cases hread : read s a with
    | goes t =>
      rw [hread] at h
      cases hrest : scan read t front with
      | goes t' =>
        simp only [hrest] at h
        cases h
      | done d used =>
        simp only [hrest] at h
        cases h
      | malformed => simp only [ih hrest, Scanning.after_malformed]
    | done d =>
      rw [hread] at h
      cases h
    | malformed => rfl

/-- **A word that ends at its last element** goes on at each of its proper beginnings. -/
theorem goes_of_done {d : δ} (h : scan read s (front ++ back) = .done d (front ++ back).length)
    (hback : back ≠ []) : ∃ s', scan read s front = .goes s' := by
  cases hfront : scan read s front with
  | goes s' => exact ⟨s', rfl⟩
  | done d' used =>
    obtain ⟨hscan, hle, -⟩ := @scan_done _ _ _ _ _ _ back _ _ hfront
    rw [hscan, Scanning.done.injEq, List.length_append] at h
    have hpos := List.length_pos_iff.mpr hback
    omega
  | malformed =>
    rw [scan_malformed hfront] at h
    cases h

/-! ## Two readers -/

/-- **Readers that differ** do so at an element that one of them refuses. -/
theorem scan_differ {strict : σ → α → Scanned σ δ}
    (hsame : ∀ s a, strict s a = read s a ∨ strict s a = .malformed) {s : σ} {word : List α}
    (h : scan strict s word ≠ scan read s word) :
    ∃ front a back s', word = front ++ a :: back ∧ scan strict s front = .goes s' ∧
      scan read s front = .goes s' ∧ strict s' a = .malformed ∧ read s' a ≠ .malformed := by
  induction word generalizing s with
  | nil => exact absurd rfl h
  | cons a word ih =>
    rcases hsame s a with heq | hstrict
    · rw [scan, scan, heq] at h
      cases hread : read s a with
      | goes t =>
        simp only [hread] at h
        obtain ⟨front, b, back, s', rfl, hfront, hfront', hb, hb'⟩ :=
          ih (s := t) fun hsame => h (by rw [hsame])
        refine ⟨a :: front, b, back, s', rfl, ?_, ?_, hb, hb'⟩
        · rw [scan_cons (heq.trans hread), hfront, Scanning.after_goes]
        · rw [scan_cons hread, hfront', Scanning.after_goes]
      | done d =>
        simp only [hread] at h
        exact absurd rfl h
      | malformed =>
        simp only [hread] at h
        exact absurd rfl h
    · refine ⟨[], a, word, s, rfl, rfl, rfl, hstrict, fun hread => h ?_⟩
      rw [scan, scan, hstrict, hread]

end Library
