import Mathlib

/-!
# Blocks of rows, one above another

A block at each place, some of no rows, and the rows above a place: which row of which block is
told by how many rows stand above it.
-/

namespace Library

open Finset

variable (rows : Nat → Nat)

/-- The rows of the blocks before a place. -/
def above (place : Nat) : Nat := ∑ i ∈ range place, rows i

variable {rows}

theorem above_succ (place : Nat) : above rows (place + 1) = above rows place + rows place :=
  sum_range_succ rows place

theorem above_mono {a b : Nat} (h : a ≤ b) : above rows a ≤ above rows b :=
  sum_le_sum_of_subset (range_subset_range.mpr h)

theorem above_gap {a b : Nat} (h : a ≤ b) (hgap : ∀ i, a ≤ i → i < b → rows i = 0) :
    above rows b = above rows a := by
  induction b, h using Nat.le_induction with
  | base => rfl
  | succ b hle ih =>
    rw [above_succ, hgap b hle (Nat.lt_succ_self b), ih fun i hi hb => hgap i hi (by omega)]
    rfl

theorem above_next {a b : Nat} (h : a < b) (hgap : ∀ i, a < i → i < b → rows i = 0) :
    above rows b = above rows a + rows a := by
  rw [← above_succ, above_gap h fun i hi hb => hgap i (by omega) hb]

/-- A row stands above those of a later block. -/
theorem above_lt {a b r : Nat} (hrow : r < rows a) (h : a < b) :
    above rows a + r < above rows b := by
  have hmono : above rows (a + 1) ≤ above rows b := above_mono (Nat.succ_le_of_lt h)
  rw [above_succ] at hmono
  omega

/-- **A row is told by the rows above it.** -/
theorem above_inj {a b r s : Nat} (hr : r < rows a) (hs : s < rows b)
    (h : above rows a + r = above rows b + s) : a = b ∧ r = s := by
  rcases Nat.lt_trichotomy a b with hlt | rfl | hgt
  · have := above_lt hr hlt
    omega
  · exact ⟨rfl, by omega⟩
  · have := above_lt hs hgt
    omega

end Library
