import Mathlib

/-!
# Slices

The part of a list from one place up to another. Adjoining slices are one slice, so a text is
the slices that a reader takes of it.
-/

namespace Library

variable {α : Type}

/-- The elements from one place up to another. -/
def slice (bytes : List α) (start stop : Nat) : List α :=
  (bytes.drop start).take (stop - start)

variable {bytes front back : List α} {a b i stop : Nat}

theorem slice_cat {c : Nat} (hab : a ≤ b) (hbc : b ≤ c) :
    slice bytes a b ++ slice bytes b c = slice bytes a c := by
  rw [slice, slice, slice]
  obtain ⟨m, rfl⟩ := Nat.exists_eq_add_of_le hab
  obtain ⟨n, rfl⟩ := Nat.exists_eq_add_of_le hbc
  rw [Nat.add_sub_cancel_left, Nat.add_sub_cancel_left, Nat.add_assoc, Nat.add_sub_cancel_left,
    ← List.drop_drop, List.take_add]

theorem slice_whole (bytes : List α) : slice bytes 0 bytes.length = bytes := by
  rw [slice, List.drop_zero, Nat.sub_zero, List.take_length]

theorem slice_one {byte : α} (h : bytes[i]? = some byte) : slice bytes i (i + 1) = [byte] := by
  obtain ⟨hlt, rfl⟩ := List.getElem?_eq_some_iff.mp h
  rw [slice, Nat.add_sub_cancel_left, List.drop_eq_getElem_cons hlt]
  rfl

theorem length_slice (h : b ≤ bytes.length) : (slice bytes a b).length = b - a := by
  rw [slice, List.length_take, List.length_drop]
  omega

theorem slice_slice {j : Nat} (h : a + j ≤ b) :
    slice (slice bytes a b) i j = slice bytes (a + i) (a + j) := by
  have hcount : min (j - i) (b - a - i) = a + j - (a + i) := by omega
  rw [slice, slice, slice, List.drop_take, List.take_take, hcount, List.drop_drop]

/-- A slice past a front is one of what follows. -/
theorem slice_append {start : Nat} (h : front.length ≤ start) : slice (front ++ back) start stop =
      slice back (start - front.length) (stop - front.length) := by
  have hcount : stop - front.length - (start - front.length) = stop - start := by omega
  rw [slice, slice, List.drop_append, List.drop_eq_nil_of_le h, List.nil_append, hcount]

theorem slice_front (h : front.length = stop) : slice (front ++ back) 0 stop = front := by
  rw [slice, List.drop_zero, Nat.sub_zero, ← h, List.take_left]

end Library
