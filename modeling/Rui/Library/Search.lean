import Mathlib

/-!
# Searching a list for a pattern

The first place a pattern occurs, from some place on. A search that fails on a
list has only its end left to repeat when the list grows.
-/

namespace Library

universe u

variable {α : Type u} [DecidableEq α]

/-- The first place `needle` occurs. -/
def indexOf (needle : List α) : List α → Option Nat
  | [] => if needle = [] then some 0 else none
  | a :: rest =>
    if needle.isPrefixOf (a :: rest) then some 0 else (indexOf needle rest).map (· + 1)

/-- The first place `needle` occurs from `from` on. -/
def indexOfPos (needle hay : List α) (start : Nat) : Option Nat :=
  (indexOf needle (hay.drop start)).map (start + ·)

/-- `needle` occurs in `hay` at `i`. -/
def OccursAt (needle hay : List α) (i : Nat) : Prop := needle <+: hay.drop i

variable {needle hay : List α} {i start : Nat} {x : α}

omit [DecidableEq α] in
theorem OccursAt.le (hneedle : needle ≠ []) (h : OccursAt needle hay i) :
    i + needle.length ≤ hay.length := by
  have hlength := h.length_le
  have := List.length_pos_of_ne_nil hneedle
  rw [List.length_drop] at hlength
  omega

omit [DecidableEq α] in
theorem occursAt_append (more : List α) (h : i + needle.length ≤ hay.length) :
    OccursAt needle (hay ++ more) i ↔ OccursAt needle hay i := by
  have hdrop : (hay ++ more).drop i = hay.drop i ++ more :=
    List.drop_append_of_le_length (by omega)
  rw [OccursAt, OccursAt, hdrop, List.prefix_iff_eq_take, List.prefix_iff_eq_take,
    List.take_append_of_le_length (by rw [List.length_drop]; omega)]

theorem indexOf_eq_some (hneedle : needle ≠ []) : indexOf needle hay = some i ↔
      OccursAt needle hay i ∧ ∀ j < i, ¬ OccursAt needle hay j := by
  induction hay generalizing i with
  | nil => simp [indexOf, OccursAt, hneedle]
  | cons a rest ih =>
    by_cases h : needle <+: a :: rest
    · have hb : needle.isPrefixOf (a :: rest) = true := List.isPrefixOf_iff_prefix.mpr h
      simp only [indexOf, hb, if_true, Option.some.injEq]
      constructor
      · rintro rfl
        exact ⟨h, fun j hj => absurd hj (Nat.not_lt_zero j)⟩
      · rintro ⟨_, hfirst⟩
        by_contra hi
        exact hfirst 0 (Nat.pos_of_ne_zero (Ne.symm hi)) h
    · have hb : ¬ needle.isPrefixOf (a :: rest) = true := mt List.isPrefixOf_iff_prefix.mp h
      simp only [indexOf, if_neg hb, Option.map_eq_some_iff]
      constructor
      · rintro ⟨k, hk, rfl⟩
        obtain ⟨hocc, hfirst⟩ := ih.mp hk
        refine ⟨hocc, fun j hj => ?_⟩
        cases j with
        | zero => exact h
        | succ j => exact hfirst j (by omega)
      · rintro ⟨hocc, hfirst⟩
        cases i with
        | zero => exact absurd hocc h
        | succ k =>
          exact ⟨k, ih.mpr ⟨hocc, fun j hj => hfirst (j + 1) (by omega)⟩, rfl⟩

theorem indexOfPos_eq_some (hneedle : needle ≠ []) : indexOfPos needle hay start = some i ↔
      start ≤ i ∧ OccursAt needle hay i ∧ ∀ j, start ≤ j → j < i → ¬ OccursAt needle hay j := by
  simp only [indexOfPos, Option.map_eq_some_iff, indexOf_eq_some hneedle, OccursAt, List.drop_drop]
  constructor
  · rintro ⟨k, ⟨hocc, hfirst⟩, rfl⟩
    refine ⟨Nat.le_add_right _ _, hocc, fun j hj hlt => ?_⟩
    have := hfirst (j - start) (by omega)
    rwa [Nat.add_sub_cancel' hj] at this
  · rintro ⟨hle, hocc, hfirst⟩
    refine ⟨i - start, ⟨by rwa [Nat.add_sub_cancel' hle], fun j hj => ?_⟩, Nat.add_sub_cancel' hle⟩
    exact hfirst (start + j) (Nat.le_add_right _ _) (by omega)

theorem indexOfPos_eq_none (hneedle : needle ≠ []) :
    indexOfPos needle hay start = none ↔ ∀ i, start ≤ i → ¬ OccursAt needle hay i := by
  constructor
  · intro h i hi hocc
    -- The least occurrence would have been found.
    obtain ⟨k, ⟨hk, hkocc⟩, hleast⟩ : ∃ k, (start ≤ k ∧ OccursAt needle hay k) ∧
        ∀ j < k, ¬ (start ≤ j ∧ OccursAt needle hay j) := by
      classical
      have hex : ∃ k, start ≤ k ∧ OccursAt needle hay k := ⟨i, hi, hocc⟩
      exact ⟨Nat.find hex, Nat.find_spec hex, fun j hj => Nat.find_min hex hj⟩
    have := (indexOfPos_eq_some hneedle).mpr ⟨hk, hkocc, fun j hj hlt hj' => hleast j hlt ⟨hj, hj'⟩⟩
    rw [h] at this
    cases this
  · intro h
    cases hfound : indexOfPos needle hay start with
    | none => rfl
    | some i =>
      obtain ⟨hi, hocc, _⟩ := (indexOfPos_eq_some hneedle).mp hfound
      exact absurd hocc (h i hi)

theorem indexOfPos_append_of_some (hneedle : needle ≠ []) (more : List α)
    (h : indexOfPos needle hay start = some i) :
    indexOfPos needle (hay ++ more) start = some i := by
  obtain ⟨hi, hocc, hfirst⟩ := (indexOfPos_eq_some hneedle).mp h
  have hle := hocc.le hneedle
  refine (indexOfPos_eq_some hneedle).mpr ⟨hi, (occursAt_append more hle).mpr hocc, ?_⟩
  intro j hj hlt
  rw [occursAt_append more (by omega)]
  exact hfirst j hj hlt

theorem indexOfPos_zero (needle hay : List α) :
    indexOfPos needle hay 0 = indexOf needle hay := by
  simp [indexOfPos]

section

variable (hneedle : needle ≠ [])

include hneedle

theorem indexOf_append_of_some (more : List α)
    (h : indexOf needle hay = some i) : indexOf needle (hay ++ more) = some i := by
  rw [← indexOfPos_zero] at h ⊢
  exact indexOfPos_append_of_some hneedle more h

theorem indexOf_le (h : indexOf needle hay = some i) :
    i + needle.length ≤ hay.length :=
  ((indexOf_eq_some hneedle).mp h).1.le hneedle

theorem indexOfPos_le (h : indexOfPos needle hay start = some i) :
    i + needle.length ≤ hay.length :=
  ((indexOfPos_eq_some hneedle).mp h).2.1.le hneedle

/-- What is not found is found, if at all, across or past the old end. -/
theorem lt_of_indexOfPos_append {more : List α}
    (h : indexOfPos needle hay start = none)
    (hmore : indexOfPos needle (hay ++ more) start = some i) : hay.length < i + needle.length := by
  obtain ⟨hi, hocc, _⟩ := (indexOfPos_eq_some hneedle).mp hmore
  by_contra hle
  exact (indexOfPos_eq_none hneedle).mp h i hi ((occursAt_append more (by omega)).mp hocc)

/-- A failed search resumes where an occurrence could still begin. -/
theorem indexOfPos_resume (more : List α) {again : Nat}
    (h : indexOfPos needle hay start = none) (hle : start ≤ again)
    (hagain : again + needle.length ≤ hay.length + 1) :
    indexOfPos needle (hay ++ more) again = indexOfPos needle (hay ++ more) start := by
  have hnone := (indexOfPos_eq_none hneedle).mp h
  have hskip : ∀ j, start ≤ j → j < again → ¬ OccursAt needle (hay ++ more) j := by
    intro j hj hlt
    rw [occursAt_append more (by omega)]
    exact hnone j hj
  cases hfound : indexOfPos needle (hay ++ more) start with
  | none =>
    refine (indexOfPos_eq_none hneedle).mpr fun i hi => ?_
    exact (indexOfPos_eq_none hneedle).mp hfound i (by omega)
  | some i =>
    obtain ⟨hi, hocc, hfirst⟩ := (indexOfPos_eq_some hneedle).mp hfound
    have hreach : again ≤ i := by
      by_contra hlt
      exact hskip i hi (by omega) hocc
    exact (indexOfPos_eq_some hneedle).mpr
      ⟨hreach, hocc, fun j hj hlt => hfirst j (by omega) hlt⟩

end

/-! ## One element -/

theorem indexOf_single {front rest : List α} (h : x ∉ front) :
    indexOf [x] (front ++ x :: rest) = some front.length := by
  induction front with
  | nil => simp [indexOf]
  | cons a front ih =>
    rw [List.mem_cons, not_or] at h
    simp [indexOf, ih h.2, h.1]

theorem indexOf_single_none (h : x ∉ hay) : indexOf [x] hay = none := by
  induction hay with
  | nil => simp [indexOf]
  | cons a hay ih =>
    rw [List.mem_cons, not_or] at h
    simp [indexOf, ih h.2, h.1]

/-- From some place on, with nothing of the kind before. -/
theorem indexOfPos_single {front rest : List α} (hhay : hay.drop start = front ++ x :: rest)
    (h : x ∉ front) : indexOfPos [x] hay start = some (start + front.length) := by
  rw [indexOfPos, hhay, indexOf_single h]
  rfl

/-! ## Splitting at one element -/

theorem notMem_of_mem_splitOn {piece : List α} (h : piece ∈ hay.splitOn x) : x ∉ piece := by
  rw [List.splitOn_eq_splitOnP] at h
  induction hay generalizing piece with
  | nil =>
    rw [List.splitOnP_nil, List.mem_singleton] at h
    rw [h]
    exact List.not_mem_nil
  | cons a hay ih =>
    rw [List.splitOnP_cons_eq_if_modifyHead] at h
    split at h
    · rcases List.mem_cons.mp h with rfl | hrest
      · exact List.not_mem_nil
      · exact ih hrest
    · next hne =>
      cases hsplit : hay.splitOnP (· == x) with
      | nil => exact absurd hsplit (List.splitOnP_ne_nil _ _)
      | cons first pieces =>
        rw [hsplit, List.modifyHead_cons] at h
        rcases List.mem_cons.mp h with rfl | hrest
        · rw [List.mem_cons, not_or]
          exact ⟨fun heq => hne (by rw [heq, beq_self_eq_true]),
            ih (by rw [hsplit]; exact List.mem_cons_self)⟩
        · exact ih (by rw [hsplit]; exact List.mem_cons_of_mem _ hrest)

omit [DecidableEq α] in
/-- Pieces joined: each but the first has the separator in front. -/
theorem intercalate_cons (x : α) (first : List α) (pieces : List (List α)) :
    [x].intercalate (first :: pieces) = first ++ pieces.flatMap (x :: ·) := by
  induction pieces generalizing first with
  | nil => simp [List.intercalate]
  | cons second pieces ih =>
    rw [List.intercalate_cons_cons, ih, List.flatMap_cons]
    simp

end Library
