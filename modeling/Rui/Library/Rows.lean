import Mathlib

/-!
# Rows of a table

A write that changes exactly one row of a table, or fails: what it leaves, and when the keys of
the table make it succeed.
-/

namespace Library

universe u v

variable {α : Type u} {κ : Type v}

/-- The rows after the one that is selected was changed, if exactly one is. -/
def updateOne (selects : α → Bool) (change : α → α) (rows : List α) : Option (List α) :=
  if rows.countP selects = 1 then
    some (rows.map fun row => if selects row then change row else row)
  else none

variable {selects : α → Bool} {change : α → α} {rows before after : List α} {row : α}

theorem map_unselected (h : ∀ row ∈ rows, selects row = false) :
    (rows.map fun row => if selects row then change row else row) = rows := by
  induction rows with
  | nil => rfl
  | cons row rest ih =>
    rw [List.map_cons, ih fun each heach => h each (List.mem_cons_of_mem _ heach),
      h row List.mem_cons_self]
    rfl

/-- **One row changes**, where it stands. -/
theorem updateOne_eq_some {rows' : List α} (h : updateOne selects change rows = some rows') :
    ∃ before row after, rows = before ++ row :: after ∧ selects row = true ∧
      (∀ each ∈ before, selects each = false) ∧ rows' = before ++ change row :: after := by
  rw [updateOne] at h
  split_ifs at h with hone
  obtain ⟨row, hrow, hselects⟩ := List.countP_pos_iff.mp (hone ▸ Nat.one_pos)
  obtain ⟨before, after, rfl⟩ := List.append_of_mem hrow
  rw [List.countP_append, List.countP_cons_of_pos hselects] at hone
  have hbefore : ∀ each ∈ before, selects each = false := fun each heach =>
    Bool.eq_false_iff.mpr (List.countP_eq_zero.mp (by omega) each heach)
  have hafter : ∀ each ∈ after, selects each = false := fun each heach =>
    Bool.eq_false_iff.mpr (List.countP_eq_zero.mp (by omega) each heach)
  refine ⟨before, row, after, rfl, hselects, hbefore, ?_⟩
  rw [← Option.some.inj h, List.map_append, List.map_cons, if_pos hselects,
    map_unselected hbefore, map_unselected hafter]

theorem find?_updated (hselects : selects row = true)
    (hbefore : ∀ each ∈ before, selects each = false) :
    (before ++ row :: after).find? selects = some row := by
  rw [List.find?_append, List.find?_eq_none.mpr fun each heach => by simp [hbefore each heach],
    List.find?_cons_of_pos hselects]
  rfl

/-- **A write by key** finds its one row. -/
theorem updateOne_isSome {selects : α → Bool} {change : α → α} {rows : List α} {key : α → κ}
    (hkeys : (rows.map key).Nodup) {row : α} (hrow : row ∈ rows) (hselects : selects row = true)
    (hkey : ∀ other ∈ rows, selects other = true → key other = key row) :
    (updateOne selects change rows).isSome = true := by
  have hone : rows.countP selects = 1 := by
    obtain ⟨before, after, rfl⟩ := List.append_of_mem hrow
    rw [List.map_append, List.map_cons, List.nodup_append] at hkeys
    obtain ⟨-, hafter, hdisjoint⟩ := hkeys
    rw [List.countP_append, List.countP_cons_of_pos hselects, List.countP_eq_zero.mpr,
      List.countP_eq_zero.mpr]
    · intro each heach hsame
      have heq := hkey each (by simp [heach]) hsame
      exact (List.nodup_cons.mp hafter).1 (heq ▸ List.mem_map_of_mem heach)
    · intro each heach hsame
      have heq := hkey each (by simp [heach]) hsame
      exact hdisjoint _ (List.mem_map_of_mem heach) _ List.mem_cons_self heq
  rw [updateOne, if_pos hone]
  rfl

/-- **A write by key** changes the row with the key. -/
theorem updateOne_keyed [DecidableEq κ] {selects : α → Bool} {change : α → α} {rows : List α}
    {key : α → κ} (hkeys : (rows.map key).Nodup) {row : α} (hrow : row ∈ rows)
    (hselects : selects row = true)
    (hkey : ∀ other ∈ rows, selects other = true → key other = key row) :
    updateOne selects change rows =
      some (rows.map fun each => if key each = key row then change each else each) := by
  obtain ⟨rows', hrows'⟩ := Option.isSome_iff_exists.mp
    (@updateOne_isSome _ _ selects change rows key hkeys row hrow hselects hkey)
  rw [updateOne] at hrows' ⊢
  split_ifs at hrows' ⊢
  refine congrArg some (List.map_congr_left fun each heach => ?_)
  by_cases hsame : key each = key row
  · rw [if_pos hsame, List.inj_on_of_nodup_map hkeys heach hrow hsame, if_pos hselects]
  · rw [if_neg hsame, if_neg fun hother => hsame (hkey each heach hother)]

/-- What a row gives moves with it to the front, when it alone gives more after its change. -/
theorem filterMap_changed {β : Type*} {f : α → Option β} {row' : α} {b : β} (hnone : f row = none)
    (hsome : f row' = some b) :
    ((before ++ row' :: after).filterMap f).Perm (b :: (before ++ row :: after).filterMap f) := by
  rw [List.filterMap_append, List.filterMap_append, List.filterMap_cons_some hsome,
    List.filterMap_cons_none hnone]
  exact List.perm_middle

end Library
