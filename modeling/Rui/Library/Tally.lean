import Mathlib

/-!
# Tallies of a list

What the elements of a list weigh together, and how the sum moves when one
place of the list is written: counters kept beside a table are tallies of it.
-/

namespace Library

universe u

variable {α : Type u} {f g : α → Nat}

/-- The weights of a list's elements, summed. -/
def tally (f : α → Nat) (l : List α) : Nat := (l.map f).sum

@[simp] theorem tally_nil : tally f [] = 0 := rfl

@[simp] theorem tally_cons (a : α) (l : List α) : tally f (a :: l) = f a + tally f l := by
  simp [tally]

@[simp] theorem tally_append (l l' : List α) : tally f (l ++ l') = tally f l + tally f l' := by
  simp [tally]

variable {l : List α} {a : α}

/-- **Writing one place** moves the sum by what the place weighs. -/
theorem tally_set {i : Nat} (b : α) (h : l[i]? = some a) :
    tally f (l.set i b) + f a = tally f l + f b := by
  induction l generalizing i with
  | nil => simp at h
  | cons x xs ih =>
    cases i with
    | zero =>
      simp only [List.getElem?_cons_zero, Option.some.injEq] at h
      subst h
      simp only [List.set_cons_zero, tally_cons]
      omega
    | succ i =>
      have hrest := ih (by simpa using h)
      simp only [List.set_cons_succ, tally_cons]
      omega

theorem tally_congr (h : ∀ a ∈ l, f a = g a) : tally f l = tally g l := by
  rw [tally, tally, List.map_congr_left h]

theorem le_tally (h : a ∈ l) : f a ≤ tally f l :=
  List.single_le_sum (fun _ _ => Nat.zero_le _) _ (List.mem_map_of_mem h)

theorem tally_eq_zero : tally f l = 0 ↔ ∀ a ∈ l, f a = 0 := by
  simp [tally, List.sum_eq_zero_iff]

/-- A tally of weights below one counts, so it is within the list's length. -/
theorem tally_le_length (h : ∀ a ∈ l, f a ≤ 1) : tally f l ≤ l.length := by
  induction l with
  | nil => simp
  | cons a l ih =>
    have hhead := h a List.mem_cons_self
    have htail := ih fun b hb => h b (List.mem_cons_of_mem _ hb)
    simp only [tally_cons, List.length_cons]
    omega

theorem tally_map {β : Type u} (h : β → α) (l : List β) :
    tally f (l.map h) = tally (fun b => f (h b)) l := by
  simp [tally, Function.comp_def]

/-- A tally place by place, as far past the end as one likes. -/
theorem tally_getD {d : α} (hd : f d = 0) {n : Nat} (h : l.length ≤ n) :
    tally f l = tally (fun i => f (l.getD i d)) (List.range n) := by
  induction l generalizing n with
  | nil =>
    rw [tally_nil, eq_comm, tally_eq_zero]
    simp [hd]
  | cons a l ih =>
    obtain ⟨n, rfl⟩ := Nat.exists_eq_add_one_of_ne_zero (Nat.ne_of_gt (Nat.lt_of_lt_of_le
      (Nat.succ_pos _) h))
    rw [List.range_succ_eq_map, tally_cons, tally_cons, tally_map]
    simp only [List.getD_cons_zero, List.getD_cons_succ]
    rw [ih (by simpa using h)]

end Library
