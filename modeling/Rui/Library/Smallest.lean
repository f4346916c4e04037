import Mathlib

/-!
# The smallest members of a set, met in any order

A bounded sorted list that takes each element it meets holds, at the end, the
first `limit` of the increasing enumeration of all of them. The enumeration
itself grows by an ordered insertion, and cutting commutes with inserting.
-/

namespace Library

universe u

variable {α : Type u} [Ord α]

/-- The strictly increasing lists. -/
def Increasing (l : List α) : Prop := l.Pairwise fun a b => compare a b = .lt

/-- `l` is the first `limit` members of `S`, in increasing order. -/
def FirstOf (limit : Nat) (S : α → Prop) (l : List α) : Prop :=
  ∃ all : List α, Increasing all ∧ (∀ a, a ∈ all ↔ S a) ∧ l = all.take limit

variable {limit : Nat} {S : α → Prop} {l : List α} {x : α}

theorem FirstOf.increasing (h : FirstOf limit S l) : Increasing l := by
  obtain ⟨all, inc, _, rfl⟩ := h
  exact List.Pairwise.sublist (List.take_sublist _ _) inc

theorem FirstOf.length_le (h : FirstOf limit S l) : l.length ≤ limit := by
  obtain ⟨all, _, _, rfl⟩ := h
  exact List.length_take_le _ _

theorem FirstOf.congr {T : α → Prop} (h : FirstOf limit S l) (hST : ∀ a, S a ↔ T a) :
    FirstOf limit T l := by
  obtain ⟨all, inc, mem, hl⟩ := h
  exact ⟨all, inc, fun a => (mem a).trans (hST a), hl⟩

theorem firstOf_empty (limit : Nat) : FirstOf limit (fun _ : α => False) [] :=
  ⟨[], List.Pairwise.nil, by simp, by simp⟩

/-- **A whole pass.** If each step of a fold either meets one more element of
`S` or one already met, the fold holds the first `limit` of them. -/
theorem FirstOf.foldl {β : Type u} {f : List α → β → List α} {T : β → α → Prop} (bs : List β)
    (h : FirstOf limit S l)
    (hstep : ∀ (S : α → Prop) (l : List α), ∀ b ∈ bs, FirstOf limit S l →
      FirstOf limit (fun a => S a ∨ T b a) (f l b)) :
    FirstOf limit (fun a => S a ∨ ∃ b ∈ bs, T b a) (bs.foldl f l) := by
  induction bs generalizing S l with
  | nil => simpa using h
  | cons b bs ih =>
    have hb := hstep S l b List.mem_cons_self h
    have hbs := ih hb fun S l b' hb' => hstep S l b' (List.mem_cons_of_mem _ hb')
    simpa only [List.foldl_cons, List.mem_cons, exists_eq_or_imp, or_assoc] using hbs

/-- Insertion into an increasing list; an element already there is met again. -/
def insertOnce (x : α) : List α → List α
  | [] => [x]
  | y :: ys =>
    match compare y x with
    | .lt => y :: insertOnce x ys
    | .eq => y :: ys
    | .gt => x :: y :: ys

/-- Only the elements kept decide what is kept after an insertion. -/
theorem take_insertOnce_take (limit : Nat) (x : α) (l : List α) :
    (insertOnce x (l.take limit)).take limit = (insertOnce x l).take limit := by
  induction l generalizing limit with
  | nil => simp
  | cons y ys ih =>
    cases limit with
    | zero => simp
    | succ limit =>
      simp only [List.take_succ_cons, insertOnce]
      cases compare y x with
      | lt => simp only [List.take_succ_cons, ih]
      | eq => simp [List.take_take]
      | gt =>
        cases limit with
        | zero => simp
        | succ limit => simp [List.take_take]

/-- Where `x` falls in a list: after the elements below it, either at the end,
or on itself, or before an element above it. -/
inductive Cut (x : α) (below : List α) : List α → List α → Prop
  | last : Cut x below [] (below ++ [x])
  | again (ys : List α) : Cut x below (x :: ys) (below ++ x :: ys)
  | before (y : α) (ys : List α) (above : compare y x = .gt) :
    Cut x below (y :: ys) (below ++ x :: y :: ys)

theorem Cut.cons {x : α} {below rest l : List α} (y : α) (h : Cut x below rest l) :
    Cut x (y :: below) rest (y :: l) := by
  cases h with
  | last => exact .last
  | again ys => exact .again ys
  | before z zs above => exact .before z zs above

variable [Std.LawfulEqOrd α]

theorem cut_insertOnce (x : α) (l : List α) :
    Cut x (l.takeWhile fun y => compare y x == .lt) (l.dropWhile fun y => compare y x == .lt)
      (insertOnce x l) := by
  induction l with
  | nil => exact .last
  | cons y ys ih =>
    cases h : compare y x with
    | lt => simpa [insertOnce, h] using ih.cons y
    | eq =>
      obtain rfl : y = x := Std.LawfulEqCmp.eq_of_compare h
      have hcut : Cut y [] (y :: ys) ([] ++ y :: ys) := .again ys
      simpa [insertOnce, h] using hcut
    | gt =>
      have hcut : Cut x [] (y :: ys) ([] ++ x :: y :: ys) := .before y ys h
      simpa [insertOnce, h] using hcut

theorem mem_insertOnce {a : α} : a ∈ insertOnce x l ↔ a = x ∨ a ∈ l := by
  induction l with
  | nil => simp [insertOnce]
  | cons y ys ih =>
    cases h : compare y x with
    | lt => simp only [insertOnce, h, List.mem_cons, ih, or_left_comm]
    | eq =>
      obtain rfl : y = x := Std.LawfulEqCmp.eq_of_compare h
      simp only [insertOnce, h, List.mem_cons, or_self_left]
    | gt => simp only [insertOnce, h, List.mem_cons]

variable [Std.TransOrd α]

theorem Increasing.insertOnce (h : Increasing l) : Increasing (insertOnce x l) := by
  induction l with
  | nil => exact List.pairwise_singleton _ _
  | cons y ys ih =>
    obtain ⟨below, rest⟩ := List.pairwise_cons.mp h
    cases hy : compare y x with
    | lt =>
      simp only [Library.insertOnce, hy]
      refine List.pairwise_cons.mpr ⟨fun a ha => ?_, ih rest⟩
      rcases mem_insertOnce.mp ha with rfl | ha
      · exact hy
      · exact below a ha
    | eq => simpa only [Library.insertOnce, hy] using h
    | gt =>
      simp only [Library.insertOnce, hy]
      have hxy : compare x y = .lt := Std.OrientedCmp.gt_iff_lt.mp hy
      refine List.pairwise_cons.mpr ⟨fun a ha => ?_, h⟩
      rcases List.mem_cons.mp ha with rfl | ha
      · exact hxy
      · exact Std.TransCmp.lt_trans hxy (below a ha)

/-- **One element met.** Inserting it and cutting keeps the first `limit`. -/
theorem FirstOf.insert {T : α → Prop} (h : FirstOf limit S l) (hT : ∀ a, T a ↔ a = x ∨ S a) :
    FirstOf limit T ((Library.insertOnce x l).take limit) := by
  obtain ⟨all, inc, mem, rfl⟩ := h
  exact ⟨insertOnce x all, inc.insertOnce, fun a => by rw [mem_insertOnce, mem, hT],
    take_insertOnce_take limit x all⟩

end Library
