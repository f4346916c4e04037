import Mathlib

/-!
# Reading a list after a key

A list kept by keys is read in chunks, each of the keys after the last one taken.
What was taken is the list up to there, each key once: so at the end it is the
list. Keys that come in later, after the last one taken, are read in their turn.
-/

namespace Library

variable {κ : Type} [LinearOrder κ]

/-- The keys after one, in order. -/
def following (after : κ) (keys : List κ) : List κ :=
  (keys.filter fun key => after < key).mergeSort fun a b => a ≤ b

/-- The keys up to one. -/
def upTo (last : κ) (keys : List κ) : List κ := keys.filter fun key => key ≤ last

/-- What has been taken of a list up to a key: each key once, in order. -/
structure Taken (keys : List κ) (last : κ) (taken : List κ) : Prop where
  ascends : taken.Pairwise (· < ·)
  reached : ∀ key ∈ taken, key ≤ last
  all : (upTo last keys).Perm taken

theorem following_perm (after : κ) (keys : List κ) :
    (following after keys).Perm (keys.filter fun key => after < key) :=
  List.mergeSort_perm _ _

theorem mem_following {after : κ} {keys : List κ} {key : κ} :
    key ∈ following after keys ↔ key ∈ keys ∧ after < key := by
  rw [(following_perm after keys).mem_iff, List.mem_filter, decide_eq_true_eq]

theorem following_sorted (after : κ) (keys : List κ) :
    (following after keys).Pairwise (· ≤ ·) := by
  have htrans : ∀ a b c : κ, decide (a ≤ b) = true → decide (b ≤ c) = true →
      decide (a ≤ c) = true := fun a b c hab hbc =>
    decide_eq_true (le_trans (of_decide_eq_true hab) (of_decide_eq_true hbc))
  have htotal : ∀ a b : κ, (decide (a ≤ b) || decide (b ≤ a)) = true := fun a b => by
    simpa using le_total a b
  have h := List.pairwise_mergeSort htrans htotal (keys.filter fun key => after < key)
  exact h.imp fun hle => of_decide_eq_true hle

/-- A list is what is up to a key and what follows it. -/
theorem upTo_following (after : κ) (keys : List κ) :
    keys.Perm (upTo after keys ++ following after keys) := by
  have hsplit := List.filter_append_perm (fun key => decide (key ≤ after)) keys
  have hnot : (keys.filter fun key => !decide (key ≤ after)) =
      keys.filter fun key => decide (after < key) := by
    apply List.filter_congr
    intro key _
    simp only [← decide_not, not_le]
  rw [hnot] at hsplit
  exact hsplit.symm.trans ((following_perm after keys).symm.append_left _)

/-- What is up to a later key is what was up to the first, and what follows it up to the later. -/
theorem upTo_later {after last : κ} (h : after ≤ last) (keys : List κ) :
    (upTo last keys).Perm (upTo after keys ++ upTo last (following after keys)) := by
  have hsplit := (upTo_following after keys).filter fun key => decide (key ≤ last)
  have hfirst : ((upTo after keys).filter fun key => decide (key ≤ last)) = upTo after keys := by
    apply List.filter_eq_self.mpr
    intro key hin
    have hkey := (List.mem_filter.mp hin).2
    exact decide_eq_true (le_trans (of_decide_eq_true hkey) h)
  rw [List.filter_append, hfirst] at hsplit
  exact hsplit

theorem upTo_first {after key : κ} {first rest : List κ}
    (hsorted : (first ++ key :: rest).Pairwise (· ≤ ·))
    (hascends : (after :: first ++ [key]).Pairwise (· < ·)) :
    upTo (first.getLastD after) (first ++ key :: rest) = first := by
  have hlast : ∀ each ∈ first, each ≤ first.getLastD after := by
    intro each hin
    rcases List.eq_nil_or_concat first with rfl | ⟨start, last, rfl⟩
    · cases hin
    · simp only [List.concat_eq_append, List.getLastD_concat] at *
      rcases List.mem_append.mp hin with hin | hin
      · simp only [List.append_assoc] at hsorted
        exact (List.pairwise_append.mp hsorted).2.2 each hin last (by simp)
      · exact le_of_eq (List.mem_singleton.mp hin)
  have hkey : first.getLastD after < key := by
    have hall := (List.pairwise_append.mp hascends).2.2
    rcases List.eq_nil_or_concat first with rfl | ⟨start, last, rfl⟩
    · exact hall after (by simp) key (by simp)
    · simp only [List.concat_eq_append, List.getLastD_concat] at *
      exact hall last (by simp) key (by simp)
  have hrest : ∀ each ∈ key :: rest, key ≤ each := by
    intro each hin
    rcases List.mem_cons.mp hin with rfl | hin
    · exact le_rfl
    · exact (List.pairwise_cons.mp (List.pairwise_append.mp hsorted).2.1).1 each hin
  simp only [upTo, List.filter_append]
  rw [List.filter_eq_self.mpr fun each hin => decide_eq_true (hlast each hin),
    List.filter_eq_nil_iff.mpr, List.append_nil]
  intro each hin hle
  exact absurd (lt_of_lt_of_le hkey (hrest each hin)) (not_lt.mpr (of_decide_eq_true hle))

/-! ## Some of what follows -/

section
variable {after key : κ} {keys taken rest : List κ} {n : Nat}

theorem following_again (hkeys : (following after keys).take n = taken ++ key :: rest)
    (hnot : ¬ taken.getLastD after < key) : key ∈ taken := by
  have hsorted : (taken ++ key :: rest).Pairwise (· ≤ ·) :=
    hkeys ▸ (following_sorted after keys).sublist (List.take_sublist _ _)
  have hin : key ∈ following after keys :=
    List.mem_of_mem_take (hkeys ▸ List.mem_append_right _ List.mem_cons_self)
  rcases List.eq_nil_or_concat taken with rfl | ⟨first, last, rfl⟩
  · exact absurd (mem_following.mp hin).2 hnot
  · simp only [List.concat_eq_append, List.getLastD_concat] at hnot hsorted ⊢
    have hle : last ≤ key :=
      (List.pairwise_append.mp hsorted).2.2 last (by simp) key List.mem_cons_self
    rw [le_antisymm hle (not_lt.mp hnot)]
    simp

theorem following_taken (hkeys : (following after keys).take n = taken ++ rest) {each : κ}
    (hin : each ∈ following after keys) (hle : each ≤ taken.getLastD after) : each ∈ taken := by
  have hsplit : following after keys = taken ++ (rest ++ (following after keys).drop n) := by
    rw [← List.append_assoc, ← hkeys, List.take_append_drop]
  have hsorted := following_sorted after keys
  have hafter := (mem_following.mp hin).2
  rcases List.eq_nil_or_concat taken with rfl | ⟨first, final, rfl⟩
  · exact absurd hafter (not_lt.mpr hle)
  · rw [hsplit] at hin hsorted
    rcases List.mem_append.mp hin with hin | hin
    · exact hin
    · simp only [List.concat_eq_append, List.getLastD_concat] at hle hsorted ⊢
      have hge : final ≤ each :=
        (List.pairwise_append.mp hsorted).2.2 final (by simp) each hin
      rw [le_antisymm hle hge]
      simp

end

namespace Taken

variable {keys taken : List κ} {last : κ}

/-- Nothing is taken before the first key. -/
theorem start {zero : κ} (h : ∀ key ∈ keys, zero < key) : Taken keys zero [] where
  ascends := List.Pairwise.nil
  reached := fun key hin => absurd hin List.not_mem_nil
  all := by
    have hnone : upTo zero keys = [] := by
      apply List.filter_eq_nil_iff.mpr
      intro key hin hle
      exact absurd (h key hin) (not_lt.mpr (of_decide_eq_true hle))
    rw [hnone]

/-- **Taking some of what follows**, up to a key that is left for the next chunk. -/
theorem more (h : Taken keys last taken) {first rest : List κ} {key : κ}
    (hfollowing : following last keys = first ++ key :: rest)
    (hascends : (last :: first ++ [key]).Pairwise (· < ·)) :
    Taken keys (first.getLastD last) (taken ++ first) := by
  have hfirst : (last :: first).Pairwise (· < ·) := (List.pairwise_append.mp hascends).1
  have hlater : ∀ each ∈ first, last < each := (List.pairwise_cons.mp hfirst).1
  have hsorted := hfollowing ▸ following_sorted last keys
  have hupTo := upTo_first hsorted hascends
  have hle : last ≤ first.getLastD last := by
    rcases List.eq_nil_or_concat first with rfl | ⟨start, final, rfl⟩
    · exact le_rfl
    · simp only [List.concat_eq_append, List.getLastD_concat] at *
      exact le_of_lt (hlater final (by simp))
  constructor
  case ascends =>
    refine List.pairwise_append.mpr ⟨h.ascends, (List.pairwise_cons.mp hfirst).2, ?_⟩
    intro a ha b hb
    exact lt_of_le_of_lt (h.reached a ha) (hlater b hb)
  case reached =>
    intro each hin
    rcases List.mem_append.mp hin with hin | hin
    · exact le_trans (h.reached each hin) hle
    · rw [← hupTo] at hin
      exact of_decide_eq_true (List.mem_filter.mp hin).2
  case all =>
    have hperm := upTo_later hle keys
    rw [hfollowing, hupTo] at hperm
    exact hperm.trans (h.all.append_right _)

/-- **Taking all that follows** leaves nothing untaken. -/
theorem finish (h : Taken keys last taken)
    (hascends : (last :: following last keys).Pairwise (· < ·)) :
    (taken ++ following last keys).Pairwise (· < ·) ∧
      keys.Perm (taken ++ following last keys) := by
  refine ⟨List.pairwise_append.mpr ⟨h.ascends, (List.pairwise_cons.mp hascends).2, ?_⟩, ?_⟩
  · intro a ha b hb
    exact lt_of_le_of_lt (h.reached a ha) ((List.pairwise_cons.mp hascends).1 b hb)
  · exact (upTo_following last keys).trans (h.all.append_right _)

/-- What comes in after the last key taken changes nothing of what was taken. -/
theorem grown (h : Taken keys last taken) {keys' : List κ}
    (hsame : (upTo last keys').Perm (upTo last keys)) : Taken keys' last taken where
  ascends := h.ascends
  reached := h.reached
  all := hsame.trans h.all

end Taken

/-! ## Keys that come more than once -/

/-- A list that repeats keys of another, and holds each. -/
structure Covers (wide keys : List κ) : Prop where
  sub : keys.Subperm wide
  mem : ∀ key ∈ wide, key ∈ keys

/-- What is up to a key, and what a wider list has after it. -/
def widened (last : κ) (keys wide : List κ) : List κ :=
  upTo last keys ++ wide.filter fun key => last < key

theorem following_widened (last : κ) (keys wide : List κ) :
    following last (widened last keys wide) = following last wide := by
  have hnone : ((upTo last keys).filter fun key => decide (last < key)) = [] := by
    apply List.filter_eq_nil_iff.mpr
    intro key hin hlt
    exact absurd (of_decide_eq_true (List.mem_filter.mp hin).2) (not_le.mpr (of_decide_eq_true hlt))
  simp only [following, widened, List.filter_append, hnone, List.nil_append, List.filter_filter,
    Bool.and_self]

theorem upTo_widened (last : κ) (keys wide : List κ) :
    upTo last (widened last keys wide) = upTo last keys := by
  have hnone : ((wide.filter fun key => decide (last < key)).filter fun key => decide (key ≤ last)) =
      [] := by
    apply List.filter_eq_nil_iff.mpr
    intro key hin hle
    exact absurd (of_decide_eq_true (List.mem_filter.mp hin).2) (not_lt.mpr (of_decide_eq_true hle))
  simp only [widened, upTo, List.filter_append]
  rw [hnone, List.append_nil, List.filter_filter]
  simp only [Bool.and_self]

theorem Covers.widened {keys wide : List κ} (h : Covers wide keys) (last : κ) :
    Covers (widened last keys wide) keys where
  sub := by
    have hsplit := upTo_following last keys
    refine hsplit.subperm.trans ?_
    refine (List.subperm_append_left _).mpr ?_
    exact (following_perm last keys).subperm.trans (h.sub.filter _)
  mem := by
    intro key hin
    rcases List.mem_append.mp hin with hin | hin
    · exact (List.mem_filter.mp hin).1
    · exact h.mem key (List.mem_filter.mp hin).1

namespace Taken

variable {keys wide taken : List κ} {last : κ}

theorem widen (h : Taken keys last taken) : Taken (widened last keys wide) last taken where
  ascends := h.ascends
  reached := h.reached
  all := by
    rw [upTo_widened]
    exact h.all

/-- What takes a wider list's keys in strict order takes each key once. -/
theorem narrow (h : Taken wide last taken) (hcovers : Covers wide keys) : Taken keys last taken where
  ascends := h.ascends
  reached := h.reached
  all := by
    have hnodup : taken.Nodup := h.ascends.imp fun hlt => ne_of_lt hlt
    refine ((hcovers.sub.filter _).trans h.all.subperm).antisymm (List.subperm_of_subset hnodup ?_)
    intro key hin
    have hwide := h.all.mem_iff.mpr hin
    exact List.mem_filter.mpr ⟨hcovers.mem key (List.mem_filter.mp hwide).1,
      (List.mem_filter.mp hwide).2⟩

/-- **Taking some of a wider list**, in strict order. -/
theorem more_of (h : Taken keys last taken) (hcovers : Covers wide keys) {first rest : List κ}
    {key : κ} (hfollowing : following last wide = first ++ key :: rest)
    (hascends : (last :: first ++ [key]).Pairwise (· < ·)) :
    Taken keys (first.getLastD last) (taken ++ first) :=
  ((h.widen.more ((following_widened last keys wide).trans hfollowing) hascends)).narrow
    (hcovers.widened last)

/-- **Taking all of a wider list**, in strict order, is taking all there is. -/
theorem finish_of (h : Taken keys last taken) (hcovers : Covers wide keys)
    (hascends : (last :: following last wide).Pairwise (· < ·)) :
    (taken ++ following last wide).Pairwise (· < ·) ∧
      keys.Perm (taken ++ following last wide) := by
  have hwide : Taken (widened last keys wide) last taken := h.widen
  have hfinish := hwide.finish (by rwa [following_widened])
  rw [following_widened] at hfinish
  refine ⟨hfinish.1, ?_⟩
  have hcovers' := hcovers.widened last
  have hnodup : (taken ++ following last wide).Nodup := hfinish.1.imp fun hlt => ne_of_lt hlt
  refine (hcovers'.sub.trans hfinish.2.subperm).antisymm (List.subperm_of_subset hnodup ?_)
  intro key hin
  exact hcovers'.mem key (hfinish.2.mem_iff.mpr hin)

end Taken

end Library
