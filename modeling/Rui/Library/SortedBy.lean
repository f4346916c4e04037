import Mathlib

/-!
# Lists sorted by a key

Strictly sorted lists, by what is read of their elements: no two elements have
one key, so the elements with some keys are found by filtering, and two such
lists with the same elements are the same list.
-/

namespace Library

universe u v

variable {α : Type u} {κ : Type v} [LinearOrder κ] {key : α → κ}

/-- Each element's key comes before the next one's. -/
def SortedBy (key : α → κ) (l : List α) : Prop := l.Pairwise fun a b => key a < key b

namespace SortedBy

variable {l l' : List α}

theorem nodup_keys (h : SortedBy key l) : (l.map key).Nodup :=
  List.pairwise_map.mpr (h.imp fun hless => hless.ne)

theorem nodup (h : SortedBy key l) : l.Nodup := h.nodup_keys.of_map

theorem eq_of_key (h : SortedBy key l) {a b : α} (ha : a ∈ l) (hb : b ∈ l) (hkey : key a = key b) :
    a = b :=
  List.inj_on_of_nodup_map h.nodup_keys ha hb hkey

theorem sublist (h : SortedBy key l) (hsub : l'.Sublist l) : SortedBy key l' :=
  List.Pairwise.sublist hsub h

theorem filter (h : SortedBy key l) (p : α → Bool) : SortedBy key (l.filter p) :=
  h.sublist List.filter_sublist

theorem map {β : Type*} {f : β → α} {l : List β} :
    SortedBy key (l.map f) ↔ SortedBy (fun b => key (f b)) l := List.pairwise_map

theorem insertionSort_eq (h : SortedBy key l) : l.insertionSort (fun a b => key a ≤ key b) = l := by
  induction l with
  | nil => rfl
  | cons a l ih =>
    obtain ⟨hhead, htail⟩ := List.pairwise_cons.mp h
    rw [List.insertionSort_cons, ih htail]
    cases l with
    | nil => rfl
    | cons b l => rw [List.orderedInsert_cons, if_pos (hhead b List.mem_cons_self).le]

theorem of_insertionSort (h : (l.map key).Nodup) :
    SortedBy key (l.insertionSort fun a b => key a ≤ key b) := by
  have hsorted := l.pairwise_insertionSort fun a b => key a ≤ key b
  have hkeys : ((l.insertionSort fun a b => key a ≤ key b).map key).Nodup :=
    ((l.perm_insertionSort fun a b => key a ≤ key b).map key).nodup_iff.mpr h
  exact (hsorted.and (List.pairwise_map.mp hkeys)).imp fun hboth => lt_of_le_of_ne hboth.1 hboth.2

/-- **A sort puts what is repeated side by side.** -/
theorem nodup_iff_adjacent (hkey : Function.Injective key) (l : List α) :
    ((l.insertionSort fun a b => key a ≤ key b).IsChain (· ≠ ·)) ↔ l.Nodup := by
  have hperm := l.perm_insertionSort fun a b => key a ≤ key b
  constructor
  · intro hchain
    have hsorted := (l.pairwise_insertionSort fun a b => key a ≤ key b).isChain
    have hstrict : (l.insertionSort fun a b => key a ≤ key b).IsChain fun a b => key a < key b :=
      List.isChain_iff_getElem.mpr fun i hi => lt_of_le_of_ne
        (List.isChain_iff_getElem.mp hsorted i hi)
        fun h => List.isChain_iff_getElem.mp hchain i hi (hkey h)
    have : Trans (fun a b : α => key a < key b) (fun a b => key a < key b)
        (fun a b => key a < key b) := ⟨fun hab hbc => lt_trans hab hbc⟩
    exact hperm.nodup_iff.mp (SortedBy.nodup (List.isChain_iff_pairwise.mp hstrict))
  · intro hnodup
    exact (hperm.nodup_iff.mpr hnodup).isChain

theorem eq_of_mem_iff (h : SortedBy key l) (h' : SortedBy key l') (hmem : ∀ a, a ∈ l ↔ a ∈ l') :
    l = l' := by
  have hperm : l.Perm l' := (List.perm_ext_iff_of_nodup h.nodup h'.nodup).mpr hmem
  exact hperm.eq_of_pairwise (fun a b _ _ hab hba => absurd hab (lt_asymm hba)) h h'

theorem eq_of_subset (h : SortedBy key l) (h' : SortedBy key l') (hsub : l ⊆ l')
    (hlength : l'.length ≤ l.length) : l = l' := by
  have hperm : l.Perm l' :=
    (List.subperm_of_subset h.nodup hsub).perm_of_length_le hlength
  exact h.eq_of_mem_iff h' fun a => hperm.mem_iff

end SortedBy

variable {β : Type*} {name : α → β} {place : β → κ} {l : List α}

/-- **What is chosen by key**: filtering by some of the keys gives their elements, in order. -/
theorem SortedBy.chosen [BEq β] [LawfulBEq β] {names : List β}
    (h : SortedBy (fun a => place (name a)) l) (hnames : SortedBy place names)
    (hsub : names ⊆ l.map name) : (l.filter fun a => names.contains (name a)).map name = names := by
  have hsorted := SortedBy.map.mpr (h.filter fun a => names.contains (name a))
  refine hsorted.eq_of_mem_iff hnames fun each => ?_
  constructor
  · intro hin
    obtain ⟨a, ha, rfl⟩ := List.mem_map.mp hin
    simpa using (List.mem_filter.mp ha).2
  · intro hin
    obtain ⟨a, ha, rfl⟩ := List.mem_map.mp (hsub hin)
    exact List.mem_map_of_mem (List.mem_filter.mpr ⟨ha, by simpa using hin⟩)

theorem SortedBy.chosen_of_length [BEq β] [LawfulBEq β] {names : List β}
    (h : SortedBy (fun a => place (name a)) l) (hnames : SortedBy place names)
    (hlength : (l.filter fun a => names.contains (name a)).length = names.length) :
    (l.filter fun a => names.contains (name a)).map name = names := by
  have hsorted := SortedBy.map.mpr (h.filter fun a => names.contains (name a))
  refine hsorted.eq_of_subset hnames ?_ (by rw [List.length_map, hlength])
  intro each hin
  obtain ⟨a, ha, rfl⟩ := List.mem_map.mp hin
  simpa using (List.mem_filter.mp ha).2

theorem SortedBy.filter_eq [BEq β] [LawfulBEq β] (h : SortedBy (fun a => place (name a)) l) {a : α}
    (ha : a ∈ l) : l.filter (fun each => name each == name a) = [a] := by
  refine (h.filter _).eq_of_mem_iff (List.pairwise_singleton _ _) fun each => ?_
  rw [List.mem_filter, List.mem_singleton, beq_iff_eq]
  constructor
  · rintro ⟨hin, hname⟩
    exact h.eq_of_key hin ha (congrArg place hname)
  · intro heq
    exact ⟨heq ▸ ha, congrArg name heq⟩

end Library
