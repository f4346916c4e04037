import Rui.Library.Machine

/-!
# What was used last

Events of a chronicle, oldest first: which of two things was used later, and which event of a kind
was the first since the last reset.
-/

namespace Library

universe u v

variable {ε : Type u} {ι : Type v}

/-- `b` was used after the last use of `a`. -/
def UsedSince (Uses : ε → ι → Prop) (past : List ε) (a b : ι) : Prop :=
  ∃ earlier use later, past = earlier ++ use :: later ∧ Uses use b ∧ ∀ e ∈ use :: later, ¬ Uses e a

/-- No event of a kind stands after the last reset. -/
def Fresh (Is Resets : ε → Prop) (past : List ε) : Prop :=
  ∀ older e newer, past = older ++ e :: newer → Is e → ∃ reset ∈ newer, Resets reset

/-- An event is the first of its kind since the last reset. -/
def First (Is Resets : ε → Prop) (past : List ε) (e : ε) : Prop :=
  ∃ older newer, past = older ++ e :: newer ∧ Is e ∧ Fresh Is Resets older ∧
    ∀ later ∈ newer, ¬ Resets later

namespace UsedSince

variable {Uses : ε → ι → Prop} {past : List ε} {a b : ι} {e : ε}

theorem snoc (h : UsedSince Uses past a b) (hother : ¬ Uses e a) :
    UsedSince Uses (past ++ [e]) a b := by
  obtain ⟨earlier, use, later, rfl, hb, ha⟩ := h
  refine ⟨earlier, use, later ++ [e], by simp, hb, ?_⟩
  intro other hmem
  rw [← List.cons_append, List.mem_append, List.mem_singleton] at hmem
  rcases hmem with hmem | rfl
  · exact ha other hmem
  · exact hother

theorem now (hb : Uses e b) (ha : ¬ Uses e a) : UsedSince Uses (past ++ [e]) a b := by
  refine ⟨past, e, [], rfl, hb, ?_⟩
  simpa using ha

end UsedSince

section Resets

variable {Is Resets : ε → Prop} {past : List ε} {e : ε}

theorem fresh_nil : Fresh Is Resets [] := by
  intro older e newer h _
  simp at h

theorem Fresh.snoc (h : Fresh Is Resets past) (hother : ¬ Is e) : Fresh Is Resets (past ++ [e]) := by
  intro older one newer hsplit hone
  rcases Machine.snoc_split hsplit with ⟨_, _, rfl⟩ | ⟨rest, rfl, hpast⟩
  · exact absurd hone hother
  · obtain ⟨reset, hreset, hresets⟩ := h older one rest hpast hone
    exact ⟨reset, List.mem_append_left _ hreset, hresets⟩

/-- After a reset everything is fresh. -/
theorem fresh_reset (hreset : Resets e) (hother : ¬ Is e) : Fresh Is Resets (past ++ [e]) := by
  intro older one newer hsplit hone
  rcases Machine.snoc_split hsplit with ⟨_, _, rfl⟩ | ⟨rest, rfl, _⟩
  · exact absurd hone hother
  · exact ⟨e, List.mem_append_right _ (List.mem_singleton_self e), hreset⟩

theorem First.snoc {one : ε} (h : First Is Resets past one) (hother : ¬ Resets e) :
    First Is Resets (past ++ [e]) one := by
  obtain ⟨older, newer, rfl, hone, hfresh, hnewer⟩ := h
  refine ⟨older, newer ++ [e], by simp, hone, hfresh, ?_⟩
  intro later hlater
  rcases List.mem_append.mp hlater with hlater | hlater
  · exact hnewer later hlater
  · rw [List.mem_singleton.mp hlater]
    exact hother

theorem Fresh.first (h : Fresh Is Resets past) (hone : Is e) : First Is Resets (past ++ [e]) e :=
  ⟨past, [], rfl, hone, h, nofun⟩

end Resets

end Library
