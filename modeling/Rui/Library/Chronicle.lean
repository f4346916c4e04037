import Mathlib

/-!
# Chronicles

What a program did, newest first, each event allowed after those before it; and the things such
events give and take back.
-/

namespace Library

universe u v

variable {ε : Type u} {ι : Type v}

/-- **Each event is one the events before it allow.** -/
def Sound (Allowed : List ε → ε → Prop) : List ε → Prop
  | [] => True
  | event :: before => Allowed before event ∧ Sound Allowed before

namespace Sound

variable {Allowed : List ε → ε → Prop}

theorem mono {Allowed' : List ε → ε → Prop} {log : List ε} (h : Sound Allowed log)
    (hweaker : ∀ before event, Allowed before event → Allowed' before event) :
    Sound Allowed' log := by
  induction log with
  | nil => trivial
  | cons event before ih => exact ⟨hweaker before event h.1, ih h.2⟩

end Sound

section Held

variable [DecidableEq ι] (gives takes : ε → Option ι)

/-- What was given and not yet taken back, in the order it was given. -/
def held : List ε → List ι
  | [] => []
  | event :: before =>
    (takes event).elim (held before) (held before).erase ++ (gives event).toList

variable {gives takes} {event : ε} {before : List ε}

theorem held_gives {one : ι} (hgives : gives event = some one) (htakes : takes event = none) :
    held gives takes (event :: before) = held gives takes before ++ [one] := by
  rw [held, hgives, htakes]
  rfl

theorem held_takes {one : ι} (hgives : gives event = none) (htakes : takes event = some one) :
    held gives takes (event :: before) = (held gives takes before).erase one := by
  rw [held, hgives, htakes]
  exact List.append_nil _

theorem held_other (hgives : gives event = none) (htakes : takes event = none) :
    held gives takes (event :: before) = held gives takes before := by
  rw [held, hgives, htakes]
  exact List.append_nil _

/-- **What was given is held, or was taken back exactly once**, where only what is held is
taken. -/
theorem held_perm {log : List ε}
    (htaken : Sound (fun before event => ∀ one, takes event = some one →
      gives event = none ∧ one ∈ held gives takes before) log) :
    (held gives takes log ++ log.filterMap takes).Perm (log.filterMap gives) := by
  induction log with
  | nil => exact .refl _
  | cons event before ih =>
    have hperm := ih htaken.2
    cases htakes : takes event with
    | none =>
      rw [List.filterMap_cons_none htakes]
      cases hgives : gives event with
      | none =>
        rw [held_other hgives htakes, List.filterMap_cons_none hgives]
        exact hperm
      | some one =>
        rw [held_gives hgives htakes, List.filterMap_cons_some hgives, List.append_assoc]
        exact List.perm_middle.trans (hperm.cons one)
    | some one =>
      obtain ⟨hgives, hheld⟩ := htaken.1 one htakes
      rw [held_takes hgives htakes, List.filterMap_cons_none hgives,
        List.filterMap_cons_some htakes]
      have hback := ((List.perm_cons_erase hheld).symm.append_right (before.filterMap takes))
      exact (List.perm_middle.trans hback).trans hperm

end Held

end Library
