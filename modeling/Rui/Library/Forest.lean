import Mathlib

/-!
# Forests

Nodes with at most one parent each and no cycle: what is above a node, and the induction up
its chain of parents.
-/

namespace Library

universe u

variable {α : Type u}

/-- Parent links, and a depth that falls along them. -/
structure Forest (α : Type u) where
  parent : α → Option α
  depth : α → Nat
  depth_lt : ∀ child above, parent child = some above → depth above < depth child

namespace Forest

/-- A node is a parent, or a parent's parent, and so on. -/
def Above (forest : Forest α) : α → α → Prop :=
  Relation.TransGen fun child above => forest.parent child = some above

variable {forest : Forest α} {child mid top : α}

theorem Above.parent (h : forest.parent child = some top) : forest.Above child top := .single h

theorem Above.step (h : forest.Above child mid) (hparent : forest.parent mid = some top) :
    forest.Above child top :=
  Relation.TransGen.tail h hparent

theorem Above.depth_lt (h : forest.Above child top) : forest.depth top < forest.depth child := by
  induction h with
  | single hparent => exact forest.depth_lt _ _ hparent
  | tail _ hparent ih => exact (forest.depth_lt _ _ hparent).trans ih

theorem Above.ne (h : forest.Above child top) : child ≠ top := by
  rintro rfl
  exact Nat.lt_irrefl _ h.depth_lt

/-- **The induction up a chain**: what the parent has, and each parent after it, all that is
above has. -/
theorem Above.climb {P : α → Prop} (h : forest.Above child top)
    (start : ∀ above, forest.parent child = some above → P above)
    (onward : ∀ mid, P mid → ∀ above, forest.parent mid = some above → P above) : P top := by
  induction h with
  | single hparent => exact start _ hparent
  | tail _ hparent ih => exact onward _ ih _ hparent

end Forest

end Library
