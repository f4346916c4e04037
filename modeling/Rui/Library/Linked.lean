import Mathlib

/-!
# Lists linked through their nodes

The nodes that a list threads through a `next` pointer each: what a write to
one node leaves of a list, and what putting a node at either end makes of it.
-/

namespace Library

universe u

variable {τ : Type u}

/-- The list from a pointer is `nodes`. -/
def Linked (next : τ → Option τ) : Option τ → List τ → Prop
  | pointer, [] => pointer = none
  | pointer, node :: rest => pointer = some node ∧ Linked next (next node) rest

namespace Linked

variable {next next' : τ → Option τ} {pointer : Option τ} {nodes : List τ}

theorem nil : Linked next none [] := rfl

theorem eq_nil (h : Linked next none nodes) : nodes = [] := by
  cases nodes with
  | nil => rfl
  | cons node rest => cases h.1

theorem eq_cons {node : τ} (h : Linked next (some node) nodes) :
    ∃ rest, nodes = node :: rest ∧ Linked next (next node) rest := by
  cases nodes with
  | nil => cases h
  | cons first rest =>
    obtain ⟨hfirst, hrest⟩ := h
    cases hfirst
    exact ⟨rest, rfl, hrest⟩

theorem congr (h : Linked next pointer nodes) (hsame : ∀ node ∈ nodes, next' node = next node) :
    Linked next' pointer nodes := by
  induction nodes generalizing pointer with
  | nil => exact h
  | cons node rest ih =>
    refine ⟨h.1, ?_⟩
    rw [hsame node List.mem_cons_self]
    exact ih h.2 fun other hother => hsame other (List.mem_cons_of_mem _ hother)

theorem cons (h : Linked next pointer nodes) {node : τ} (hnode : next' node = pointer)
    (hsame : ∀ other ∈ nodes, next' other = next other) :
    Linked next' (some node) (node :: nodes) := by
  refine ⟨rfl, ?_⟩
  rw [hnode]
  exact h.congr hsame

theorem concat (h : Linked next pointer nodes) (hdistinct : nodes.Nodup) {node : τ}
    (hnode : next' node = none) (hlast : ∀ last, nodes.getLast? = some last → next' last = some node)
    (hsame : ∀ other ∈ nodes, nodes.getLast? ≠ some other → next' other = next other) :
    Linked next' (if nodes = [] then some node else pointer) (nodes ++ [node]) := by
  induction nodes generalizing pointer with
  | nil => exact ⟨rfl, hnode⟩
  | cons first rest ih =>
    rw [if_neg (List.cons_ne_nil _ _)]
    refine ⟨h.1, ?_⟩
    have hrest := List.nodup_cons.mp hdistinct
    cases rest with
    | nil => exact ⟨hlast first rfl, hnode⟩
    | cons second rest =>
      have hlast' : (first :: second :: rest).getLast? = (second :: rest).getLast? := rfl
      rw [hlast'] at hlast hsame
      have hfirst : next' first = next first := by
        apply hsame first List.mem_cons_self
        intro heq
        exact hrest.1 (List.mem_of_getLast? heq)
      have hgo := ih h.2 hrest.2 hlast fun other hother =>
        hsame other (List.mem_cons_of_mem _ hother)
      rw [if_neg (List.cons_ne_nil _ _)] at hgo
      rw [hfirst]
      exact hgo

end Linked

end Library
