import Rui.Library.Characters
import Rui.WordSearch.Matcher

/-!
# Snippets

What a snippet shows of a text: a window whose valid characters are kept whole, whose other
bytes are masked, and which leaves out only the characters that cross its ends. The loop of
`cut` starts three bytes before the window, where a crossing character can begin.
-/

namespace Rui.WordSearch

open Library

variable {bytes : List UInt8} {start stop : Nat}

/-- A byte is one of a valid character's. -/
def Covers (bytes : List UInt8) (x q : Nat) (char : List UInt8) : Prop :=
  charAt bytes q = some char ∧ q ≤ x ∧ x < q + char.length

/-- A byte of a character that crosses an end of the window. -/
def LeftOut (bytes : List UInt8) (start stop x : Nat) : Prop :=
  ∃ q char, Covers bytes x q char ∧ (q < start ∨ stop < q + char.length)

/-- What a byte of the window shows as. -/
def ShowsAs (bytes : List UInt8) (x : Nat) (byte : UInt8) : Prop :=
  (∃ q char, Covers bytes x q char) ∧ bytes[x]? = some byte ∨
    (¬ ∃ q char, Covers bytes x q char) ∧ byte = ascii '?'

/-- A snippet that begins at a place of the window. -/
structure Snippet (bytes : List UInt8) (start stop first : Nat) (snippet : List UInt8) :
    Prop where
  first_ge : start ≤ first
  last_le : first + snippet.length ≤ stop
  window : ∀ x, start ≤ x → x < stop →
    (first ≤ x ∧ x < first + snippet.length ↔ ¬ LeftOut bytes start stop x)
  shows : ∀ i byte, snippet[i]? = some byte → ShowsAs bytes (first + i) byte
  valid : utf8Validate snippet = true

/-- The loop of `cut` at a place, after which it has shown these bytes. -/
structure Cutting (bytes : List UInt8) (start stop p first : Nat) (snippet : List UInt8) :
    Prop where
  reach : start - 3 ≤ p
  p_le : p ≤ stop
  boundary : ∀ q char, charAt bytes q = some char → start - 3 ≤ q → q < p →
    q + char.length ≤ p
  first_ge : start ≤ first
  ends : first + snippet.length = max start p
  before : ∀ x, start ≤ x → x < first → LeftOut bytes start stop x
  inside : ∀ x, first ≤ x → x < first + snippet.length → ¬ LeftOut bytes start stop x
  shows : ∀ i byte, snippet[i]? = some byte → ShowsAs bytes (first + i) byte
  characters : Characters snippet

variable {p first : Nat} {snippet : List UInt8}

/-- A character that covers a byte from a boundary on begins from it on. -/
theorem Cutting.le_of_covers {x q : Nat} {char : List UInt8}
    (h : Cutting bytes start stop p first snippet) (hx : p ≤ x) (hstart : start ≤ x)
    (hcovers : Covers bytes x q char) : p ≤ q := by
  obtain ⟨hchar, -, hlt⟩ := hcovers
  have hlength := (charAt_eq_some.mp hchar).1.length_bounds.2
  by_contra hbefore
  have hends := h.boundary q char hchar (by omega) (by omega)
  omega

theorem Cutting.init (h : start ≤ stop) : Cutting bytes start stop (start - 3) start [] where
  reach := le_rfl
  p_le := by omega
  boundary _ _ _ hge hlt := absurd hge (by omega)
  first_ge := le_rfl
  ends := by simp
  before _ hge hlt := absurd hge (by omega)
  inside _ hge hlt := absurd hge (by simp at hlt; omega)
  shows _ _ hsome := by cases hsome
  characters := .nil

/-- Past a character or a byte that begins none, the loop is at a boundary. -/
theorem Cutting.boundary_step (h : Cutting bytes start stop p first snippet) :
    ∀ q char, charAt bytes q = some char → start - 3 ≤ q →
      q < p + ((charAt bytes p).map List.length).getD 1 →
        q + char.length ≤ p + ((charAt bytes p).map List.length).getD 1 := by
  intro q char hchar hge hlt
  rcases Nat.lt_trichotomy q p with hbefore | rfl | hafter
  · have hends := h.boundary q char hchar hge hbefore
    omega
  · rw [hchar]
    exact le_rfl
  · cases hat : charAt bytes p with
    | none =>
      rw [hat, Option.map_none, Option.getD_none] at hlt
      omega
    | some char' =>
      have hends := charAt_disjoint hat hchar hafter
      rw [hat, Option.map_some, Option.getD_some] at hlt
      omega

theorem Cutting.skip (h : Cutting bytes start stop p start []) (hp : p < start)
    (hstop : stop = min bytes.length (start + snippetBytes)) (hlt : start < stop) :
    Cutting bytes start stop (p + ((charAt bytes p).map List.length).getD 1)
      (max start (p + ((charAt bytes p).map List.length).getD 1)) [] := by
  have hwidth : p + ((charAt bytes p).map List.length).getD 1 ≤ stop := by
    cases hat : charAt bytes p with
    | none =>
      rw [Option.map_none, Option.getD_none]
      omega
    | some char =>
      have hle := charAt_le hat
      have hlength := (charAt_eq_some.mp hat).1.length_bounds.2
      rw [snippetBytes] at hstop
      rw [Option.map_some, Option.getD_some]
      omega
  refine ⟨by have := h.reach; omega, hwidth, h.boundary_step, le_max_left _ _, rfl, ?_, ?_, ?_, .nil⟩
  · intro x hge hbelow
    cases hat : charAt bytes p with
    | none =>
      rw [hat, Option.map_none, Option.getD_none] at hbelow
      omega
    | some char =>
      rw [hat, Option.map_some, Option.getD_some] at hbelow
      exact ⟨p, char, ⟨hat, by omega, by omega⟩, .inl hp⟩
  · intro x hge hbelow
    rw [List.length_nil] at hbelow
    omega
  · intro i byte hsome
    cases hsome

theorem Cutting.keep (h : Cutting bytes start stop p first snippet) (hp : start ≤ p)
    (hlt : p < stop) (hends : ∀ char, charAt bytes p = some char → p + char.length ≤ stop) :
    Cutting bytes start stop (p + ((charAt bytes p).map List.length).getD 1) first
      (snippet ++ (charAt bytes p).getD [ascii '?']) := by
  have hcount : ((charAt bytes p).getD [ascii '?']).length =
      ((charAt bytes p).map List.length).getD 1 := by
    cases charAt bytes p <;> rfl
  have hend := h.ends
  rw [max_eq_right hp] at hend
  have hcovers : ∀ x q char, p ≤ x → x < p + ((charAt bytes p).map List.length).getD 1 →
      Covers bytes x q char → q = p ∧ charAt bytes p = some char := by
    intro x q char hx hbelow hcover
    have hge := h.le_of_covers hx (by omega) hcover
    obtain ⟨hchar, hle, hinside⟩ := hcover
    rcases Nat.lt_or_eq_of_le hge with hafter | rfl
    · cases hat : charAt bytes p with
      | none =>
        rw [hat, Option.map_none, Option.getD_none] at hbelow
        omega
      | some char' =>
        have hdisjoint := charAt_disjoint hat hchar hafter
        rw [hat, Option.map_some, Option.getD_some] at hbelow
        omega
    · exact ⟨rfl, hchar⟩
  refine ⟨by have := h.reach; omega, ?_, h.boundary_step, h.first_ge, ?_, h.before, ?_, ?_, ?_⟩
  · cases hat : charAt bytes p with
    | none =>
      rw [Option.map_none, Option.getD_none]
      omega
    | some char =>
      rw [Option.map_some, Option.getD_some]
      exact hends char hat
  · rw [List.length_append, hcount]
    omega
  · intro x hge hbelow
    rw [List.length_append, hcount] at hbelow
    by_cases hold : x < first + snippet.length
    · exact h.inside x hge hold
    · rintro ⟨q, char, hcover, hcross⟩
      obtain ⟨rfl, hat⟩ := hcovers x q char (by omega) (by omega) hcover
      have := hends char hat
      omega
  · intro i byte hsome
    by_cases hold : i < snippet.length
    · rw [List.getElem?_append_left hold] at hsome
      exact h.shows i byte hsome
    · rw [List.getElem?_append_right (Nat.not_lt.mp hold)] at hsome
      have hplace : first + i = p + (i - snippet.length) := by omega
      rw [hplace]
      obtain ⟨hi, -⟩ := List.getElem?_eq_some_iff.mp hsome
      rw [hcount] at hi
      cases hat : charAt bytes p with
      | none =>
        rw [hat, Option.map_none, Option.getD_none] at hi
        obtain hzero : i - snippet.length = 0 := by omega
        rw [hat, Option.getD_none, hzero] at hsome
        rw [hzero, Nat.add_zero]
        refine .inr ⟨?_, (Option.some.inj hsome).symm⟩
        rintro ⟨q, char, hcover⟩
        obtain ⟨-, hsame⟩ := hcovers p q char le_rfl (by rw [hat]; simp) hcover
        rw [hat] at hsame
        cases hsame
      | some char =>
        rw [hat, Option.map_some, Option.getD_some] at hi
        rw [hat, Option.getD_some, charAt_getElem? hat hi] at hsome
        exact .inl ⟨⟨p, char, hat, by omega, by omega⟩, hsome⟩
  · refine h.characters.append (.single ?_)
    cases hat : charAt bytes p with
    | none => exact isCharacter_ascii (by decide)
    | some char => exact (charAt_eq_some.mp hat).1

theorem Cutting.done (h : Cutting bytes start stop p first snippet)
    (hrest : ∀ x, start ≤ x → p ≤ x → x < stop → LeftOut bytes start stop x) (hstop : start ≤ stop) :
    Snippet bytes start stop first snippet where
  first_ge := h.first_ge
  last_le := by
    have := h.ends
    have := h.p_le
    omega
  window x hge hlt := by
    have hends := h.ends
    constructor
    · rintro ⟨hfirst, hlast⟩
      exact h.inside x hfirst hlast
    · intro hnot
      refine ⟨?_, ?_⟩
      · by_contra hbefore
        exact hnot (h.before x hge (Nat.not_le.mp hbefore))
      · by_contra hafter
        exact hnot (hrest x hge (by omega) hlt)
  shows := h.shows
  valid := h.characters.valid

theorem Snippet.at_stop (h : Snippet bytes start stop first []) :
    Snippet bytes start stop stop [] where
  first_ge := h.first_ge.trans h.last_le
  last_le := le_rfl
  window x hge hlt := by
    have hwindow := h.window x hge hlt
    rw [List.length_nil] at hwindow ⊢
    rw [← hwindow]
    omega
  shows _ _ hsome := by cases hsome
  valid := rfl

/-- **The loop of `cut` shows a snippet.** -/
theorem shownFrom_snippet {self : Matcher}
    (hread : ∀ p, start - 3 ≤ p → p < stop → self.sequenceAt p = charAt bytes p)
    (hstop : stop = min bytes.length (start + snippetBytes)) (hlt : start < stop) {fuel p : Nat}
    {shown : Option Nat} {snippet : List UInt8} (hfuel : stop - p ≤ fuel)
    (hnone : shown = none → snippet = []) (hshown : shown ≠ none → start ≤ p)
    (h : Cutting bytes start stop p (shown.getD (max start p)) snippet) :
    Snippet bytes start stop ((self.shownFrom start stop fuel p shown snippet).1.getD stop)
      (self.shownFrom start stop fuel p shown snippet).2 := by
  -- What the loop has shown when nothing of the window is left for it.
  have hdone : ∀ {p : Nat} {shown : Option Nat} {snippet : List UInt8},
      (shown = none → snippet = []) →
      Cutting bytes start stop p (shown.getD (max start p)) snippet →
      (∀ x, start ≤ x → p ≤ x → x < stop → LeftOut bytes start stop x) →
      Snippet bytes start stop (shown.getD stop) snippet := by
    intro p shown snippet hnone h hrest
    have hsnippet := h.done hrest hlt.le
    cases shown with
    | none =>
      obtain rfl := hnone rfl
      exact hsnippet.at_stop
    | some first => exact hsnippet
  induction fuel generalizing p shown snippet with
  | zero => exact hdone hnone h fun x _ hge hbelow => absurd hbelow (by omega)
  | succ fuel ih =>
    rw [Matcher.shownFrom]
    by_cases hp : p < stop
    swap
    · rw [if_neg hp]
      exact hdone hnone h fun x _ hge hbelow => absurd hbelow (by omega)
    have hat := hread p h.reach hp
    have hwidth : 1 ≤ ((charAt bytes p).map List.length).getD 1 := by
      cases hchar : charAt bytes p with
      | none => exact le_rfl
      | some char => exact (charAt_eq_some.mp hchar).1.length_bounds.1
    rw [if_pos hp]
    simp only [hat]
    by_cases hstart : start ≤ p
    · rw [if_pos hstart]
      by_cases hcross : (charAt bytes p).isSome = true ∧
          stop < p + ((charAt bytes p).map List.length).getD 1
      · rw [if_pos hcross]
        refine hdone hnone h fun x hge hx hbelow => ?_
        obtain ⟨char, hchar⟩ := Option.isSome_iff_exists.mp hcross.1
        rw [hchar, Option.map_some, Option.getD_some] at hcross
        exact ⟨p, char, ⟨hchar, hx, by omega⟩, .inr hcross.2⟩
      · rw [if_neg hcross]
        have hkeep := h.keep hstart hp (fun char hchar => by
          rw [hchar, Option.map_some, Option.getD_some] at hcross
          exact Nat.not_lt.mp fun hlarge => hcross ⟨rfl, hlarge⟩)
        refine ih (by omega) (fun hsome => (by cases hsome)) (fun _ => by omega) ?_
        cases shown with
        | none =>
          rw [Option.getD_none, max_eq_right hstart] at hkeep
          exact hkeep
        | some first => exact hkeep
    · rw [if_neg hstart]
      have hbefore : p < start := Nat.not_le.mp hstart
      obtain rfl : shown = none := by_contra fun hsome => hstart (hshown hsome)
      obtain rfl := hnone rfl
      rw [Option.getD_none, max_eq_left hbefore.le] at h
      exact ih (by omega) (fun _ => rfl) (fun hsome => absurd rfl hsome) (h.skip hbefore hstop hlt)

end Rui.WordSearch
