import Rui.Library.Stack
import Rui.Viewport.Scrolling

/-!
# Where a move ends

Every position is told by the rows above it, and every move adds to them or takes from them.
-/

namespace Rui.Viewport

open Library

/-! ## Lines -/

/-- A line starts at a place: the first, or one after a newline. -/
def IsLine (text : List UInt8) (offset : Nat) : Prop :=
  (offset = 0 ∨ text[offset - 1]? = some newline) ∧ (offset = 0 ∨ offset < text.length)

instance (text : List UInt8) (offset : Nat) : Decidable (IsLine text offset) :=
  inferInstanceAs (Decidable (_ ∧ _))

variable {text : List UInt8} {offset : Nat}

theorem occursAt_newline {i : Nat} : OccursAt [newline] text i ↔ text[i]? = some newline := by
  rw [OccursAt]
  constructor
  · rintro ⟨rest, hrest⟩
    have hget : (text.drop i)[0]? = text[i + 0]? := List.getElem?_drop
    rw [← hrest] at hget
    exact hget.symm
  · intro h
    obtain ⟨hlt, hget⟩ := List.getElem?_eq_some_iff.mp h
    rw [List.drop_eq_getElem_cons hlt, hget]
    exact ⟨_, rfl⟩

theorem lineEnd_spec (text : List UInt8) (offset : Nat) :
    (∀ i, offset ≤ i → i < lineEnd text offset → text[i]? ≠ some newline) ∧
      (lineEnd text offset < text.length → offset ≤ lineEnd text offset ∧
        text[lineEnd text offset]? = some newline) := by
  rw [lineEnd]
  cases hend : indexOfPos [newline] text offset with
  | none =>
    have hnone := (indexOfPos_eq_none (List.cons_ne_nil _ _)).mp hend
    exact ⟨fun i hi _ h => hnone i hi (occursAt_newline.mpr h),
      fun hlt => absurd hlt (Nat.lt_irrefl _)⟩
  | some place =>
    obtain ⟨hle, hocc, hfirst⟩ := (indexOfPos_eq_some (List.cons_ne_nil _ _)).mp hend
    exact ⟨fun i hi hlt h => hfirst i hi hlt (occursAt_newline.mpr h),
      fun _ => ⟨hle, occursAt_newline.mp hocc⟩⟩

theorem nextLine_some {next : Nat} (h : nextLine text offset = some next) :
    offset < next ∧ IsLine text next ∧ ∀ i, offset < i → i < next → ¬ IsLine text i := by
  obtain ⟨hlt, hlength⟩ := nextLine_lt h
  simp only [nextLine] at h
  split at h
  · obtain rfl := Option.some.inj h
    obtain ⟨hnone, hnewline⟩ := lineEnd_spec text offset
    refine ⟨hlt, ⟨.inr (hnewline (by omega)).2, .inr hlength⟩, ?_⟩
    rintro i hi hbefore ⟨hstart | hstart, _⟩
    · omega
    · exact hnone (i - 1) (by omega) (by omega) hstart
  · cases h

theorem nextLine_none (h : nextLine text offset = none) : ∀ i, offset < i → ¬ IsLine text i := by
  simp only [nextLine] at h
  split at h
  · cases h
  · next hend =>
    rintro i hi ⟨hstart | hstart, hlength | hlength⟩
    · omega
    · omega
    · omega
    · exact (lineEnd_spec text offset).1 (i - 1) (by omega) (by omega) hstart

theorem lastIndexOfScalar_none {byte : UInt8} {length : Nat}
    (h : lastIndexOfScalar text byte length = none) : ∀ i < length, text[i]? ≠ some byte := by
  induction length with
  | zero => exact fun _ hi => absurd hi (Nat.not_lt_zero _)
  | succ length ih =>
    rw [lastIndexOfScalar] at h
    split at h
    · cases h
    · next hother =>
      intro i hi
      rcases Nat.lt_succ_iff_lt_or_eq.mp hi with hlt | rfl
      · exact ih h i hlt
      · exact hother

theorem lastIndexOfScalar_some {byte : UInt8} {length place : Nat}
    (h : lastIndexOfScalar text byte length = some place) :
    place < length ∧ text[place]? = some byte ∧
      ∀ i, place < i → i < length → text[i]? ≠ some byte := by
  induction length with
  | zero => cases h
  | succ length ih =>
    rw [lastIndexOfScalar] at h
    split at h
    · next hbyte =>
      obtain rfl := Option.some.inj h
      exact ⟨Nat.lt_succ_self _, hbyte, fun i hi hlt => by omega⟩
    · next hother =>
      obtain ⟨hlt, hbyte, hlast⟩ := ih h
      refine ⟨Nat.lt_succ_of_lt hlt, hbyte, fun i hi hlt => ?_⟩
      rcases Nat.lt_succ_iff_lt_or_eq.mp hlt with hlt | rfl
      · exact hlast i hi hlt
      · exact hother

theorem previousLine_some {previous : Nat} (h : previousLine text offset = some previous)
    (hoffset : offset ≤ text.length + 1)
    (hend : offset = text.length + 1 → text.getLast? ≠ some newline) :
    previous < offset ∧ IsLine text previous ∧ ∀ i, previous < i → i < offset → ¬ IsLine text i := by
  have hbefore := previousLine_lt h
  rw [previousLine] at h
  split at h
  · cases h
  · next hzero =>
    obtain rfl := Option.some.inj h
    refine ⟨hbefore, ?_⟩
    cases hlast : lastIndexOfScalar text newline (offset - 1) with
    | none =>
      refine ⟨⟨.inl rfl, .inl rfl⟩, ?_⟩
      rintro i hi hlt ⟨hstart | hstart, _⟩
      · exact absurd hi (Nat.not_lt.mpr (Nat.le_of_eq hstart))
      · exact lastIndexOfScalar_none hlast (i - 1) (by omega) hstart
    | some place =>
      obtain ⟨hlt, hplace, hlater⟩ := lastIndexOfScalar_some hlast
      simp only [Option.map_some, Option.getD_some]
      refine ⟨⟨.inr hplace, .inr ?_⟩, ?_⟩
      · have hin := (List.getElem?_eq_some_iff.mp hplace).1
        by_contra hout
        have hfull : place = text.length - 1 := by omega
        refine hend (by omega) ?_
        rw [List.getLast?_eq_getElem?, ← hfull]
        exact hplace
      · rintro i hi hbetween ⟨hstart | hstart, _⟩
        · omega
        · exact hlater (i - 1) (by omega) (by omega) hstart

/-! ## The rows above a position -/

/-- The rows of the line at a place, if one starts there. -/
def rowsAt (text : List UInt8) (layout : Layout) (offset : Nat) : Nat :=
  if IsLine text offset then lineRows text layout offset else 0

/-- The rows above a position. -/
def place (text : List UInt8) (layout : Layout) (position : Position) : Nat :=
  above (rowsAt text layout) position.offset + position.row

/-- The rows above the last one. -/
def lastPlace (text : List UInt8) (layout : Layout) : Nat :=
  above (rowsAt text layout) (text.length + 1) - 1

/-- A position on an existing line and one of its rows. -/
def Valid (text : List UInt8) (layout : Layout) (position : Position) : Prop :=
  IsLine text position.offset ∧ position.row < lineRows text layout position.offset

section Places

variable {text : List UInt8} {layout : Layout} {a b : Position}

theorem lineRows_pos (text : List UInt8) (layout : Layout) (offset : Nat) :
    0 < lineRows text layout offset := by
  rw [lineRows]
  split
  · exact Nat.one_pos
  · exact layout.pos offset

variable {offset : Nat} {position : Position} {top : Option Position}

theorem rowsAt_line (h : IsLine text offset) :
    rowsAt text layout offset = lineRows text layout offset := if_pos h

theorem rowsAt_none (h : ¬ IsLine text offset) : rowsAt text layout offset = 0 :=
  if_neg h

theorem Valid.row_lt (h : Valid text layout a) : a.row < rowsAt text layout a.offset := by
  rw [rowsAt_line h.1]
  exact h.2

theorem IsLine.le_length (h : IsLine text offset) : offset ≤ text.length := by
  rcases h.2 with rfl | hlt
  · exact Nat.zero_le _
  · exact Nat.le_of_lt hlt

theorem Valid.place_le (h : Valid text layout a) : place text layout a ≤ lastPlace text layout := by
  have hlt : above (rowsAt text layout) a.offset + a.row <
      above (rowsAt text layout) (text.length + 1) :=
    above_lt h.row_lt (Nat.lt_succ_of_le h.1.le_length)
  rw [place, lastPlace]
  omega

/-- **Positions are told apart** by the rows above them. -/
theorem Valid.eq_of_place (ha : Valid text layout a) (hb : Valid text layout b)
    (h : place text layout a = place text layout b) : a = b := by
  obtain ⟨hoffset, hrow⟩ := above_inj ha.row_lt hb.row_lt h
  cases a
  cases b
  simp only [Position.mk.injEq]
  exact ⟨hoffset, hrow⟩

/-- **Positions are ordered** as the rows above them are. -/
theorem Valid.order_eq (ha : Valid text layout a) (hb : Valid text layout b) :
    a.order b = compare (place text layout a) (place text layout b) := by
  rw [Position.order]
  rcases Nat.lt_trichotomy a.offset b.offset with hlt | heq | hgt
  · have hplace := above_lt ha.row_lt hlt
    rw [Nat.compare_eq_lt.mpr hlt]
    exact (Nat.compare_eq_lt.mpr (by rw [place, place]; omega)).symm
  · rw [Nat.compare_eq_eq.mpr heq, place, place, heq]
    simp only
    rcases Nat.lt_trichotomy a.row b.row with hlt | hrow | hgt
    · rw [Nat.compare_eq_lt.mpr hlt, Nat.compare_eq_lt.mpr (by omega)]
    · rw [Nat.compare_eq_eq.mpr hrow, Nat.compare_eq_eq.mpr (by omega)]
    · rw [Nat.compare_eq_gt.mpr hgt, Nat.compare_eq_gt.mpr (by omega)]
  · have hplace := above_lt hb.row_lt hgt
    rw [Nat.compare_eq_gt.mpr hgt]
    exact (Nat.compare_eq_gt.mpr (by rw [place, place]; omega)).symm

theorem Valid.min_place (ha : Valid text layout a) (hb : Valid text layout b) :
    Valid text layout (a.min b) ∧
      place text layout (a.min b) = min (place text layout a) (place text layout b) := by
  rw [Position.min, ha.order_eq hb]
  split
  · next hgt => exact ⟨hb, (Nat.min_eq_right (Nat.le_of_lt (Nat.compare_eq_gt.mp hgt))).symm⟩
  · next hle => exact ⟨ha, (Nat.min_eq_left (Nat.not_lt.mp fun h => hle (Nat.compare_eq_gt.mpr h))).symm⟩

/-! ## Moves -/

theorem above_nextLine {next : Nat} (hline : IsLine text offset)
    (h : nextLine text offset = some next) : above (rowsAt text layout) next =
      above (rowsAt text layout) offset + lineRows text layout offset := by
  obtain ⟨hlt, _, hnone⟩ := nextLine_some h
  rw [above_next hlt fun i hi hbefore => rowsAt_none (hnone i hi hbefore), rowsAt_line hline]

theorem lastPlace_eq (hline : IsLine text offset) (hnone : ∀ i, offset < i → ¬ IsLine text i) :
    lastPlace text layout =
      above (rowsAt text layout) offset + (lineRows text layout offset - 1) := by
  have hlt : offset < text.length + 1 := Nat.lt_succ_of_le hline.le_length
  have hpos := lineRows_pos text layout offset
  have hlast : above (rowsAt text layout) (text.length + 1) =
      above (rowsAt text layout) offset + rowsAt text layout offset :=
    above_next hlt fun i hi _ => rowsAt_none (hnone i hi)
  rw [lastPlace, hlast, rowsAt_line hline]
  omega

theorem downFrom_place (h : Valid text layout position) (remaining : Nat) :
    Valid text layout (downFrom text layout position remaining) ∧
      place text layout (downFrom text layout position remaining) =
        min (place text layout position + remaining) (lastPlace text layout) := by
  induction position, remaining using downFrom.induct text layout with
  | case1 position =>
    rw [downFrom, if_pos rfl]
    exact ⟨h, (Nat.min_eq_left h.place_le).symm⟩
  | case2 position remaining hmoves used hwithin =>
    have hvalid : Valid text layout { position with row := position.row + remaining } :=
      ⟨h.1, by simp only; omega⟩
    have hplace : place text layout { position with row := position.row + remaining } =
        place text layout position + remaining := (Nat.add_assoc _ _ _).symm
    rw [downFrom, if_neg hmoves]
    dsimp only
    rw [if_pos hwithin]
    exact ⟨hvalid, by rw [← hplace]; exact (Nat.min_eq_left hvalid.place_le).symm⟩
  | case3 position remaining hmoves used hbeyond hnext =>
    have hrow := h.2
    have hlast : lastPlace text layout = above (rowsAt text layout) position.offset +
        (lineRows text layout position.offset - 1) := lastPlace_eq h.1 (nextLine_none hnext)
    rw [downFrom, if_neg hmoves]
    dsimp only
    rw [if_neg hbeyond]
    split
    · refine ⟨⟨h.1, Nat.sub_lt (lineRows_pos text layout _) Nat.one_pos⟩, ?_⟩
      rw [Nat.min_eq_right (by rw [place]; omega), hlast]
      rfl
    · next hsome => cases hnext.symm.trans hsome
  | case4 position remaining hmoves used hbeyond next hnext ih =>
    have hrow := h.2
    obtain ⟨hvalid, hplace⟩ := ih ⟨(nextLine_some hnext).2.1, lineRows_pos text layout next⟩
    have habove : above (rowsAt text layout) next =
        above (rowsAt text layout) position.offset + lineRows text layout position.offset :=
      above_nextLine h.1 hnext
    rw [downFrom, if_neg hmoves]
    dsimp only
    rw [if_neg hbeyond]
    split
    · next hnone => cases hnext.symm.trans hnone
    · next next' hsome =>
      obtain rfl : next = next' := Option.some.inj (hnext.symm.trans hsome)
      refine ⟨hvalid, ?_⟩
      rw [hplace]
      congr 1
      rw [place, place, habove]
      simp only
      omega

theorem upFrom_place (h : Valid text layout position) (remaining : Nat) :
    Valid text layout (upFrom text layout position remaining) ∧
      place text layout (upFrom text layout position remaining) =
        place text layout position - remaining := by
  induction position, remaining using upFrom.induct text layout with
  | case1 position remaining hbeyond hnone =>
    have hzero : position.offset = 0 := by
      rw [previousLine] at hnone
      split at hnone
      · assumption
      · cases hnone
    rw [upFrom, if_pos hbeyond]
    split
    · refine ⟨⟨h.1, lineRows_pos text layout _⟩, ?_⟩
      rw [place, place, hzero, above, Finset.sum_range_zero]
      simp only
      omega
    · next hsome => cases hnone.symm.trans hsome
  | case2 position remaining hbeyond previous hprevious ih =>
    obtain ⟨hlt, hline, hbetween⟩ := previousLine_some hprevious
      (Nat.le_succ_of_le h.1.le_length) (fun hend => absurd h.1.le_length (by omega))
    have hpos := lineRows_pos text layout previous
    obtain ⟨hvalid, hplace⟩ := ih ⟨hline, Nat.sub_lt hpos Nat.one_pos⟩
    have habove : above (rowsAt text layout) position.offset =
        above (rowsAt text layout) previous + rowsAt text layout previous :=
      above_next hlt fun i hi hbefore => rowsAt_none (hbetween i hi hbefore)
    rw [rowsAt_line hline] at habove
    rw [upFrom, if_pos hbeyond]
    split
    · next hnone => cases hprevious.symm.trans hnone
    · next previous' hsome =>
      obtain rfl : previous = previous' := Option.some.inj (hprevious.symm.trans hsome)
      refine ⟨hvalid, ?_⟩
      rw [hplace, place, place, habove]
      simp only
      omega
  | case3 position remaining hwithin =>
    have hrow := h.2
    rw [upFrom, if_neg hwithin]
    refine ⟨⟨h.1, by simp only; omega⟩, ?_⟩
    rw [place, place]
    simp only
    omega

theorem lastRow_place (text : List UInt8) (layout : Layout) :
    Valid text layout (lastRow text layout) ∧
      place text layout (lastRow text layout) = lastPlace text layout := by
  by_cases hempty : text = []
  · subst hempty
    have hline : IsLine [] 0 := ⟨.inl rfl, .inl rfl⟩
    refine ⟨⟨hline, Nat.one_pos⟩, ?_⟩
    rw [lastPlace_eq hline fun i hi hother => absurd hother.le_length (Nat.not_le.mpr hi)]
    rfl
  · have hlength := List.length_pos_iff.mpr hempty
    obtain ⟨from_, hfrom⟩ : ∃ n, n = if text.getLast? = some newline then text.length
      else text.length + 1 := ⟨_, rfl⟩
    have hle : text.length ≤ from_ ∧ from_ ≤ text.length + 1 := by
      rw [hfrom]
      split <;> omega
    obtain ⟨previous, hprevious⟩ : ∃ previous, previousLine text from_ = some previous := by
      rw [previousLine, if_neg (by omega)]
      exact ⟨_, rfl⟩
    have hend : from_ = text.length + 1 → text.getLast? ≠ some newline := by
      intro heq hlast
      rw [hfrom, if_pos hlast] at heq
      omega
    obtain ⟨_, hline, hbetween⟩ := previousLine_some hprevious hle.2 hend
    have hnone : ∀ i, previous < i → ¬ IsLine text i := by
      intro i hi hother
      have hlast := hother.2
      exact hbetween i hi (by omega) hother
    have heq : lastRow text layout = ⟨previous, lineRows text layout previous - 1⟩ := by
      rw [lastRow, if_neg hempty, ← hfrom, hprevious]
      rfl
    rw [heq]
    exact ⟨⟨hline, Nat.sub_lt (lineRows_pos text layout _) Nat.one_pos⟩,
      (lastPlace_eq hline hnone).symm⟩

/-- A position the viewport can hold: at a line of the text, or past it. Its row may be past the
line's, after a resize. -/
def Held (text : List UInt8) (position : Position) : Prop :=
  IsLine text position.offset ∨ text.length ≤ position.offset

theorem clamp_valid (h : Held text position) : Valid text layout (clamp text layout position) := by
  rw [clamp]
  split
  · exact (lastRow_place text layout).1
  · next hin =>
    have hpos := lineRows_pos text layout position.offset
    refine ⟨h.resolve_right hin, ?_⟩
    exact Nat.lt_of_le_of_lt (Nat.min_le_right _ _) (Nat.sub_lt hpos Nat.one_pos)

theorem clamp_eq (h : Valid text layout position) : clamp text layout position = position := by
  rw [clamp]
  split
  · next hout =>
    refine (lastRow_place text layout).1.eq_of_place h ?_
    rw [(lastRow_place text layout).2]
    rcases h.1.2 with hzero | hlt
    · have hempty : text = [] := List.length_eq_zero_iff.mp (by omega)
      subst hempty
      refine (lastPlace_eq h.1 fun i hi hline => ?_).trans ?_
      · exact absurd hline.le_length (Nat.not_le.mpr (by omega))
      · have hrow := h.2
        rw [place]
        rw [lineRows, if_pos rfl] at hrow ⊢
        omega
    · omega
  · have hrow := h.2
    have hmin : min position.row (lineRows text layout position.offset - 1) = position.row :=
      Nat.min_eq_left (by omega)
    rw [hmin]

variable (layout) in
theorem down_place (h : Held text position) (moves : Nat) :
    Valid text layout (down text layout position moves) ∧
      place text layout (down text layout position moves) =
        min (place text layout (clamp text layout position) + moves) (lastPlace text layout) :=
  downFrom_place (clamp_valid h) moves

variable (layout) in
theorem up_place (h : Held text position) (moves : Nat) :
    Valid text layout (up text layout position moves) ∧
      place text layout (up text layout position moves) =
        place text layout (clamp text layout position) - moves :=
  upFrom_place (clamp_valid h) moves

theorem Valid.held (h : Valid text layout position) : Held text position :=
  .inl h.1

theorem bottom_place (text : List UInt8) (layout : Layout) (height : Nat) :
    Valid text layout (bottom text layout height) ∧
      place text layout (bottom text layout height) = lastPlace text layout - (height - 1) := by
  obtain ⟨hvalid, hplace⟩ := lastRow_place text layout
  rw [← hplace, ← clamp_eq hvalid]
  exact up_place layout hvalid.held (height - 1)

variable (layout) in
theorem first_place (htop : ∀ position ∈ top, Held text position) (height : Nat) :
    Valid text layout (first text layout top height) ∧
      place text layout (first text layout top height) =
        min (top.elim (lastPlace text layout) fun position =>
          place text layout (clamp text layout position)) (place text layout (bottom text layout height)) := by
  obtain ⟨hvalid, hplace⟩ := bottom_place text layout height
  cases top with
  | none => exact ⟨hvalid, by rw [Option.elim_none, min_eq_right hvalid.place_le]; rfl⟩
  | some position => exact (clamp_valid (htop position rfl)).min_place hvalid

theorem browse_up (htop : ∀ position ∈ top, Held text position) (rows height : Nat)
    (firstUnseen : Option Position) :
    Valid text layout (browse text layout top false rows height firstUnseen) ∧
      place text layout (browse text layout top false rows height firstUnseen) =
        place text layout (first text layout top height) - rows := by
  obtain ⟨hvalid, _⟩ := first_place layout htop height
  have hup := up_place layout hvalid.held rows
  rw [clamp_eq hvalid] at hup
  exact hup

/-- A move down, to the bottom or the first unseen row at most. -/
theorem browse_down (htop : ∀ position ∈ top, Held text position) (rows height : Nat)
    {firstUnseen : Option Position} (hunseen : ∀ unseen ∈ firstUnseen, Valid text layout unseen) :
    Valid text layout (browse text layout top true rows height firstUnseen) ∧
      place text layout (browse text layout top true rows height firstUnseen) =
        min (min (place text layout (first text layout top height) + rows)
          (place text layout (bottom text layout height)))
          (firstUnseen.elim (lastPlace text layout) (place text layout)) := by
  obtain ⟨hvalid, _⟩ := first_place layout htop height
  obtain ⟨hbottom, _⟩ := bottom_place text layout height
  have hdown := down_place layout hvalid.held rows
  rw [clamp_eq hvalid] at hdown
  obtain ⟨hmoved, hplace⟩ := hdown.1.min_place hbottom
  rw [hdown.2, min_assoc, min_eq_right hbottom.place_le] at hplace
  cases firstUnseen with
  | none =>
    have hlast : min (min (place text layout (first text layout top height) + rows)
        (place text layout (bottom text layout height))) (lastPlace text layout) =
        min (place text layout (first text layout top height) + rows)
          (place text layout (bottom text layout height)) :=
      min_eq_left ((min_le_right _ _).trans hbottom.place_le)
    rw [Option.elim_none, hlast]
    exact ⟨hmoved, hplace⟩
  | some unseen =>
    obtain ⟨hleast, heq⟩ := hmoved.min_place (hunseen unseen rfl)
    rw [hplace] at heq
    exact ⟨hleast, heq⟩

theorem exists_place {n : Nat} (h : n ≤ lastPlace text layout) :
    ∃ position, Valid text layout position ∧ place text layout position = n := by
  have hstart : Valid text layout {} := ⟨⟨.inl rfl, .inl rfl⟩, lineRows_pos text layout 0⟩
  obtain ⟨hvalid, hplace⟩ := downFrom_place hstart n
  refine ⟨_, hvalid, ?_⟩
  rw [hplace, place, above, Finset.sum_range_zero, Nat.zero_add, Nat.zero_add, min_eq_left h]

/-- **Scrolling.** The positions of a text are told by the rows above them, from none to all but
one, and are ordered so. From every position the viewport can hold, every operation ends at a
position: `down` and `up` move by the rows asked for or to the last or first position, back and
forth to the same one; `bottom` shows the last rows; `browse` moves down no further than the bottom
and the first unseen row, and never up unless that row is above it. -/
theorem scrolling_moves (text : List UInt8) (layout : Layout) (top : Option Position)
    (htop : ∀ position ∈ top, Held text position) (height : Nat) :
    let rank := place text layout
    let last := lastPlace text layout
    let current := first text layout top height
    (∀ a b, Valid text layout a → Valid text layout b →
      a.order b = compare (rank a) (rank b) ∧ (rank a = rank b → a = b) ∧ rank a ≤ last) ∧
    (∀ n ≤ last, ∃ position, Valid text layout position ∧ rank position = n) ∧
    (∀ position, Held text position →
      let start := clamp text layout position
      Valid text layout start ∧ (Valid text layout position → start = position) ∧
      ∀ moves,
        (Valid text layout (down text layout position moves) ∧
          rank (down text layout position moves) = min (rank start + moves) last) ∧
        (Valid text layout (up text layout position moves) ∧
          rank (up text layout position moves) = rank start - moves) ∧
        (rank start + moves ≤ last →
          up text layout (down text layout position moves) moves = start) ∧
        (moves ≤ rank start → down text layout (up text layout position moves) moves = start)) ∧
    (Valid text layout (bottom text layout height) ∧
      rank (bottom text layout height) = last - (height - 1)) ∧
    (Valid text layout current ∧ rank current = min
      (top.elim last fun position => rank (clamp text layout position))
      (rank (bottom text layout height))) ∧
    (∀ rows firstUnseen,
      Valid text layout (browse text layout top false rows height firstUnseen) ∧
      rank (browse text layout top false rows height firstUnseen) = rank current - rows) ∧
    (∀ rows firstUnseen, (∀ unseen ∈ firstUnseen, Valid text layout unseen) →
      let moved := browse text layout top true rows height firstUnseen
      Valid text layout moved ∧
      rank moved = min (min (rank current + rows) (rank (bottom text layout height)))
        (firstUnseen.elim last rank) ∧
      (∀ unseen ∈ firstUnseen, rank moved ≤ rank unseen) ∧
      ((∀ unseen ∈ firstUnseen, rank current ≤ rank unseen) → rank current ≤ rank moved)) := by
  intro rank last current
  have hcurrent := first_place layout htop height
  refine ⟨fun a b ha hb => ⟨ha.order_eq hb, ha.eq_of_place hb, ha.place_le⟩,
    fun n => exists_place, ?_, bottom_place text layout height, hcurrent,
    fun rows firstUnseen => browse_up htop rows height firstUnseen, ?_⟩
  · intro position hheld start
    have hstart : Valid text layout start := clamp_valid hheld
    refine ⟨hstart, clamp_eq, fun moves => ?_⟩
    obtain ⟨hdown, hrank⟩ := down_place layout hheld moves
    obtain ⟨hup, hrank'⟩ := up_place layout hheld moves
    refine ⟨⟨hdown, hrank⟩, ⟨hup, hrank'⟩, fun hlast => ?_, fun hmoves => ?_⟩
    · obtain ⟨hback, hsame⟩ := up_place layout hdown.held moves
      refine hback.eq_of_place hstart ?_
      rw [hsame, clamp_eq hdown, hrank, min_eq_left hlast]
      exact Nat.add_sub_cancel _ _
    · obtain ⟨hback, hsame⟩ := down_place layout hup.held moves
      refine hback.eq_of_place hstart ?_
      rw [hsame, clamp_eq hup, hrank', Nat.sub_add_cancel hmoves]
      exact min_eq_left hstart.place_le
  · intro rows firstUnseen hunseen moved
    obtain ⟨hmoved, hrank⟩ := browse_down htop rows height hunseen
    refine ⟨hmoved, hrank, fun unseen hmem => ?_, fun habove => ?_⟩
    · obtain rfl : firstUnseen = some unseen := hmem
      exact (Nat.le_of_eq hrank).trans (min_le_right _ _)
    · have hbottom : rank current ≤ rank (bottom text layout height) :=
        (Nat.le_of_eq hcurrent.2).trans (min_le_right _ _)
      refine Nat.le_trans ?_ (Nat.le_of_eq hrank.symm)
      refine le_min (le_min (Nat.le_add_right _ _) hbottom) ?_
      cases firstUnseen with
      | none => exact hcurrent.1.place_le
      | some unseen => exact habove unseen rfl

end Places

/-- Two rows for each line, three for the second. -/
def wrapped : Layout := ⟨fun offset => if offset = 2 then 3 else 2, fun offset => by split <;> decide⟩

/-- Three lines of seven rows: four rows down from the second line and back, and two rows in view
that stop at the first unseen one. -/
theorem scrolling_moves_wrapped :
    let text := [97, newline, 98, newline, 99, newline]
    place text wrapped (down text wrapped ⟨2, 0⟩ 4) = 6 ∧
      up text wrapped (down text wrapped ⟨2, 0⟩ 4) 4 = ⟨2, 0⟩ ∧
      browse text wrapped (some ⟨2, 0⟩) true 4 2 none = ⟨4, 0⟩ ∧
      browse text wrapped (some ⟨2, 0⟩) true 4 2 (some ⟨2, 2⟩) = ⟨2, 2⟩ := by
  intro text
  have hheld : Held text ⟨2, 0⟩ := .inl (by decide)
  have hstart : Valid text wrapped ⟨2, 0⟩ := ⟨by decide, by decide⟩
  have hunseen : Valid text wrapped ⟨2, 2⟩ := ⟨by decide, by decide⟩
  have hlast : Valid text wrapped ⟨4, 0⟩ := ⟨by decide, by decide⟩
  have hrank : place text wrapped ⟨2, 0⟩ = 2 := by decide
  have hmost : lastPlace text wrapped = 6 := by decide
  obtain ⟨hsame, -, hmoves, ⟨-, hbottom⟩, ⟨-, hcurrent⟩, -, hbrowse⟩ :=
    scrolling_moves text wrapped (some ⟨2, 0⟩) (by rintro _ ⟨⟩; exact hheld) 2
  obtain ⟨-, hclamp, hdown⟩ := hmoves _ hheld
  obtain ⟨⟨-, hlower⟩, -, hback, -⟩ := hdown 4
  rw [hclamp hstart] at hlower hback
  rw [Option.elim_some, hclamp hstart, hbottom, hmost, hrank] at hcurrent
  refine ⟨?_, ?_, ?_, ?_⟩
  · rw [hlower, hrank, hmost]
    rfl
  · exact hback (by rw [hrank, hmost])
  · obtain ⟨hvalid, hplace, -⟩ := hbrowse 4 none (by rintro _ ⟨⟩)
    refine (hsame _ _ hvalid hlast).2.1 ?_
    rw [hplace, hcurrent, hbottom, Option.elim_none, hmost]
    decide
  · obtain ⟨hvalid, hplace, -⟩ := hbrowse 4 (some ⟨2, 2⟩) (by rintro _ ⟨⟩; exact hunseen)
    refine (hsame _ _ hvalid hunseen).2.1 ?_
    rw [hplace, hcurrent, hbottom, Option.elim_some, hmost]
    decide

/-- One row for each line. -/
def plainLayout : Layout := ⟨fun _ => 1, fun _ => Nat.one_pos⟩

/-- A layout that changed has reading start over: the first unseen row is the first, above the
third line, and a move down goes up to it. -/
theorem scrolling_moves_up :
    let text := [97, newline, 98, newline, 99, newline]
    let moved := browse text plainLayout (some ⟨4, 0⟩) true 1 1 (some {})
    first text plainLayout (some ⟨4, 0⟩) 1 = ⟨4, 0⟩ ∧ moved = {} ∧
      moved.order (first text plainLayout (some ⟨4, 0⟩) 1) = .lt := by
  intro text moved
  have hvalid : Valid text plainLayout ⟨4, 0⟩ := ⟨by decide, by decide⟩
  have hlast : lastRow text plainLayout = ⟨4, 0⟩ := by decide
  have hbottom : bottom text plainLayout 1 = ⟨4, 0⟩ := by
    rw [bottom, up, hlast, clamp_eq hvalid, upFrom]
    rfl
  have hfirst : first text plainLayout (some ⟨4, 0⟩) 1 = ⟨4, 0⟩ := by
    rw [first, hbottom, clamp_eq hvalid]
    rfl
  have hdown : down text plainLayout ⟨4, 0⟩ 1 = ⟨4, 0⟩ := by
    rw [down, clamp_eq hvalid, downFrom]
    rfl
  have hmoved : moved = {} := by
    simp only [moved, browse, hfirst, hdown, hbottom]
    rfl
  rw [hmoved, hfirst]
  exact ⟨rfl, rfl, rfl⟩

end Rui.Viewport
