import Mathlib

/-!
# Answer selection

`AnswerSelection` of `output_decode.zig`: which accepted message is a response's
answer. A message's text comes in parts, decoded piece by piece; the selection
sees its length, its digest and whether it holds anything but whitespace. The
answer does not depend on how phased and unphased messages interleave.
-/

namespace Rui.Answers

/-! ## A message's text -/

/-- Unicode White_Space. -/
def isWhitespace (scalar : Nat) : Bool :=
  (0x09 ≤ scalar && scalar ≤ 0x0d) || scalar == 0x20 || scalar == 0x85 || scalar == 0xa0 ||
    scalar == 0x1680 || (0x2000 ≤ scalar && scalar ≤ 0x200a) || scalar == 0x2028 ||
    scalar == 0x2029 || scalar == 0x202f || scalar == 0x205f || scalar == 0x3000

/-- One decoded scalar, or a run of plain ASCII. -/
inductive Piece
  | scalar (value : Nat) (bytes : List UInt8)
  | run (bytes : List UInt8)

def Piece.bytes : Piece → List UInt8
  | .scalar _ bytes => bytes
  | .run bytes => bytes

def Piece.isBlank : Piece → Bool
  | .scalar value _ => isWhitespace value
  | .run bytes => bytes.all fun byte => isWhitespace byte.toNat

/-- What is kept of the text decoded so far; a hash is the bytes it was given. -/
structure Sink where
  hashed : List UInt8 := []
  length : Nat := 0
  nonWhitespace : Bool := false

def Sink.append (self : Sink) (piece : Piece) : Sink where
  hashed := self.hashed ++ piece.bytes
  length := self.length + piece.bytes.length
  nonWhitespace := if !self.nonWhitespace then !piece.isBlank else self.nonWhitespace

/-- `Decoded.of`. -/
def decoded (part : List Piece) : Sink := part.foldl .append {}

/-- A part of a message, behind the parts before it. -/
def Sink.addPart (self : Sink) (part : List Piece) : Sink where
  hashed := self.hashed ++ (decoded part).hashed
  length := self.length + (decoded part).length
  nonWhitespace := self.nonWhitespace || (decoded part).nonWhitespace

inductive Phase
  | unphased
  | commentary
  | finalAnswer
  deriving DecidableEq, Repr

/-- An accepted message, with its text in parts. -/
structure Item where
  ordinal : Nat
  phase : Phase
  parts : List (List Piece)

/-! ## The selection -/

variable {δ : Type}

/-- An accepted message, as answer selection reads it. -/
structure Message (δ : Type) where
  ordinal : Nat
  phase : Phase
  length : Nat
  digest : δ
  nonWhitespace : Bool

def Item.message (contentDigest : List UInt8 → δ) (self : Item) : Message δ :=
  let text := self.parts.foldl Sink.addPart {}
  { ordinal := self.ordinal
    phase := self.phase
    length := text.length
    digest := contentDigest text.hashed
    nonWhitespace := text.nonWhitespace }

structure AnswerSelection (δ : Type) where
  ordinal : Option Nat := none
  length : Nat := 0
  digest : δ
  phased : Bool := false
  finals : Nat := 0

def AnswerSelection.accept (contentDigest : List UInt8 → δ) (self : AnswerSelection δ)
    (message : Message δ) : AnswerSelection δ :=
  let phased := self.phased || message.phase ≠ .unphased
  let finals := if message.phase = .finalAnswer then self.finals + 1 else self.finals
  if message.phase = .finalAnswer ∨ (!phased ∧ message.phase = .unphased) then
    { ordinal := some message.ordinal
      length := if message.nonWhitespace then message.length else 0
      digest := if message.nonWhitespace then message.digest else contentDigest []
      phased, finals }
  -- an unphased candidate is retracted, a final one is not
  else if phased ∧ finals = 0 then
    { ordinal := none, length := 0, digest := contentDigest [], phased, finals }
  else { self with phased, finals }

/-- The selection over the messages of a response, in order. -/
def select (contentDigest : List UInt8 → δ) (items : List Item) : AnswerSelection δ :=
  items.foldl (fun self item => self.accept contentDigest (item.message contentDigest))
    { digest := contentDigest [] }

/-! ## What is selected -/

def Item.text (self : Item) : List UInt8 := self.parts.flatten.flatMap Piece.bytes

def Item.isBlank (self : Item) : Bool := self.parts.flatten.all Piece.isBlank

/-- The text an answer is kept with: nothing of one that is only whitespace. -/
def Item.kept (self : Item) : List UInt8 := if self.isBlank then [] else self.text

def Item.isPhased (self : Item) : Bool := self.phase ≠ .unphased

def Item.isFinal (self : Item) : Bool := self.phase = .finalAnswer

/-- The answer among a response's messages. -/
def answer (items : List Item) : Option Item :=
  if items.any Item.isPhased then (items.filter Item.isFinal).getLast? else items.getLast?

theorem decoded_eq (part : List Piece) :
    (decoded part).hashed = part.flatMap Piece.bytes ∧
      (decoded part).length = (part.flatMap Piece.bytes).length ∧
      (decoded part).nonWhitespace = !part.all Piece.isBlank := by
  induction part using List.reverseRecOn with
  | nil => exact ⟨rfl, rfl, rfl⟩
  | append_singleton part piece ih =>
    have hdecoded : decoded (part ++ [piece]) = (decoded part).append piece := by
      rw [decoded, decoded, List.foldl_append, List.foldl_cons, List.foldl_nil]
    obtain ⟨hhashed, hlength, hblank⟩ := ih
    rw [hdecoded]
    refine ⟨?_, ?_, ?_⟩
    · simp [Sink.append, hhashed]
    · simp [Sink.append, hlength]
    · simp only [Sink.append, hblank, List.all_append, List.all_cons, List.all_nil, Bool.and_true]
      cases part.all Piece.isBlank <;> simp

/-- **A message is its text**, however that was divided. -/
theorem message_eq (contentDigest : List UInt8 → δ) (item : Item) :
    item.message contentDigest =
      ⟨item.ordinal, item.phase, item.text.length, contentDigest item.text, !item.isBlank⟩ := by
  have htext : ∀ parts : List (List Piece),
      (parts.foldl Sink.addPart {}).hashed = parts.flatten.flatMap Piece.bytes ∧
        (parts.foldl Sink.addPart {}).length = (parts.flatten.flatMap Piece.bytes).length ∧
        (parts.foldl Sink.addPart {}).nonWhitespace = !parts.flatten.all Piece.isBlank := by
    intro parts
    induction parts using List.reverseRecOn with
    | nil => exact ⟨rfl, rfl, rfl⟩
    | append_singleton parts part ih =>
      obtain ⟨hhashed, hlength, hblank⟩ := ih
      obtain ⟨hhashed', hlength', hblank'⟩ := decoded_eq part
      rw [List.foldl_append, List.foldl_cons, List.foldl_nil]
      refine ⟨?_, ?_, ?_⟩
      · simp [Sink.addPart, hhashed, hhashed']
      · simp [Sink.addPart, hlength, hlength']
      · simp [Sink.addPart, hblank, hblank']
  obtain ⟨hhashed, hlength, hblank⟩ := htext item.parts
  simp only [Item.message, hhashed, hlength, hblank, Item.text, Item.isBlank]

theorem select_append (contentDigest : List UInt8 → δ) (items : List Item) (item : Item) :
    select contentDigest (items ++ [item]) =
      (select contentDigest items).accept contentDigest (item.message contentDigest) := by
  rw [select, select, List.foldl_append, List.foldl_cons, List.foldl_nil]

theorem select_flags (contentDigest : List UInt8 → δ) (items : List Item) :
    (select contentDigest items).phased = items.any Item.isPhased ∧
      (select contentDigest items).finals = (items.filter Item.isFinal).length := by
  induction items using List.reverseRecOn with
  | nil => exact ⟨rfl, rfl⟩
  | append_singleton items item ih =>
    obtain ⟨hphased, hfinals⟩ := ih
    have hflags : ∀ self : AnswerSelection δ,
        (self.accept contentDigest (item.message contentDigest)).phased =
            (self.phased || item.isPhased) ∧
          (self.accept contentDigest (item.message contentDigest)).finals =
            self.finals + if item.isFinal then 1 else 0 := by
      intro self
      simp only [AnswerSelection.accept, message_eq, Item.isPhased, Item.isFinal]
      by_cases hfinal : item.phase = .finalAnswer
      · simp [hfinal]
      · simp only [hfinal, false_or, if_false, decide_false, Bool.false_eq_true, Nat.add_zero]
        split
        · exact ⟨rfl, rfl⟩
        · split <;> exact ⟨rfl, rfl⟩
    rw [select_append, (hflags _).1, (hflags _).2, hphased, hfinals, List.any_append,
      List.filter_append]
    refine ⟨by simp, ?_⟩
    cases hfinal : item.isFinal <;> simp [hfinal]

theorem isPhased_of_isFinal {item : Item} (h : item.isFinal = true) : item.isPhased = true := by
  simp only [Item.isFinal, Item.isPhased, decide_eq_true_eq] at h ⊢
  intro hphase
  rw [h] at hphase
  cases hphase

theorem any_phased_of_final {items : List Item} (h : (items.filter Item.isFinal).length ≠ 0) :
    items.any Item.isPhased = true := by
  obtain ⟨item, hitem⟩ := List.exists_mem_of_length_pos (Nat.pos_of_ne_zero h)
  obtain ⟨hmem, hfinal⟩ := List.mem_filter.mp hitem
  exact List.any_eq_true.mpr ⟨item, hmem, isPhased_of_isFinal hfinal⟩

theorem answer_append (items : List Item) (item : Item) :
    answer (items ++ [item]) =
      if item.isFinal then some item
      else if items.any Item.isPhased ∨ item.isPhased then (items.filter Item.isFinal).getLast?
      else some item := by
  simp only [answer, List.any_append, List.filter_append, List.any_cons, List.any_nil,
    Bool.or_false, Bool.or_eq_true]
  cases hfinal : item.isFinal with
  | true => simp [hfinal, isPhased_of_isFinal hfinal]
  | false => simp [hfinal]

/-- **Answer selection.** Whatever the order of phased and unphased messages, the
candidate is the answer, kept with its text; a text of whitespace, or no answer,
is kept as the empty text. -/
theorem select_answer (contentDigest : List UInt8 → δ) (items : List Item) :
    (select contentDigest items).ordinal = (answer items).map Item.ordinal ∧
      (select contentDigest items).finals = (items.filter Item.isFinal).length ∧
      (select contentDigest items).length = ((answer items).elim [] Item.kept).length ∧
      (select contentDigest items).digest = contentDigest ((answer items).elim [] Item.kept) := by
  have hcandidate : ∀ items,
      (select contentDigest items).ordinal = (answer items).map Item.ordinal ∧
      (select contentDigest items).length = ((answer items).elim [] Item.kept).length ∧
      (select contentDigest items).digest = contentDigest ((answer items).elim [] Item.kept) := by
    intro items
    induction items using List.reverseRecOn with
    | nil => exact ⟨rfl, rfl, rfl⟩
    | append_singleton items item ih =>
      obtain ⟨hphased, hfinals⟩ := select_flags contentDigest items
      -- the message is taken, or the candidate is retracted or kept
      have htaken : (if !item.isBlank then item.text.length else 0) = item.kept.length ∧
          (if !item.isBlank then contentDigest item.text else contentDigest []) =
            contentDigest item.kept := by
        rw [Item.kept]
        cases item.isBlank <;> exact ⟨rfl, rfl⟩
      rw [select_append, answer_append, message_eq]
      simp only [AnswerSelection.accept, hphased, hfinals]
      by_cases hfinal : item.phase = .finalAnswer
      · simp only [hfinal, true_or, if_true, Item.isFinal, decide_true, Option.map_some,
          Option.elim_some, true_and]
        exact htaken
      · simp only [hfinal, false_or, Item.isFinal, decide_false, Bool.false_eq_true, if_false]
        by_cases hsome : items.any Item.isPhased ∨ item.isPhased
        · have hflag : (items.any Item.isPhased || decide (item.phase ≠ .unphased)) = true := by
            rw [Bool.or_eq_true]
            exact hsome
          simp only [hflag, Bool.not_true, Bool.false_eq_true, false_and, if_false, true_and,
            if_pos hsome]
          split
          · rename_i hnone
            rw [List.length_eq_zero_iff.mp hnone]
            exact ⟨rfl, rfl, rfl⟩
          · rename_i hkept
            have hphasedItems := any_phased_of_final hkept
            rwa [answer, if_pos hphasedItems] at ih
        · obtain ⟨hany, hitem⟩ := not_or.mp hsome
          have hunphased : item.phase = .unphased := by simpa [Item.isPhased] using hitem
          rw [Bool.not_eq_true] at hany
          rw [if_neg hsome]
          simp only [hunphased, hany, ne_eq, not_true, decide_false, Bool.or_false, Bool.not_false,
            and_self, if_true, Option.map_some, Option.elim_some, true_and]
          exact htaken
  obtain ⟨hordinal, hlength, hdigest⟩ := hcandidate items
  exact ⟨hordinal, (select_flags contentDigest items).2, hlength, hdigest⟩

end Rui.Answers
