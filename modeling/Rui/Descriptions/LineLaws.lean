import Rui.Descriptions.Lines

/-!
# The lines of calls

Every call has a line, and it is a valid description: no step that composes it stops the Host, and
its values stand in it whole or cut at a scalar.
-/

namespace Rui.Descriptions

open Library

/-! ## Valid lines -/

variable {chars others : List (List UInt8)} {literal after needle : List UInt8}

/-- **The scalars of a text** are its characters. -/
theorem codepointSlices_flatten (h : ∀ char ∈ chars, IsCharacter char) {fuel : Nat}
    (hfuel : chars.flatten.length ≤ fuel) : codepointSlices fuel chars.flatten = some chars := by
  induction chars generalizing fuel with
  | nil => rw [List.flatten_nil, codepointSlices]
  | cons char rest ih =>
    obtain ⟨first, tail, rfl, hlength⟩ := (h char List.mem_cons_self).exists_cons
    rw [List.flatten_cons, List.length_append, List.length_cons] at hfuel
    obtain ⟨k, rfl⟩ : ∃ k, fuel = k + 1 := ⟨fuel - 1, by omega⟩
    have hrest := ih (fun other hother => h other (List.mem_cons_of_mem _ hother))
      (by omega : rest.flatten.length ≤ k)
    have htake : (first :: (tail ++ rest.flatten)).take (tail.length + 1) = first :: tail :=
      (List.take_left' rfl : (first :: tail ++ rest.flatten).take (tail.length + 1) = first :: tail)
    have hdrop : (first :: (tail ++ rest.flatten)).drop (tail.length + 1) = rest.flatten :=
      (List.drop_left' rfl : (first :: tail ++ rest.flatten).drop (tail.length + 1) = rest.flatten)
    rw [List.flatten_cons, List.cons_append, codepointSlices, hlength, Option.bind_eq_bind,
      Option.bind_some, if_pos (by rw [List.length_append]; omega), htake, hdrop, hrest]
    rfl

theorem validScalars_iff {nonblank : Bool} {scalars : List Nat} :
    validScalars nonblank scalars = true ↔ (∀ scalar ∈ scalars, isLineBreak scalar = false) ∧
      (nonblank = true ∨ ∃ scalar ∈ scalars, isLineSpace scalar = false) := by
  induction scalars generalizing nonblank with
  | nil => simp [validScalars]
  | cons scalar rest ih =>
    rw [validScalars]
    split
    · next hbreak => simp [hbreak]
    · next hline =>
      rw [ih, Bool.or_eq_true, Bool.not_eq_true', List.forall_mem_cons, List.exists_mem_cons_iff,
        or_assoc]
      simp only [Bool.not_eq_true] at hline
      simp only [hline, true_and]

/-- A character that may stand in a line. -/
def InLine (char : List UInt8) : Prop :=
  ∃ scalar, utf8Decode char = some scalar ∧ isLineBreak scalar = false

/-- A byte that shows. -/
def Shows (byte : UInt8) : Prop :=
  byte.toNat < 0x80 ∧ isLineBreak byte.toNat = false ∧ isLineSpace byte.toNat = false

variable {byte : UInt8} {rest bytes before page : List UInt8} {leads : List (List UInt8)}

/-- **A line that begins with a byte that shows** is valid when it is not too long. -/
theorem validDescription_of_shows (hbyte : Shows byte) (hrest : TextOf InLine rest)
    (hlength : rest.length < maxToolDescriptionBytes) :
    validDescription (byte :: rest) = some true := by
  obtain ⟨hascii, hbreak, hspace⟩ := hbyte
  have htext : TextOf InLine (byte :: rest) :=
    (TextOf.single (isCharacter_ascii hascii) ⟨byte.toNat, rfl, hbreak⟩).append hrest
  obtain ⟨chars, rfl, hchars⟩ := hrest
  have hall : ∀ char ∈ [byte] :: chars, IsCharacter char :=
    List.forall_mem_cons.mpr ⟨isCharacter_ascii hascii, fun char hchar => (hchars char hchar).1⟩
  have hslices := codepointSlices_flatten hall le_rfl
  rw [List.flatten_cons, List.singleton_append] at hslices
  have hscalars : ∃ scalars, chars.mapM utf8Decode = some scalars ∧
      ∀ scalar ∈ scalars, isLineBreak scalar = false := by
    clear hlength htext hall hslices
    induction chars with
    | nil => exact ⟨[], rfl, nofun⟩
    | cons char others ih =>
      obtain ⟨scalar, hscalar, hline⟩ := (hchars char List.mem_cons_self).2
      obtain ⟨scalars, hmap, hlines⟩ := ih fun other hother =>
        hchars other (List.mem_cons_of_mem _ hother)
      refine ⟨scalar :: scalars, by simp [hscalar, hmap], ?_⟩
      exact List.forall_mem_cons.mpr ⟨hline, hlines⟩
  obtain ⟨scalars, hmap, hlines⟩ := hscalars
  have hvalid : validScalars false (byte.toNat :: scalars) = true :=
    validScalars_iff.mpr ⟨List.forall_mem_cons.mpr ⟨hbreak, hlines⟩,
      .inr ⟨byte.toNat, List.mem_cons_self, hspace⟩⟩
  have hsome : ([byte] :: chars).mapM utf8Decode = some (byte.toNat :: scalars) := by
    simp [hmap, utf8Decode]
  rw [validDescription, if_neg ?_, hslices, Option.bind_eq_bind, Option.bind_some, hsome,
    Option.bind_eq_bind, Option.bind_some, hvalid]
  · rfl
  · rw [htext.valid, List.length_cons]
    simp only [Bool.true_eq_false, or_false, not_or]
    omega

/-! ## Excerpts -/

/-- A character that is folded. -/
def isFolded (char : List UInt8) : Bool := (utf8Decode char).any Excerpt.blank

/-- The words of a text. -/
def words (chars : List (List UInt8)) : List (List (List UInt8)) :=
  (chars.splitOnP isFolded).filter fun word => !word.isEmpty

/-- Words behind others. -/
def spaced (words : List (List (List UInt8))) : List UInt8 :=
  words.flatMap fun word => text " " ++ word.flatten

/-- Words on one line. -/
def joined (words : List (List (List UInt8))) : List UInt8 :=
  (text " ").intercalate (words.map List.flatten)

theorem joined_cons (word : List (List UInt8)) (words : List (List (List UInt8))) :
    joined (word :: words) = word.flatten ++ spaced words := by
  induction words generalizing word with
  | nil => simp [joined, spaced, List.intercalate]
  | cons next words ih =>
    have hrest := ih next
    rw [joined, List.map_cons] at hrest
    rw [joined, List.map_cons, List.map_cons, List.intercalate_cons_cons, hrest, spaced, spaced,
      List.flatMap_cons, List.append_assoc, List.append_assoc]

/-- What the loop makes of the rest of a text, from the bytes it has and the space it owes. -/
def folding (bytes : List UInt8) (space : Bool) (parts : List (List (List UInt8))) : List UInt8 :=
  let words := fun parts : List (List (List UInt8)) => parts.filter fun word => !word.isEmpty
  if bytes = [] then joined (words parts)
  else if space then bytes ++ spaced (words parts)
  else bytes ++ parts.head?.elim [] List.flatten ++ spaced (words parts.tail)

theorem inLine_space : TextOf InLine (text " ") :=
  .single (isCharacter_ascii (by decide)) ⟨0x20, rfl, rfl⟩

theorem not_isLineBreak_of_not_blank {scalar : Nat} (h : Excerpt.blank scalar = false) :
    isLineBreak scalar = false := by
  simp only [Excerpt.blank, Bool.or_eq_false_iff, Bool.and_eq_false_iff, decide_eq_false_iff_not]
    at h
  simp only [isLineBreak, Bool.or_eq_false_iff, decide_eq_false_iff_not]
  omega

/-- **The loop folds what is left**, and never outgrows the excerpt. -/
theorem fold_eq (h : ∀ char ∈ chars, IsCharacter char) (self : Excerpt) (space : Bool)
    (htext : TextOf InLine self.bytes) (hspace : space = true → self.bytes ≠ [])
    (hroom : self.bytes.length + space.toNat + chars.flatten.length ≤ excerptBytes) :
    Excerpt.fold self space chars = some ⟨folding self.bytes space (chars.splitOnP isFolded)⟩ ∧
      TextOf InLine (folding self.bytes space (chars.splitOnP isFolded)) := by
  induction chars generalizing self space with
  | nil =>
    have hnone : folding self.bytes space (List.splitOnP isFolded []) = self.bytes := by
      rw [List.splitOnP_nil, folding]
      split
      · next hnil => rw [hnil]; rfl
      · split <;> simp [spaced]
    rw [hnone]
    exact ⟨rfl, htext⟩
  | cons char rest ih =>
    have hrest : ∀ other ∈ rest, IsCharacter other :=
      fun other hother => h other (List.mem_cons_of_mem _ hother)
    have hchar := h char List.mem_cons_self
    obtain ⟨scalar, hscalar⟩ := Option.isSome_iff_exists.mp hchar.decodes
    have hpos := hchar.length_bounds.1
    have hfolded : isFolded char = Excerpt.blank scalar := by rw [isFolded, hscalar]; rfl
    rw [List.flatten_cons, List.length_append] at hroom
    rw [Excerpt.fold, hscalar, Option.bind_eq_bind, Option.bind_some, List.splitOnP_cons_eq_if_modifyHead,
      hfolded]
    by_cases hblank : Excerpt.blank scalar = true
    · rw [if_pos hblank, if_pos hblank]
      have hsame : folding self.bytes space ([] :: rest.splitOnP isFolded) =
          folding self.bytes (decide (self.bytes.length ≠ 0)) (rest.splitOnP isFolded) := by
        rw [folding, folding]
        by_cases hnil : self.bytes = []
        · simp [hnil]
        · cases space <;> simp [hnil]
      rw [hsame]
      refine ih hrest self _ htext (fun hsome hnil => ?_) ?_
      · rw [hnil] at hsome
        cases hsome
      · have hle := Bool.toNat_le (decide (self.bytes.length ≠ 0))
        omega
    · rw [if_neg hblank, if_neg hblank]
      obtain ⟨word, others, hsplit⟩ := List.exists_cons_of_ne_nil
        (List.splitOnP_ne_nil isFolded rest)
      have hline : TextOf InLine char :=
        .single hchar ⟨scalar, hscalar, not_isLineBreak_of_not_blank (Bool.not_eq_true _ ▸ hblank)⟩
      obtain ⟨start, hstart, hspaced, hlength, hsame⟩ : ∃ start : Excerpt,
          self.separate space = some start ∧
          TextOf InLine start.bytes ∧ start.bytes.length = self.bytes.length + space.toNat ∧
          folding self.bytes space ((char :: word) :: others) =
            folding (start.bytes ++ char) false (word :: others) := by
        have hne : char ≠ [] := List.ne_nil_of_length_pos hpos
        cases space with
        | false =>
          refine ⟨self, rfl, htext, rfl, ?_⟩
          by_cases hnil : self.bytes = []
          · simp [folding, hnil, hne, joined_cons]
          · simp [folding, hnil, List.append_assoc]
        | true =>
          refine ⟨⟨self.bytes ++ text " "⟩, ?_, htext.append inLine_space, ?_, ?_⟩
          · rw [Excerpt.separate, if_pos rfl, Excerpt.append, if_pos]
            have hone : (text " ").length = 1 := rfl
            rw [Bool.toNat_true] at hroom
            omega
          · rw [List.length_append]
            rfl
          · simp [folding, hspace rfl, hne, spaced, List.append_assoc]
      have hnext : start.append char = some ⟨start.bytes ++ char⟩ := by
        rw [Excerpt.append, if_pos (by omega)]
      have hfold := ih hrest ⟨start.bytes ++ char⟩ false
        (hspaced.append hline) nofun (by rw [List.length_append, Bool.toNat_false]; omega)
      rw [hstart, Option.bind_eq_bind, Option.bind_some, hnext, Option.bind_some, hsplit,
        List.modifyHead_cons, hsame]
      rw [hsplit] at hfold
      exact hfold

theorem validLength_spec (raw : List UInt8) (most : Nat) :
    Excerpt.validLength raw most ≤ most ∧
      utf8Validate (raw.take (Excerpt.validLength raw most)) = true ∧
      ∀ n ≤ most, utf8Validate (raw.take n) = true → n ≤ Excerpt.validLength raw most := by
  induction most with
  | zero => exact ⟨le_rfl, rfl, fun n hn _ => hn⟩
  | succ most ih =>
    rw [Excerpt.validLength]
    split
    · next hvalid => exact ⟨le_rfl, hvalid, fun n hn _ => hn⟩
    · next hbad =>
      refine ⟨ih.1.trans (Nat.le_succ _), ih.2.1, fun n hn hvalid => ?_⟩
      refine ih.2.2 n (Nat.le_of_lt_succ (lt_of_le_of_ne hn ?_)) hvalid
      rintro rfl
      exact hbad hvalid

/-- **A folded text**: the words of its first bytes, as far as they are valid, on one line. Bytes
with more than a scalar cut at their end show nothing. -/
def folded (bytes : List UInt8) : List UInt8 :=
  let raw := bytes.take excerptBytes
  let start := raw.take (Excerpt.validLength raw raw.length)
  if raw.length - start.length > 3 then []
  else joined (words ((codepointSlices start.length start).getD []))

theorem read_eq (bytes : List UInt8) :
    Excerpt.read {} bytes = some ⟨folded bytes⟩ ∧ TextOf InLine (folded bytes) := by
  have hraw : bytes.take (min bytes.length excerptBytes) = bytes.take excerptBytes := by
    rw [min_comm, ← List.take_take, List.take_length]
  rw [Excerpt.read, hraw, folded]
  generalize hlong : bytes.take excerptBytes = raw
  have hmost : raw.length ≤ excerptBytes := by
    rw [← hlong, List.length_take]
    exact min_le_left _ _
  obtain ⟨hle, hvalid, -⟩ := validLength_spec raw raw.length
  have hstart : (raw.take (Excerpt.validLength raw raw.length)).length =
      Excerpt.validLength raw raw.length := by rw [List.length_take, min_eq_left hle]
  rw [hstart]
  split
  · exact ⟨rfl, .nil⟩
  · obtain ⟨chars, hchars, hall⟩ := textOf_of_valid hvalid
    have hslices := codepointSlices_flatten (fun char hchar => (hall char hchar).1)
      (hchars ▸ hstart.le : chars.flatten.length ≤ Excerpt.validLength raw raw.length)
    have hfold := fold_eq (fun char hchar => (hall char hchar).1) {} false
      TextOf.nil nofun (by rw [← hchars, hstart]; simpa using hle.trans hmost)
    rw [hchars, hslices]
    exact hfold

/-- **The excerpt** of a text is the words of as many of its scalars as 200 bytes hold. -/
theorem folded_excerpt {before after : List (List UInt8)}
    (h : ∀ char ∈ before ++ after, IsCharacter char) (hfits : before.flatten.length ≤ 200)
    (hcut : ∀ next ∈ after.head?, 200 < before.flatten.length + next.length) :
    folded (before ++ after).flatten = joined (words before) := by
  have hvalid : ∀ chars : List (List UInt8), (∀ char ∈ chars, IsCharacter char) →
      utf8Validate chars.flatten = true :=
    fun chars hchars => TextOf.valid (P := fun _ => True)
      ⟨chars, rfl, fun char hchar => ⟨hchars char hchar, trivial⟩⟩
  have hbefore : ∀ char ∈ before, IsCharacter char :=
    fun char hchar => h char (List.mem_append_left _ hchar)
  obtain ⟨raw, hraw⟩ : ∃ raw, (before ++ after).flatten.take 200 = raw := ⟨_, rfl⟩
  have htake : ∀ n ≤ 200, raw.take n = (before ++ after).flatten.take n := by
    intro n hn
    rw [← hraw, List.take_take, min_eq_left hn]
  have hstart : raw.take before.flatten.length = before.flatten := by
    rw [htake _ hfits, List.flatten_append, List.take_left]
  have hlength : raw.length = min 200 (before.flatten.length + after.flatten.length) := by
    rw [← hraw, List.length_take, List.flatten_append, List.length_append]
  obtain ⟨hle, hstarts, hlongest⟩ := validLength_spec raw raw.length
  have hsame : Excerpt.validLength raw raw.length = before.flatten.length := by
    refine le_antisymm (not_lt.mp fun hlater => ?_)
      (hlongest _ (by omega) (by rw [hstart]; exact hvalid before hbefore))
    generalize Excerpt.validLength raw raw.length = n at hle hstarts hlater
    cases after with
    | nil =>
      rw [List.flatten_nil, List.length_nil] at hlength
      omega
    | cons next rest =>
      -- a longer start would end within the next character
      have hnext := hcut next rfl
      obtain ⟨i, rfl⟩ : ∃ i, n = before.flatten.length + (i + 1) :=
        ⟨n - before.flatten.length - 1, by omega⟩
      obtain ⟨byte, hbyte⟩ : ∃ byte, next[i + 1]? = some byte :=
        ⟨_, List.getElem?_eq_getElem (by omega)⟩
      have hcontinues := (h next (by simp)).continues hbyte
      rw [htake _ (by omega)] at hstarts
      have hinside : (before ++ next :: rest).flatten[before.flatten.length + (i + 1)]? =
          some byte := by
        rw [List.flatten_append, List.getElem?_append_right (Nat.le_add_right _ _),
          Nat.add_sub_cancel_left, List.flatten_cons, List.getElem?_append_left (by omega), hbyte]
      have hbegins := not_continuation_of_valid (hvalid _ h) hstarts hinside
      rw [hcontinues] at hbegins
      cases hbegins
  have hfew : ¬raw.length - before.flatten.length > 3 := by
    cases after with
    | nil =>
      rw [List.flatten_nil, List.length_nil] at hlength
      omega
    | cons next rest =>
      have hnext := hcut next rfl
      have hbounds := (h next (by simp)).length_bounds
      omega
  rw [folded, show excerptBytes = 200 from rfl, hraw]
  simp only [hsame, hstart, if_neg hfew]
  rw [codepointSlices_flatten hbefore le_rfl, Option.getD_some]

/-! ## Cuts -/

/-- **How a value is shown** in the bytes it is allotted: whole, or its scalars that fit, without
the spaces behind them, and an ellipsis. -/
inductive Shown (value : List UInt8) (width : Nat) : List UInt8 → Prop
  | whole (fits : value.length ≤ width) : Shown value width value
  | cut {kept spaces rest : List UInt8} (long : width < value.length)
      (eq : value = kept ++ (spaces ++ rest)) (blank : ∀ byte ∈ spaces, byte = ascii ' ')
      (trimmed : kept.getLast? ≠ some (ascii ' ')) (scalars : utf8Validate kept = true)
      (others : utf8Validate (spaces ++ rest) = true) (fits : kept.length + ellipsis.length ≤ width)
      (most : ∀ n, n + ellipsis.length ≤ width → utf8Validate (value.take n) = true →
        n ≤ kept.length + spaces.length) : Shown value width (kept ++ ellipsis)

theorem scalarStart_spec (text : List UInt8) (last : Nat) (h : last < text.length) :
    ∃ start ≤ last, scalarStart text last = some start ∧
      (start = 0 ∨ ∃ byte, text[start]? = some byte ∧ isContinuation byte = false) ∧
      ∀ n, start < n → n ≤ last → ∃ byte, text[n]? = some byte ∧ isContinuation byte = true := by
  induction last with
  | zero => exact ⟨0, le_rfl, rfl, .inl rfl, fun n hn hle => by omega⟩
  | succ last ih =>
    rw [scalarStart, List.getElem?_eq_getElem h, Option.bind_eq_bind, Option.bind_some]
    split
    · next hcontinues =>
      obtain ⟨start, hstart, hsome, hbegins, hskipped⟩ := ih (Nat.lt_of_succ_lt h)
      refine ⟨start, hstart.trans (Nat.le_succ _), hsome, hbegins, fun n hn hle => ?_⟩
      rcases Nat.lt_or_ge last n with hlast | hbefore
      · obtain rfl : n = last + 1 := by omega
        exact ⟨_, List.getElem?_eq_getElem h, hcontinues⟩
      · exact hskipped n hn hbefore
    · next hbegins =>
      exact ⟨last + 1, le_rfl, rfl, .inr ⟨_, List.getElem?_eq_getElem h, Bool.not_eq_true _ ▸ hbegins⟩,
        fun n hn hle => by omega⟩

theorem wordEnd_spec (text : List UInt8) (start : Nat) (h : start ≤ text.length) :
    ∃ last ≤ start, wordEnd text start = some last ∧
      (∀ n, last ≤ n → n < start → text[n]? = some (ascii ' ')) ∧
      (text.take last).getLast? ≠ some (ascii ' ') := by
  induction start with
  | zero => exact ⟨0, le_rfl, rfl, fun n _ hn => absurd hn (Nat.not_lt_zero n), by simp⟩
  | succ start ih =>
    rw [wordEnd, List.getElem?_eq_getElem h, Option.bind_eq_bind, Option.bind_some]
    split
    · next hblank =>
      obtain ⟨last, hlast, hsome, hspaces, htrimmed⟩ := ih (Nat.le_of_succ_le h)
      refine ⟨last, hlast.trans (Nat.le_succ _), hsome, fun n hn hlt => ?_, htrimmed⟩
      rcases Nat.lt_or_ge n start with hin | hout
      · exact hspaces n hn hin
      · obtain rfl : n = start := by omega
        rw [List.getElem?_eq_getElem h, hblank]
    · next hword =>
      refine ⟨start + 1, le_rfl, rfl, fun n hn hlt => by omega, ?_⟩
      rw [List.getLast?_take, if_neg (Nat.succ_ne_zero start), Nat.add_sub_cancel,
        List.getElem?_eq_getElem h, Option.some_or]
      exact fun hblank => hword (Option.some_inj.mp hblank)

theorem inLine_ellipsis : TextOf InLine ellipsis :=
  .single ⟨by decide, by decide⟩ ⟨0x2026, by decide, by decide⟩

/-- **A value is written within its width.** -/
theorem writeCut_spec (out : List UInt8) {text : List UInt8} (width : Nat) (htext : TextOf InLine text)
    (hroom : out.length + width ≤ maxToolDescriptionBytes)
    (hwide : text.length ≤ width ∨ ellipsis.length ≤ width) :
    ∃ shown, writeCut out text width = some (out ++ shown) ∧ Shown text width shown ∧
      shown.length ≤ width ∧ TextOf InLine shown := by
  rw [writeCut]
  split
  · next hfits =>
    exact ⟨text, by rw [writeAll, if_pos (by omega)], .whole hfits, hfits, htext⟩
  · next hlong =>
    rw [not_le] at hlong
    have hellipsis : ellipsis.length = 3 := rfl
    replace hwide := hwide.resolve_left (by omega)
    obtain ⟨start, hstart, hsome, hbegins, hskipped⟩ :=
      scalarStart_spec text (width - ellipsis.length) (by omega)
    obtain ⟨last, hlast, hword, hspaces, htrimmed⟩ :=
      wordEnd_spec text start (by omega)
    have hlength : (text.take last).length = last := by
      rw [List.length_take]
      omega
    obtain ⟨hkept, hrest⟩ : TextOf InLine (text.take last) ∧ TextOf InLine (text.drop last) := by
      rcases Nat.lt_or_eq_of_le hlast with hblank | rfl
      · exact htext.split (hspaces last le_rfl hblank) rfl
      · rcases hbegins with rfl | ⟨byte, hbyte, hbegin⟩
        · exact ⟨.nil, htext⟩
        · exact htext.split hbyte hbegin
    have hdrop : (text.drop last).take (start - last) ++ text.drop start = text.drop last := by
      have hstart : text.drop start = (text.drop last).drop (start - last) := by
        rw [List.drop_drop, Nat.add_sub_cancel' hlast]
      rw [hstart, List.take_append_drop]
    have heq : text = text.take last ++ ((text.drop last).take (start - last) ++ text.drop start) := by
      rw [hdrop, List.take_append_drop]
    refine ⟨text.take last ++ ellipsis, ?_, .cut hlong heq ?_ htrimmed hkept.valid ?_ ?_ ?_, ?_,
      hkept.append inLine_ellipsis⟩
    · rw [hsome, Option.bind_eq_bind, Option.bind_some, hword, Option.bind_some, writeAll,
        if_pos (by omega), Option.bind_eq_bind, Option.bind_some, writeAll, if_pos,
        List.append_assoc]
      rw [List.length_append]
      omega
    · intro byte hbyte
      obtain ⟨i, hi⟩ := List.getElem?_of_mem hbyte
      rw [List.getElem?_take] at hi
      split at hi
      · next hlt =>
        rw [List.getElem?_drop, hspaces _ (Nat.le_add_right _ _) (by omega)] at hi
        exact (Option.some_inj.mp hi).symm
      · cases hi
    · rw [hdrop]
      exact hrest.valid
    · omega
    · intro n hn hvalid
      rw [hlength, List.length_take, List.length_drop]
      by_contra hover
      obtain ⟨byte, hbyte, hcontinues⟩ := hskipped n (by omega) (by omega)
      rw [not_continuation_of_valid htext.valid hvalid hbyte] at hcontinues
      cases hcontinues
    · rw [List.length_append]
      omega

/-! ## Composing -/

/-- The bytes the literals leave. -/
def room (literals : List (List UInt8)) : Nat :=
  maxToolDescriptionBytes - (literals.map List.length).sum

/-- **A line of literals and values.** The literals stand whole. A value is cut only when it must
be: alone when it does not fit the room, and one of two when they do not fit together, with half of
the room at least. -/
inductive Composed : List (List UInt8) → List (List UInt8) → List UInt8 → Prop
  | plain (literal : List UInt8) : Composed [literal] [] literal
  | one {before after value shown : List UInt8} {width : Nat} (shown_spec : Shown value width shown)
      (cut : width < value.length → width = room [before, after]) :
      Composed [before, after] [value] (before ++ shown ++ after)
  | two {before between after first second shown shown' : List UInt8} {width width' : Nat}
      (first_spec : Shown first width shown) (second_spec : Shown second width' shown')
      (share : width + width' ≤ room [before, between, after])
      (cut : width < first.length → room [before, between, after] < first.length + second.length ∧
        room [before, between, after] / 2 ≤ width)
      (cut' : width' < second.length →
        room [before, between, after] < first.length + second.length ∧
        room [before, between, after] / 2 ≤ width') :
      Composed [before, between, after] [first, second] (before ++ shown ++ between ++ shown' ++ after)

/-- Text that may stand in a line. -/
def isLineText (bytes : List UInt8) : Bool :=
  utf8Validate bytes && ((codepointSlices bytes.length bytes).getD []).all fun char =>
    (utf8Decode char).any fun scalar => !isLineBreak scalar

theorem inLine_of_isLineText (h : isLineText bytes = true) : TextOf InLine bytes := by
  rw [isLineText, Bool.and_eq_true] at h
  obtain ⟨hvalid, hlines⟩ := h
  obtain ⟨chars, rfl, hchars⟩ := textOf_of_valid hvalid
  rw [codepointSlices_flatten (fun char hchar => (hchars char hchar).1) le_rfl, Option.getD_some,
    List.all_eq_true] at hlines
  refine ⟨chars, rfl, fun char hchar => ⟨(hchars char hchar).1, ?_⟩⟩
  obtain ⟨scalar, hscalar, hline⟩ := (Option.any_eq_true _ _).mp (hlines char hchar)
  exact ⟨scalar, hscalar, Bool.not_eq_true' _ |>.mp hline⟩

/-- Literals of a line, of which the first begins with a byte that shows. -/
structure Literals (literals : List (List UInt8)) : Prop where
  starts : ∃ byte more others, literals = (byte :: more) :: others ∧ Shows byte ∧
    TextOf InLine more
  texts : ∀ literal ∈ literals, TextOf InLine literal
  short : 6 ≤ room literals

theorem validDescription_of_literals (h : Literals (before :: others)) (hrest : TextOf InLine rest)
    (hlength : (before ++ rest).length ≤ maxToolDescriptionBytes) :
    validDescription (before ++ rest) = some true := by
  obtain ⟨byte, more, others', heq, hshows, hmore⟩ := h.starts
  obtain ⟨rfl, rfl⟩ := List.cons.inj heq
  rw [List.cons_append, List.length_cons] at hlength
  exact validDescription_of_shows hshows (hmore.append hrest) hlength

theorem writeAll_eq {out : List UInt8} (h : out.length + bytes.length ≤ maxToolDescriptionBytes) :
    writeAll out bytes = some (out ++ bytes) := if_pos h

theorem compose_eq {literals values : List (List UInt8)} {shares : List Nat}
    (hlength : literals.length = values.length + 1) (hroom : 6 ≤ room literals)
    (hwidths : widths (room literals) values = some shares) :
    compose literals values = writeParts [] literals (values.zip shares) := by
  have hfixed : (literals.map List.length).sum ≤ maxToolDescriptionBytes := by
    rw [room] at hroom
    omega
  rw [room] at hwidths
  simp only [compose, guard, hlength, hfixed, if_true, hwidths, Option.bind_eq_bind, Option.pure_def,
    Option.bind_some]

theorem compose_plain (h : Literals [literal]) :
    compose [literal] [] = some literal ∧ validDescription literal = some true := by
  have hshort := h.short
  have hroom : room [literal] = maxToolDescriptionBytes - literal.length := by simp [room]
  constructor
  · rw [compose_eq rfl hshort rfl, List.zip_nil_left, writeParts,
      writeAll_eq (by simp only [List.length_nil]; omega)]
    rfl
  · have hvalid := validDescription_of_literals h TextOf.nil
      (by rw [List.append_nil]; omega)
    rwa [List.append_nil] at hvalid

theorem compose_one {value : List UInt8} (h : Literals [before, after])
    (hvalue : TextOf InLine value) :
    ∃ line, compose [before, after] [value] = some line ∧ validDescription line = some true ∧
      Composed [before, after] [value] line := by
  have hshort := h.short
  have hroom : room [before, after] = maxToolDescriptionBytes - (before.length + after.length) := by
    simp [room]
  obtain ⟨width, hwidth⟩ : ∃ width, width = min value.length (room [before, after]) := ⟨_, rfl⟩
  have hellipsis : ellipsis.length = 3 := rfl
  obtain ⟨shown, hwrite, hshown, hlength, hline⟩ := writeCut_spec before width
    hvalue (by omega) (by omega)
  refine ⟨before ++ shown ++ after, ?_, ?_, .one hshown fun hcut => by omega⟩
  · have hbefore : writeAll [] before = some before :=
      writeAll_eq (by simp only [List.length_nil]; omega)
    have hafter : writeAll (before ++ shown) after = some (before ++ shown ++ after) :=
      writeAll_eq (by rw [List.length_append]; omega)
    have hcompose : compose [before, after] [value] =
        writeParts [] [before, after] ([value].zip [min value.length (room [before, after])]) :=
      compose_eq rfl hshort rfl
    rw [hcompose, ← hwidth, List.zip_cons_cons, List.zip_nil_left, writeParts, hbefore,
      Option.bind_eq_bind, Option.bind_some, hwrite, Option.bind_some, writeParts, hafter]
    rfl
  · rw [List.append_assoc]
    refine validDescription_of_literals h (hline.append (h.texts after (by simp))) ?_
    simp only [List.length_append]
    omega

theorem shares {first second bytes later width : Nat}
    (hlater : later = min second (max (bytes / 2) (bytes - first)))
    (hwidth : width = min first (bytes - later)) :
    width + later ≤ bytes ∧ (width < first → bytes < first + second ∧ bytes / 2 ≤ width) ∧
      (later < second → bytes < first + second ∧ bytes / 2 ≤ later) := by omega

theorem compose_two {between first second : List UInt8} (h : Literals [before, between, after])
    (hfirst : TextOf InLine first) (hsecond : TextOf InLine second) :
    ∃ line, compose [before, between, after] [first, second] = some line ∧
      validDescription line = some true ∧ Composed [before, between, after] [first, second] line := by
  have hshort := h.short
  have hroom : before.length + between.length + after.length + room [before, between, after] =
      maxToolDescriptionBytes := by
    rw [room] at hshort ⊢
    simp only [List.map_cons, List.map_nil, List.sum_cons, List.sum_nil] at hshort ⊢
    omega
  have hcompose : compose [before, between, after] [first, second] = _ := compose_eq rfl hshort rfl
  generalize hbytes : room [before, between, after] = bytes at *
  generalize hlater : min second.length (max (bytes / 2) (bytes - first.length)) = later at hcompose
  generalize hwidth : min first.length (bytes - later) = width at hcompose
  obtain ⟨hshare, hcut, hcut'⟩ := shares hlater.symm hwidth.symm
  clear hlater hwidth
  have hellipsis : ellipsis.length = 3 := rfl
  obtain ⟨shown, hwrite, hshown, hlength, hline⟩ := writeCut_spec before width
    hfirst (by omega) (by omega)
  obtain ⟨shown', hwrite', hshown', hlength', hline'⟩ := writeCut_spec
    (before ++ shown ++ between) later hsecond
    (by simp only [List.length_append]; omega) (by omega)
  subst hbytes
  refine ⟨before ++ shown ++ between ++ shown' ++ after, ?_, ?_,
    .two hshown hshown' hshare hcut hcut'⟩
  · have hbefore : writeAll [] before = some before :=
      writeAll_eq (by simp only [List.length_nil]; omega)
    have hbetween : writeAll (before ++ shown) between = some (before ++ shown ++ between) :=
      writeAll_eq (by rw [List.length_append]; omega)
    have hafter : writeAll (before ++ shown ++ between ++ shown') after =
        some (before ++ shown ++ between ++ shown' ++ after) :=
      writeAll_eq (by simp only [List.length_append]; omega)
    rw [hcompose, List.zip_cons_cons, List.zip_cons_cons, List.zip_nil_left, writeParts, hbefore,
      Option.bind_eq_bind, Option.bind_some, hwrite, Option.bind_some, writeParts, hbetween,
      Option.bind_eq_bind, Option.bind_some, hwrite', Option.bind_some, writeParts, hafter]
    rfl
  · simp only [List.append_assoc]
    refine validDescription_of_literals h (hline.append ((h.texts between (by simp)).append
      (hline'.append (h.texts after (by simp))))) ?_
    simp only [List.length_append]
    omega

/-! ## Values -/

theorem inLine_ascii (h : ∀ byte ∈ bytes, byte.toNat < 0x80 ∧ isLineBreak byte.toNat = false) :
    TextOf InLine bytes := by
  induction bytes with
  | nil => exact .nil
  | cons byte rest ih =>
    obtain ⟨hascii, hline⟩ := h byte List.mem_cons_self
    rw [← List.singleton_append]
    exact (TextOf.single (isCharacter_ascii hascii) ⟨byte.toNat, rfl, hline⟩).append
      (ih fun other hother => h other (List.mem_cons_of_mem _ hother))

theorem inLine_session (session : SessionEnvironments.Session) : TextOf InLine session.bytes := by
  have halphabet : SessionEnvironments.sessionAlphabet.all (fun byte =>
      decide (byte.toNat < 0x80 ∧ isLineBreak byte.toNat = false)) = true := by decide +kernel
  have hvalid := session.valid
  rw [SessionEnvironments.validSessionId, Bool.and_eq_true, List.all_eq_true] at hvalid
  exact inLine_ascii fun byte hbyte =>
    of_decide_eq_true (List.all_eq_true.mp halphabet byte
      (List.contains_iff_mem.mp (hvalid.2 byte hbyte)))

theorem lt_of_toLower_lt (h : (toLower byte).toNat < 0x80) : byte.toNat < 0x80 := by
  rw [toLower] at h
  split at h
  · next hupper =>
    simp only [isUpper, Bool.and_eq_true, decide_eq_true_eq, UInt8.le_iff_toNat_le] at hupper
    have hlast : (ascii 'Z').toNat = 90 := rfl
    omega
  · exact h

/-- What is trimmed off a page: one of some leads, in any case, or nothing where none stands. -/
def Trimmed (leads : List (List UInt8)) (lead page : List UInt8) : Prop :=
  lead.map toLower ∈ leads ∨
    lead = [] ∧ ∀ front rest, page = front ++ rest → front.map toLower ∉ leads

theorem startsWithIgnoreCase_iff (h : needle.map toLower = needle) :
    startsWithIgnoreCase page needle = true ↔
      ∃ front rest, page = front ++ rest ∧ front.map toLower = needle := by
  rw [startsWithIgnoreCase, Bool.and_eq_true, decide_eq_true_eq, eqlIgnoreCase, beq_iff_eq, h]
  constructor
  · rintro ⟨-, hfront⟩
    exact ⟨_, _, (List.take_append_drop _ _).symm, hfront⟩
  · rintro ⟨front, rest, rfl, rfl⟩
    rw [List.length_map]
    exact ⟨by simp, by rw [List.take_left]⟩

theorem trimmed_of_starts (h : needle.map toLower = needle) (hlead : needle ∈ leads)
    (hstarts : startsWithIgnoreCase page needle = true) :
    ∃ lead, page = lead ++ page.drop needle.length ∧ Trimmed leads lead page := by
  obtain ⟨front, rest, rfl, rfl⟩ := (startsWithIgnoreCase_iff h).mp hstarts
  exact ⟨front, by rw [List.length_map, List.drop_left], .inl hlead⟩

theorem trimmed_nothing
    (h : ∀ lead ∈ leads, lead.map toLower = lead ∧ startsWithIgnoreCase page lead = false) :
    Trimmed leads [] page := by
  refine .inr ⟨rfl, fun front rest hpage hlead => ?_⟩
  obtain ⟨hlower, hnone⟩ := h _ hlead
  rw [(startsWithIgnoreCase_iff hlower).mpr ⟨front, rest, hpage, rfl⟩] at hnone
  cases hnone

/-- **A page is trimmed** of its scheme, and of its `www.` then. -/
theorem trimPage_spec (page : List UInt8) : ∃ scheme www,
    page = scheme ++ (www ++ trimPage page) ∧
      Trimmed [text "https://", text "http://"] scheme page ∧
      Trimmed [text "www."] www (www ++ trimPage page) := by
  have hlower : ∀ lead ∈ [text "https://", text "http://"], lead.map toLower = lead := by decide
  obtain ⟨scheme, hscheme, htrimmed⟩ : ∃ scheme, page = scheme ++ trimScheme page ∧
      Trimmed [text "https://", text "http://"] scheme page := by
    rw [trimScheme]
    split
    · next lead hlead =>
      have hmem := List.mem_of_find?_eq_some hlead
      exact trimmed_of_starts (hlower _ hmem) hmem (List.find?_some hlead)
    · next hnone =>
      refine ⟨[], rfl, trimmed_nothing fun lead hlead => ⟨hlower lead hlead, ?_⟩⟩
      simpa using List.find?_eq_none.mp hnone lead hlead
  obtain ⟨www, hwww, htrimmed'⟩ : ∃ www, trimScheme page = www ++ trimPage page ∧
      Trimmed [text "www."] www (trimScheme page) := by
    rw [trimPage]
    split
    · next hstarts => exact trimmed_of_starts (by decide) (List.mem_singleton_self _) hstarts
    · next hnone =>
      refine ⟨[], rfl, trimmed_nothing fun lead hlead => ?_⟩
      rw [List.mem_singleton.mp hlead]
      exact ⟨by decide, Bool.eq_false_iff.mpr hnone⟩
  exact ⟨scheme, www, hwww ▸ hscheme, htrimmed, hwww ▸ htrimmed'⟩

theorem Trimmed.inLine {lead : List UInt8} (h : Trimmed leads lead page)
    (hascii : leads.all (·.all fun byte => decide (byte.toNat < 0x80)) = true)
    (hline : TextOf InLine (lead ++ rest)) : TextOf InLine rest := by
  rcases h with hlead | ⟨rfl, -⟩
  · have hrest : (lead ++ rest).drop lead.length = rest := List.drop_left
    rw [← hrest]
    refine hline.drop fun byte hbyte => ?_
    rw [List.take_left] at hbyte
    have hbytes := List.all_eq_true.mp (List.all_eq_true.mp hascii _ hlead) _
      (List.mem_map_of_mem hbyte)
    exact lt_of_toLower_lt (of_decide_eq_true hbytes)
  · exact hline

theorem inLine_trimPage (h : TextOf InLine page) : TextOf InLine (trimPage page) := by
  obtain ⟨scheme, www, hpage, hscheme, hwww⟩ := trimPage_spec page
  rw [hpage] at h
  exact hwww.inLine (by decide +kernel) (hscheme.inLine (by decide +kernel) h)

/-! ## Calls -/

/-- What the line of a search says: the literals, and the values between them. -/
def toldSearch (call : WebSearchCall) : List (List UInt8) × List (List UInt8) :=
  let found := folded call.pattern
  let page := trimPage (folded call.target)
  match call.action with
  | .search =>
    if folded call.target = [] then ([text "Search the web"], [])
    else ([text "Search " ++ openQuote, closeQuote], [folded call.target])
  | .openPage => if page = [] then ([text "Open a page"], []) else ([text "Open ", []], [page])
  | .findInPage =>
    if found = [] ∧ page = [] then ([text "Find in a page"], [])
    else if found = [] then ([text "Find in ", []], [page])
    else if page = [] then ([text "Find " ++ openQuote, closeQuote], [found])
    else ([text "Find " ++ openQuote, closeQuote ++ text " in ", []], [found, page])
  | .none => ([text "Search the web"], [])

/-- **What the line of a call says.** -/
def told : Call → List (List UInt8) × List (List UInt8)
  | .bash arguments => ([arguments.description], [])
  | .findTools => ([text "Find tools"], [])
  | .messageAgent arguments => ([text "Message ", []], [arguments.id.bytes])
  | .readTranscript none => ([text "Read own transcript"], [])
  | .readTranscript (some target) => ([text "Read ", text "'s transcript"], [target.bytes])
  | .skill => ([text "Use skills"], [])
  | .startAgent => ([text "Start an agent"], [])
  | .webSearch search => toldSearch search

theorem literals_of {more : List UInt8}
    (h : (decide (byte.toNat < 0x80) && !isLineBreak byte.toNat && !isLineSpace byte.toNat &&
      isLineText more && others.all isLineText &&
      decide (6 ≤ room ((byte :: more) :: others))) = true) :
    Literals ((byte :: more) :: others) := by
  simp only [Bool.and_eq_true, decide_eq_true_eq, Bool.not_eq_true', List.all_eq_true] at h
  obtain ⟨⟨⟨⟨⟨hascii, hbreak⟩, hspace⟩, hmore⟩, hothers⟩, hroom⟩ := h
  refine ⟨⟨byte, more, others, rfl, ⟨hascii, hbreak, hspace⟩, inLine_of_isLineText hmore⟩, ?_, hroom⟩
  refine List.forall_mem_cons.mpr ⟨?_, fun other hother => inLine_of_isLineText (hothers other hother)⟩
  exact (TextOf.single (isCharacter_ascii hascii) ⟨byte.toNat, rfl, hbreak⟩).append
    (inLine_of_isLineText hmore)

theorem composed_plain (h : Literals [literal]) :
    ∃ line, compose [literal] [] = some line ∧ validDescription line = some true ∧
      Composed [literal] [] line := by
  obtain ⟨hcompose, hvalid⟩ := compose_plain h
  exact ⟨literal, hcompose, hvalid, .plain literal⟩

/-- **The line of a search**, whatever bytes the provider gave. -/
theorem describeWebSearch_spec (call : WebSearchCall) : ∃ line, describeWebSearch call = some line ∧
    validDescription line = some true ∧ Composed (toldSearch call).1 (toldSearch call).2 line := by
  obtain ⟨htarget, hquoted⟩ := read_eq call.target
  obtain ⟨hpattern, hfound⟩ := read_eq call.pattern
  have hpage := inLine_trimPage hquoted
  rw [describeWebSearch, htarget, Option.bind_eq_bind, Option.bind_some, hpattern, Option.bind_some,
    toldSearch]
  cases call.action with
  | none => exact composed_plain (literals_of (by decide +kernel))
  | search =>
    by_cases hnil : folded call.target = []
    · simp only [hnil, List.length_nil, ne_eq, not_true_eq_false, if_false, if_true]
      exact composed_plain (literals_of (by decide +kernel))
    · simp only [hnil, List.length_eq_zero_iff, ne_eq, not_false_eq_true, if_false, if_true]
      exact compose_one (literals_of (by decide +kernel)) hquoted
  | openPage =>
    simp only [true_or, if_true]
    by_cases hnil : trimPage (folded call.target) = []
    · simp only [hnil, List.length_nil, ne_eq, not_true_eq_false, if_false, if_true]
      exact composed_plain (literals_of (by decide +kernel))
    · simp only [hnil, List.length_eq_zero_iff, ne_eq, not_false_eq_true, if_false, if_true]
      exact compose_one (literals_of (by decide +kernel)) hpage
  | findInPage =>
    simp only [or_true, if_true]
    by_cases hnil : trimPage (folded call.target) = [] <;> by_cases hnone : folded call.pattern = []
    · simp only [hnil, hnone, List.length_nil, ne_eq, not_true_eq_false, and_self, if_false, if_true]
      exact composed_plain (literals_of (by decide +kernel))
    · simp only [hnil, hnone, List.length_eq_zero_iff, ne_eq, not_true_eq_false, not_false_eq_true,
        and_false, false_and, if_false, if_true]
      exact compose_one (literals_of (by decide +kernel)) hfound
    · simp only [hnil, hnone, List.length_eq_zero_iff, ne_eq, not_true_eq_false, not_false_eq_true,
        and_false, false_and, if_false, if_true]
      exact compose_one (literals_of (by decide +kernel)) hpage
    · simp only [hnil, hnone, List.length_eq_zero_iff, ne_eq, not_false_eq_true, and_self, if_false,
        if_true]
      exact compose_two (literals_of (by decide +kernel)) hfound hpage

theorem lineOf_spec (call : Call) : ∃ line, lineOf call = some line ∧
    validDescription line = some true ∧ Composed (told call).1 (told call).2 line := by
  cases call with
  | bash arguments => exact ⟨_, rfl, arguments.valid, .plain _⟩
  | findTools => exact ⟨_, rfl, by decide +kernel, .plain _⟩
  | messageAgent arguments =>
    exact compose_one (literals_of (by decide +kernel)) (inLine_session arguments.id)
  | readTranscript id =>
    cases id with
    | none => exact composed_plain (literals_of (by decide +kernel))
    | some target => exact compose_one (literals_of (by decide +kernel)) (inLine_session target)
  | skill => exact ⟨_, rfl, by decide +kernel, .plain _⟩
  | startAgent => exact ⟨_, rfl, by decide +kernel, .plain _⟩
  | webSearch search => exact describeWebSearch_spec search

/-- **Every call has a valid line** that says what it must: nothing on the way to it stops the
Host. -/
theorem describe_valid (call : Call) : ∃ line, describe call = some line ∧
    validDescription line = some true ∧ Composed (told call).1 (told call).2 line := by
  obtain ⟨line, hline, hvalid, hcomposed⟩ := lineOf_spec call
  refine ⟨line, ?_, hvalid, hcomposed⟩
  rw [describe, hline, Option.bind_eq_bind, Option.bind_some, hvalid]
  rfl

end Rui.Descriptions
