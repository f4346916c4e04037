import Rui.WordSearch.Snippets

/-!
# What a search finds

However its bytes are split, a search finds the first three places where the folded query
stands in the folded text, and shows each in a snippet of the whole text. The ring still holds
every byte that a snippet needs when it is cut.
-/

namespace Rui.WordSearch

open Library

/-- The places where the folded query stands in the folded text. -/
def positions (query bytes : List UInt8) : List Nat :=
  (List.range (bytes.length + 1 - query.length)).filter fun i =>
    decide (((bytes.map fold).drop i).take query.length = query.map fold)

/-- Where the snippet of a match starts. -/
def snippetStart (query : List UInt8) (pos : Nat) : Nat :=
  pos - min pos (if query.length ≤ 120 then 40 else 0)

/-- A hit as it is to be in these bytes: a snippet of them, and the part of the match that is
visible in it. -/
def Hit.Marks (query bytes : List UInt8) (hit : Hit) : Prop :=
  ∃ first, Snippet bytes (snippetStart query hit.rawOffset)
    (min bytes.length (snippetStart query hit.rawOffset + snippetBytes)) first hit.snippet ∧
    hit.offset + hit.length ≤ hit.snippet.length ∧
    ∀ i, i < hit.snippet.length → (hit.offset ≤ i ∧ i < hit.offset + hit.length ↔
      hit.rawOffset ≤ first + i ∧ first + i < hit.rawOffset + query.length)

/-- One byte more: the one new place is where a match would end with it. -/
theorem positions_concat (query bytes : List UInt8) (byte : UInt8) :
    positions query (bytes ++ [byte]) = positions query bytes ++
      if query.length ≤ bytes.length + 1 ∧
          (((bytes ++ [byte]).map fold).drop (bytes.length + 1 - query.length)) = query.map fold then
        [bytes.length + 1 - query.length]
      else [] := by
  rw [positions, positions, List.length_append, List.length_singleton]
  by_cases hlong : query.length ≤ bytes.length + 1
  · obtain ⟨n, hn⟩ : ∃ n, bytes.length + 1 - query.length = n := ⟨_, rfl⟩
    have hsucc : bytes.length + 1 + 1 - query.length = n + 1 := by omega
    rw [hsucc, hn, List.range_succ, List.filter_append]
    congr 1
    · refine List.filter_congr fun i hi => ?_
      rw [List.mem_range] at hi
      rw [List.map_append, List.drop_append_of_le_length (by rw [List.length_map]; omega),
        List.take_append_of_le_length (by rw [List.length_drop, List.length_map]; omega)]
    · rw [List.filter_singleton]
      have htake : (((bytes ++ [byte]).map fold).drop n).take query.length =
          ((bytes ++ [byte]).map fold).drop n :=
        List.take_of_length_le (by
          rw [List.length_drop, List.length_map, List.length_append, List.length_singleton]
          omega)
      rw [htake]
      simp only [hlong, true_and]
      split_ifs with hsame
      · rw [decide_eq_true hsame]
        rfl
      · rw [decide_eq_false hsame]
        rfl
  · have hnone : bytes.length + 1 - query.length = 0 := by omega
    have hnone' : bytes.length + 1 + 1 - query.length = 0 := by omega
    rw [hnone, hnone', if_neg fun h => hlong h.1]
    rfl

/-! ## The ring -/

/-- The ring holds the last bytes of these. -/
structure Holds (matcher : Matcher) (bytes : List UInt8) : Prop where
  total : matcher.total = bytes.length
  ring : ∀ p, p < bytes.length → bytes.length ≤ p + ringBytes →
    bytes[p]? = some (matcher.byteAt p)

variable {bytes query : List UInt8} {each : Found} {matcher : Matcher} {byte : UInt8}

/-- **No byte that a snippet needs was overwritten.** -/
theorem Holds.sequenceAt {self : Matcher} (h : Holds self bytes) {p : Nat} (hp : p < bytes.length)
    (hring : bytes.length ≤ p + ringBytes) : self.sequenceAt p = charAt bytes p := by
  have hhead : (bytes.drop p).head? = some (self.byteAt p) := by
    rw [List.head?_drop]
    exact h.ring p hp hring
  rw [Matcher.sequenceAt, charAt, hhead, Option.bind_some]
  cases hsize : utf8ByteSequenceLength (self.byteAt p) with
  | none => rfl
  | some size =>
    rw [Option.bind_some, h.total, List.length_drop]
    by_cases hle : size ≤ bytes.length - p
    · have hsequence : (List.range size).map (fun j => self.byteAt (p + j)) =
          (bytes.drop p).take size := by
        refine List.ext_getElem? fun i => ?_
        rw [List.getElem?_map, List.getElem?_take, List.getElem?_drop]
        by_cases hi : i < size
        · rw [if_pos hi, List.getElem?_range hi, Option.map_some]
          exact (h.ring (p + i) (by omega) (by omega)).symm
        · rw [if_neg hi, List.getElem?_eq_none (by rw [List.length_range]; omega)]
          rfl
      simp only [hsequence]
    · rw [if_neg fun hwhole => hle hwhole.1]
      simp only
      rw [if_neg fun hwhole => hle hwhole.1]

/-! ## Cutting -/

/-- A hit that may be cut: its snippet starts where it should, and the ring still has what it
shows. -/
structure Ready (query bytes : List UInt8) (each : Found) : Prop where
  start : each.start = snippetStart query each.hit.rawOffset
  fits : each.hit.rawOffset + query.length ≤ bytes.length
  recent : bytes.length ≤ each.start + 256

/-- **A cut hit is marked**, in the bytes so far if they are all, and else in any that go on
from enough of them. -/
theorem cut_marks {self : Matcher} {more : List UInt8} (hlength : self.query.length = query.length)
    (hquery : 1 ≤ query.length) (h : Holds self bytes) (hready : Ready query bytes each)
    (henough : more = [] ∨ each.start + snippetBytes + lookahead ≤ bytes.length) :
    (self.cut each).hit.Marks query (bytes ++ more) := by
  obtain ⟨hstart, hfits, hrecent⟩ := hready
  have hbelow : each.start ≤ each.hit.rawOffset := by
    rw [hstart, snippetStart]
    exact Nat.sub_le _ _
  have hstop : min self.total (each.start + snippetBytes) =
      min (bytes ++ more).length (each.start + snippetBytes) := by
    rw [h.total, List.length_append]
    rcases henough with rfl | henough
    · rfl
    · omega
  have hread : ∀ p, each.start - 3 ≤ p →
      p < min (bytes ++ more).length (each.start + snippetBytes) →
      self.sequenceAt p = charAt (bytes ++ more) p := by
    intro p hge hlt
    rcases henough with rfl | henough
    · rw [List.append_nil] at hlt ⊢
      exact h.sequenceAt (by omega) (by rw [ringBytes]; omega)
    · rw [lookahead] at henough
      rw [charAt_append (by omega)]
      exact h.sequenceAt (by omega) (by rw [ringBytes]; omega)
  have hlt : each.start < min (bytes ++ more).length (each.start + snippetBytes) := by
    rw [List.length_append, snippetBytes]
    omega
  have hsnippet := @shownFrom_snippet (bytes ++ more) each.start _ self hread rfl hlt
    (min (bytes ++ more).length (each.start + snippetBytes)) (each.start - 3) none [] (Nat.sub_le _ _)
    (fun _ => rfl) (fun hne => absurd rfl hne) (by
      rw [Option.getD_none, max_eq_left (Nat.sub_le _ _)]
      exact Cutting.init hlt.le)
  rw [← hstop] at hsnippet
  have hraw : (self.cut each).hit.rawOffset = each.hit.rawOffset := rfl
  -- What is shown first, and the bytes shown.
  generalize hshown : self.shownFrom each.start (min self.total (each.start + snippetBytes))
    (min self.total (each.start + snippetBytes)) (each.start - 3) none [] = result at hsnippet
  have hcut : (self.cut each).hit.snippet = result.2 ∧
      (self.cut each).hit.offset = min result.2.length
        (each.hit.rawOffset - result.1.getD (min self.total (each.start + snippetBytes))) ∧
      (self.cut each).hit.length = min (result.2.length - (self.cut each).hit.offset)
        (self.query.length - (result.1.getD (min self.total (each.start + snippetBytes)) -
          each.hit.rawOffset)) := by
    rw [← hshown]
    exact ⟨rfl, rfl, rfl⟩
  obtain ⟨hbytes, hoffset, hmark⟩ := hcut
  refine ⟨result.1.getD (min self.total (each.start + snippetBytes)), ?_, ?_, ?_⟩
  · rw [hraw, ← hstart, ← hstop, hbytes]
    exact hsnippet
  · rw [hbytes]
    omega
  · intro i hi
    rw [hbytes] at hi
    rw [hraw]
    omega

/-! ## Reading -/

/-- A found hit after these bytes: already marked in whatever follows, or still to be cut. -/
structure Kept (query bytes : List UInt8) (each : Found) : Prop where
  start : each.start = snippetStart query each.hit.rawOffset
  fits : each.hit.rawOffset + query.length ≤ bytes.length
  marked : each.done = true → ∀ more, each.hit.Marks query (bytes ++ more)
  recent : each.done = false → bytes.length ≤ each.start + 256

/-- A search that has read these bytes. -/
structure Searched (matcher : Matcher) (query bytes : List UInt8) : Prop where
  query_eq : matcher.query = query.map fold
  holds : Holds matcher bytes
  carry : matcher.carry = (bytes.map fold).drop (bytes.length + 1 - query.length)
  found : matcher.found.map (fun each => each.hit.rawOffset) = (positions query bytes).take maxHits
  kept : ∀ each ∈ matcher.found, Kept query bytes each

theorem searched_init (query : List UInt8) (hquery : 1 ≤ query.length) :
    Searched (.init query) query [] where
  query_eq := rfl
  holds := ⟨rfl, fun _ hp _ => absurd hp (Nat.not_lt_zero _)⟩
  carry := (List.drop_nil).symm
  found := by
    have hnone : ([] : List UInt8).length + 1 - query.length = 0 := by
      rw [List.length_nil]
      omega
    rw [positions, hnone]
    rfl
  kept _ heach := by cases heach

theorem startOf_eq (h : matcher.query = query.map fold) (pos : Nat) :
    matcher.startOf pos = snippetStart query pos := by
  rw [Matcher.startOf, h, List.length_map, snippetStart]

theorem snippetStart_recent (query : List UInt8) {pos : Nat} (hquery : query.length ≤ maxQuery) :
    pos + query.length ≤ snippetStart query pos + 256 := by
  rw [maxQuery] at hquery
  rw [snippetStart]
  split_ifs <;> omega

theorem Kept.append (h : Kept query bytes each)
    (hrecent : each.done = false → bytes.length < each.start + snippetBytes + lookahead) :
    Kept query (bytes ++ [byte]) each where
  start := h.start
  fits := by
    have hfits := h.fits
    rw [List.length_append, List.length_singleton]
    omega
  marked hdone more := by
    rw [List.append_assoc]
    exact h.marked hdone _
  recent hdone := by
    have hlt := hrecent hdone
    rw [snippetBytes, lookahead] at hlt
    rw [List.length_append, List.length_singleton]
    omega

theorem Holds.push {next : Matcher} (h : Holds matcher bytes)
    (hraw : next.raw = matcher.raw.set (matcher.total % ringBytes) byte (Nat.mod_lt _ (by decide)))
    (htotal : next.total = matcher.total + 1) : Holds next (bytes ++ [byte]) := by
  refine ⟨by rw [htotal, h.total, List.length_append, List.length_singleton], ?_⟩
  intro p hp hring
  rw [List.length_append, List.length_singleton] at hp hring
  have hbyte : next.byteAt p =
      if matcher.total % ringBytes = p % ringBytes then byte else matcher.byteAt p := by
    rw [Matcher.byteAt, hraw]
    exact Vector.getElem_set _ _
  have htotal' := h.total
  rw [ringBytes] at hring hbyte
  rw [hbyte]
  rcases Nat.lt_or_ge p bytes.length with hold | hnew
  · rw [if_neg (by omega), List.getElem?_append_left hold]
    exact h.ring p hold (by rw [ringBytes]; omega)
  · obtain rfl : p = bytes.length := by omega
    rw [if_pos (by rw [htotal']), List.getElem?_concat_length]

theorem Matcher.read_short (h : (matcher.carry ++ [fold byte]).length ≠ matcher.query.length) :
    matcher.read byte =
      { matcher with
        raw := matcher.raw.set (matcher.total % ringBytes) byte (Nat.mod_lt _ (by decide))
        total := matcher.total + 1
        carry := matcher.carry ++ [fold byte] } :=
  if_neg h

theorem Matcher.read_full (h : (matcher.carry ++ [fold byte]).length = matcher.query.length) :
    matcher.read byte =
      { matcher with
        raw := matcher.raw.set (matcher.total % ringBytes) byte (Nat.mod_lt _ (by decide))
        total := matcher.total + 1
        found := if matcher.count < maxHits ∧ matcher.carry ++ [fold byte] = matcher.query
          then matcher.found ++ [⟨{ rawOffset := matcher.total + 1 - matcher.query.length },
            matcher.startOf (matcher.total + 1 - matcher.query.length), false⟩]
          else matcher.found
        carry := (matcher.carry ++ [fold byte]).drop 1 } :=
  if_pos h

/-- **One byte.** A search that has cut what it could goes on. -/
theorem Searched.read (byte : UInt8) (h : Searched matcher query bytes)
    (hquery : 1 ≤ query.length ∧ query.length ≤ maxQuery)
    (hcut : ∀ each ∈ matcher.found, each.done = false →
      bytes.length < each.start + snippetBytes + lookahead) :
    Searched (matcher.read byte) query (bytes ++ [byte]) := by
  obtain ⟨hqueryEq, hholds, hcarry, hfound, hkept⟩ := h
  have hqueryLength : matcher.query.length = query.length := by
    rw [hqueryEq, List.length_map]
  have hnext : matcher.carry ++ [fold byte] =
      ((bytes ++ [byte]).map fold).drop (bytes.length + 1 - query.length) := by
    rw [hcarry, List.map_append, List.drop_append_of_le_length (by rw [List.length_map]; omega)]
    rfl
  have hlength : (matcher.carry ++ [fold byte]).length = min query.length (bytes.length + 1) := by
    rw [hnext, List.length_drop, List.length_map, List.length_append, List.length_singleton]
    omega
  have hmore : ∀ each ∈ matcher.found, Kept query (bytes ++ [byte]) each := fun each heach =>
    (hkept each heach).append (hcut each heach)
  have hcount : matcher.found.length = min maxHits (positions query bytes).length := by
    rw [← List.length_take, ← hfound, List.length_map]
  have hconcat := positions_concat query bytes byte
  by_cases hfull : (matcher.carry ++ [fold byte]).length = matcher.query.length
  swap
  · -- The carry is not as long as the query: no match can end here.
    have hshort : ¬ query.length ≤ bytes.length + 1 := by omega
    rw [if_neg fun hsame => hshort hsame.1, List.append_nil] at hconcat
    rw [Matcher.read_short hfull]
    refine ⟨hqueryEq, hholds.push rfl rfl, ?_, ?_, hmore⟩
    · show matcher.carry ++ [fold byte] = _
      rw [hnext, List.length_append, List.length_singleton]
      congr 1
      omega
    · rw [hconcat]
      exact hfound
  · have hlong : query.length ≤ bytes.length + 1 := by omega
    have hpos : matcher.total + 1 - matcher.query.length = bytes.length + 1 - query.length := by
      rw [hholds.total, hqueryLength]
    rw [Matcher.read_full hfull, hpos]
    refine ⟨hqueryEq, hholds.push rfl rfl, ?_, ?_, ?_⟩
    · show (matcher.carry ++ [fold byte]).drop 1 = _
      rw [hnext, List.drop_drop, List.length_append, List.length_singleton]
      congr 1
      omega
    · show (if matcher.count < maxHits ∧ matcher.carry ++ [fold byte] = matcher.query then
          matcher.found ++ [_] else matcher.found).map _ = _
      have hsame : matcher.carry ++ [fold byte] = matcher.query ↔
          ((bytes ++ [byte]).map fold).drop (bytes.length + 1 - query.length) =
            query.map fold := by
        rw [hnext, hqueryEq]
      by_cases hmatch : matcher.carry ++ [fold byte] = matcher.query
      · rw [if_pos ⟨hlong, hsame.mp hmatch⟩] at hconcat
        rw [hconcat]
        by_cases hroom : matcher.count < maxHits
        · rw [if_pos ⟨hroom, hmatch⟩, List.map_append, hfound]
          rw [Matcher.count, hcount] at hroom
          rw [List.take_of_length_le (by omega), List.take_of_length_le (by
              rw [List.length_append, List.length_singleton]
              omega)]
          rfl
        · rw [if_neg fun hboth => hroom hboth.1, hfound]
          rw [Matcher.count, hcount] at hroom
          rw [List.take_append_of_le_length (by omega)]
      · rw [if_neg fun hboth => hmatch (hsame.mpr hboth.2), List.append_nil] at hconcat
        rw [if_neg fun hboth => hmatch hboth.2, hconcat, hfound]
    · intro each heach
      by_cases hadd : matcher.count < maxHits ∧ matcher.carry ++ [fold byte] = matcher.query
      · rw [if_pos hadd] at heach
        rcases List.mem_append.mp heach with hold | hnew
        · exact hmore each hold
        · rw [List.mem_singleton.mp hnew]
          have hfits : bytes.length + 1 - query.length + query.length = bytes.length + 1 := by omega
          refine ⟨startOf_eq hqueryEq _, ?_, fun hdone => (by cases hdone), fun _ => ?_⟩
          · rw [List.length_append, List.length_singleton]
            exact hfits.le
          · have hrecent := @snippetStart_recent query (bytes.length + 1 - query.length) hquery.2
            rw [hfits] at hrecent
            show _ ≤ matcher.startOf _ + 256
            rw [startOf_eq hqueryEq, List.length_append, List.length_singleton]
            exact hrecent
      · rw [if_neg hadd] at heach
        exact hmore each heach

theorem Kept.cut (h : Kept query bytes each)
    (hmarks : ∀ more, (matcher.cut each).hit.Marks query (bytes ++ more)) :
    Kept query bytes (matcher.cut each) where
  start := h.start
  fits := h.fits
  marked _ := hmarks
  recent hdone := by cases hdone

/-- **What can be cut is cut**, and what is left waits for more. -/
theorem Searched.cutReady (h : Searched matcher query bytes) (hquery : 1 ≤ query.length) :
    Searched matcher.cutReady query bytes ∧
      ∀ each ∈ matcher.cutReady.found, each.done = false →
        bytes.length < each.start + snippetBytes + lookahead := by
  obtain ⟨hqueryEq, hholds, hcarry, hfound, hkept⟩ := h
  have hlength : matcher.query.length = query.length := by rw [hqueryEq, List.length_map]
  refine ⟨⟨hqueryEq, ⟨hholds.total, hholds.ring⟩, hcarry, ?_, ?_⟩, ?_⟩
  · rw [← hfound, Matcher.cutReady, List.map_map]
    refine List.map_congr_left fun each _ => ?_
    rw [Function.comp_apply]
    split_ifs <;> rfl
  · intro each heach
    rw [Matcher.cutReady] at heach
    obtain ⟨old, hold, rfl⟩ := List.mem_map.mp heach
    have hkeep := hkept old hold
    by_cases hready : (!old.done && old.start + snippetBytes + lookahead ≤ matcher.total) = true
    · rw [if_pos hready]
      simp only [Bool.and_eq_true, Bool.not_eq_true', decide_eq_true_eq, hholds.total] at hready
      exact hkeep.cut fun more => cut_marks hlength hquery hholds
        ⟨hkeep.start, hkeep.fits, hkeep.recent hready.1⟩ (.inr hready.2)
    · rw [if_neg hready]
      exact hkeep
  · intro each heach hdone
    rw [Matcher.cutReady] at heach
    obtain ⟨old, -, rfl⟩ := List.mem_map.mp heach
    by_cases hready : (!old.done && old.start + snippetBytes + lookahead ≤ matcher.total) = true
    · rw [if_pos hready] at hdone
      cases hdone
    · rw [if_neg hready] at hdone ⊢
      simp only [hdone, Bool.not_false, Bool.true_and, decide_eq_true_eq, hholds.total] at hready
      exact Nat.not_le.mp hready

/-- **A piece of the text.** However long it is, the search has read it. -/
theorem Searched.feed (hquery : 1 ≤ query.length ∧ query.length ≤ maxQuery) (piece : List UInt8) :
    ∀ {matcher : Matcher} {bytes : List UInt8}, Searched matcher query bytes →
      (∀ each ∈ matcher.found, each.done = false →
        bytes.length < each.start + snippetBytes + lookahead) →
      Searched (matcher.feed piece) query (bytes ++ piece) ∧
        ∀ each ∈ (matcher.feed piece).found, each.done = false →
          (bytes ++ piece).length < each.start + snippetBytes + lookahead := by
  induction piece with
  | nil =>
    intro matcher bytes h hcut
    rw [List.append_nil]
    exact ⟨h, hcut⟩
  | cons byte rest ih =>
    intro matcher bytes h hcut
    obtain ⟨hstep, hwait⟩ := (h.read byte hquery hcut).cutReady hquery.1
    have hrest := ih hstep hwait
    rw [List.append_assoc] at hrest
    exact hrest

theorem Matcher.feed_pieces (matcher : Matcher) (pieces : List (List UInt8)) :
    pieces.foldl Matcher.feed matcher = matcher.feed pieces.flatten := by
  induction pieces generalizing matcher with
  | nil => rfl
  | cons piece rest ih =>
    rw [List.foldl_cons, ih, List.flatten_cons, Matcher.feed, Matcher.feed, Matcher.feed,
      List.foldl_append]

/-! ## The search -/

/-- **A search finds the first three places and shows each.** -/
theorem search_finds (query : List UInt8)
    (hquery : 1 ≤ query.length ∧ query.length ≤ maxQuery) (pieces : List (List UInt8)) :
    let text := pieces.flatten
    let found := (pieces.foldl Matcher.feed (Matcher.init query)).finish
    found.count = min maxHits (positions query text).length ∧
      found.hits.map Hit.rawOffset = (positions query text).take maxHits ∧
      ∀ hit ∈ found.hits, hit.Marks query text ∧ hit.snippet.length ≤ snippetBytes := by
  intro text found
  obtain ⟨⟨hqueryEq, hholds, -, hfound, hkept⟩, -⟩ :=
    Searched.feed hquery text (searched_init query hquery.1) fun each heach => (by cases heach)
  rw [List.nil_append] at hholds hfound hkept
  have hfed : found = ((Matcher.init query).feed text).finish := by
    rw [← Matcher.feed_pieces]
  generalize (Matcher.init query).feed text = matcher at hqueryEq hholds hfound hkept hfed
  have hoffsets : found.hits.map Hit.rawOffset = (positions query text).take maxHits := by
    rw [← hfound, hfed, Matcher.hits, Matcher.finish, List.map_map, List.map_map]
    refine List.map_congr_left fun each _ => ?_
    simp only [Function.comp_apply]
    split_ifs <;> rfl
  refine ⟨?_, hoffsets, fun hit hhit => ?_⟩
  · rw [← List.length_take, ← hoffsets, List.length_map, Matcher.hits, List.length_map]
    rfl
  · have hmarks : hit.Marks query text := by
      rw [hfed, Matcher.hits, Matcher.finish, List.map_map] at hhit
      obtain ⟨each, heach, rfl⟩ := List.mem_map.mp hhit
      have hkeep := hkept each heach
      rw [Function.comp_apply, ← List.append_nil text]
      by_cases hdone : each.done = true
      · rw [if_pos hdone]
        exact hkeep.marked hdone []
      · rw [if_neg hdone]
        exact cut_marks (by rw [hqueryEq, List.length_map]) hquery.1 hholds
          ⟨hkeep.start, hkeep.fits, hkeep.recent (Bool.eq_false_iff.mpr hdone)⟩ (.inl rfl)
    refine ⟨hmarks, ?_⟩
    obtain ⟨first, hsnippet, -⟩ := hmarks
    have hge := hsnippet.first_ge
    have hle := hsnippet.last_le
    omega

theorem search_finds_overlaps :
    (([text "x aA", text "A tail"].foldl Matcher.feed (Matcher.init (text "aa"))).finish).count = 2 :=
  ((search_finds (text "aa") (by decide) [text "x aA", text "A tail"]).1).trans (by decide)

end Rui.WordSearch
