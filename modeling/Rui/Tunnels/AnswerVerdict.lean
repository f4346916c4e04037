import Rui.Tunnels.AnswerRuns

/-!
# The verdict on an answer

What the code says of a stream, in chunks or whole, is right exactly when no CR stands after a CR
in the lines of an exchange.
-/

namespace Rui.Tunnels

open Library

/-! ## Feeding -/

/-- What is said where a scan of the bytes that fit ends; `beyond` when there are more. -/
def said (before : Nat) (beyond : Bool) : Scanning Scan Nat → Step
  | .goes _ => if beyond then .malformed else .more
  | .done status used => .done status (before + used)
  | .malformed => .malformed

theorem said_after (before index : Nat) (beyond : Bool) (x : Scanning Scan Nat) :
    said before beyond (x.after index) = said (before + index) beyond x := by
  cases x with
  | done status used => exact congrArg (Step.done status) (Nat.add_assoc _ _ _).symm
  | _ => rfl

variable {answer : Answer} {next : Scan} {bytes : List UInt8}

/-- **Feeding is scanning** the bytes that fit. -/
theorem feedFrom_eq (index : Nat) (bytes : List UInt8) (hconsumed : answer.consumed ≤ maxBytes) :
    (answer.feedFrom index bytes).1 =
      said index (decide (maxBytes - answer.consumed < bytes.length))
        (Library.scan Scan.read answer.scan (bytes.take (maxBytes - answer.consumed))) := by
  induction bytes generalizing answer index with
  | nil => rw [List.take_nil]; rfl
  | cons byte rest ih =>
    rw [Answer.feedFrom]
    by_cases hfull : answer.consumed = maxBytes
    · rw [if_pos hfull, hfull, Nat.sub_self, List.take_zero, scan_nil, said, List.length_cons,
        decide_eq_true (Nat.succ_pos _)]
      rfl
    · rw [if_neg hfull]
      obtain ⟨room, hroom⟩ : ∃ room, maxBytes - answer.consumed = room + 1 :=
        ⟨maxBytes - answer.consumed - 1, by omega⟩
      rw [hroom, List.take_succ_cons, Library.scan]
      cases hread : answer.scan.read byte with
      | goes next =>
        have hnext := @ih ⟨answer.consumed + 1, next⟩ (index + 1) (by simp only; omega)
        have hless : maxBytes - (answer.consumed + 1) = room := by omega
        simp only [hless] at hnext
        simp only [hnext, said_after, List.length_cons, Nat.add_lt_add_iff_right]
      | done status => rfl
      | malformed => rfl

theorem feedFrom_more (index : Nat) (bytes : List UInt8)
    (h : (answer.feedFrom index bytes).1 = .more) (hconsumed : answer.consumed ≤ maxBytes) :
    answer.consumed + bytes.length ≤ maxBytes ∧
      Library.scan Scan.read answer.scan bytes = .goes (answer.feedFrom index bytes).2.scan ∧
      (answer.feedFrom index bytes).2.consumed = answer.consumed + bytes.length := by
  induction bytes generalizing answer index with
  | nil => exact ⟨hconsumed, rfl, rfl⟩
  | cons byte rest ih =>
    rw [Answer.feedFrom] at h ⊢
    by_cases hfull : answer.consumed = maxBytes
    · rw [if_pos hfull] at h
      cases h
    · rw [if_neg hfull] at h ⊢
      cases hread : answer.scan.read byte with
      | goes next =>
        simp only [hread] at h ⊢
        obtain ⟨hle, hscan, hnext⟩ := @ih ⟨answer.consumed + 1, next⟩ (index + 1) h
          (by simp only; omega)
        rw [scan_cons hread, hscan, hnext, List.length_cons]
        simp only at hle ⊢
        exact ⟨by omega, rfl, by omega⟩
      | done status =>
        simp only [hread] at h
        cases h
      | malformed =>
        simp only [hread] at h
        cases h

/-- **Chunks** are read as the bytes they make. -/
theorem feedAll_eq (before : Nat) (chunks : List (List UInt8))
    (hconsumed : answer.consumed ≤ maxBytes) : answer.feedAll before chunks =
      said before (decide (maxBytes - answer.consumed < chunks.flatten.length))
        (Library.scan Scan.read answer.scan
          (chunks.flatten.take (maxBytes - answer.consumed))) := by
  induction chunks generalizing answer before with
  | nil => rw [List.flatten_nil, List.take_nil]; rfl
  | cons chunk rest ih =>
    have hfed := feedFrom_eq 0 chunk hconsumed
    have hsplit : (chunk ++ rest.flatten).take (maxBytes - answer.consumed) =
        chunk.take (maxBytes - answer.consumed) ++
          rest.flatten.take (maxBytes - answer.consumed - chunk.length) := List.take_append
    rw [Answer.feedAll, Answer.feed, List.flatten_cons]
    cases hpair : answer.feedFrom 0 chunk with
    | mk step next =>
      rw [hpair] at hfed
      cases step with
      | more =>
        obtain ⟨hle, hscan, hnext⟩ := feedFrom_more 0 chunk (by rw [hpair]) hconsumed
        rw [hpair] at hscan hnext
        have hroom : chunk.length ≤ maxBytes - answer.consumed := by omega
        simp only at hnext
        simp only [ih (before + chunk.length) (by omega : next.consumed ≤ maxBytes)]
        rw [hsplit, List.take_of_length_le hroom, scan_goes hscan, said_after, hnext,
          Nat.sub_add_eq, List.length_append]
        congr 1
        rw [decide_eq_decide]
        omega
      | done status used =>
        cases hscan : Library.scan Scan.read answer.scan
            (chunk.take (maxBytes - answer.consumed)) with
        | goes s =>
          rw [hscan, said] at hfed
          split_ifs at hfed
        | done status' used' =>
          rw [hscan] at hfed
          cases hfed
          rw [hsplit, (scan_done hscan).1]
          simp only [said, Nat.zero_add]
        | malformed =>
          rw [hscan] at hfed
          cases hfed
      | malformed =>
        cases hscan : Library.scan Scan.read answer.scan
            (chunk.take (maxBytes - answer.consumed)) with
        | goes s =>
          rw [hscan, said] at hfed
          split_ifs at hfed with hover
          have hlong := of_decide_eq_true hover
          have hzero : maxBytes - answer.consumed - chunk.length = 0 := by omega
          rw [hsplit, hzero, List.take_zero, List.append_nil, hscan, said, if_pos]
          rw [decide_eq_true_eq, List.length_append]
          omega
        | done status' used' =>
          rw [hscan] at hfed
          cases hfed
        | malformed => rw [hsplit, scan_malformed hscan]; rfl

/-! ## The code's reader -/

/-- A reader's counters stay small. -/
structure Small (scan : Scan) : Prop where
  part : scan.part ≤ 8
  ending : scan.ending ≤ 3
  status : scan.status ≤ 999
  version : scan.phase = .version → scan.status = 0
  digits : scan.phase = .status → scan.part ≤ 3 ∧ scan.status < 10 ^ scan.part

theorem Small.start : Small {} :=
  ⟨by decide, by decide, by decide, fun _ => rfl, fun h => (by cases h)⟩

/-- After the status, only the ending and the phase change. -/
theorem Small.of_lines {scan : Scan} (h : Small scan) {phase : Phase} (hphase : phase.lines)
    {ending : Nat} (hending : ending ≤ 3) : Small { scan with phase, ending } := by
  refine ⟨h.part, hending, h.status, fun hversion => ?_, fun hstatus => ?_⟩
  · rcases hphase with hlines | hlines <;> cases hlines.symm.trans hversion
  · rcases hphase with hlines | hlines <;> cases hlines.symm.trans hstatus

theorem Small.readLine {scan : Scan} {byte : UInt8} (h : Small scan) (hphase : scan.phase.lines)
    (hread : scan.readLine byte = .goes next) : Small next := by
  have hended : ∀ ending, ending ≤ 3 → scan.ended ending = .goes next → Small next := by
    intro ending hle hgoes
    cases hgoes
    refine h.of_lines ?_ hle
    split_ifs
    · exact .inr rfl
    · exact hphase
  rw [Scan.readLine] at hread
  split_ifs at hread with hcr htwo hlf hone hthree hfinal hafter
  · exact hended 3 (by decide) hread
  · exact hended 1 (by decide) hread
  · exact hended 2 (by decide) hread
  · cases hread
    exact Small.start
  · exact hended 0 (by decide) hread

theorem Small.read {scan : Scan} {byte : UInt8} (h : Small scan)
    (hread : scan.read byte = .goes next) : Small next := by
  cases hphase : scan.phase with
  | version =>
    rw [Scan.read, hphase] at hread
    simp only [Scan.readVersion] at hread
    have hlength : versionLead.length = 7 := by decide
    rw [hlength] at hread
    split_ifs at hread
    · cases hread
      exact ⟨by simp only; omega, h.ending, h.status, h.version,
        fun hstatus => absurd (hphase.symm.trans hstatus) (by decide)⟩
    · cases hread
      exact ⟨by simp only; omega, h.ending, h.status, h.version,
        fun hstatus => absurd (hphase.symm.trans hstatus) (by decide)⟩
    · cases hread
      refine ⟨Nat.zero_le _, h.ending, h.status, fun hversion => (by cases hversion), fun _ => ?_⟩
      simp only [h.version hphase]
      decide
  | status =>
    obtain ⟨hpart, hvalue⟩ := h.digits hphase
    rw [Scan.read, hphase] at hread
    simp only [Scan.readStatus] at hread
    split_ifs at hread with hlt hdigit hspace hcr
    · cases hread
      have hbyte := digitValue_lt ((Bool.not_eq_false _).mp hdigit)
      have hpow : scan.status * 10 + digitValue byte < 10 ^ (scan.part + 1) := by
        rw [Nat.pow_succ]
        omega
      have hmax : 10 ^ (scan.part + 1) ≤ 10 ^ 3 := Nat.pow_le_pow_right (by decide) hlt
      exact ⟨by simp only; omega, h.ending, by simp only; omega,
        fun hversion => absurd (hphase.symm.trans hversion) (by decide), fun _ => ⟨hlt, hpow⟩⟩
    · cases hread
      exact h.of_lines (.inl rfl) h.ending
    · cases hread
      exact h.of_lines (.inl rfl) (by decide)
  | reason => exact h.readLine (.inl hphase) ((read_lines (.inl hphase) byte).symm.trans hread)
  | fields => exact h.readLine (.inr hphase) ((read_lines (.inr hphase) byte).symm.trans hread)

theorem Small.scan {scan : Scan} (h : Small scan)
    (hscan : Library.scan Scan.read scan bytes = .goes next) : Small next := by
  induction bytes generalizing scan with
  | nil =>
    cases hscan
    exact h
  | cons byte rest ih =>
    cases hread : scan.read byte with
    | goes middle =>
      rw [scan_cons hread] at hscan
      cases hrest : Library.scan Scan.read middle rest with
      | goes last =>
        rw [hrest] at hscan
        cases hscan
        exact ih (h.read hread) hrest
      | done status used =>
        rw [hrest] at hscan
        cases hscan
      | malformed =>
        rw [hrest] at hscan
        cases hscan
    | done status =>
      rw [Library.scan, hread] at hscan
      cases hscan
    | malformed =>
      rw [Library.scan, hread] at hscan
      cases hscan

/-! ## A CR after a CR -/

/-- A CR that is read leaves a line's end begun. -/
theorem read_cr {scan : Scan} (h : scan.read cr = .goes next) :
    next.phase.lines ∧ (next.ending = 1 ∨ next.ending = 3) := by
  cases hphase : scan.phase with
  | version =>
    have hlead : ∀ k, versionLead[k]? ≠ some cr := fun k hk =>
      absurd (List.mem_of_getElem? hk) (by decide)
    rw [Scan.read, hphase] at h
    have hdigit : isDigit cr = false := by decide
    have hspace : cr ≠ ascii ' ' := by decide
    simp only [Scan.readVersion, if_pos (hlead scan.part), if_pos hdigit, if_pos hspace] at h
    split_ifs at h
  | status =>
    rw [Scan.read, hphase] at h
    have hdigit : isDigit cr = false := by decide
    have hspace : ¬ cr = ascii ' ' := by decide
    simp only [Scan.readStatus, if_pos hdigit, if_neg hspace] at h
    split_ifs at h
    cases h
    exact ⟨.inl rfl, .inl rfl⟩
  | reason =>
    rw [read_lines (.inl hphase), Scan.readLine, if_pos rfl] at h
    cases h
    split_ifs <;> simp [Phase.lines, hphase]
  | fields =>
    rw [read_lines (.inr hphase), Scan.readLine, if_pos rfl] at h
    cases h
    split_ifs <;> simp [Phase.lines, hphase]

/-- The code reads a CR where a line's end has begun. -/
theorem read_doubled {scan : Scan} (hphase : scan.phase.lines) :
    ∃ next, scan.read cr = .goes next := by
  rw [read_lines hphase, Scan.readLine, if_pos rfl]
  exact ⟨_, rfl⟩

/-- Where a line's end has begun, a CR was read last. -/
theorem Reached.cr {scan : Scan} (h : Reached bytes scan)
    (hending : scan.ending = 1 ∨ scan.ending = 3) : ∃ front, bytes = front ++ [cr] := by
  obtain ⟨interims, front, -, hat, rfl⟩ := h
  have hlast : ∃ rest, front = rest ++ [Tunnels.cr] := by
    cases hat with
    | reasonCr line => exact ⟨_, rfl⟩
    | fieldCr line fields field => exact ⟨_, rfl⟩
    | last line fields => exact ⟨_, rfl⟩
    | _ =>
      rcases hending with hone | hthree
      · cases hone
      · cases hthree
  obtain ⟨rest, rfl⟩ := hlast
  exact ⟨interims.flatMap Message.bytes ++ rest, by rw [List.append_assoc]⟩

/-- A CR stands after a CR, where the bytes before are a beginning of an exchange. -/
def Doubled (bytes : List UInt8) : Prop :=
  ∃ front, front.length + 2 ≤ maxBytes ∧ Begins (front ++ [cr]) ∧ front ++ [cr, cr] <+: bytes

/-- **Without a doubled CR** both readers read alike. -/
theorem scan_strict (hlength : bytes.length ≤ maxBytes) (h : ¬ Doubled bytes) :
    Library.scan Scan.read {} bytes = Library.scan strictRead {} bytes := by
  by_contra hdiffer
  obtain ⟨front, byte, back, scan, rfl, hfront, -, hstrict, hread⟩ :=
    @scan_differ _ _ _ Scan.read strictRead strictRead_cases {} bytes fun hsame => hdiffer hsame.symm
  have hdoubled : doubled scan byte := by
    by_contra hnot
    rw [strictRead, if_neg hnot] at hstrict
    exact hread hstrict
  have hreached := scan_reached.1 scan hfront
  obtain ⟨rest, rfl⟩ := hreached.cr hdoubled.2.2
  refine h ⟨rest, ?_, hreached.begins, ?_⟩
  · simp only [List.length_append, List.length_cons, List.length_nil] at hlength
    omega
  · rw [hdoubled.2.1]
    exact ⟨back, by simp⟩

/-! ## The answer -/

theorem feed_eq (bytes : List UInt8) : (({} : Answer).feed bytes).1 =
    said 0 (decide (maxBytes < bytes.length)) (Library.scan Scan.read {} (bytes.take maxBytes)) :=
  feedFrom_eq 0 bytes (Nat.zero_le _)

/-- What the spec says of bytes is what the strict reader finds. -/
theorem verdict_said (bytes : List UInt8) : Verdict bytes
    (said 0 (decide (maxBytes < bytes.length))
      (Library.scan strictRead {} (bytes.take maxBytes))) := by
  -- An exchange that fits ends the strict reader.
  have hexchange : ∀ exchange : Exchange, exchange.bytes <+: bytes →
      exchange.bytes.length ≤ maxBytes → Library.scan strictRead {} (bytes.take maxBytes) =
        .done exchange.status exchange.bytes.length := by
    intro exchange hprefix hfits
    have htake := hprefix.take maxBytes
    rw [List.take_of_length_le hfits] at htake
    obtain ⟨rest, hrest⟩ := htake
    rw [← hrest, (scan_done (scan_exchange exchange)).1]
  have hbegins : bytes.length ≤ maxBytes → Begins bytes →
      ∃ scan, Library.scan strictRead {} (bytes.take maxBytes) = .goes scan := by
    intro hfits hbegins
    rw [List.take_of_length_le hfits]
    exact scan_begins hbegins
  cases hscan : Library.scan strictRead {} (bytes.take maxBytes) with
  | goes scan =>
    have hnone : ¬ ∃ exchange : Exchange, exchange.bytes <+: bytes ∧
        exchange.bytes.length ≤ maxBytes := by
      rintro ⟨exchange, hprefix, hfits⟩
      have hdone := hexchange exchange hprefix hfits
      rw [hscan] at hdone
      cases hdone
    rw [said]
    by_cases hbeyond : maxBytes < bytes.length
    · rw [decide_eq_true hbeyond, if_pos rfl]
      exact ⟨hnone, fun hmore => Nat.not_le.mpr hbeyond hmore.1⟩
    · rw [decide_eq_false hbeyond, if_neg Bool.false_ne_true]
      have hfits := Nat.not_lt.mp hbeyond
      rw [List.take_of_length_le hfits] at hscan
      exact ⟨hfits, (scan_reached.1 scan hscan).begins⟩
  | done status used =>
    obtain ⟨exchange, hprefix, hused, hstatus⟩ := scan_reached.2 status used hscan
    have hle := (@scan_done _ _ _ _ _ _ [] _ _ hscan).2.1
    rw [List.length_take] at hle
    rw [said, Nat.zero_add]
    exact ⟨exchange, hprefix.trans (List.take_prefix _ _), hused, by omega, hstatus⟩
  | malformed =>
    refine ⟨?_, ?_⟩
    · rintro ⟨exchange, hprefix, hfits⟩
      have hdone := hexchange exchange hprefix hfits
      rw [hscan] at hdone
      cases hdone
    · rintro ⟨hfits, hmore⟩
      obtain ⟨scan, hgoes⟩ := hbegins hfits hmore
      rw [hscan] at hgoes
      cases hgoes

/-- The reading of a stream is right: it does not depend on the chunks, its counters stay in
their types, and what it says after each byte is what there is to say. -/
structure Right (bytes : List UInt8) : Prop where
  split : ∀ chunks : List (List UInt8), chunks.flatten = bytes →
    ({} : Answer).feedAll 0 chunks = (({} : Answer).feed bytes).1
  bounded : ∀ front, front <+: bytes → (({} : Answer).feed front).1 = .more →
    (({} : Answer).feed front).2.consumed ≤ maxBytes ∧ Small (({} : Answer).feed front).2.scan
  verdict : ∀ front, front <+: bytes → Verdict front (({} : Answer).feed front).1

/-- **The CONNECT answer** is read right exactly when no CR stands after a CR in it. -/
theorem answer_right (bytes : List UInt8) : Right bytes ↔ ¬ Doubled bytes := by
  constructor
  · rintro hright ⟨front, hfits, hbegins, hprefix⟩
    -- The code goes on past the second CR, where nothing can follow.
    obtain ⟨scan, hgoes⟩ := scan_begins hbegins
    obtain ⟨middle, hmiddle⟩ : ∃ middle, Library.scan strictRead {} front = .goes middle := by
      obtain ⟨exchange, rest, -, hbytes⟩ := hbegins
      have hdone := scan_exchange exchange
      rw [← hbytes, List.append_assoc] at hdone
      exact goes_of_done hdone (by simp)
    have hread : strictRead middle cr = .goes scan := by
      rw [scan_goes hmiddle, Library.scan] at hgoes
      cases hcr : strictRead middle cr with
      | goes next =>
        rw [hcr] at hgoes
        simp only [scan_nil, Scanning.after_goes, Scanning.goes.injEq] at hgoes
        rw [hgoes]
      | done status =>
        rw [hcr] at hgoes
        cases hgoes
      | malformed =>
        rw [hcr] at hgoes
        cases hgoes
    have hread' : middle.read cr = .goes scan := by
      rcases strictRead_cases middle cr with hsame | hrefused
      · rw [← hsame, hread]
      · rw [hread] at hrefused
        cases hrefused
    obtain ⟨hphase, hending⟩ := read_cr hread'
    have hnotBegins : ¬ Begins (front ++ [cr, cr]) := by
      intro hmore
      obtain ⟨next, hnext⟩ := scan_begins hmore
      have hrefused : strictRead scan cr = .malformed := if_pos ⟨hphase, rfl, hending⟩
      rw [scan_goes hmiddle, scan_cons hread, Library.scan, hrefused] at hnext
      cases hnext
    have hlength : (front ++ [cr, cr]).length ≤ maxBytes := by
      rw [List.length_append]
      exact hfits
    obtain ⟨next, hnext⟩ := read_doubled hphase
    have hcode : Library.scan Scan.read {} (front ++ [cr, cr]) = .goes next := by
      have hfront : Library.scan Scan.read {} front = .goes middle := by
        by_contra hdiffer
        obtain ⟨before, byte, back, place, rfl, hbefore, -, hrefused, -⟩ :=
          @scan_differ _ _ _ Scan.read strictRead strictRead_cases {} front
            fun hsame => hdiffer (hsame ▸ hmiddle)
        rw [scan_goes hbefore, Library.scan, hrefused] at hmiddle
        cases hmiddle
      rw [scan_goes hfront, scan_cons hread', scan_cons hnext]
      rfl
    have hverdict := hright.verdict _ hprefix
    rw [feed_eq, List.take_of_length_le hlength, hcode, decide_eq_false (Nat.not_lt.mpr hlength)]
      at hverdict
    exact hnotBegins hverdict.2
  · intro hnot
    refine ⟨fun chunks hchunks => ?_, fun front _ hmore => ?_, fun front hprefix => ?_⟩
    · rw [feed_eq, feedAll_eq 0 chunks (Nat.zero_le _), hchunks]
      rfl
    · obtain ⟨hle, hscan, hconsumed⟩ := feedFrom_more 0 front hmore (Nat.zero_le _)
      exact ⟨hconsumed ▸ hle, Small.start.scan hscan⟩
    · have hdoubled : ¬ Doubled (front.take maxBytes) := by
        rintro ⟨before, hfits, hbegins, hfront⟩
        exact hnot ⟨before, hfits, hbegins,
          hfront.trans ((List.take_prefix _ _).trans hprefix)⟩
      rw [feed_eq, scan_strict (List.length_take_le _ _) hdoubled]
      exact verdict_said front

/-- An answer with a CR after a CR opens the tunnel. -/
theorem answer_doubled :
    (({} : Answer).feed (text "HTTP/1.1 200 OK\r\r\n\r\n")).1 = .done 200 20 ∧
      ¬ Right (text "HTTP/1.1 200 OK\r\r\n\r\n") := by
  have hdone : (({} : Answer).feed (text "HTTP/1.1 200 OK\r\r\n\r\n")).1 = .done 200 20 := rfl
  refine ⟨hdone, fun hright => ?_⟩
  have hverdict := hright.verdict _ (List.prefix_refl _)
  rw [hdone] at hverdict
  obtain ⟨exchange, ⟨rest, hrest⟩, -⟩ := hverdict
  have hscan := (@scan_done _ _ _ _ _ _ rest _ _ (scan_exchange exchange)).1
  have hrefused : Library.scan strictRead {} (text "HTTP/1.1 200 OK\r\r\n\r\n") = .malformed := rfl
  rw [hrest, hrefused] at hscan
  cases hscan

end Rui.Tunnels
