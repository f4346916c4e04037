import Rui.Tunnels.AnswerLaws

/-!
# What was read

Where the strict reader stands tells what it read of the answer it is in, and such a beginning can
be completed. So its verdict is right, and the code's is but for a CR after a CR.
-/

namespace Rui.Tunnels

open Library

/-! ## Where a reader stands -/

/-- What was read of an answer, and where the reader stands. -/
inductive At : List UInt8 → Scan → Prop
  | lead (k : Nat) : k ≤ 7 → At (versionLead.take k) { part := k }
  | minor (minor : UInt8) : isDigit minor = true → At (versionLead ++ [minor]) { part := 8 }
  | status (minor : UInt8) (digits : List UInt8) : isDigit minor = true →
      (∀ digit ∈ digits, isDigit digit = true) → digits.length ≤ 3 →
      At (versionLead ++ minor :: ascii ' ' :: digits)
        { status := decimalValue digits, phase := .status, part := digits.length }
  | reason (line : StatusLine) (words : List UInt8) : line.reason = some words →
      At line.bytes (line.at .reason 0)
  | reasonCr (line : StatusLine) : At (line.bytes ++ [cr]) (line.at .reason 1)
  | lines (line : StatusLine) (fields : List FieldLine) :
      At (ended line.bytes ++ fieldLines fields) (line.at .fields 2)
  | field (line : StatusLine) (fields : List FieldLine) (field : FieldLine) :
      At (ended line.bytes ++ fieldLines fields ++ field.bytes) (line.at .fields 0)
  | fieldCr (line : StatusLine) (fields : List FieldLine) (field : FieldLine) :
      At (ended line.bytes ++ fieldLines fields ++ field.bytes ++ [cr]) (line.at .fields 1)
  | last (line : StatusLine) (fields : List FieldLine) :
      At (ended line.bytes ++ fieldLines fields ++ [cr]) (line.at .fields 3)

/-- What may be said after these bytes of an answer. -/
def Reads (bytes : List UInt8) : Byte → Prop
  | .goes scan => At bytes scan ∨
      scan = {} ∧ ∃ message : Message, message.interim ∧ message.bytes = bytes
  | .done status => ∃ message : Message, ¬ message.interim ∧ message.bytes = bytes ∧
      message.line.status = status
  | .malformed => True

variable {scan : Scan} {byte : UInt8} {bytes : List UInt8}

theorem strictRead_calm (hphase : scan.phase.lines) {next : Nat}
    (hending : scan.ending = 0 ∧ next = 1 ∨ scan.ending = 2 ∧ next = 3) (byte : UInt8) :
    strictRead scan byte =
      if byte = cr then scan.ended next
      else if byte = lf then .malformed else scan.ended 0 := by
  have hcalm : scan.ending = 0 ∨ scan.ending = 2 := by omega
  have hnext : (if scan.ending = 2 then 3 else 1) = next := by
    split_ifs <;> omega
  have hnot : ¬ (scan.ending = 1 ∨ scan.ending = 3) := by omega
  rw [strictRead_of_calm hcalm, Tunnels.read_lines hphase, Scan.readLine, hnext,
    if_neg (by omega : ¬ scan.ending = 1), if_neg (by omega : ¬ scan.ending = 3), if_neg hnot]

theorem strictRead_afterCr (hphase : scan.phase.lines) (hending : scan.ending = 1 ∨ scan.ending = 3)
    (hbyte : byte ≠ lf) : strictRead scan byte = .malformed := by
  by_cases hcr : byte = cr
  · exact if_pos ⟨hphase, hcr, hending⟩
  · rw [strictRead_of_ne hcr, Tunnels.read_lines hphase, Scan.readLine, if_neg hcr, if_neg hbyte,
      if_pos hending]

theorem strictRead_lf (hphase : scan.phase.lines) (hending : scan.ending = 1) :
    strictRead scan lf = scan.ended 2 := by
  rw [strictRead_of_ne cr_ne_lf.symm, read_lines hphase, Scan.readLine, if_neg cr_ne_lf.symm,
    if_pos rfl, if_pos hending]

theorem plain_concat {words : List UInt8} (h : Plain words) (hcr : byte ≠ cr) (hlf : byte ≠ lf) :
    Plain (words ++ [byte]) := by
  intro each heach
  rcases List.mem_append.mp heach with hold | hnew
  · exact h each hold
  · rw [List.mem_singleton.mp hnew]
    exact ⟨hcr, hlf⟩

theorem At.read_version (h : At bytes scan) (hphase : scan.phase = .version) :
    Reads (bytes ++ [byte]) (strictRead scan byte) := by
  cases h with
  | lead k hk =>
    rw [strictRead_of_calm (.inl rfl)]
    simp only [Scan.read, Scan.readVersion]
    have hlength : versionLead.length = 7 := by decide
    rw [hlength]
    split_ifs with hlt hbyte hseven hdigit hspace
    · trivial
    · refine .inl ?_
      have htake : versionLead.take k ++ [byte] = versionLead.take (k + 1) := by
        rw [List.take_add_one, not_not.mp hbyte]
        rfl
      rw [htake]
      exact .lead (k + 1) hlt
    · trivial
    · refine .inl ?_
      rw [hseven, ← hlength, List.take_length]
      exact .minor byte ((Bool.not_eq_false _).mp hdigit)
    · trivial
    · omega
  | minor minor hminor =>
    rw [strictRead_of_calm (.inl rfl)]
    simp only [Scan.read, Scan.readVersion]
    have hlength : versionLead.length = 7 := by decide
    rw [hlength, if_neg (by decide), if_neg (by decide)]
    split_ifs with hspace
    · trivial
    · refine .inl ?_
      rw [not_not.mp hspace, List.append_assoc, List.singleton_append]
      exact .status minor [] hminor (fun digit hdigit => (by cases hdigit)) (Nat.zero_le _)
  | _ => cases hphase

theorem At.read_status (h : At bytes scan) (hphase : scan.phase = .status) :
    Reads (bytes ++ [byte]) (strictRead scan byte) := by
  cases h with
  | status minor digits hminor hdigits hlength =>
    rw [strictRead_of_calm (.inl rfl)]
    simp only [Scan.read, Scan.readStatus]
    split_ifs with hlt hdigit hspace hcr
    · trivial
    · refine .inl ?_
      have hvalue : decimalValue digits * 10 + digitValue byte = decimalValue (digits ++ [byte]) := by
        rw [decimalValue, decimalValue, valueFrom_append, valueFrom_cons, valueFrom_nil]
        omega
      have hconcat := At.status minor (digits ++ [byte]) hminor
        (fun digit hmem => (List.mem_append.mp hmem).elim (hdigits digit) fun hnew => by
          rw [List.mem_singleton.mp hnew]
          exact (Bool.not_eq_false _).mp hdigit) (by rw [List.length_append]; exact hlt)
      rw [hvalue]
      rw [List.length_append, List.length_singleton] at hconcat
      rw [List.append_assoc]
      exact hconcat
    · refine .inl ?_
      have hthree : digits.length = 3 := by omega
      have hreason := At.reason ⟨minor, digits, some [], hminor, hdigits, hthree,
        fun words hwords => by
          rw [Option.mem_some_iff] at hwords
          rw [← hwords]
          exact fun byte hbyte => (by cases hbyte)⟩ [] rfl
      rw [hspace, hthree]
      exact hreason
    · refine .inl ?_
      have hthree : digits.length = 3 := by omega
      have hreason := At.reasonCr ⟨minor, digits, none, hminor, hdigits, hthree,
        fun words hwords => (by cases hwords)⟩
      rw [StatusLine.bytes, StatusLine.reasonBytes, Option.map_none, Option.getD_none,
        List.append_nil] at hreason
      rw [hcr, hthree]
      exact hreason
    · trivial
  | _ => cases hphase

theorem At.read_lines (h : At bytes scan) (hphase : scan.phase.lines) :
    Reads (bytes ++ [byte]) (strictRead scan byte) := by
  cases h with
  | lead _ _ => rcases hphase with h | h <;> cases h
  | minor _ _ => rcases hphase with h | h <;> cases h
  | status _ _ _ _ _ => rcases hphase with h | h <;> cases h
  | reason line words hwords =>
    rw [strictRead_calm hphase (.inl ⟨rfl, rfl⟩)]
    split_ifs with hcr hlf
    · rw [hcr]
      exact .inl (.reasonCr line)
    · trivial
    · refine .inl ?_
      have hmore := At.reason { line with
        reason := some (words ++ [byte])
        plain := fun each heach => by
          rw [Option.mem_some_iff] at heach
          rw [← heach]
          exact plain_concat (line.plain words hwords) hcr hlf } (words ++ [byte]) rfl
      have hbytes : line.bytes ++ [byte] = StatusLine.bytes { line with
          reason := some (words ++ [byte])
          plain := fun each heach => by
            rw [Option.mem_some_iff] at heach
            rw [← heach]
            exact plain_concat (line.plain words hwords) hcr hlf } := by
        rw [StatusLine.bytes, StatusLine.reasonBytes, hwords, List.append_assoc]
        rfl
      rw [hbytes]
      exact hmore
  | reasonCr line =>
    by_cases hlf : byte = lf
    · rw [hlf, strictRead_lf hphase rfl, List.append_assoc]
      refine .inl ?_
      have hlines := At.lines line []
      rw [fieldLines, List.flatMap_nil, List.append_nil] at hlines
      exact hlines
    · rw [strictRead_afterCr hphase (.inl rfl) hlf]
      trivial
  | lines line fields =>
    rw [strictRead_calm hphase (.inr ⟨rfl, rfl⟩)]
    split_ifs with hcr hlf
    · rw [hcr]
      exact .inl (.last line fields)
    · trivial
    · exact .inl (.field line fields ⟨[byte], List.cons_ne_nil _ _, fun each heach => by
        rw [List.mem_singleton.mp heach]
        exact ⟨hcr, hlf⟩⟩)
  | field line fields field =>
    rw [strictRead_calm hphase (.inl ⟨rfl, rfl⟩)]
    split_ifs with hcr hlf
    · rw [hcr]
      exact .inl (.fieldCr line fields field)
    · trivial
    · rw [List.append_assoc]
      exact .inl (.field line fields ⟨field.bytes ++ [byte], by simp,
        plain_concat field.plain hcr hlf⟩)
  | fieldCr line fields field =>
    by_cases hlf : byte = lf
    · rw [hlf, strictRead_lf hphase rfl]
      refine .inl ?_
      have hlines := At.lines line (fields ++ [field])
      have hended : ended field.bytes = field.bytes ++ [cr, lf] := rfl
      rw [fieldLines, List.flatMap_append, ← fieldLines, List.flatMap_singleton,
        ← List.append_assoc, hended, ← List.append_assoc] at hlines
      rw [List.append_assoc _ [cr]]
      exact hlines
    · rw [strictRead_afterCr hphase (.inl rfl) hlf]
      trivial
  | last line fields =>
    by_cases hlf : byte = lf
    · rw [hlf, read_last hphase rfl]
      have hbytes : (⟨line, fields⟩ : Message).bytes =
          ended line.bytes ++ fieldLines fields ++ [cr] ++ [lf] := bytes_eq _
      split_ifs with hfinal
      · refine ⟨⟨line, fields⟩, fun hinterim => ?_, hbytes, rfl⟩
        exact hfinal.elim (Nat.not_le.mpr hinterim.1) hinterim.2
      · simp only [not_or, Nat.not_le] at hfinal
        exact .inr ⟨rfl, ⟨line, fields⟩, hfinal, hbytes⟩
    · rw [strictRead_afterCr hphase (.inr rfl) hlf]
      trivial

/-- **One byte** of an answer. -/
theorem At.read (h : At bytes scan) (byte : UInt8) :
    Reads (bytes ++ [byte]) (strictRead scan byte) := by
  cases hphase : scan.phase with
  | version => exact h.read_version hphase
  | status => exact h.read_status hphase
  | reason => exact h.read_lines (.inl hphase)
  | fields => exact h.read_lines (.inr hphase)

/-! ## Completing an answer -/

theorem line_completes (line : StatusLine) (fields : List FieldLine) {bytes rest : List UInt8}
    (h : bytes ++ rest = ended line.bytes ++ fieldLines fields) :
    ∃ (message : Message) (more : List UInt8), more ≠ [] ∧ bytes ++ more = message.bytes :=
  ⟨⟨line, fields⟩, rest ++ [cr, lf], by simp, by
    rw [← List.append_assoc, h]
    rfl⟩

theorem status_completes {minor : UInt8} {digits : List UInt8} (hminor : isDigit minor = true)
    (hdigits : ∀ digit ∈ digits, isDigit digit = true) (hlength : digits.length ≤ 3) :
    ∃ (message : Message) (more : List UInt8), more ≠ [] ∧
      versionLead ++ minor :: ascii ' ' :: digits ++ more = message.bytes := by
  have hzero : isDigit (ascii '0') = true := by decide
  refine @line_completes ⟨minor, digits ++ List.replicate (3 - digits.length) (ascii '0'), none,
    hminor, ?_, ?_, fun words hwords => (by cases hwords)⟩ [] _
    (List.replicate (3 - digits.length) (ascii '0') ++ [cr, lf]) ?_
  · intro digit hdigit
    rcases List.mem_append.mp hdigit with hold | hnew
    · exact hdigits digit hold
    · rw [List.eq_of_mem_replicate hnew]
      exact hzero
  · rw [List.length_append, List.length_replicate]
    omega
  · rw [fieldLines, List.flatMap_nil, List.append_nil, ended, StatusLine.bytes, StatusLine.head,
      StatusLine.reasonBytes, Option.map_none, Option.getD_none, List.append_nil]
    simp only [List.append_assoc, List.cons_append]

/-- **Every beginning of an answer** can be completed. -/
theorem At.completes (h : At bytes scan) :
    ∃ (message : Message) (more : List UInt8), more ≠ [] ∧ bytes ++ more = message.bytes := by
  have hone : isDigit (ascii '1') = true := by decide
  cases h with
  | lead k hk =>
    obtain ⟨message, more, -, hbytes⟩ := @status_completes (ascii '1') [] hone
      (fun digit hdigit => (by cases hdigit)) (Nat.zero_le _)
    refine ⟨message, versionLead.drop k ++ (ascii '1' :: [ascii ' '] ++ more), by simp, ?_⟩
    rw [← List.append_assoc, List.take_append_drop, ← List.append_assoc]
    exact hbytes
  | minor minor hminor =>
    obtain ⟨message, more, -, hbytes⟩ := @status_completes minor [] hminor
      (fun digit hdigit => (by cases hdigit)) (Nat.zero_le _)
    refine ⟨message, ascii ' ' :: more, List.cons_ne_nil _ _, ?_⟩
    rw [← hbytes, List.append_assoc, List.append_assoc]
    rfl
  | status minor digits hminor hdigits hlength => exact status_completes hminor hdigits hlength
  | reason line words _ =>
    exact @line_completes line [] _ [cr, lf]
      (by rw [fieldLines, List.flatMap_nil, List.append_nil, ended])
  | reasonCr line =>
    exact @line_completes line [] _ [lf]
      (by rw [fieldLines, List.flatMap_nil, List.append_nil, ended, List.append_assoc]; rfl)
  | lines line fields =>
    exact ⟨⟨line, fields⟩, [cr, lf], List.cons_ne_nil _ _, by rw [Message.bytes, ended, ended]; rfl⟩
  | field line fields field =>
    refine @line_completes line (fields ++ [field]) _ [cr, lf] ?_
    rw [fieldLines, fieldLines, List.flatMap_append, List.flatMap_singleton, List.append_assoc,
      List.append_assoc]
    rfl
  | fieldCr line fields field =>
    refine @line_completes line (fields ++ [field]) _ [lf] ?_
    rw [fieldLines, fieldLines, List.flatMap_append, List.flatMap_singleton]
    simp only [List.append_assoc]
    rfl
  | last line fields => exact ⟨⟨line, fields⟩, [lf], List.cons_ne_nil _ _, (bytes_eq ⟨line, fields⟩).symm⟩

/-! ## Exchanges -/

/-- What was read of an exchange: interim answers, and some of another. -/
def Reached (bytes : List UInt8) (scan : Scan) : Prop :=
  ∃ (interims : List Message) (front : List UInt8),
    (∀ message ∈ interims, message.interim) ∧ At front scan ∧
    bytes = interims.flatMap Message.bytes ++ front

theorem At.start : At [] {} := At.lead 0 (Nat.zero_le _)

/-- An answer of status 200, which is final. -/
def opened : Message where
  line :=
    { minor := ascii '1'
      digits := text "200"
      reason := none
      isMinor := by decide
      isStatus := List.all_eq_true.mp (rfl : (text "200").all isDigit = true)
      three := by decide
      plain := fun words hwords => (by cases hwords) }
  fields := []

theorem opened_final : ¬ opened.interim := by
  have hstatus : opened.line.status = 200 := rfl
  rw [Message.interim, hstatus]
  omega

theorem Reached.begins (h : Reached bytes scan) : Begins bytes := by
  obtain ⟨interims, front, hpassed, hat, rfl⟩ := h
  obtain ⟨message, more, hmore, hbytes⟩ := hat.completes
  by_cases hinterim : message.interim
  · refine ⟨⟨interims ++ [message], opened, fun each heach => ?_, opened_final⟩,
      more ++ opened.bytes, by simp [hmore], ?_⟩
    · rcases List.mem_append.mp heach with hold | hnew
      · exact hpassed each hold
      · rw [List.mem_singleton.mp hnew]
        exact hinterim
    · rw [Exchange.bytes, List.flatMap_append, List.flatMap_singleton, ← hbytes]
      simp only [List.append_assoc]
  · exact ⟨⟨interims, message, hpassed, hinterim⟩, more, hmore, by
      rw [Exchange.bytes, ← hbytes, List.append_assoc]⟩

/-- **The strict reader**: it goes on in a beginning, and ends at an exchange. -/
theorem scan_reached :
    (∀ scan, Library.scan strictRead {} bytes = .goes scan → Reached bytes scan) ∧
      ∀ status used, Library.scan strictRead {} bytes = .done status used →
        ∃ exchange : Exchange, exchange.bytes <+: bytes ∧ exchange.bytes.length = used ∧
          exchange.status = status := by
  induction bytes using List.reverseRecOn with
  | nil =>
    refine ⟨fun scan h => ?_, fun status used h => (by cases h)⟩
    cases h
    exact ⟨[], [], fun message hmessage => (by cases hmessage), At.start, rfl⟩
  | append_singleton bytes byte ih =>
    cases hbytes : Library.scan strictRead {} bytes with
    | goes scan =>
      obtain ⟨interims, front, hpassed, hat, rfl⟩ := ih.1 scan hbytes
      have hread := hat.read byte
      rw [scan_goes hbytes, Library.scan]
      cases hbyte : strictRead scan byte with
      | goes next =>
        rw [hbyte] at hread
        simp only [scan_nil, Scanning.after_goes]
        refine ⟨fun found hfound => ?_, fun status used h => (by cases h)⟩
        cases hfound
        rcases hread with hat' | ⟨rfl, message, hinterim, hmessage⟩
        · exact ⟨interims, front ++ [byte], hpassed, hat', by rw [List.append_assoc]⟩
        · refine ⟨interims ++ [message], [], fun each heach => ?_, At.start, ?_⟩
          · rcases List.mem_append.mp heach with hold | hnew
            · exact hpassed each hold
            · rw [List.mem_singleton.mp hnew]
              exact hinterim
          · rw [List.flatMap_append, List.flatMap_singleton, hmessage, List.append_nil,
              List.append_assoc]
      | done status =>
        rw [hbyte] at hread
        obtain ⟨message, hfinal, hmessage, hstatus⟩ := hread
        simp only [Scanning.after_done]
        refine ⟨fun found hfound => (by cases hfound), fun status' used h => ?_⟩
        cases h
        refine ⟨⟨interims, message, hpassed, hfinal⟩, ?_, ?_, hstatus⟩
        · rw [Exchange.bytes, hmessage, List.append_assoc]
        · rw [Exchange.bytes, hmessage, ← List.append_assoc, @List.length_append _ _ [byte],
            List.length_singleton]
      | malformed =>
        simp only [Scanning.after_malformed]
        exact ⟨fun found hfound => (by cases hfound), fun status used h => (by cases h)⟩
    | done status used =>
      obtain ⟨hmore, -, -⟩ := @scan_done _ _ _ _ _ _ [byte] _ _ hbytes
      obtain ⟨exchange, hprefix, hused, hstatus⟩ := ih.2 status used hbytes
      rw [hmore]
      refine ⟨fun found hfound => (by cases hfound), fun status' used' h => ?_⟩
      cases h
      exact ⟨exchange, hprefix.trans (List.prefix_append _ _), hused, hstatus⟩
    | malformed =>
      rw [scan_malformed hbytes]
      exact ⟨fun found hfound => (by cases hfound), fun status used h => (by cases h)⟩

end Rui.Tunnels
