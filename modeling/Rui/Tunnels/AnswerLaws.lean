import Rui.Tunnels.Messages

/-!
# Reading an answer

A reader that takes no CR after a CR reads exactly the exchanges. The code's reader is that one
but for such a CR, which it takes.
-/

namespace Rui.Tunnels

open Library

/-! ## The strict reader -/

/-- A CR right after a CR. -/
def doubled (scan : Scan) (byte : UInt8) : Prop :=
  (scan.phase = .reason ∨ scan.phase = .fields) ∧ byte = cr ∧ (scan.ending = 1 ∨ scan.ending = 3)

instance (scan : Scan) (byte : UInt8) : Decidable (doubled scan byte) :=
  inferInstanceAs (Decidable (_ ∧ _))

def strictRead (scan : Scan) (byte : UInt8) : Byte :=
  if doubled scan byte then .malformed else scan.read byte

theorem strictRead_cases (scan : Scan) (byte : UInt8) :
    strictRead scan byte = scan.read byte ∨ strictRead scan byte = .malformed := by
  rw [strictRead]
  split_ifs
  · exact .inr rfl
  · exact .inl rfl

variable {scan : Scan} {byte : UInt8}

theorem strictRead_of_ne (h : byte ≠ cr) :
    strictRead scan byte = scan.read byte := if_neg fun hdoubled => h hdoubled.2.1

theorem strictRead_of_calm (h : scan.ending = 0 ∨ scan.ending = 2) :
    strictRead scan byte = scan.read byte := by
  refine if_neg fun hdoubled => ?_
  have hending := hdoubled.2.2
  omega

/-! ## Exchanges are read -/

/-- A line phase: the reason's, until a line ended. -/
def Phase.lines (phase : Phase) : Prop := phase = .reason ∨ phase = .fields

theorem read_lines (h : scan.phase.lines) (byte : UInt8) : scan.read byte = scan.readLine byte := by
  rcases h with h | h <;> rw [Scan.read, h]

theorem cr_ne_lf : cr ≠ lf := by decide

theorem scan_plain {words : List UInt8} (hphase : scan.phase.lines) (hending : scan.ending = 0)
    (hplain : Plain words) : Library.scan strictRead scan words = .goes scan := by
  induction words with
  | nil => rfl
  | cons byte words ih =>
    obtain ⟨hcr, hlf⟩ := hplain byte List.mem_cons_self
    have hread : strictRead scan byte = .goes scan := by
      rw [strictRead_of_ne hcr, read_lines hphase, Scan.readLine, if_neg hcr, if_neg hlf,
        if_neg (by omega), Scan.ended, if_neg (by decide), ← hending]
    rw [scan_cons hread, ih fun each heach => hplain each (List.mem_cons_of_mem _ heach)]
    rfl

theorem read_first (hphase : scan.phase = .fields) (hending : scan.ending = 2) (hcr : byte ≠ cr)
    (hlf : byte ≠ lf) : strictRead scan byte = .goes { scan with ending := 0 } := by
  rw [strictRead_of_ne hcr, read_lines (.inr hphase), Scan.readLine, if_neg hcr, if_neg hlf,
    if_neg (by omega), Scan.ended, if_neg (by decide)]

theorem scan_end (hphase : scan.phase.lines) (hending : scan.ending = 0) :
    Library.scan strictRead scan [cr, lf] = .goes { scan with ending := 2, phase := .fields } := by
  have hcr : strictRead scan cr = .goes { scan with ending := 1 } := by
    rw [strictRead_of_calm (.inl hending), read_lines hphase, Scan.readLine, if_pos rfl,
      if_neg (by omega), Scan.ended, if_neg (by decide)]
  have hphase' : ({ scan with ending := 1 } : Scan).phase.lines := hphase
  have hlf : strictRead { scan with ending := 1 } lf =
      .goes { scan with ending := 2, phase := .fields } := by
    rw [strictRead_of_ne cr_ne_lf.symm, read_lines hphase', Scan.readLine, if_neg cr_ne_lf.symm,
      if_pos rfl, if_pos rfl, Scan.ended, if_pos rfl]
  rw [scan_cons hcr, scan_cons hlf]
  rfl

theorem read_last (hphase : scan.phase.lines) (hending : scan.ending = 3) :
    strictRead scan lf = if scan.status ≥ 200 ∨ scan.status = 101 then .done scan.status
      else .goes {} := by
  rw [strictRead_of_ne cr_ne_lf.symm, read_lines hphase, Scan.readLine, if_neg cr_ne_lf.symm,
    if_pos rfl, if_neg (by omega), if_pos hending]

/-- A status line's place, after its end and some fields. -/
def StatusLine.at (line : StatusLine) (phase : Phase) (ending : Nat) : Scan :=
  { status := line.status, phase, part := 3, ending }

theorem scan_field (line : StatusLine) (field : FieldLine) :
    Library.scan strictRead (line.at .fields 2) (ended field.bytes) = .goes (line.at .fields 2) := by
  obtain ⟨first, rest, hbytes⟩ := List.exists_cons_of_ne_nil field.nonempty
  have hplain := field.plain
  rw [hbytes] at hplain
  obtain ⟨hcr, hlf⟩ := hplain first List.mem_cons_self
  have hrest : Plain rest := fun each heach => hplain each (List.mem_cons_of_mem _ heach)
  have hfirst : strictRead (line.at .fields 2) first = .goes (line.at .fields 0) :=
    read_first rfl rfl hcr hlf
  have hwords : Library.scan strictRead (line.at .fields 0) rest = .goes (line.at .fields 0) :=
    scan_plain (.inr rfl) rfl hrest
  have hend : Library.scan strictRead (line.at .fields 0) [cr, lf] = .goes (line.at .fields 2) :=
    scan_end (.inr rfl) rfl
  rw [ended, hbytes, List.cons_append, scan_cons hfirst, scan_goes hwords, hend]
  rfl

theorem scan_fields (line : StatusLine) (fields : List FieldLine) :
    Library.scan strictRead (line.at .fields 2) (fieldLines fields) = .goes (line.at .fields 2) := by
  induction fields with
  | nil => rfl
  | cons field fields ih =>
    rw [fieldLines, List.flatMap_cons, scan_goes (scan_field line field), ← fieldLines, ih]
    rfl

theorem scan_head (line : StatusLine) :
    Library.scan strictRead {} line.head = .goes (line.at .status 0) := by
  have hlead : Library.scan strictRead {} versionLead = .goes { part := 7 } := by decide
  have hminor : strictRead { part := 7 } line.minor = .goes { part := 8 } := by
    rw [strictRead_of_calm (.inl rfl)]
    simp only [Scan.read, Scan.readVersion]
    rw [if_neg (by decide), if_pos (by decide), if_neg (by rw [line.isMinor]; decide)]
  have hspace : strictRead { part := 8 } (ascii ' ') = .goes { phase := .status } := by decide
  obtain ⟨d₁, d₂, d₃, hdigits⟩ := List.length_eq_three.mp line.three
  have hdigit : ∀ (part status : Nat) (digit : UInt8), part < 3 → isDigit digit = true →
      strictRead { status, phase := .status, part } digit =
        .goes { status := status * 10 + digitValue digit, phase := .status, part := part + 1 } := by
    intro part status digit hpart hdigit
    rw [strictRead_of_calm (.inl rfl)]
    simp only [Scan.read, Scan.readStatus]
    rw [if_pos hpart, if_neg (by rw [hdigit]; decide)]
  have hisStatus := line.isStatus
  rw [hdigits] at hisStatus
  have h₁ := hdigit 0 0 d₁ (by decide) (hisStatus d₁ (by simp))
  have h₂ := hdigit 1 (0 * 10 + digitValue d₁) d₂ (by decide) (hisStatus d₂ (by simp))
  have h₃ := hdigit 2 ((0 * 10 + digitValue d₁) * 10 + digitValue d₂) d₃ (by decide)
    (hisStatus d₃ (by simp))
  have hstatus : line.status =
      ((0 * 10 + digitValue d₁) * 10 + digitValue d₂) * 10 + digitValue d₃ := by
    simp only [StatusLine.status, hdigits, decimalValue, valueFrom_cons, valueFrom_nil]
    omega
  rw [StatusLine.head, scan_goes hlead, scan_cons hminor, scan_cons hspace, hdigits, scan_cons h₁,
    scan_cons h₂, scan_cons h₃, scan_nil, StatusLine.at, hstatus]
  rfl

theorem scan_line (line : StatusLine) :
    Library.scan strictRead {} (ended line.bytes) = .goes (line.at .fields 2) := by
  rw [ended, StatusLine.bytes, List.append_assoc, scan_goes (scan_head line)]
  cases hreason : line.reason with
  | none =>
    have hcr : strictRead (line.at .status 0) cr = .goes (line.at .reason 1) := by
      rw [strictRead_of_calm (.inl rfl)]
      rfl
    have hlf : strictRead (line.at .reason 1) lf = .goes (line.at .fields 2) := by
      rw [strictRead_of_ne cr_ne_lf.symm]
      rfl
    rw [StatusLine.reasonBytes, hreason, Option.map_none, Option.getD_none, List.nil_append,
      scan_cons hcr, scan_cons hlf]
    rfl
  | some words =>
    have hspace : strictRead (line.at .status 0) (ascii ' ') = .goes (line.at .reason 0) := by
      rw [strictRead_of_calm (.inl rfl)]
      rfl
    have hwords : Library.scan strictRead (line.at .reason 0) words = .goes (line.at .reason 0) :=
      scan_plain (.inl rfl) rfl (line.plain words hreason)
    have hend : Library.scan strictRead (line.at .reason 0) [cr, lf] = .goes (line.at .fields 2) :=
      scan_end (.inl rfl) rfl
    rw [StatusLine.reasonBytes, hreason, Option.map_some, Option.getD_some, List.cons_append,
      scan_cons hspace, scan_goes hwords, hend]
    rfl

theorem scan_open (message : Message) :
    Library.scan strictRead {} (ended message.line.bytes ++ fieldLines message.fields ++ [cr]) =
      .goes (message.line.at .fields 3) := by
  have hcr : strictRead (message.line.at .fields 2) cr = .goes (message.line.at .fields 3) := by
    rw [strictRead_of_calm (.inr rfl)]
    rfl
  rw [List.append_assoc, scan_goes (scan_line message.line),
    scan_goes (scan_fields message.line message.fields), scan_cons hcr]
  rfl

theorem bytes_eq (message : Message) : message.bytes =
    ended message.line.bytes ++ fieldLines message.fields ++ [cr] ++ [lf] := by
  rw [Message.bytes, ended, List.append_assoc _ [cr]]
  rfl

theorem scan_interim {message : Message} (h : message.interim) :
    Library.scan strictRead {} message.bytes = .goes {} := by
  have hlf : strictRead (message.line.at .fields 3) lf = .goes {} := by
    rw [read_last (.inr rfl) rfl]
    exact if_neg fun hfinal => hfinal.elim (Nat.not_le.mpr h.1) h.2
  rw [bytes_eq, scan_goes (scan_open message), scan_cons hlf]
  rfl

theorem scan_final {message : Message} (h : ¬ message.interim) :
    Library.scan strictRead {} message.bytes = .done message.line.status message.bytes.length := by
  have hlf : strictRead (message.line.at .fields 3) lf = .done message.line.status := by
    rw [read_last (.inr rfl) rfl]
    refine if_pos ?_
    by_contra hinterim
    simp only [not_or, Nat.not_le] at hinterim
    exact h hinterim
  have hlast : Library.scan strictRead (message.line.at .fields 3) [lf] =
      .done message.line.status 1 := by rw [scan, hlf]
  rw [bytes_eq, scan_goes (scan_open message), hlast, Scanning.after_done,
    @List.length_append _ _ [lf], List.length_singleton]

theorem scan_interims {interims : List Message} (h : ∀ message ∈ interims, message.interim) :
    Library.scan strictRead {} (interims.flatMap Message.bytes) = .goes {} := by
  induction interims with
  | nil => rfl
  | cons message interims ih =>
    rw [List.flatMap_cons, scan_goes (scan_interim (h message List.mem_cons_self)),
      ih fun each heach => h each (List.mem_cons_of_mem _ heach)]
    rfl

/-- **An exchange is read to its end.** -/
theorem scan_exchange (exchange : Exchange) : Library.scan strictRead {} exchange.bytes =
    .done exchange.status exchange.bytes.length := by
  rw [Exchange.bytes, scan_goes (scan_interims exchange.passed), scan_final exchange.ends,
    Scanning.after_done, List.length_append]
  rfl

/-- **A proper beginning** is read on. -/
theorem scan_begins {bytes : List UInt8} (h : Begins bytes) :
    ∃ scan, Library.scan strictRead {} bytes = .goes scan := by
  obtain ⟨exchange, rest, hrest, hbytes⟩ := h
  have hdone := scan_exchange exchange
  rw [← hbytes] at hdone
  exact goes_of_done hdone hrest

end Rui.Tunnels
