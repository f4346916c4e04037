import Rui.Library.Calm
import Rui.Mysql.Client

/-!
# What the client reads

A whole packet is its frame, and what one read answers stays the answer when
more bytes stand behind it.
-/

namespace Rui.Mysql

open Library

/-! ## Integers -/

@[simp] theorem writeInt_length (n value : Nat) : (writeInt n value).length = n := by
  induction n generalizing value with
  | zero => rfl
  | succ n ih => rw [writeInt, List.length_cons, ih]

theorem writeInt_readInt (bytes : List UInt8) : writeInt bytes.length (readInt bytes) = bytes := by
  induction bytes with
  | nil => rfl
  | cons byte rest ih =>
    have hlt := byte.toNat_lt
    rw [List.length_cons, writeInt, readInt]
    congr 1
    · apply UInt8.toNat.inj
      rw [UInt8.toNat_ofNat', Nat.add_mul_mod_self_left, Nat.mod_eq_of_lt hlt]
    · rw [show (byte.toNat + 256 * readInt rest) / 256 = readInt rest by omega]
      exact ih

/-! ## Frames -/

theorem frame_length (sequence : UInt8) (payload : List UInt8) :
    (frame sequence payload).length = headerLen + payload.length := by
  simp only [frame, List.length_append, writeInt_length, List.length_singleton, headerLen]

variable {input : List UInt8} {client client' : Client}

theorem payloadLen_ok {len : Nat} (h : payloadLen input = .ok len) :
    input.take 3 = writeInt 3 len ∧ 0 < len ∧ len ≤ maxPayload := by
  match input, h with
  | low :: mid :: high :: rest, h =>
    simp only [payloadLen] at h
    split at h
    · cases h
    · rename_i hlen
      cases h
      have := writeInt_readInt [low, mid, high]
      exact ⟨this.symm, by omega, by omega⟩

theorem payloadLen_append (hlength : 3 ≤ input.length) (more : List UInt8) :
    payloadLen (input ++ more) = payloadLen input := by
  match input, hlength with
  | low :: mid :: high :: rest, _ => rfl

theorem header_ok {len : Nat} (h : client.header input = .ok (len, client')) :
    payloadLen input = .ok len ∧ client' = client.sent ∧
      input.take headerLen = writeInt 3 len ++ [client.sequence] := by
  rw [Client.header] at h
  obtain ⟨len', hlen, h⟩ := bind_eq_ok.mp h
  have htake := (payloadLen_ok hlen).1
  split at h
  · cases h
  · rename_i sequence rest hdrop
    split at h
    · cases h
    · rename_i hsequence
      cases h
      rw [not_not] at hsequence
      refine ⟨hlen, rfl, ?_⟩
      show input.take (3 + 1) = writeInt 3 len ++ [client.sequence]
      rw [List.take_add, htake, hdrop, hsequence]
      rfl

theorem header_append (h : 4 ≤ input.length) (more : List UInt8) :
    client.header (input ++ more) = client.header input := by
  rw [Client.header, Client.header, payloadLen_append (by omega),
    List.drop_append_of_le_length (by omega)]
  cases hdrop : input.drop 3 with
  | nil =>
    have hlength := congrArg List.length hdrop
    rw [List.length_drop, List.length_nil] at hlength
    omega
  | cons sequence rest => rfl

/-- **A packet that is read is a frame at the start of the input.** -/
theorem packet_some {payload : List UInt8} (h : client.packet input = .ok (some (payload, client'))) :
    client' = client.sent ∧ payload ≠ [] ∧ payload.length ≤ maxControlPayload ∧
      ∃ rest, input = frame client.sequence payload ++ rest := by
  rw [Client.packet] at h
  split at h
  · cases h
  · rename_i hheader
    obtain ⟨len, hlen, h⟩ := bind_eq_ok.mp h
    split at h
    · cases h
    · split at h
      · cases h
      · rename_i hcontrol hwhole
        obtain ⟨⟨len', sent⟩, hok, h⟩ := bind_eq_ok.mp h
        cases h
        obtain ⟨hlen', rfl, htake⟩ := header_ok hok
        obtain rfl := Except.ok.inj (hlen.symm.trans hlen')
        have hlength : ((input.drop headerLen).take len).length = len := by
          rw [List.length_take, List.length_drop]
          omega
        have hpos := (payloadLen_ok hlen).2.1
        refine ⟨rfl, ?_, by omega, (input.drop headerLen).drop len, ?_⟩
        · intro hnil
          rw [hnil] at hlength
          exact absurd hlength.symm (Nat.ne_of_gt hpos)
        · rw [frame, hlength, ← htake, List.append_assoc, List.take_append_drop,
            List.take_append_drop]

/-- A packet that is whole, or refused, stays so. -/
theorem packet_append (h : client.packet input ≠ .ok none) (more : List UInt8) :
    client.packet (input ++ more) = client.packet input := by
  rw [Client.packet] at h
  rw [Client.packet, Client.packet]
  by_cases hheader : input.length < headerLen
  · rw [if_pos hheader] at h
    exact absurd rfl h
  · rw [if_neg hheader] at h ⊢
    rw [headerLen] at hheader
    have hlonger : ¬ (input ++ more).length < headerLen := by
      rw [List.length_append, headerLen]
      omega
    rw [if_neg hlonger, payloadLen_append (by omega)]
    cases hlen : payloadLen input with
    | error e => rfl
    | ok len =>
      rw [hlen] at h
      simp only [ok_bind] at h ⊢
      by_cases hcontrol : len > maxControlPayload
      · rw [if_pos hcontrol, if_pos hcontrol]
      · rw [if_neg hcontrol] at h ⊢
        by_cases hwhole : input.length < headerLen + len
        · rw [if_pos hwhole] at h
          exact absurd rfl h
        · have hlonger' : ¬ (input ++ more).length < headerLen + len := by
            rw [List.length_append]
            omega
          rw [if_neg hcontrol, if_neg hwhole, if_neg hlonger', header_append (by omega)]
          have hdrop : (input ++ more).drop headerLen = input.drop headerLen ++ more :=
            List.drop_append_of_le_length (by rw [headerLen]; omega)
          rw [hdrop, List.take_append_of_le_length (by rw [List.length_drop]; omega)]

theorem withPacket_ok {step : Step} {handle : Client → List UInt8 → Attempt (Option Event × Client)}
    (h : client.withPacket input handle = .ok (step, client')) : step = .more ∧ client' = client ∨
      ∃ payload event, payload ≠ [] ∧ step = ⟨headerLen + payload.length, event⟩ ∧
        handle client.sent payload = .ok (event, client') ∧
        ∃ rest, input = frame client.sequence payload ++ rest := by
  rw [Client.withPacket] at h
  obtain ⟨found, hpacket, h⟩ := bind_eq_ok.mp h
  cases found with
  | none =>
    cases h
    exact .inl ⟨rfl, rfl⟩
  | some found =>
    obtain ⟨payload, sent⟩ := found
    obtain ⟨rfl, hnil, -, hframe⟩ := packet_some hpacket
    obtain ⟨⟨event, later⟩, hhandle, h⟩ := bind_eq_ok.mp h
    cases h
    exact .inr ⟨payload, event, hnil, rfl, hhandle, hframe⟩

/-! ## Lengths -/

theorem plugin_length : plugin.length = 21 := by decide

@[simp] theorem loginPrefix_length (options : Options) : (loginPrefix options).length = 32 := by
  simp only [loginPrefix, List.length_append, writeInt_length, List.length_replicate]

theorem scramble_length (sha256 : Sha256) (password nonce : List UInt8) :
    (scramble sha256 password nonce).length = 32 := by
  rw [scramble, List.length_zipWith, sha256.length, sha256.length, Nat.min_self]

/-! ## Rows -/

theorem advanceRow_ok {later : Client} {row : Row} (h : client.advanceRow row = .ok later) :
    row.columnsLeft = 0 ∧ row.valueLeft = 0 ∧ row.packetLeft = 0 ∧
        later = { client with state := .rows } ∨
      (0 < row.columnsLeft ∨ 0 < row.valueLeft) ∧ later = { client with state := .row row } := by
  rw [Client.advanceRow] at h
  split at h
  · rename_i hdone
    split at h
    · cases h
    · rename_i hpacket
      cases h
      exact .inl ⟨hdone.1, hdone.2, not_not.mp hpacket, rfl⟩
  · rename_i hdone
    cases h
    exact .inr ⟨by omega, rfl⟩

end Rui.Mysql
