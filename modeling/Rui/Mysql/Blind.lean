import Rui.Mysql.ClientLaws

/-!
# What plain TCP shows of a password

Two clients whose passwords have the same hash, and are both empty or both
not, read the same and send the same as long as the transport is plain TCP.
-/

namespace Rui.Mysql

open Library

variable (sha256 : Sha256)

/-- Passwords that a scramble cannot tell apart. -/
structure Alike (password other : List UInt8) : Prop where
  empty : password.length = 0 ↔ other.length = 0
  hash : sha256.hash password = sha256.hash other

/-- The same client with another password. -/
def Client.withPassword (self : Client) (password : List UInt8) : Client :=
  { self with options := { self.options with password } }

variable {α β : Type}

/-- What one client answers the other answers, with a password as good. -/
def Twin (x x' : Attempt (α × Client)) : Prop :=
  ∀ a later, x = .ok (a, later) → ∃ password,
    Alike sha256 later.options.password password ∧ x' = .ok (a, later.withPassword password)

variable {sha256} {password : List UInt8} {client : Client}

theorem Twin.ok {a : α} {later later' : Client} (h : Alike sha256 later.options.password password)
    (hlater : later' = later.withPassword password) :
    Twin sha256 (.ok (a, later)) (.ok (a, later')) := by
  rintro _ _ ⟨⟩
  exact ⟨password, h, congrArg _ (congrArg _ hlater)⟩

theorem Twin.error (e : Fault Error) (x' : Attempt (α × Client)) :
    Twin sha256 (.error e) x' := nofun

/-- What is read of the input alone is read the same. -/
theorem Twin.parse {x : Attempt β} {f f' : β → Attempt (α × Client)}
    (h : ∀ b, Twin sha256 (f b) (f' b)) : Twin sha256 (x >>= f) (x >>= f') := by
  cases x with
  | error e => exact .error e _
  | ok b => exact h b

theorem Twin.bind {x x' : Attempt (β × Client)} {f f' : β × Client → Attempt (α × Client)}
    (h : Twin sha256 x x')
    (hf : ∀ b later password, Alike sha256 later.options.password password →
      Twin sha256 (f (b, later)) (f' (b, later.withPassword password))) :
    Twin sha256 (x >>= f) (x' >>= f') := by
  intro a later hok
  obtain ⟨⟨b, mid⟩, hx, hb⟩ := bind_eq_ok.mp hok
  obtain ⟨password, halike, hx'⟩ := h b mid hx
  obtain ⟨password', halike', hb'⟩ := hf b mid password halike a later hb
  exact ⟨password', halike', by rw [hx', ok_bind, hb']⟩

theorem Twin.ite {c : Prop} [Decidable c] {x x' y y' : Attempt (α × Client)}
    (h : Twin sha256 x x') (h' : Twin sha256 y y') :
    Twin sha256 (if c then x else y) (if c then x' else y') := by
  split
  · exact h
  · exact h'

/-! ## Packets -/

theorem header_withPassword (client : Client) (password input : List UInt8) :
    (client.withPassword password).header input =
      (client.header input).map fun r => (r.1, r.2.withPassword password) := by
  rw [Client.header, Client.header]
  cases payloadLen input with
  | error e => rfl
  | ok len =>
    simp only [ok_bind]
    split
    · rfl
    · simp only [show (client.withPassword password).sequence = client.sequence from rfl]
      split <;> rfl

theorem packet_withPassword (client : Client) (password input : List UInt8) :
    (client.withPassword password).packet input =
      (client.packet input).map (Option.map fun r => (r.1, r.2.withPassword password)) := by
  rw [Client.packet, Client.packet]
  split
  · rfl
  · cases payloadLen input with
    | error e => rfl
    | ok len =>
      simp only [ok_bind]
      split
      · rfl
      · split
        · rfl
        · rw [header_withPassword]
          cases client.header input <;> rfl

theorem withPacket_twin (h : Alike sha256 client.options.password password)
    {handle handle' : Client → List UInt8 → Attempt (Option Event × Client)}
    (hhandle : ∀ payload, Twin sha256 (handle client.sent payload)
      (handle' (client.sent.withPassword password) payload)) (input : List UInt8) :
    Twin sha256 (client.withPacket input handle)
      ((client.withPassword password).withPacket input handle') := by
  rw [Client.withPacket, Client.withPacket, packet_withPassword]
  cases hpacket : client.packet input with
  | error e => exact .error e _
  | ok found =>
    cases found with
    | none => exact .ok h rfl
    | some found =>
      obtain ⟨payload, sent⟩ := found
      obtain ⟨rfl, -⟩ := packet_some hpacket
      exact .bind (hhandle payload) fun event later password hlater => .ok hlater rfl

/-! ## The login on plain TCP -/

section Login

variable {client : Client} {password : List UInt8}
  (h : Alike sha256 client.options.password password)

include h

theorem scramble_alike (nonce : List UInt8) :
    scramble sha256 client.options.password nonce = scramble sha256 password nonce := by
  rw [scramble, scramble, h.hash]

theorem response_alike (nonce : List UInt8) :
    response sha256 client.options nonce =
      response sha256 (client.withPassword password).options nonce := by
  rw [response, response, if_congr h.empty rfl (congrArg _ (scramble_alike h nonce))]
  rfl

theorem writeResponse_twin (room : Nat) :
    Twin sha256 (client.writeResponse sha256 room)
      ((client.withPassword password).writeResponse sha256 room) := by
  rw [Client.writeResponse, Client.writeResponse, response_alike h]
  exact .parse fun packet => .ok h rfl

theorem handleGreeting_twin (payload : List UInt8) (room : Nat) :
    Twin sha256 (client.handleGreeting sha256 payload room)
      ((client.withPassword password).handleGreeting sha256 payload room) := by
  rw [Client.handleGreeting, Client.handleGreeting]
  apply Twin.ite
  · exact .parse fun err => .ok h rfl
  · apply Twin.parse
    rintro ⟨capabilities, nonce, connectionId⟩
    apply Twin.ite
    · have hnonce : Alike sha256 { client with nonce, connectionId }.options.password password := h
      exact .bind (writeResponse_twin hnonce room) fun event later password hlater =>
        .ok hlater rfl
    · exact .ite (.error _ _) (.parse fun packet => .ok h rfl)

theorem authMoreData_twin (htcp : client.options.transport = .tcp) (auth : Auth)
    (payload : List UInt8) (room : Nat) :
    Twin sha256 (client.authMoreData auth payload room)
      ((client.withPassword password).authMoreData auth payload room) := by
  rw [Client.authMoreData.eq_def, Client.authMoreData.eq_def]
  split
  · have hsecure : client.options.transport.secure = false := by
      rw [htcp]
      rfl
    apply Twin.ite
    · exact .ite (.error _ _) (.ok h rfl)
    · apply Twin.ite
      · apply Twin.ite
        · exact .error _ _
        · rw [if_pos hsecure]
          exact .error _ _
      · exact .error _ _
  · exact .error _ _

theorem authSwitch_twin (auth : Auth) (payload : List UInt8) (room : Nat) :
    Twin sha256 (client.authSwitch sha256 auth payload room)
      ((client.withPassword password).authSwitch sha256 auth payload room) := by
  rw [Client.authSwitch, Client.authSwitch]
  apply Twin.ite
  · exact .error _ _
  · apply Twin.parse
    rintro ⟨name, data⟩
    apply Twin.ite
    · exact .error _ _
    · apply Twin.ite
      · exact .error _ _
      · simp only [show (client.withPassword password).options.password = password from rfl,
          scramble_alike h, ne_eq, h.empty]
        exact .parse fun packet => .ok h rfl

theorem handleAuth_twin (htcp : client.options.transport = .tcp) (auth : Auth)
    (payload : List UInt8) (room : Nat) :
    Twin sha256 (client.handleAuth sha256 auth payload room)
      ((client.withPassword password).handleAuth sha256 auth payload room) := by
  rw [Client.handleAuth, Client.handleAuth]
  split
  · exact .error _ _
  · apply Twin.ite
    · refine .parse fun ok => ?_
      rintro _ _ ⟨⟩
      exact ⟨[], ⟨Iff.rfl, rfl⟩, rfl⟩
    · apply Twin.ite
      · exact .parse fun err => .ok h rfl
      · apply Twin.ite
        · exact authMoreData_twin h htcp auth payload room
        · exact .ite (authSwitch_twin h auth payload room) (.error _ _)

end Login

/-! ## Results -/

section Results

variable {client : Client} {password : List UInt8}
  (h : Alike sha256 client.options.password password)

include h

theorem handleResult_twin (payload : List UInt8) :
    Twin sha256 (client.handleResult payload)
      ((client.withPassword password).handleResult payload) := by
  rw [Client.handleResult, Client.handleResult]
  split
  · exact .error _ _
  · apply Twin.ite
    · refine .parse fun ok => ?_
      split
      · exact .ok h rfl
      · exact .ok h rfl
    · apply Twin.ite
      · exact .parse fun err => .ok h rfl
      · apply Twin.ite
        · exact .error _ _
        · apply Twin.parse
          rintro ⟨count, rest⟩
          exact .ite (.error _ _) (.ok h rfl)

theorem handleColumn_twin (left : Nat) (payload : List UInt8) :
    Twin sha256 (client.handleColumn left payload)
      ((client.withPassword password).handleColumn left payload) := by
  rw [Client.handleColumn, Client.handleColumn]
  exact .parse fun column => .parse fun left => .ok h rfl

theorem handleRowsEnd_twin (payload : List UInt8) :
    Twin sha256 (client.sent.handleRowsEnd payload)
      ((client.sent.withPassword password).handleRowsEnd payload) := by
  rw [Client.handleRowsEnd, Client.handleRowsEnd]
  exact .parse fun ok => .ok h rfl

theorem handleRowsErr_twin (payload : List UInt8) :
    Twin sha256 (client.sent.handleRowsErr payload)
      ((client.sent.withPassword password).handleRowsErr payload) := by
  rw [Client.handleRowsErr, Client.handleRowsErr]
  exact .parse fun err => .ok h rfl

theorem readRowStart_twin (input : List UInt8) :
    Twin sha256 (client.readRowStart input)
      ((client.withPassword password).readRowStart input) := by
  rw [Client.readRowStart, Client.readRowStart]
  split
  · exact .ok h rfl
  · apply Twin.parse
    intro len
    apply Twin.ite
    · exact withPacket_twin h (fun payload => handleRowsEnd_twin h payload) input
    · apply Twin.ite
      · exact withPacket_twin h (fun payload => handleRowsErr_twin h payload) input
      · rw [header_withPassword]
        cases hheader : client.header input with
        | error e => exact .error _ _
        | ok found =>
          obtain ⟨len, sent⟩ := found
          obtain ⟨-, rfl, -⟩ := header_ok hheader
          exact .ok h rfl

omit h in
theorem advanceRow_withPassword (row : Row) :
    (client.withPassword password).advanceRow row =
      (client.advanceRow row).map (·.withPassword password) := by
  rw [Client.advanceRow, Client.advanceRow]
  split
  · split <;> rfl
  · rfl

theorem advanceRow_twin (row : Row) (step : Step) :
    Twin sha256 (do
        let later ← client.advanceRow row
        .ok (step, later)) (do
        let later ← (client.withPassword password).advanceRow row
        .ok (step, later)) := by
  rw [advanceRow_withPassword]
  cases hadvance : client.advanceRow row with
  | error e => exact .error _ _
  | ok later =>
    refine .ok ?_ rfl
    rcases advanceRow_ok hadvance with ⟨-, -, -, rfl⟩ | ⟨-, rfl⟩
    · exact h
    · exact h

theorem readRow_twin (row : Row) (input : List UInt8) :
    Twin sha256 (client.readRow row input)
      ((client.withPassword password).readRow row input) := by
  have hlength : ∀ prefixLen, Twin sha256 (client.readLength row input prefixLen)
      ((client.withPassword password).readLength row input prefixLen) := by
    intro prefixLen
    rw [Client.readLength, Client.readLength]
    apply Twin.ite
    · exact .error _ _
    · apply Twin.ite
      · exact .ok h rfl
      · apply Twin.parse
        intro packetLeft
        apply Twin.ite
        · exact .error _ _
        · exact .parse fun columnsLeft => advanceRow_twin h _ _
  rw [Client.readRow.eq_def, Client.readRow.eq_def]
  apply Twin.ite
  · rw [Client.readBytes, Client.readBytes]
    apply Twin.ite
    · exact .ok h rfl
    · exact .parse fun valueLeft => .parse fun packetLeft => advanceRow_twin h _ _
  · cases input with
    | nil => exact .ok h rfl
    | cons first rest =>
      apply Twin.ite
      · rw [Client.readNull, Client.readNull]
        apply Twin.ite
        · exact .error _ _
        · exact .parse fun columnsLeft => advanceRow_twin h _ _
      · exact .ite (hlength 3) (.ite (hlength 4) (.ite (.error _ _) (hlength 1)))

end Results

/-- **On plain TCP a read shows no more of the password than its hash.** -/
theorem read_twin (h : Alike sha256 client.options.password password)
    (htcp : client.options.transport = .tcp) (input : List UInt8) (room : Nat) :
    Twin sha256 (client.read sha256 input room)
      ((client.withPassword password).read sha256 input room) := by
  rw [Client.read, Client.read]
  apply Twin.ite
  · exact .error _ _
  · rw [show (client.withPassword password).state = client.state from rfl]
    have hsent : Alike sha256 client.sent.options.password password := h
    split
    · exact withPacket_twin h (fun payload => handleGreeting_twin hsent payload room) input
    · exact .bind (writeResponse_twin h room) fun event later password hlater => .ok hlater rfl
    · exact withPacket_twin h (fun payload => handleAuth_twin hsent htcp _ payload room) input
    · exact withPacket_twin h (fun payload => handleResult_twin hsent payload) input
    · exact withPacket_twin h (fun payload => handleColumn_twin hsent _ payload) input
    · exact readRowStart_twin h input
    · exact readRow_twin h _ input
    · exact .error _ _
    · exact .error _ _

end Rui.Mysql
