import Rui.Library.Runs
import Rui.Mysql.ClientLaws

/-!
# What a login says

A driver shows the client whatever bytes have come, from any server, and
completes the TLS handshake that the client asked for. What the client sends
is a prefix of one dialogue: the SSL request under TLS, the handshake response,
at most one scramble for a switch, at most one password, and the password only
where it cannot be read.
-/

namespace Rui.Mysql

open Library

variable (sha256 : Sha256)

/-! ## Messages -/

/-- What a client says during a login. -/
inductive Message
  | sslRequest
  | response (nonce : List UInt8)
  /-- The answer to an authentication switch. -/
  | scramble (nonce : List UInt8)
  | password
  deriving DecidableEq, Repr

def Message.payload (options : Options) : Message → List UInt8
  | .sslRequest => loginPrefix options
  | .response nonce => Mysql.response sha256 options nonce
  | .scramble nonce =>
    if options.password.length ≠ 0 then Mysql.scramble sha256 options.password nonce else []
  | .password => options.password ++ [0]

def Message.packet (options : Options) (sequence : UInt8) (self : Message) : List UInt8 :=
  frame sequence (self.payload sha256 options)

/-- What a client said, from where it stood and where it stands. -/
def said (before after : Client) : Option Message :=
  match before.state, after.state with
  | .greeting, .tls => some .sslRequest
  | .greeting, .auth _ => some (.response after.nonce)
  | .tls, .auth _ => some (.response after.nonce)
  | .auth .scrambleSent, .auth .switched => some (.scramble after.nonce)
  | .auth .scrambleSent, .auth .passwordSent => some .password
  | .auth .switched, .auth .passwordSent => some .password
  | _, _ => none

/-- The packet an event asks the driver to send. -/
def Event.packet : Event → Option (List UInt8)
  | .send packet => some packet
  | .startTls packet => some packet
  | _ => none

/-! ## One read -/

/-- A state of the login. -/
def State.inLogin : State → Bool
  | .greeting => true
  | .tls => true
  | .auth _ => true
  | _ => false

/-- AuthMoreData that asks for the password. -/
def fullAuthentication : List UInt8 := [0x01, 0x04]

/-- AuthSwitchRequest to the plugin that is supported. -/
def switchRequest (nonce : List UInt8) : List UInt8 := 0xFE :: plugin ++ [0] ++ nonce ++ [0]

/-- What one read does to a login. -/
inductive Moves (client : Client) (input : List UInt8) (event : Option Event) (later : Client) : Prop
  /-- Nothing is sent, and the login stands where it stood. -/
  | stay (silent : event = none) (options : later.options = client.options)
    (state : later.state = client.state)
  /-- The login is over, or was. -/
  | ended (silent : event.bind Event.packet = none)
    (options : later.options = client.options ∨
      later.options = { client.options with password := [] })
    (state : later.state.inLogin = false)
    (refused : client.state = .greeting → later.state = .closed) (live : client.state ≠ .closed)
    (ended : client.state.inLogin = true → (event = some .ready ∨ ∃ err, event = some (.err err)) ∧
      (later.state = .ready ∨ later.state = .closed))
  | startTls (standing : client.state = .greeting) (transport : client.options.transport = .tcpTls)
    (sent : event = some (.startTls
      (Message.sslRequest.packet sha256 client.options (client.sequence + 1))))
    (options : later.options = client.options) (state : later.state = .tls)
  | respond (sequence : UInt8)
    (standing : client.state = .greeting ∧ client.options.transport ≠ .tcpTls ∧
      sequence = client.sequence + 1 ∨ client.state = .tls ∧ sequence = client.sequence)
    (sent : event = some (.send
      ((Message.response later.nonce).packet sha256 client.options sequence)))
    (options : later.options = client.options) (state : later.state = .auth .scrambleSent)
  | switch (standing : client.state = .auth .scrambleSent)
    (request : ∃ rest, input = frame client.sequence (switchRequest later.nonce) ++ rest)
    (nonce : later.nonce.length = nonceLen)
    (sent : event = some (.send
      ((Message.scramble later.nonce).packet sha256 client.options (client.sequence + 1))))
    (options : later.options = client.options) (state : later.state = .auth .switched)
  | password (auth : Auth) (standing : client.state = .auth auth) (once : auth ≠ .passwordSent)
    (secure : client.options.transport.secure = true)
    (request : ∃ rest, input = frame client.sequence fullAuthentication ++ rest)
    (sent : event = some (.send
      (Message.password.packet sha256 client.options (client.sequence + 1))))
    (options : later.options = client.options) (state : later.state = .auth .passwordSent)

variable {room : Nat} {client later : Client} {input : List UInt8} {event : Option Event}
  {auth : Auth} {step : Step} {row : Row}

theorem finish_ok {sequence : UInt8} {payload packet : List UInt8}
    (h : finish room sequence payload = .ok packet) : packet = frame sequence payload := by
  rw [finish] at h
  split at h
  · exact (Except.ok.inj h).symm
  · cases h

theorem writeResponse_ok {event : Event} (h : client.writeResponse sha256 room = .ok (event, later)) :
    event = .send ((Message.response client.nonce).packet sha256 client.options client.sequence) ∧
      later = { client.sent with state := .auth .scrambleSent } := by
  rw [Client.writeResponse] at h
  obtain ⟨packet, hfinish, h⟩ := bind_eq_ok.mp h
  cases h
  exact ⟨congrArg _ (finish_ok hfinish), rfl⟩

theorem nulString_ok {bytes name rest : List UInt8} (h : nulString bytes = .ok (name, rest)) :
    bytes = name ++ [0] ++ rest := by
  rw [nulString] at h
  split at h
  · cases h
  · rename_i cut hcut
    cases h
    obtain ⟨hoccurs, -⟩ := (indexOf_eq_some (by decide)).mp hcut
    obtain ⟨tail, htail⟩ := hoccurs
    have htail' : bytes.drop cut = 0 :: tail := htail.symm
    rw [← List.drop_drop, htail']
    show bytes = bytes.take cut ++ [0] ++ tail
    rw [List.append_assoc, List.singleton_append, ← htail', List.take_append_drop]

theorem handleGreeting_moves {payload : List UInt8} (hgreeting : client.state = .greeting)
    (h : client.sent.handleGreeting sha256 payload room = .ok (event, later)) :
    Moves sha256 client input event later := by
  rw [Client.handleGreeting] at h
  split at h
  · obtain ⟨err, -, h⟩ := bind_eq_ok.mp h
    cases h
    exact .ended rfl (.inl rfl) rfl (fun _ => rfl) (hgreeting ▸ nofun)
      fun _ => ⟨.inr ⟨_, rfl⟩, .inr rfl⟩
  · obtain ⟨⟨capabilities, nonce, connectionId⟩, -, h⟩ := bind_eq_ok.mp h
    simp only at h
    split at h
    · rename_i htransport
      obtain ⟨⟨event, later⟩, hwrite, h⟩ := bind_eq_ok.mp h
      cases h
      obtain ⟨rfl, rfl⟩ := writeResponse_ok sha256 hwrite
      exact .respond _ (.inl ⟨hgreeting, htransport, rfl⟩) rfl rfl rfl
    · rename_i htransport
      rw [not_not] at htransport
      split at h
      · cases h
      · obtain ⟨packet, hfinish, h⟩ := bind_eq_ok.mp h
        cases h
        exact .startTls hgreeting htransport (congrArg _ (congrArg _ (finish_ok hfinish))) rfl rfl

theorem authMoreData_moves {payload : List UInt8} (hauth : client.state = .auth auth)
    (hfirst : payload.head? = some 0x01)
    (hframe : ∃ rest, input = frame client.sequence payload ++ rest)
    (h : client.sent.authMoreData auth payload room = .ok (event, later)) :
    Moves sha256 client input event later := by
  rw [Client.authMoreData.eq_def] at h
  split at h
  · rename_i first code
    obtain rfl := Option.some.inj hfirst
    split at h
    · split at h
      · cases h
      · cases h
        exact .stay rfl rfl rfl
    · split at h
      · rename_i hcode
        subst hcode
        split at h
        · cases h
        · rename_i honce
          split at h
          · cases h
          · rename_i hsecure
            obtain ⟨packet, hfinish, h⟩ := bind_eq_ok.mp h
            cases h
            exact .password auth hauth honce (Bool.not_eq_false _ ▸ hsecure) hframe
              (congrArg _ (congrArg _ (finish_ok hfinish))) rfl rfl
      · cases h
  · cases h

theorem authSwitch_moves {payload : List UInt8} (hauth : client.state = .auth auth)
    (hfirst : payload.head? = some 0xFE)
    (hframe : ∃ rest, input = frame client.sequence payload ++ rest)
    (h : client.sent.authSwitch sha256 auth payload room = .ok (event, later)) :
    Moves sha256 client input event later := by
  rw [Client.authSwitch] at h
  split at h
  · cases h
  · rename_i hscramble
    rw [not_not] at hscramble
    subst hscramble
    obtain ⟨⟨name, data⟩, hname, h⟩ := bind_eq_ok.mp h
    simp only at h
    split at h
    · cases h
    · rename_i hplugin
      rw [not_not] at hplugin
      split at h
      · cases h
      · rename_i hdata
        obtain ⟨packet, hfinish, h⟩ := bind_eq_ok.mp h
        cases h
        push Not at hdata
        obtain ⟨hlength, hlast⟩ := hdata
        have hnonce : (data.take nonceLen).length = nonceLen := by
          rw [List.length_take, hlength]
          rfl
        have hall : data.take nonceLen ++ [0] = data := by
          have htake := List.take_add_one (l := data) (i := nonceLen)
          rw [hlast, List.take_of_length_le (Nat.le_of_eq hlength)] at htake
          exact htake.symm
        have hpayload : payload = switchRequest (data.take nonceLen) := by
          have hbody := nulString_ok hname
          cases payload with
          | nil => cases hfirst
          | cons first body =>
            obtain rfl := Option.some.inj hfirst
            rw [show body = name ++ [0] ++ data from hbody, hplugin, ← hall, switchRequest, hall,
              List.append_assoc _ _ [0], hall]
            rfl
        exact .switch hauth (hpayload ▸ hframe) hnonce
          (congrArg _ (congrArg _ (finish_ok hfinish))) rfl rfl

theorem handleAuth_moves {payload : List UInt8} (hauth : client.state = .auth auth)
    (hframe : ∃ rest, input = frame client.sequence payload ++ rest)
    (h : client.sent.handleAuth sha256 auth payload room = .ok (event, later)) :
    Moves sha256 client input event later := by
  rw [Client.handleAuth] at h
  split at h
  · cases h
  · rename_i first hfirst
    have hnot : ¬ client.state = .greeting := by
      rw [hauth]
      exact nofun
    split at h
    · obtain ⟨ok, -, h⟩ := bind_eq_ok.mp h
      cases h
      exact .ended rfl (.inr rfl) rfl (fun hgreeting => absurd hgreeting hnot) (hauth ▸ nofun)
        fun _ => ⟨.inl rfl, .inl rfl⟩
    · split at h
      · obtain ⟨err, -, h⟩ := bind_eq_ok.mp h
        cases h
        exact .ended rfl (.inl rfl) rfl (fun _ => rfl) (hauth ▸ nofun)
          fun _ => ⟨.inr ⟨_, rfl⟩, .inr rfl⟩
      · split at h
        · rename_i hcode
          exact authMoreData_moves sha256 hauth (hcode ▸ hfirst) hframe h
        · split at h
          · rename_i hcode
            exact authSwitch_moves sha256 hauth (hcode ▸ hfirst) hframe h
          · cases h

/-- What a client keeps once its login is over. -/
structure Over (client : Client) (event : Option Event) (later : Client) : Prop where
  silent : event.bind Event.packet = none
  options : later.options = client.options
  state : later.state.inLogin = false

theorem withPacket_over {handle : Client → List UInt8 → Attempt (Option Event × Client)}
    (hstate : client.state.inLogin = false)
    (hhandle : ∀ payload event later, handle client.sent payload = .ok (event, later) →
      Over client event later) (h : client.withPacket input handle = .ok (step, later)) :
    Over client step.event later := by
  rcases withPacket_ok h with ⟨rfl, rfl⟩ | ⟨payload, event, -, rfl, hhandled, -⟩
  · exact ⟨rfl, rfl, hstate⟩
  · exact hhandle payload event later hhandled

theorem handleResult_over {payload : List UInt8} (hstate : client.state.inLogin = false)
    (h : client.sent.handleResult payload = .ok (event, later)) : Over client event later := by
  rw [Client.handleResult] at h
  split at h
  · cases h
  · split at h
    · obtain ⟨ok, -, h⟩ := bind_eq_ok.mp h
      cases h
      split
      · exact ⟨rfl, rfl, hstate⟩
      · exact ⟨rfl, rfl, rfl⟩
    · split at h
      · obtain ⟨err, -, h⟩ := bind_eq_ok.mp h
        cases h
        exact ⟨rfl, rfl, rfl⟩
      · split at h
        · cases h
        · obtain ⟨⟨count, rest⟩, -, h⟩ := bind_eq_ok.mp h
          simp only at h
          split at h
          · cases h
          · cases h
            exact ⟨rfl, rfl, rfl⟩

theorem handleColumn_over {left : Nat} {payload : List UInt8}
    (h : client.sent.handleColumn left payload = .ok (event, later)) : Over client event later := by
  rw [Client.handleColumn] at h
  obtain ⟨column, -, h⟩ := bind_eq_ok.mp h
  obtain ⟨left, -, h⟩ := bind_eq_ok.mp h
  cases h
  refine ⟨rfl, rfl, ?_⟩
  show State.inLogin (if left = 0 then State.rows else State.columns left) = false
  split <;> rfl

theorem readRowStart_over (hstate : client.state.inLogin = false)
    (h : client.readRowStart input = .ok (step, later)) : Over client step.event later := by
  rw [Client.readRowStart] at h
  split at h
  · cases h
    exact ⟨rfl, rfl, hstate⟩
  · obtain ⟨len, -, h⟩ := bind_eq_ok.mp h
    split at h
    · refine withPacket_over hstate (fun payload event later hhandled => ?_) h
      obtain ⟨ok, -, hhandled⟩ := bind_eq_ok.mp hhandled
      cases hhandled
      refine ⟨rfl, rfl, ?_⟩
      show State.inLogin (if ok.status.moreResults then State.result else State.ready) = false
      split <;> rfl
    · split at h
      · refine withPacket_over hstate (fun payload event later hhandled => ?_) h
        obtain ⟨err, -, hhandled⟩ := bind_eq_ok.mp hhandled
        cases hhandled
        exact ⟨rfl, rfl, rfl⟩
      · obtain ⟨⟨len, sent⟩, hheader, h⟩ := bind_eq_ok.mp h
        obtain ⟨-, rfl, -⟩ := header_ok hheader
        cases h
        exact ⟨rfl, rfl, rfl⟩

theorem advanceRow_over (h : client.advanceRow row = .ok later)
    (hsilent : event.bind Event.packet = none) : Over client event later := by
  rcases advanceRow_ok h with ⟨-, -, -, rfl⟩ | ⟨-, rfl⟩
  · exact ⟨hsilent, rfl, rfl⟩
  · exact ⟨hsilent, rfl, rfl⟩

theorem readLength_over {prefixLen : Nat} (hstate : client.state.inLogin = false)
    (h : client.readLength row input prefixLen = .ok (step, later)) :
    Over client step.event later := by
  rw [Client.readLength] at h
  split at h
  · cases h
  · split at h
    · cases h
      exact ⟨rfl, rfl, hstate⟩
    · obtain ⟨packetLeft, -, h⟩ := bind_eq_ok.mp h
      split at h
      · cases h
      · obtain ⟨columnsLeft, -, h⟩ := bind_eq_ok.mp h
        obtain ⟨advanced, hadvance, h⟩ := bind_eq_ok.mp h
        cases h
        exact advanceRow_over hadvance rfl

theorem readRow_over (hstate : client.state.inLogin = false)
    (h : client.readRow row input = .ok (step, later)) : Over client step.event later := by
  rw [Client.readRow.eq_def] at h
  split at h
  · rw [Client.readBytes] at h
    split at h
    · cases h
      exact ⟨rfl, rfl, hstate⟩
    · obtain ⟨valueLeft, -, h⟩ := bind_eq_ok.mp h
      obtain ⟨packetLeft, -, h⟩ := bind_eq_ok.mp h
      obtain ⟨advanced, hadvance, h⟩ := bind_eq_ok.mp h
      cases h
      exact advanceRow_over hadvance rfl
  · split at h
    · cases h
      exact ⟨rfl, rfl, hstate⟩
    · split at h
      · rw [Client.readNull] at h
        split at h
        · cases h
        · obtain ⟨columnsLeft, -, h⟩ := bind_eq_ok.mp h
          obtain ⟨advanced, hadvance, h⟩ := bind_eq_ok.mp h
          cases h
          exact advanceRow_over hadvance rfl
      · split at h
        · exact readLength_over hstate h
        · split at h
          · exact readLength_over hstate h
          · split at h
            · cases h
            · exact readLength_over hstate h

/-- **One read of a login.** One case for each state. -/
theorem read_moves (h : client.read sha256 input room = .ok (step, later)) :
    Moves sha256 client input step.event later := by
  have hover : client.state.inLogin = false → client.state ≠ .closed →
      Over client step.event later → Moves sha256 client input step.event later := by
    intro hout hlive hover
    refine .ended hover.silent (.inl hover.options) hover.state (fun hgreeting => ?_) hlive
      fun hin => nomatch hin.symm.trans hout
    rw [hgreeting] at hout
    cases hout
  rw [Client.read] at h
  split at h
  · cases h
  · split at h
    case h_1 hstate =>
      rcases withPacket_ok h with ⟨rfl, rfl⟩ | ⟨payload, event, -, rfl, hhandled, -⟩
      · exact .stay rfl rfl rfl
      · exact handleGreeting_moves sha256 hstate hhandled
    case h_2 hstate =>
      obtain ⟨⟨event, later⟩, hwrite, h⟩ := bind_eq_ok.mp h
      cases h
      obtain ⟨rfl, rfl⟩ := writeResponse_ok sha256 hwrite
      exact .respond _ (.inr ⟨hstate, rfl⟩) rfl rfl rfl
    case h_3 auth hstate =>
      rcases withPacket_ok h with ⟨rfl, rfl⟩ | ⟨payload, event, -, rfl, hhandled, hframe⟩
      · exact .stay rfl rfl rfl
      · exact handleAuth_moves sha256 hstate hframe hhandled
    case h_4 hstate =>
      have hout : client.state.inLogin = false := by rw [hstate]; rfl
      exact hover hout (hstate ▸ nofun) (withPacket_over hout (fun _ _ _ => handleResult_over hout) h)
    case h_5 left hstate =>
      have hout : client.state.inLogin = false := by rw [hstate]; rfl
      exact hover hout (hstate ▸ nofun) (withPacket_over hout (fun _ _ _ => handleColumn_over) h)
    case h_6 hstate =>
      have hout : client.state.inLogin = false := by rw [hstate]; rfl
      exact hover hout (hstate ▸ nofun) (readRowStart_over hout h)
    case h_7 row hstate =>
      have hout : client.state.inLogin = false := by rw [hstate]; rfl
      exact hover hout (hstate ▸ nofun) (readRow_over hout h)
    case h_8 hstate => cases h
    case h_9 hstate => cases h

end Rui.Mysql
