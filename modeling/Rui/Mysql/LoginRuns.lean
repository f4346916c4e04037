import Rui.Mysql.Blind
import Rui.Mysql.LoginLaws

/-!
# Runs of a login

The driver keeps what has come, shows the client as much of it as it likes,
sends what the client asks for and completes the TLS handshake when it can.
The laws hold of every such run, and on plain TCP what is sent is the same for
two passwords of one hash: nothing of the password itself can be in it.
-/

namespace Rui.Mysql

open Library

/-! ## The driver -/

/-- A client, the bytes that came and are not consumed, and whether the TLS handshake the client
asked for is under way. -/
structure Driver where
  client : Client
  input : List UInt8
  starting : Bool

inductive DriverStep
  | arrive (bytes : List UInt8)
  | tlsDone
  | read (step : Step)
  | query (textLen : Nat)

abbrev DriverEvent := Library.Step Driver DriverStep

def Event.isStartTls : Event → Bool
  | .startTls _ => true
  | _ => false

/-- One step of a connection. No read comes between a `start_tls` and the end of its handshake. -/
inductive NextDriver (sha256 : Sha256) (room : Nat) (now : Driver) : DriverStep → Driver → Prop
  | arrive (bytes : List UInt8) :
    NextDriver sha256 room now (.arrive bytes) { now with input := now.input ++ bytes }
  | tlsDone (starting : now.starting = true) :
    NextDriver sha256 room now .tlsDone { now with starting := false }
  | read {shown : List UInt8} {step : Step} {client : Client} (free : now.starting = false)
    (shows : shown <+: now.input) (h : now.client.read sha256 shown room = .ok (step, client)) :
    NextDriver sha256 room now (.read step)
      ⟨client, now.input.drop step.consumed, step.event.any Event.isStartTls⟩
  | query {textLen : Nat} {packet : List UInt8} {client : Client}
    (h : now.client.query textLen = .ok (some (packet, client))) :
    NextDriver sha256 room now (.query textLen) { now with client }

/-- A connection before its first byte. -/
def Driver.start (client : Client) : Driver := ⟨client, [], false⟩

/-! ## What was said -/

def messageOf (e : DriverEvent) : Option Message :=
  match e.label with
  | .read _ => said e.before.client e.after.client
  | _ => none

/-- What the client said so far, in order. -/
def messages (history : List DriverEvent) : List Message := history.filterMap messageOf

def Message.isScramble : Message → Bool
  | .scramble _ => true
  | _ => false

def hello (transport : Transport) : List Message :=
  if transport = .tcpTls then [.sslRequest] else []

/-- The answer to one switch, or none. -/
def Switching (switch : List Message) : Prop := switch = [] ∨ ∃ nonce, switch = [.scramble nonce]

/-- What a client may say, in order; the password only where it cannot be read. -/
def Dialogue (transport : Transport) (messages : List Message) : Prop :=
  ∃ nonce switch password,
    messages <+: hello transport ++ [.response nonce] ++ switch ++ password ∧ Switching switch ∧
      (password = [] ∨ password = [.password] ∧ transport.secure = true)

/-- What was said where a client stands. -/
def InDialogue (transport : Transport) (messages : List Message) : State → Prop
  | .greeting => messages = []
  | .tls => messages = hello transport ∧ transport = .tcpTls
  | .auth .scrambleSent => ∃ nonce, messages = hello transport ++ [.response nonce]
  | .auth .switched => ∃ nonce nonce',
      messages = hello transport ++ [.response nonce] ++ [.scramble nonce']
  | .auth .passwordSent => transport.secure = true ∧ ∃ nonce switch, Switching switch ∧
      messages = hello transport ++ [.response nonce] ++ switch ++ [.password]
  | _ => Dialogue transport messages

variable {state : State} {client later : Client} {sha256 : Sha256} {input password : List UInt8}
  {event : Option Event} {history : List DriverEvent} {now : Driver} {textLen room : Nat}
  {message : Message}

theorem InDialogue.dialogue {transport : Transport} {messages : List Message}
    (h : InDialogue transport messages state) : Dialogue transport messages := by
  match state, h with
  | .greeting, h => exact ⟨[], [], [], by rw [show messages = [] from h]; exact List.nil_prefix,
      .inl rfl, .inl rfl⟩
  | .tls, h =>
    refine ⟨[], [], [], ?_, .inl rfl, .inl rfl⟩
    rw [h.1, List.append_nil, List.append_nil]
    exact List.prefix_append _ _
  | .auth .scrambleSent, ⟨nonce, h⟩ =>
    refine ⟨nonce, [], [], ?_, .inl rfl, .inl rfl⟩
    rw [h, List.append_nil, List.append_nil]
  | .auth .switched, ⟨nonce, nonce', h⟩ =>
    refine ⟨nonce, [.scramble nonce'], [], ?_, .inr ⟨nonce', rfl⟩, .inl rfl⟩
    rw [h, List.append_nil]
  | .auth .passwordSent, ⟨hsecure, nonce, switch, hswitch, h⟩ =>
    exact ⟨nonce, switch, [.password], h ▸ List.prefix_refl _, hswitch, .inr ⟨rfl, hsecure⟩⟩
  | .ready, h => exact h
  | .result, h => exact h
  | .columns _, h => exact h
  | .rows, h => exact h
  | .row _, h => exact h
  | .closed, h => exact h

theorem InDialogue.ended {transport : Transport} {messages : List Message}
    (h : Dialogue transport messages) (hstate : state.inLogin = false) :
    InDialogue transport messages state := by
  cases state with
  | greeting => cases hstate
  | tls => cases hstate
  | auth _ => cases hstate
  | _ => exact h

/-- Nothing is said by a client whose login is over. -/
theorem said_over (h : later.state.inLogin = false) : said client later = none := by
  unfold said
  split
  all_goals first
    | rfl
    | rename_i hlater
      rw [hlater] at h
      cases h

theorem said_same (h : later.state = client.state) : said client later = none := by
  rw [said, h]
  cases client.state with
  | auth auth => cases auth <;> rfl
  | _ => rfl

theorem Moves.said (h : Moves sha256 client input event later) :
    ∃ sequence, event.bind Event.packet =
      (said client later).map (·.packet sha256 client.options sequence) := by
  cases h with
  | stay silent _ state =>
    refine ⟨0, ?_⟩
    rw [silent, said_same state]
    rfl
  | ended silent _ state =>
    refine ⟨0, ?_⟩
    rw [silent, said_over state]
    rfl
  | startTls standing _ sent _ state =>
    refine ⟨client.sequence + 1, ?_⟩
    rw [sent, Mysql.said, standing, state]
    rfl
  | respond sequence standing sent _ state =>
    refine ⟨sequence, ?_⟩
    rcases standing with ⟨standing, -⟩ | ⟨standing, -⟩
    all_goals
      rw [sent, Mysql.said, standing, state]
      rfl
  | switch standing _ _ sent _ state =>
    refine ⟨client.sequence + 1, ?_⟩
    rw [sent, Mysql.said, standing, state]
    rfl
  | password auth standing once _ _ sent _ state =>
    refine ⟨client.sequence + 1, ?_⟩
    rw [sent, Mysql.said, standing, state]
    cases auth with
    | passwordSent => exact absurd rfl once
    | _ => rfl

/-! ## Every step -/

/-- TLS stands: its handshake was completed. -/
def Secured (history : List DriverEvent) : Prop := ∃ e ∈ history, e.label = .tlsDone

/-- What holds after every step of a connection. -/
structure LoginInv (options : Options) (history : List DriverEvent) (now : Driver) : Prop where
  kept : now.client.options = options ∨
    now.client.state.inLogin = false ∧ now.client.options = { options with password := [] }
  said : InDialogue options.transport (messages history) now.client.state
  starting : now.starting = true → now.client.state = .tls
  secured : options.transport = .tcpTls → now.starting = false →
    now.client.state ≠ .greeting → now.client.state ≠ .closed → Secured history

theorem messages_append (history : List DriverEvent) (e : DriverEvent) :
    messages (history ++ [e]) = messages history ++ (messageOf e).toList := by
  rw [messages, messages, List.filterMap_append]
  cases h : messageOf e <;> simp [h]

theorem Secured.mono (h : Secured history) (e : DriverEvent) : Secured (history ++ [e]) := by
  obtain ⟨e', he', hlabel⟩ := h
  exact ⟨e', List.mem_append_left _ he', hlabel⟩

theorem InDialogue.step {sha256 : Sha256} {options : Options} {messages : List Message}
    {client later : Client} {input : List UInt8} {event : Option Event}
    (h : InDialogue options.transport messages client.state)
    (hoptions : client.options.transport = options.transport)
    (hmoves : Moves sha256 client input event later) :
    InDialogue options.transport (messages ++ (Mysql.said client later).toList) later.state := by
  cases hmoves with
  | stay _ _ state =>
    rw [said_same state, state, Option.toList_none, List.append_nil]
    exact h
  | ended _ _ state =>
    rw [said_over state, Option.toList_none, List.append_nil]
    exact .ended h.dialogue state
  | startTls standing transport _ _ state =>
    rw [standing] at h
    rw [Mysql.said, standing, state, show messages = [] from h]
    rw [hoptions] at transport
    exact ⟨by rw [hello, if_pos transport]; rfl, transport⟩
  | respond sequence standing _ _ state =>
    rw [state]
    rcases standing with ⟨standing, transport, -⟩ | ⟨standing, -⟩
    · rw [standing] at h
      rw [hoptions] at transport
      refine ⟨later.nonce, ?_⟩
      rw [Mysql.said, standing, state, show messages = [] from h, hello, if_neg transport]
      rfl
    · rw [standing] at h
      refine ⟨later.nonce, ?_⟩
      rw [Mysql.said, standing, state, h.1]
      rfl
  | switch standing _ _ _ _ state =>
    rw [standing] at h
    obtain ⟨nonce, h⟩ := h
    rw [state]
    refine ⟨nonce, later.nonce, ?_⟩
    rw [Mysql.said, standing, state, h]
    rfl
  | password auth standing once secure _ _ _ state =>
    rw [standing] at h
    rw [hoptions] at secure
    rw [state, Mysql.said, standing, state]
    refine ⟨secure, ?_⟩
    cases auth with
    | scrambleSent =>
      obtain ⟨nonce, h⟩ := h
      refine ⟨nonce, [], .inl rfl, ?_⟩
      rw [h, List.append_nil]
      rfl
    | switched =>
      obtain ⟨nonce, nonce', h⟩ := h
      refine ⟨nonce, [.scramble nonce'], .inr ⟨nonce', rfl⟩, ?_⟩
      rw [h]
      rfl
    | passwordSent => exact absurd rfl once

theorem LoginInv.transport {options : Options} (h : LoginInv options history now) :
    now.client.options.transport = options.transport := by
  rcases h.kept with h | ⟨-, h⟩
  · rw [h]
  · rw [h]

theorem Moves.starts (h : Moves sha256 client input event later) :
    event.any Event.isStartTls = true → later.state = .tls := by
  intro hstarts
  cases h with
  | stay silent => rw [silent] at hstarts; cases hstarts
  | ended silent =>
    cases event with
    | none => cases hstarts
    | some event =>
      cases event with
      | startTls packet => cases silent
      | _ => cases hstarts
  | startTls _ _ _ _ state => exact state
  | respond _ _ sent => rw [sent] at hstarts; cases hstarts
  | switch _ _ _ sent => rw [sent] at hstarts; cases hstarts
  | password _ _ _ _ _ sent => rw [sent] at hstarts; cases hstarts

theorem Moves.options (h : Moves sha256 client input event later) :
    (later.options = client.options ∨
      later.state.inLogin = false ∧ later.options = { client.options with password := [] }) ∧
      (client.state.inLogin = false → later.state.inLogin = false) := by
  cases h with
  | stay _ options state => exact ⟨.inl options, fun hout => by rw [state]; exact hout⟩
  | ended _ options state => exact ⟨options.imp id fun h => ⟨state, h⟩, fun _ => state⟩
  | startTls standing _ _ options =>
    exact ⟨.inl options, fun hout => by rw [standing] at hout; cases hout⟩
  | respond _ standing _ options =>
    refine ⟨.inl options, fun hout => ?_⟩
    rcases standing with ⟨standing, -⟩ | ⟨standing, -⟩
    all_goals
      rw [standing] at hout
      cases hout
  | switch standing _ _ _ options =>
    exact ⟨.inl options, fun hout => by rw [standing] at hout; cases hout⟩
  | password _ standing _ _ _ _ options =>
    exact ⟨.inl options, fun hout => by rw [standing] at hout; cases hout⟩

/-- The options stay until the password is cleared, as the login ends. -/
theorem LoginInv.kept_read {options : Options} (h : LoginInv options history now)
    (hmoves : Moves sha256 now.client input event client) : client.options = options ∨
      client.state.inLogin = false ∧ client.options = { options with password := [] } := by
  obtain ⟨hoptions, hout⟩ := hmoves.options
  rcases h.kept with hkept | ⟨hover, hkept⟩
  · rw [hkept] at hoptions
    exact hoptions
  · rw [hkept, or_iff_right_of_imp fun h => ⟨hout hover, h⟩] at hoptions
    exact .inr hoptions

theorem LoginInv.secured_read {options : Options} (h : LoginInv options history now)
    (hfree : now.starting = false) (hmoves : Moves sha256 now.client input event client)
    (htransport : options.transport = .tcpTls) (hstarts : event.any Event.isStartTls = false)
    (hgreeting : client.state ≠ .greeting) (hclosed : client.state ≠ .closed) :
    Secured history := by
  cases hmoves with
  | stay _ _ state =>
    rw [state] at hgreeting hclosed
    exact h.secured htransport hfree hgreeting hclosed
  | ended _ _ _ refused live =>
    refine h.secured htransport hfree (fun hstate => ?_) live
    exact hclosed (refused hstate)
  | startTls _ _ sent =>
    rw [sent] at hstarts
    cases hstarts
  | respond _ standing =>
    rcases standing with ⟨-, hnot, -⟩ | ⟨standing, -⟩
    · exact absurd (h.transport.trans htransport) hnot
    · exact h.secured htransport hfree (standing ▸ nofun) (standing ▸ nofun)
  | switch standing =>
    exact h.secured htransport hfree (standing ▸ nofun) (standing ▸ nofun)
  | password _ standing =>
    exact h.secured htransport hfree (standing ▸ nofun) (standing ▸ nofun)

theorem query_ok {packet : List UInt8} (h : client.query textLen = .ok (some (packet, later))) :
    client.state = .ready ∧ later = { client with sequence := 1, state := .result } := by
  rw [Client.query] at h
  split at h
  · cases h
  · rename_i hready
    split at h
    · cases h
    · cases h
      exact ⟨not_not.mp hready, rfl⟩

theorem NextDriver.ready {later : Driver} (h : NextDriver sha256 room now (.query textLen) later) :
    now.client.state = .ready := by
  cases h with
  | query hquery => exact (query_ok hquery).1

theorem LoginInv.next {options : Options} {later : Driver} {step : DriverStep}
    (h : LoginInv options history now) (hnext : NextDriver sha256 room now step later) :
    LoginInv options (history ++ [⟨now, step, later⟩]) later := by
  have hsilent : ∀ e : DriverEvent, messageOf e = none →
      InDialogue options.transport (messages (history ++ [e])) now.client.state := by
    intro e hnone
    rw [messages_append, hnone, Option.toList_none, List.append_nil]
    exact h.said
  cases hnext with
  | arrive bytes =>
    constructor
    case kept => exact h.kept
    case said => exact hsilent _ rfl
    case starting => exact h.starting
    case secured =>
      intro htransport hstarting hgreeting hclosed
      exact (h.secured htransport hstarting hgreeting hclosed).mono _
  | tlsDone starting =>
    constructor
    case kept => exact h.kept
    case said => exact hsilent _ rfl
    case starting => exact nofun
    case secured =>
      intro _ _ _ _
      exact ⟨_, List.mem_append_right _ (List.mem_singleton_self _), rfl⟩
  | query hquery =>
    obtain ⟨hready, rfl⟩ := query_ok hquery
    constructor
    case kept => exact h.kept.imp id fun hkept => ⟨rfl, hkept.2⟩
    case said =>
      rw [messages_append]
      exact .ended ((List.append_nil _).symm ▸ h.said.dialogue) rfl
    case starting =>
      intro hstarting
      exact nomatch hready.symm.trans (h.starting hstarting)
    case secured =>
      intro htransport hstarting _ _
      exact (h.secured htransport hstarting (hready ▸ nofun) (hready ▸ nofun)).mono _
  | read free shows hread =>
    have hmoves := read_moves sha256 hread
    constructor
    case kept => exact h.kept_read hmoves
    case said =>
      rw [messages_append]
      exact h.said.step h.transport hmoves
    case starting => exact hmoves.starts
    case secured =>
      intro htransport hstarting hgreeting hclosed
      exact (h.secured_read free hmoves htransport hstarting hgreeting hclosed).mono _

theorem login_inv {options : Options}
    (h : Run (NextDriver sha256 room) (.start { options }) history now) :
    LoginInv options history now := by
  induction h with
  | start => exact ⟨.inl rfl, rfl, nofun, fun _ _ hgreeting => absurd rfl hgreeting⟩
  | step _ hnext ih => exact ih.next hnext

/-! ## Lengths -/

/-- The bounds that `init` puts on its options. -/
theorem init_bounds {options : Options} (h : Client.init options = some client) :
    client = { options } ∧ options.user.length ≤ maxUserBytes ∧
      options.database.length ≤ maxDatabaseBytes ∧ options.password.length ≤ maxPasswordBytes := by
  rw [Client.init] at h
  split at h
  · cases h
  · rename_i hbounds
    split at h
    · cases h
    · cases h
      exact ⟨rfl, by omega, by omega, by omega⟩

/-- **Every message fits the driver's buffer.** -/
theorem Message.packet_length (sha256 : Sha256) {options : Options}
    (h : Client.init options = some client) (sequence : UInt8) (message : Message) :
    (message.packet sha256 options sequence).length ≤ sendBufferMin := by
  obtain ⟨-, huser, hdatabase, hpassword⟩ := init_bounds h
  rw [Message.packet, frame_length]
  simp only [maxUserBytes, maxDatabaseBytes, maxPasswordBytes] at huser hdatabase hpassword
  cases message with
  | sslRequest =>
    rw [Message.payload, loginPrefix_length]
    decide
  | response nonce =>
    simp only [Message.payload, Mysql.response, List.length_append, loginPrefix_length,
      List.length_singleton, plugin_length, headerLen, sendBufferMin]
    split
    · rw [writeInt_length]
      omega
    · rw [List.length_append, writeInt_length, scramble_length]
      omega
  | scramble nonce =>
    rw [Message.payload]
    split
    · rw [scramble_length]
      decide
    · decide
  | password =>
    rw [Message.payload, List.length_append, List.length_singleton, headerLen, sendBufferMin]
    omega

/-! ## The same run with another password -/

theorem query_withPassword (client : Client) (password : List UInt8) (textLen : Nat) :
    (client.withPassword password).query textLen =
      (client.query textLen).map (Option.map fun r => (r.1, r.2.withPassword password)) := by
  rw [Client.query, Client.query,
    show (client.withPassword password).state = client.state from rfl]
  split
  · rfl
  · split <;> rfl

def Driver.withPassword (self : Driver) (password : List UInt8) : Driver :=
  { self with client := self.client.withPassword password }

theorem NextDriver.twin {later : Driver} {step : DriverStep}
    (h : NextDriver sha256 room now step later) (htcp : now.client.options.transport = .tcp)
    (halike : Alike sha256 now.client.options.password password) :
    later.client.options.transport = .tcp ∧ ∃ password',
      Alike sha256 later.client.options.password password' ∧
      NextDriver sha256 room (now.withPassword password) step (later.withPassword password') := by
  cases h with
  | arrive bytes => exact ⟨htcp, password, halike, .arrive bytes⟩
  | tlsDone starting => exact ⟨htcp, password, halike, .tlsDone starting⟩
  | query hquery =>
    rename_i textLen packet client
    have hquery' : (now.client.withPassword password).query textLen =
        .ok (some (packet, client.withPassword password)) := by
      rw [query_withPassword, hquery]
      rfl
    obtain ⟨-, rfl⟩ := query_ok hquery
    exact ⟨htcp, password, halike, .query hquery'⟩
  | read free shows hread =>
    rename_i shown step client
    obtain ⟨password', halike', hread'⟩ := read_twin halike htcp shown room step client hread
    have htransport : client.options.transport = now.client.options.transport := by
      rcases (read_moves sha256 hread).options.1 with hsame | ⟨-, hsame⟩
      · rw [hsame]
      · rw [hsame]
    exact ⟨htransport.trans htcp, password', halike', .read free shows hread'⟩

theorem run_twin (h : Run (NextDriver sha256 room) (.start client) history now)
    (htcp : client.options.transport = .tcp)
    (halike : Alike sha256 client.options.password password) :
    now.client.options.transport = .tcp ∧ ∃ history' password',
      Alike sha256 now.client.options.password password' ∧
      Run (NextDriver sha256 room) (.start (client.withPassword password)) history'
        (now.withPassword password') ∧
      history'.map Library.Step.label = history.map Library.Step.label := by
  induction h with
  | start => exact ⟨htcp, [], password, halike, .start, rfl⟩
  | step _ hnext ih =>
    obtain ⟨htcp', history', password', halike', hrun, hlabels⟩ := ih
    obtain ⟨htcp'', password'', halike'', hnext'⟩ := hnext.twin htcp' halike'
    refine ⟨htcp'', _, password'', halike'', hrun.step hnext', ?_⟩
    rw [List.map_append, List.map_append, hlabels]
    rfl

/-! ## The laws -/

/-- What holds of every run of a connection, whatever its server sends. -/
structure LoginLaws (sha256 : Sha256) (room : Nat) (options : Options)
    (history : List DriverEvent) : Prop where
  /-- What is said is a prefix of one dialogue. -/
  dialogue : Dialogue options.transport (messages history)
  /-- What a read sends is its message, in one packet that fits the smallest buffer. -/
  packets : ∀ e ∈ history, ∀ step, e.label = .read step → ∃ sequence,
    step.event.bind Event.packet = (messageOf e).map (·.packet sha256 options sequence)
  fits : ∀ e ∈ history, ∀ step packet, e.label = .read step →
    step.event.bind Event.packet = some packet → packet.length ≤ sendBufferMin
  /-- On plain TCP the password is never said, and what is sent is the same for every password
  with the same hash. -/
  plain : options.transport = .tcp → .password ∉ messages history
  blind : options.transport = .tcp → ∀ password, Alike sha256 options.password password →
    ∃ history' now', Run (NextDriver sha256 room)
        (.start { options := { options with password } }) history' now' ∧
      history'.map Library.Step.label = history.map Library.Step.label
  /-- Under TLS nothing but the SSL request is sent before the handshake is complete. -/
  tls : options.transport = .tcpTls → ∀ past e future, history = past ++ e :: future →
    (∃ message, messageOf e = some message ∧ message ≠ .sslRequest) ∨
      (∃ textLen, e.label = .query textLen) → Secured past
  /-- The password is said once, where it cannot be read, to the server's request for it. -/
  once : (messages history).count .password ≤ 1
  asked : ∀ e ∈ history, messageOf e = some .password → options.transport.secure = true ∧
    ∃ rest, e.before.input = frame e.before.client.sequence fullAuthentication ++ rest
  /-- One switch is obeyed, to the supported plugin and with a fresh nonce. -/
  switched : (messages history).countP Message.isScramble ≤ 1
  switch : ∀ e ∈ history, ∀ nonce, messageOf e = some (.scramble nonce) →
    nonce.length = nonceLen ∧
      ∃ rest, e.before.input = frame e.before.client.sequence (switchRequest nonce) ++ rest

theorem Dialogue.counts {transport : Transport} {messages : List Message}
    (h : Dialogue transport messages) : messages.count .password ≤ 1 ∧
      messages.countP Message.isScramble ≤ 1 ∧
      (.password ∈ messages → transport.secure = true) := by
  obtain ⟨nonce, switch, password, hprefix, hswitch, hpassword⟩ := h
  have hhello : (hello transport).count .password = 0 ∧
      (hello transport).countP Message.isScramble = 0 := by
    rw [hello]
    split
    · exact ⟨rfl, rfl⟩
    · exact ⟨rfl, rfl⟩
  have hcount := hprefix.sublist.count_le .password
  have hcountP := hprefix.sublist.countP_le (p := Message.isScramble)
  simp only [List.count_append, List.countP_append, hhello.1, hhello.2] at hcount hcountP
  have hswitched : switch.count .password = 0 ∧
      switch.countP Message.isScramble ≤ 1 := by
    rcases hswitch with rfl | ⟨nonce, rfl⟩
    · exact ⟨rfl, Nat.zero_le 1⟩
    · exact ⟨rfl, Nat.le_refl 1⟩
  have hresponse : [Message.response nonce].count .password = 0 ∧
      [Message.response nonce].countP Message.isScramble = 0 :=
    ⟨rfl, rfl⟩
  rcases hpassword with rfl | ⟨rfl, hsecure⟩
  · have hnone : messages.count .password = 0 := by
      rw [hswitched.1, hresponse.1] at hcount
      exact Nat.le_zero.mp hcount
    refine ⟨by omega, ?_, fun hmem => absurd hmem (List.count_eq_zero.mp hnone)⟩
    have hnil : ([] : List Message).countP Message.isScramble = 0 := rfl
    omega
  · have hone : [Message.password].count .password = 1 ∧
        [Message.password].countP Message.isScramble = 0 := ⟨rfl, rfl⟩
    exact ⟨by omega, by omega, fun _ => hsecure⟩

theorem said_inLogin (h : said client later = some message) : client.state.inLogin = true := by
  unfold said at h
  split at h
  all_goals first
    | rename_i hstate _
      rw [hstate]
      rfl
    | cases h

/-- What the server sent before a message: its request for the password, over a transport that hides
it, or a switch to the supported plugin with the nonce that is answered. -/
def Message.Requested (client : Client) (input : List UInt8) : Message → Prop
  | .password => client.options.transport.secure = true ∧
      ∃ rest, input = frame client.sequence fullAuthentication ++ rest
  | .scramble nonce => nonce.length = nonceLen ∧
      ∃ rest, input = frame client.sequence (switchRequest nonce) ++ rest
  | _ => True

theorem Moves.requested (h : Moves sha256 client input event later)
    (hsaid : Mysql.said client later = some message) : message.Requested client input := by
  cases h with
  | stay _ _ state => exact nomatch (said_same state).symm.trans hsaid
  | ended _ _ state => exact nomatch (said_over state).symm.trans hsaid
  | startTls standing _ _ _ state =>
    rw [Mysql.said, standing, state] at hsaid
    cases hsaid
    trivial
  | respond _ standing _ _ state =>
    rcases standing with ⟨standing, -⟩ | ⟨standing, -⟩
    all_goals
      rw [Mysql.said, standing, state] at hsaid
      cases hsaid
      trivial
  | switch standing request length _ _ state =>
    rw [Mysql.said, standing, state] at hsaid
    cases hsaid
    exact ⟨length, request⟩
  | password auth standing _ secure request _ _ state =>
    rw [Mysql.said, standing, state] at hsaid
    cases auth <;> cases hsaid
    all_goals exact ⟨secure, request⟩

/-- What a read that says something says, and why. -/
theorem messageOf_some {later : Driver} {step : DriverStep}
    (hnext : NextDriver sha256 room now step later)
    (h : messageOf ⟨now, step, later⟩ = some message) :
    now.starting = false ∧ ∃ shown read, step = .read read ∧ shown <+: now.input ∧
      Moves sha256 now.client shown read.event later.client ∧
      said now.client later.client = some message := by
  cases hnext with
  | read free shows hread => exact ⟨free, _, _, rfl, shows, read_moves sha256 hread, h⟩
  | _ => cases h

/-- **A login says what it may, where it may**, in every run and to every server. -/
theorem login_laws {sha256 : Sha256} {room : Nat} {options : Options} {client : Client}
    (hinit : Client.init options = some client) {history : List DriverEvent} {now : Driver}
    (h : Run (NextDriver sha256 room) (.start client) history now) :
    LoginLaws sha256 room options history := by
  obtain rfl := (init_bounds hinit).1
  obtain ⟨honce, hswitched, hsecure⟩ := (login_inv h).said.dialogue.counts
  -- a step of the run is one the driver takes, from where the invariant holds
  have hstep : ∀ past e future, history = past ++ e :: future →
      NextDriver sha256 room e.before e.label e.after ∧ LoginInv options past e.before := by
    rintro past e future rfl
    obtain ⟨hpast, hnext, -⟩ := h.split_step
    exact ⟨hnext, login_inv hpast⟩
  have hsplit : ∀ e ∈ history, ∃ past, NextDriver sha256 room e.before e.label e.after ∧
      LoginInv options past e.before := by
    intro e he
    obtain ⟨past, future, hhistory⟩ := List.append_of_mem he
    exact ⟨past, hstep past e future hhistory⟩
  have hpackets : ∀ e ∈ history, ∀ step, e.label = .read step → ∃ sequence,
      step.event.bind Event.packet = (messageOf e).map (·.packet sha256 options sequence) := by
    rintro ⟨before, label, after⟩ he step rfl
    obtain ⟨past, hnext, hinv⟩ := hsplit _ he
    replace hnext : NextDriver sha256 room before (.read step) after := hnext
    cases hnext with
    | read free shows hread =>
      obtain ⟨sequence, hpacket⟩ := (read_moves sha256 hread).said
      refine ⟨sequence, hpacket.trans ?_⟩
      show _ = (said before.client _).map _
      cases hsaid : said before.client _ with
      | none => rfl
      | some message =>
        rcases hinv.kept with hkept | ⟨hout, -⟩
        · rw [hkept]
        · exact nomatch (said_inLogin hsaid).symm.trans hout
  constructor
  case dialogue => exact (login_inv h).said.dialogue
  case packets => exact hpackets
  case fits =>
    intro e he step packet hlabel hpacket
    obtain ⟨sequence, hmessage⟩ := hpackets e he step hlabel
    obtain ⟨message, -, rfl⟩ := Option.map_eq_some_iff.mp (hmessage.symm.trans hpacket)
    exact message.packet_length sha256 hinit sequence
  case plain =>
    intro htcp hmem
    have := hsecure hmem
    rw [htcp] at this
    cases this
  case blind =>
    intro htcp password halike
    obtain ⟨-, history', password', -, hrun, hlabels⟩ := run_twin h htcp halike
    exact ⟨history', _, hrun, hlabels⟩
  case tls =>
    intro htransport past e future hhistory hsays
    obtain ⟨hnext, hinv⟩ := hstep past e future hhistory
    rcases hsays with ⟨message, hmessage, hnot⟩ | ⟨textLen, hlabel⟩
    · obtain ⟨free, shown, read, -, -, hmoves, hsaid⟩ := messageOf_some hnext hmessage
      cases hmoves with
      | stay _ _ state => exact nomatch (said_same state).symm.trans hsaid
      | ended _ _ state => exact nomatch (said_over state).symm.trans hsaid
      | startTls standing _ _ _ state =>
        rw [said, standing, state] at hsaid
        exact absurd (Option.some.inj hsaid).symm hnot
      | respond _ standing =>
        rcases standing with ⟨-, hplain, -⟩ | ⟨standing, -⟩
        · exact absurd (hinv.transport.trans htransport) hplain
        · exact hinv.secured htransport free (standing ▸ nofun) (standing ▸ nofun)
      | switch standing =>
        exact hinv.secured htransport free (standing ▸ nofun) (standing ▸ nofun)
      | password _ standing =>
        exact hinv.secured htransport free (standing ▸ nofun) (standing ▸ nofun)
    · rw [hlabel] at hnext
      have hready := hnext.ready
      refine hinv.secured htransport ?_ (hready ▸ nofun) (hready ▸ nofun)
      rw [← Bool.not_eq_true]
      intro hstarting
      exact nomatch hready.symm.trans (hinv.starting hstarting)
  case once => exact honce
  case asked =>
    intro e he hmessage
    obtain ⟨past, hnext, hinv⟩ := hsplit e he
    obtain ⟨-, shown, read, -, ⟨behind, hbehind⟩, hmoves, hsaid⟩ := messageOf_some hnext hmessage
    obtain ⟨hsecure, rest, hrest⟩ := hmoves.requested hsaid
    rw [hinv.transport] at hsecure
    exact ⟨hsecure, rest ++ behind, by rw [← hbehind, hrest, List.append_assoc]⟩
  case switched => exact hswitched
  case switch =>
    intro e he nonce hmessage
    obtain ⟨past, hnext, hinv⟩ := hsplit e he
    obtain ⟨-, shown, read, -, ⟨behind, hbehind⟩, hmoves, hsaid⟩ := messageOf_some hnext hmessage
    obtain ⟨hnonce, rest, hrest⟩ := hmoves.requested hsaid
    exact ⟨hnonce, rest ++ behind, by rw [← hbehind, hrest, List.append_assoc]⟩

/-- A login over a Unix socket with an empty password, which the server asks for. -/
theorem login_laws_asked :
    ∃ (sha256 : Sha256) (history : List DriverEvent) (now : Driver),
      Run (NextDriver sha256 2048)
        (.start { options := ⟨text "rui", [], text "rui", .unixSocket⟩ }) history now ∧
      LoginLaws sha256 2048 ⟨text "rui", [], text "rui", .unixSocket⟩ history ∧
      .password ∈ messages history := by
  have hrun : ∃ (history : List DriverEvent) (now : Driver),
      Run (NextDriver ⟨fun _ => List.replicate 32 0, fun _ => rfl⟩ 2048)
        (.start { options := ⟨text "rui", [], text "rui", .unixSocket⟩ }) history now ∧
      messages history = [.response [93, 116, 20, 44, 22, 35, 44, 118, 11, 109, 67, 49, 101, 62, 19,
        119, 67, 32, 90, 1], .password] := by
    have greeted : NextDriver ⟨fun _ => List.replicate 32 0, fun _ => rfl⟩ 2048
        (.start { options := ⟨text "rui", [], text "rui", .unixSocket⟩ })
        (.arrive [0x4a, 0, 0, 0, 0x0a, 0x38, 0x2e, 0x34, 0x2e, 0x31, 0x33, 0, 9, 0, 0, 0, 0x5d,
          0x74, 0x14, 0x2c, 0x16, 0x23, 0x2c, 0x76, 0, 0xff, 0xff, 0xff, 2, 0, 0xff, 0xdf, 0x15, 0,
          0, 0, 0, 0, 0, 0, 0, 0, 0, 0x0b, 0x6d, 0x43, 0x31, 0x65, 0x3e, 0x13, 0x77, 0x43, 0x20,
          0x5a, 1, 0, 0x63, 0x61, 0x63, 0x68, 0x69, 0x6e, 0x67, 0x5f, 0x73, 0x68, 0x61, 0x32, 0x5f,
          0x70, 0x61, 0x73, 0x73, 0x77, 0x6f, 0x72, 0x64, 0]) _ := .arrive _
    have responded := (Run.single greeted).step (.read rfl (List.prefix_refl _) rfl)
    have asked := responded.step (.arrive [2, 0, 0, 2, 1, 4])
    have answered := asked.step (.read rfl (List.prefix_refl _) rfl)
    exact ⟨_, _, answered, rfl⟩
  obtain ⟨history, now, h, hmessages⟩ := hrun
  refine ⟨_, history, now, h, login_laws (by decide) h, ?_⟩
  rw [hmessages]
  decide

end Rui.Mysql
