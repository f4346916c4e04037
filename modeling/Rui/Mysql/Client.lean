import Rui.Library.Ascii
import Rui.Library.Search
import Rui.Library.Told

/-!
# The MySQL client

The classic client protocol (`store/wire/mysql.zig`): the login, and the
results of text queries. The client owns no buffer: its driver hands it the
bytes it has not consumed, and it answers with at most one event. A check the
program must never fail (an `unreachable`, a counter below zero, a write past
the buffer) is a `panic`. Sequence ids wrap, lengths are natural numbers.
-/

namespace Rui.Mysql

open Library

def receiveBufferMin : Nat := 16 * 1024
def sendBufferMin : Nat := 2048

def maxUserBytes : Nat := 32 * 4
def maxDatabaseBytes : Nat := 64 * 4
def maxPasswordBytes : Nat := 1024

def headerLen : Nat := 4
def nonceLen : Nat := 20
def maxPayload : Nat := 0xFFFFFF - 1
def maxControlPayload : Nat := receiveBufferMin - headerLen
def maxPacketSize : Nat := 1 <<< 24
def charsetUtf8mb40900AiCi : Nat := 255
def plugin : List UInt8 := text "caching_sha2_password"

inductive Error
  | protocolViolation
  | packetTooLarge
  | unsupportedServer
  | tlsRefused
  | authMethodRefused
  deriving DecidableEq, Repr

/-- A result, an error, or a panic. -/
abbrev Attempt (α : Type) := Except (Fault Error) α

/-- Bytes the protocol does not allow at this point. -/
def violation {α : Type} : Attempt α := .error (.error .protocolViolation)

def refuse {α : Type} (e : Error) : Attempt α := .error (.error e)

def unreachable {α : Type} : Attempt α := .error .panic

/-- A subtraction that must not underflow. -/
def sub (a b : Nat) : Attempt Nat := if b ≤ a then .ok (a - b) else unreachable

/-! ## Options -/

inductive Transport
  | tcpTls
  | tcp
  | unixSocket
  deriving DecidableEq, Repr

def Transport.secure (transport : Transport) : Bool := transport != .tcp

structure Options where
  user : List UInt8
  password : List UInt8
  database : List UInt8
  transport : Transport
  deriving DecidableEq, Repr

/-! ## Bytes -/

/-- A little-endian integer of as many bytes as are given. -/
def readInt : List UInt8 → Nat
  | [] => 0
  | byte :: rest => byte.toNat + 256 * readInt rest

/-- The `n` little-endian bytes of an integer. -/
def writeInt : Nat → Nat → List UInt8
  | 0, _ => []
  | n + 1, value => UInt8.ofNat value :: writeInt n (value / 256)

/-! The reads of a cursor over a payload, on what is left of it. -/

def take (n : Nat) (rest : List UInt8) : Attempt (List UInt8 × List UInt8) :=
  if rest.length < n then violation else .ok (rest.take n, rest.drop n)

def int (n : Nat) (rest : List UInt8) : Attempt (Nat × List UInt8) := do
  let (bytes, rest) ← take n rest
  .ok (readInt bytes, rest)

def lenenc (rest : List UInt8) : Attempt (Nat × List UInt8) := do
  let (first, rest) ← int 1 rest
  if first = 0xFC then int 2 rest
  else if first = 0xFD then int 3 rest
  else if first = 0xFE then int 8 rest
  else if first = 0xFB ∨ first = 0xFF then violation
  else .ok (first, rest)

/-- A length over the whole payload is over what is left of it, and refused the same way. -/
def lenencString (rest : List UInt8) : Attempt (List UInt8 × List UInt8) := do
  let (len, rest) ← lenenc rest
  take len rest

def nulString (rest : List UInt8) : Attempt (List UInt8 × List UInt8) :=
  match indexOf [0] rest with
  | none => violation
  | some cut => .ok (rest.take cut, rest.drop (cut + 1))

/-! ## Events -/

/-- SERVER_STATUS flags of an OK packet. -/
structure Status where
  bits : Nat
  deriving DecidableEq, Repr

/-- Another statement's result of the same query follows. -/
def Status.moreResults (self : Status) : Bool := self.bits.testBit 3

structure Ok where
  affectedRows : Nat
  status : Status
  deriving DecidableEq, Repr

structure ServerError where
  code : Nat
  sqlState : List UInt8
  message : List UInt8
  deriving DecidableEq, Repr

structure Column where
  name : List UInt8
  type : Nat
  flags : Nat
  charset : Nat
  deriving DecidableEq, Repr

/-- An event, with the bytes it left in the driver's `out`. -/
inductive Event
  | send (packet : List UInt8)
  /-- Send the SSLRequest, complete the TLS handshake, and carry every later byte over TLS. -/
  | startTls (packet : List UInt8)
  | ready
  | ok (ok : Ok)
  | err (err : ServerError)
  | columns (count : Nat)
  | column (column : Column)
  | row
  /-- The next value of the row: none for NULL, else its length. -/
  | value (len : Option Nat)
  | bytes (bytes : List UInt8)
  | rowsEnd (status : Status)
  deriving DecidableEq, Repr

structure Step where
  consumed : Nat
  event : Option Event
  deriving DecidableEq, Repr

/-- More input is needed. -/
def Step.more : Step := ⟨0, none⟩

/-! ## The client -/

namespace Capability

def foundRows : Nat := 1 <<< 1
def connectWithDb : Nat := 1 <<< 3
def protocol41 : Nat := 1 <<< 9
def ssl : Nat := 1 <<< 11
def transactions : Nat := 1 <<< 13
def secureConnection : Nat := 1 <<< 15
def multiStatements : Nat := 1 <<< 16
def multiResults : Nat := 1 <<< 17
def pluginAuth : Nat := 1 <<< 19
def pluginAuthLenencClientData : Nat := 1 <<< 21
def deprecateEof : Nat := 1 <<< 24

/-- Everything the client asks for apart from SSL; the server must offer all of it. -/
def required : Nat :=
  foundRows ||| connectWithDb ||| protocol41 ||| transactions ||| secureConnection |||
    multiStatements ||| multiResults ||| pluginAuth ||| pluginAuthLenencClientData |||
    deprecateEof

end Capability

inductive Auth
  /-- The handshake response's scramble went out. -/
  | scrambleSent
  /-- An AuthSwitchRequest's scramble went out; no second switch follows. -/
  | switched
  | passwordSent
  deriving DecidableEq, Repr

structure Row where
  columnsLeft : Nat
  packetLeft : Nat
  /-- Bytes still due of the value being delivered; 0 between values. -/
  valueLeft : Nat
  deriving DecidableEq, Repr

inductive State
  | greeting
  /-- The SSLRequest went out; the next `read` sends the handshake response. -/
  | tls
  | auth (auth : Auth)
  | ready
  /-- A query went out; its next statement's first packet is due. -/
  | result
  | columns (left : Nat)
  | rows
  | row (row : Row)
  | closed
  deriving DecidableEq, Repr

structure Client where
  options : Options
  state : State := .greeting
  /-- The sequence id of the next packet either side sends. -/
  sequence : UInt8 := 0
  nonce : List UInt8 := List.replicate nonceLen 0
  columnCount : Nat := 0
  connectionId : Nat := 0
  deriving DecidableEq, Repr

/-- No client for options that cannot cross the wire. -/
def Client.init (options : Options) : Option Client :=
  if options.user.length = 0 ∨ options.user.length > maxUserBytes ∨
      options.database.length = 0 ∨ options.database.length > maxDatabaseBytes ∨
      options.password.length > maxPasswordBytes then none
  else if [options.user, options.database, options.password].any (·.contains 0) then none
  else some { options }

/-! ## Packets -/

/-- The length in the packet header at the start of `input`. -/
def payloadLen : List UInt8 → Attempt Nat
  | low :: mid :: high :: _ =>
    let len := readInt [low, mid, high]
    if len = 0 ∨ len > maxPayload then violation else .ok len
  | _ => unreachable

/-- A packet: its payload's length, its sequence id and the payload. -/
def frame (sequence : UInt8) (payload : List UInt8) : List UInt8 :=
  writeInt 3 payload.length ++ [sequence] ++ payload

/-- A packet in the driver's buffer of `room` bytes; writing past the buffer stops the program. -/
def finish (room : Nat) (sequence : UInt8) (payload : List UInt8) : Attempt (List UInt8) :=
  if headerLen + payload.length ≤ room then .ok (frame sequence payload) else unreachable

namespace Client

/-- Checks the packet header at the start of `input` and returns its length. -/
def header (self : Client) (input : List UInt8) : Attempt (Nat × Client) := do
  let len ← payloadLen input
  match input.drop 3 with
  | [] => unreachable
  | sequence :: _ =>
    if sequence ≠ self.sequence then violation
    else .ok (len, { self with sequence := self.sequence + 1 })

/-- The payload of the whole packet at the start of `input`, or none if `input` does not hold all
of it yet. -/
def packet (self : Client) (input : List UInt8) : Attempt (Option (List UInt8 × Client)) :=
  if input.length < headerLen then .ok none
  else do
    let len ← payloadLen input
    if len > maxControlPayload then refuse .packetTooLarge
    else if input.length < headerLen + len then .ok none
    else do
      let (_, self) ← self.header input
      .ok (some ((input.drop headerLen).take len, self))

/-- What a whole packet is handled with: waits for the rest of one that is not. -/
def withPacket (self : Client) (input : List UInt8)
    (handle : Client → List UInt8 → Attempt (Option Event × Client)) :
    Attempt (Step × Client) := do
  match ← self.packet input with
  | none => .ok (.more, self)
  | some (payload, self) => do
    let (event, self) ← handle self payload
    .ok (⟨headerLen + payload.length, event⟩, self)

end Client

def parseOk (payload : List UInt8) : Attempt Ok := do
  let (affectedRows, rest) ← lenenc (payload.drop 1)
  let (_, rest) ← lenenc rest -- last insert id
  let (status, rest) ← int 2 rest
  let (_, _) ← int 2 rest -- warnings
  .ok ⟨affectedRows, ⟨status⟩⟩

/-- A server refusing the connection before the handshake sends no state. -/
def parseErr (payload : List UInt8) : Attempt ServerError := do
  let (code, rest) ← int 2 (payload.drop 1)
  if payload.length ≥ 9 ∧ payload[3]? = some (ascii '#') then do
    let (state, rest) ← take 6 rest
    .ok ⟨code, state.drop 1, rest⟩
  else .ok ⟨code, text "HY000", rest⟩

/-! ## The server's version -/

/-- The digits of a number up to `max`, underscores between them aside. -/
def parseDigits (max : Nat) (negative : Bool) : Nat → List UInt8 → Option Nat
  | total, [] => some total
  | total, char :: rest =>
    if char = ascii '_' then parseDigits max negative total rest
    else if isDigit char = false then none
    else
      let digit := (char - ascii '0').toNat
      let shifted := total * 10
      if shifted > max then none
      else if negative then if shifted < digit then none
        else parseDigits max negative (shifted - digit) rest
      else if shifted + digit > max then none
      else parseDigits max negative (shifted + digit) rest

/-- A decimal number as `std.fmt.parseInt` reads an unsigned one. -/
def parseInt (max : Nat) (chars : List UInt8) : Option Nat :=
  let (negative, digits) :=
    match chars with
    | [] => (false, [])
    | sign :: digits =>
      if sign = ascii '+' then (false, digits)
      else if sign = ascii '-' then (true, digits)
      else (false, chars)
  if digits = [] ∨ digits.head? = some (ascii '_') ∨ digits.getLast? = some (ascii '_') then none
  else parseDigits max negative 0 digits

/-- MySQL 8.4 or later. MariaDB is refused. -/
def checkVersion (version : List UInt8) : Attempt Unit :=
  if (indexOf (text "MariaDB") version).isSome then refuse .unsupportedServer
  else
    match version.splitOn (ascii '.') with
    | majorText :: minorText :: _ =>
      match parseInt 0xFFFF majorText, parseInt 0xFFFF minorText with
      | some major, some minor =>
        if major < 8 ∨ major = 8 ∧ minor < 4 then refuse .unsupportedServer else .ok ()
      | _, _ => refuse .unsupportedServer
    | _ => refuse .unsupportedServer

/-! ## The login -/

/-- A hash of 32 bytes. -/
structure Sha256 where
  hash : List UInt8 → List UInt8
  length : ∀ bytes, (hash bytes).length = 32

variable (sha256 : Sha256)

/-- caching_sha2_password: SHA256(p) XOR SHA256(SHA256(SHA256(p)) || nonce). -/
def scramble (password nonce : List UInt8) : List UInt8 :=
  let digest := sha256.hash password
  let mixed := sha256.hash (sha256.hash digest ++ nonce)
  List.zipWith (· ^^^ ·) digest mixed

/-- The 32 bytes an SSLRequest consists of and a HandshakeResponse41 starts with. -/
def loginPrefix (options : Options) : List UInt8 :=
  writeInt 4 (Capability.required |||
    if options.transport = .tcpTls then Capability.ssl else 0) ++
  writeInt 4 maxPacketSize ++ writeInt 1 charsetUtf8mb40900AiCi ++ List.replicate 23 0

/-- HandshakeResponse41. -/
def response (options : Options) (nonce : List UInt8) : List UInt8 :=
  loginPrefix options ++ options.user ++ [0] ++
  (if options.password.length = 0 then writeInt 1 0
    else writeInt 1 32 ++ scramble sha256 options.password nonce) ++
  options.database ++ [0] ++ plugin ++ [0]

namespace Client

/-- The client behind a packet it sent. -/
def sent (self : Client) : Client := { self with sequence := self.sequence + 1 }

def writeResponse (self : Client) (room : Nat) : Attempt (Event × Client) := do
  let packet ← finish room self.sequence (response sha256 self.options self.nonce)
  .ok (.send packet, { self.sent with state := .auth .scrambleSent })

/-- What the client uses of the greeting: capabilities, nonce and connection id. -/
def parseGreeting (payload : List UInt8) : Attempt (Nat × List UInt8 × Nat) := do
  let (protocol, rest) ← int 1 payload
  if protocol ≠ 10 then refuse .unsupportedServer
  else do
    let (version, rest) ← nulString rest
    checkVersion version
    let (connectionId, rest) ← int 4 rest
    let (nonceHead, rest) ← take 8 rest
    let (_, rest) ← int 1 rest
    let (low, rest) ← int 2 rest
    let (_, rest) ← int 1 rest -- charset
    let (_, rest) ← int 2 rest -- status
    let (high, rest) ← int 2 rest
    let (authDataLen, rest) ← int 1 rest
    let (_, rest) ← take 10 rest
    let capabilities := low ||| high <<< 16
    if capabilities &&& Capability.required ≠ Capability.required then
      refuse .unsupportedServer
    -- Part two holds the nonce's last 12 bytes and a NUL.
    else if authDataLen ≠ nonceLen + 1 then violation
    else do
      let (nonceTail, rest) ← take (nonceLen - 8 + 1) rest
      if nonceTail[nonceLen - 8]? ≠ some 0 then violation
      else do
        let (_, _) ← nulString rest
        .ok (capabilities, nonceHead ++ nonceTail.take (nonceLen - 8), connectionId)

def handleGreeting (self : Client) (payload : List UInt8) (room : Nat) :
    Attempt (Option Event × Client) :=
  if payload.head? = some 0xFF then do
    let err ← parseErr payload
    .ok (some (.err err), { self with state := .closed })
  else do
    let (capabilities, nonce, connectionId) ← parseGreeting payload
    let self := { self with nonce, connectionId }
    if self.options.transport ≠ .tcpTls then do
      let (event, self) ← self.writeResponse sha256 room
      .ok (some event, self)
    else if capabilities &&& Capability.ssl = 0 then refuse .tlsRefused
    else do
      let packet ← finish room self.sequence (loginPrefix self.options)
      .ok (some (.startTls packet), { self.sent with state := .tls })

def readGreeting (self : Client) (input : List UInt8) (room : Nat) : Attempt (Step × Client) :=
  self.withPacket input fun self payload => self.handleGreeting sha256 payload room

/-- AuthMoreData: the scramble matched a cached entry (3), or the server needs the password
itself (4). -/
def authMoreData (self : Client) (auth : Auth) (payload : List UInt8) (room : Nat) :
    Attempt (Option Event × Client) :=
  match payload with
  | [_, code] =>
    if code = 3 then if auth = .passwordSent then violation else .ok (none, self)
    else if code = 4 then
      if auth = .passwordSent then violation
      else if self.options.transport.secure = false then refuse .authMethodRefused
      else do
        let packet ← finish room self.sequence (self.options.password ++ [0])
        .ok (some (.send packet), { self.sent with state := .auth .passwordSent })
    else violation
  | _ => violation

/-- AuthSwitchRequest: accepted only for caching_sha2_password with a fresh nonce. -/
def authSwitch (self : Client) (auth : Auth) (payload : List UInt8) (room : Nat) :
    Attempt (Option Event × Client) :=
  if auth ≠ .scrambleSent then violation
  else do
    let (name, data) ← nulString (payload.drop 1)
    if name ≠ plugin then refuse .authMethodRefused
    else if data.length ≠ nonceLen + 1 ∨ data[nonceLen]? ≠ some 0 then violation
    else do
      let nonce := data.take nonceLen
      let packet ← finish room self.sequence
        (if self.options.password.length ≠ 0 then scramble sha256 self.options.password nonce
          else [])
      .ok (some (.send packet), { self.sent with nonce, state := .auth .switched })

def handleAuth (self : Client) (auth : Auth) (payload : List UInt8) (room : Nat) :
    Attempt (Option Event × Client) :=
  match payload.head? with
  | none => unreachable
  | some first =>
    if first = 0x00 then do
      let _ ← parseOk payload
      .ok (some .ready,
        { self with state := .ready, options := { self.options with password := [] } })
    else if first = 0xFF then do
      let err ← parseErr payload
      .ok (some (.err err), { self with state := .closed })
    else if first = 0x01 then self.authMoreData auth payload room
    else if first = 0xFE then self.authSwitch sha256 auth payload room
    else violation

def readAuth (self : Client) (auth : Auth) (input : List UInt8) (room : Nat) :
    Attempt (Step × Client) :=
  self.withPacket input fun self payload => self.handleAuth sha256 auth payload room

/-! ## Results -/

def handleResult (self : Client) (payload : List UInt8) : Attempt (Option Event × Client) :=
  match payload.head? with
  | none => unreachable
  | some first =>
    if first = 0x00 then do
      let ok ← parseOk payload
      .ok (some (.ok ok), if ok.status.moreResults then self else { self with state := .ready })
    else if first = 0xFF then do
      let err ← parseErr payload
      .ok (some (.err err), { self with state := .ready })
    -- 0xFB asks for a LOCAL INFILE, which the client never enables.
    else if first = 0xFB ∨ first = 0xFE then violation
    else do
      let (count, rest) ← lenenc payload
      if rest.length ≠ 0 ∨ count = 0 ∨ count > 0xFFFF then violation
      else .ok (some (.columns count), { self with columnCount := count, state := .columns count })

def readResult (self : Client) (input : List UInt8) : Attempt (Step × Client) :=
  self.withPacket input handleResult

def parseColumn (payload : List UInt8) : Attempt Column := do
  let (_, rest) ← lenencString payload -- catalog, schema, table, org_table
  let (_, rest) ← lenencString rest
  let (_, rest) ← lenencString rest
  let (_, rest) ← lenencString rest
  let (name, rest) ← lenencString rest
  let (_, rest) ← lenencString rest -- org_name
  let (fixed, rest) ← lenenc rest
  if fixed ≠ 0x0c then violation
  else do
    let (charset, rest) ← int 2 rest
    let (_, rest) ← int 4 rest -- display length
    let (type, rest) ← int 1 rest
    let (flags, rest) ← int 2 rest
    let (_, rest) ← take 3 rest -- decimals, filler
    if rest.length ≠ 0 then violation else .ok { name, type, flags, charset }

def handleColumn (self : Client) (left : Nat) (payload : List UInt8) :
    Attempt (Option Event × Client) := do
  let column ← parseColumn payload
  let left ← sub left 1
  .ok (some (.column column), { self with state := if left = 0 then .rows else .columns left })

def readColumn (self : Client) (left : Nat) (input : List UInt8) : Attempt (Step × Client) :=
  self.withPacket input fun self payload => self.handleColumn left payload

def handleRowsEnd (self : Client) (payload : List UInt8) : Attempt (Option Event × Client) := do
  let ok ← parseOk payload
  .ok (some (.rowsEnd ok.status),
    { self with state := if ok.status.moreResults then .result else .ready })

def handleRowsErr (self : Client) (payload : List UInt8) : Attempt (Option Event × Client) := do
  let err ← parseErr payload
  .ok (some (.err err), { self with state := .ready })

/-- A row's first byte is a value's length prefix, never 0xFE or 0xFF; those open the terminating
OK or an ERR. -/
def readRowStart (self : Client) (input : List UInt8) : Attempt (Step × Client) :=
  match input.drop headerLen with
  | [] => .ok (.more, self)
  | first :: _ => do
    let _ ← payloadLen input
    if first = 0xFE then self.withPacket input handleRowsEnd
    else if first = 0xFF then self.withPacket input handleRowsErr
    else do
      let (len, self) ← self.header input
      .ok (⟨headerLen, some .row⟩, { self with state := .row ⟨self.columnCount, len, 0⟩ })

/-- Stores the row's progress; after its last value the packet must end. -/
def advanceRow (self : Client) (row : Row) : Attempt Client :=
  if row.columnsLeft = 0 ∧ row.valueLeft = 0 then
    if row.packetLeft ≠ 0 then violation else .ok { self with state := .rows }
  else .ok { self with state := .row row }

/-- The next bytes of a value. -/
def readBytes (self : Client) (row : Row) (input : List UInt8) : Attempt (Step × Client) := do
  let n := min input.length row.valueLeft
  if n = 0 then .ok (.more, self)
  else do
    let valueLeft ← sub row.valueLeft n
    let packetLeft ← sub row.packetLeft n
    let self ← self.advanceRow { row with valueLeft, packetLeft }
    .ok (⟨n, some (.bytes (input.take n))⟩, self)

/-- A NULL takes one byte. -/
def readNull (self : Client) (row : Row) : Attempt (Step × Client) :=
  if row.packetLeft < 1 then violation
  else do
    let columnsLeft ← sub row.columnsLeft 1
    let self ← self.advanceRow { row with columnsLeft, packetLeft := row.packetLeft - 1 }
    .ok (⟨1, some (.value none)⟩, self)

/-- A value's length: a prefix of one byte is the length, longer ones say it after their first. -/
def valueLen (prefixLen : Nat) (input : List UInt8) : Nat :=
  if prefixLen = 1 then readInt (input.take 1) else readInt ((input.take prefixLen).drop 1)

/-- A value's length and how much of its packet is left behind it. -/
def readLength (self : Client) (row : Row) (input : List UInt8) (prefixLen : Nat) :
    Attempt (Step × Client) :=
  if prefixLen > row.packetLeft then violation
  else if input.length < prefixLen then .ok (.more, self)
  else do
    let len := valueLen prefixLen input
    let packetLeft ← sub row.packetLeft prefixLen
    if len > packetLeft then violation
    else do
      let columnsLeft ← sub row.columnsLeft 1
      let self ← self.advanceRow { columnsLeft, packetLeft, valueLeft := len }
      .ok (⟨prefixLen, some (.value (some len))⟩, self)

def readRow (self : Client) (row : Row) (input : List UInt8) : Attempt (Step × Client) :=
  if row.valueLeft > 0 then self.readBytes row input
  else
    match input with
    | [] => .ok (.more, self)
    | first :: _ =>
      if first = 0xFB then self.readNull row
      else if first = 0xFC then self.readLength row input 3
      else if first = 0xFD then self.readLength row input 4
      else if first = 0xFE ∨ first = 0xFF then violation
      else self.readLength row input 1

/-! ## Reading -/

/-- Consumes a prefix of `input` and returns at most one event. A step with no event and nothing
consumed needs more input than `input` holds. -/
def read (self : Client) (input : List UInt8) (room : Nat) : Attempt (Step × Client) :=
  if room < sendBufferMin then unreachable
  else
    match self.state with
    | .greeting => self.readGreeting sha256 input room
    | .tls => do
      let (event, self) ← self.writeResponse sha256 room
      .ok (⟨0, some event⟩, self)
    | .auth auth => self.readAuth sha256 auth input room
    | .result => self.readResult input
    | .columns left => self.readColumn left input
    | .rows => self.readRowStart input
    | .row row => self.readRow row input
    | .ready => unreachable
    | .closed => unreachable

/-- The prefix of a COM_QUERY whose statement text is `textLen` bytes, or none where the statement
is too large. -/
def query (self : Client) (textLen : Nat) : Attempt (Option (List UInt8 × Client)) :=
  if self.state ≠ .ready then unreachable
  else if textLen + 1 > maxPayload then .ok none
  else .ok (some (writeInt 3 (textLen + 1) ++ [0] ++ [0x03],
    { self with sequence := 1, state := .result }))

end Client

end Rui.Mysql
