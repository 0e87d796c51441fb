/-
A2PM/VmProtocol.lean

One connection between a VM (`controller/client.c`) and the controller
(`accept_new_client`, then `communication_thread`, of `controller/server.c`).

Each direction of the connection is the list of the bytes in transit.  `send`
appends its whole buffer to it; `recv` takes some piece from its front, not
longer than the caller asked for, and both programs go on with that piece as
if it were one message.  A side that `recv` reports an error to closes its
socket, or finds it broken, and sends nothing more.
-/
import A2PM.ControllerData
import A2PM.MessageStream
import A2PM.Transition

namespace A2PM.VmProtocol

open Controller Transition MessageStream

/-! ### Messages -/

/-- `BUFSIZE`. -/
abbrev bufsize : ℕ := 4096

abbrev Message := Block UInt8 bufsize

/-- A buffer after `bzero`. -/
def zeros : Message := fill bufsize 0

def characters (text : String) : List UInt8 := text.toList.map fun c => UInt8.ofNat c.toNat

/-- `bzero` and `sprintf`. -/
def message (text : String) : Message := receive zeros (characters text)

/-- `!strcmp(buffer, text)`. -/
def isText (buffer : Message) (text : String) : Bool :=
  buffer.val.takeWhile (· ≠ 0) = characters text

/-- `enum massage` of `commands.h`. -/
inductive Massage
  | waitingData | continueVm | rejuvenate | ready | startingRejuvenating
  deriving DecidableEq

def Massage.toByte : Massage → UInt8
  | .waitingData => 0
  | .continueVm => 1
  | .rejuvenate => 2
  | .ready => 3
  | .startingRejuvenating => 4

/-- `bzero` and `send_buff[0] = command`. -/
def command (c : Massage) : Message := receive zeros [c.toByte]

/-- The values of `enum vm_state`. -/
def stateCode : VmState → UInt32
  | .standBy => 0
  | .active => 1
  | .rejuvenating => 2

/-- An `int` in memory, on a little-endian machine. -/
def intBytes (n : UInt32) : List UInt8 :=
  [n.toUInt8, (n >>> 8).toUInt8, (n >>> 16).toUInt8, (n >>> 24).toUInt8]

/-- The size of `struct vm_service` in `client.c`. -/
abbrev infoSize : ℕ := 8

/-- The `struct vm_service` of `client.c`. -/
def serviceInfo (service : UInt32) (state : VmState) : Block UInt8 infoSize :=
  ⟨intBytes service ++ intBytes (stateCode state), rfl⟩

/-- The size of `struct vm_service` in `server.c`, which also has a
`provided_port`. -/
abbrev serverInfoSize : ℕ := 12

/-! ### The two sides -/

inductive ClientPhase
  /-- In `connect_to_server`, before its first `send`. -/
  | connected
  /-- In the `recv` of `connect_to_server`. -/
  | awaitingAnswer
  /-- In `connect_to_server`, asking for another service. -/
  | asking
  /-- In the loop of `main`, before `get_features`. -/
  | collecting
  /-- In the `recv` of `main`. -/
  | awaitingCommand
  | rebooting
  | stopped
  deriving DecidableEq

structure ClientSide where
  phase : ClientPhase
  service : UInt32
  state : VmState
  /-- The contents of `recv_buff` that `connect_to_server` acted on. -/
  answers : List Message
  /-- The contents of `recv_buff` that `main` acted on. -/
  commands : List Message
  /-- The features messages sent. -/
  features : List Message

inductive ServerPhase
  /-- In the first `recv` of `accept_new_client`. -/
  | awaitingInfo
  /-- At the top of its loop. -/
  | answering
  /-- In the `recv` in the loop. -/
  | awaitingInfoAgain
  /-- `communication_thread`, in its `recv`. -/
  | communicating
  /-- `communication_thread`, with features in `recv_buff`. -/
  | deciding
  /-- `communication_thread` of a VM that is not `ACTIVE`: it loops without
  reading. -/
  | idle
  | finished
  deriving DecidableEq

structure ServerSide where
  phase : ServerPhase
  /-- The local variable `s`. -/
  s : Block UInt8 serverInfoSize
  /-- `vm.last_system_features_stored`. -/
  stored : Bool
  /-- The answers sent. -/
  answers : List Message
  /-- The commands sent. -/
  commands : List Message
  /-- The contents of `recv_buff` processed as features. -/
  processed : List Message

structure Connection where
  client : ClientSide
  server : ServerSide
  toServer : List UInt8
  toClient : List UInt8

inductive Label
  | sendInfo
  | clientRecv (r : Received)
  /-- `scanf` returns a service. -/
  | askService (service : UInt32)
  /-- `get_features` has filled in `send_buff`. -/
  | sendFeatures (features : Message)
  | serverRecv (r : Received)
  | answer
  /-- The predicted time to crash is below `TTC_THRESHOLD`, or it is not. -/
  | command (belowThreshold : Bool)

namespace Connection

/-- The connection after `connect` and `accept`.  `s` is not initialised, and
`stored` is what the slot of the VM held before. -/
def initial (service : UInt32) (state : VmState) (s : Block UInt8 serverInfoSize)
    (stored : Bool) : Connection where
  client := ⟨.connected, service, state, [], [], []⟩
  server := ⟨.awaitingInfo, s, stored, [], [], []⟩
  toServer := []
  toClient := []

/-! ### The client -/

/-- `send(*sockfd, &s, sizeof(struct vm_service), 0)`. -/
def sendInfo (s : Connection) (service : UInt32) : Connection :=
  { s with
    client.phase := .awaitingAnswer
    client.service := service
    toServer := s.toServer ++ (serviceInfo service s.client.state).val }

/-- What the client does with the contents of `recv_buff`. -/
def act (s : Connection) (buffer : Message) : Option Connection :=
  match s.client.phase with
  | .awaitingAnswer => some { s with
      client.phase := if isText buffer "ok" then .collecting else .asking
      client.answers := s.client.answers ++ [buffer] }
  | .awaitingCommand => some { s with
      client.phase :=
        if buffer.val.head? = some Massage.rejuvenate.toByte then .rebooting else .collecting
      client.commands := s.client.commands ++ [buffer] }
  | _ => none

/-- `recv(sockfd, recv_buff, BUFSIZE, 0)` after `bzero`, and what follows. -/
def clientRecv (s : Connection) : Received → Option Connection
  | .piece n =>
      if 0 < n ∧ n ≤ bufsize ∧ n ≤ s.toClient.length then
        act { s with toClient := s.toClient.drop n } (receive zeros (s.toClient.take n))
      else none
  -- 0 is not tested: the client acts on the zeros
  | .endOfStream => if s.server.phase = .finished ∧ s.toClient = [] then act s zeros else none
  | .error =>
      if s.client.phase = .awaitingAnswer ∨ s.client.phase = .awaitingCommand then
        some { s with client.phase := .stopped }
      else none

/-- `get_features` and `send`. -/
def sendFeatures (s : Connection) (features : Message) : Connection :=
  { s with
    client.phase := .awaitingCommand
    client.features := s.client.features ++ [features]
    toServer := s.toServer ++ features.val }

/-! ### The controller -/

/-- `recv` of the controller: into `s` in `accept_new_client`, into
`recv_buff` in `communication_thread`. -/
def serverRecv (s : Connection) : Received → Option Connection
  | .piece n =>
      match s.server.phase with
      | .awaitingInfo | .awaitingInfoAgain =>
          if 0 < n ∧ n ≤ serverInfoSize ∧ n ≤ s.toServer.length then
            some { s with
              server.phase := .answering
              server.s := receive s.server.s (s.toServer.take n)
              toServer := s.toServer.drop n }
          else none
      | .communicating =>
          if 0 < n ∧ n ≤ bufsize ∧ n ≤ s.toServer.length then
            some { s with
              server.phase := .deciding
              server.processed := s.server.processed ++ [receive zeros (s.toServer.take n)]
              toServer := s.toServer.drop n }
          else none
      | _ => none
  | .endOfStream | .error =>
      match s.server.phase with
      | .awaitingInfo | .awaitingInfoAgain | .communicating =>
          some { s with server.phase := .finished }
      | _ => none

/-- The top of the loop of `accept_new_client`; with an existing service it
ends, and `communication_thread` starts. -/
def answer (s : Connection) : Connection :=
  if numberGroups ≤ readInt s.server.s 0 then
    { s with
      server.phase := .awaitingInfoAgain
      server.answers := s.server.answers ++ [message "groups"]
      toClient := s.toClient ++ (message "groups").val }
  else
    { s with
      server.phase :=
        if readInt s.server.s 4 = (stateCode .active).toNat then .communicating else .idle
      server.answers := s.server.answers ++ [message "ok"]
      toClient := s.toClient ++ (message "ok").val }

/-- `communication_thread` from `get_feature` on: `REJUVENATE` through
`switch_active_machine`, which needs two sets of features, or `CONTINUE`. -/
def sendCommand (s : Connection) (belowThreshold : Bool) : Connection :=
  let c := if s.server.stored && belowThreshold then Massage.rejuvenate else Massage.continueVm
  { s with
    server.phase := .communicating
    server.stored := true
    server.commands := s.server.commands ++ [VmProtocol.command c]
    toClient := s.toClient ++ (VmProtocol.command c).val }

/-- One step of either side. -/
def step (s : Connection) : Label → Option Connection
  | .sendInfo => if s.client.phase = .connected then some (s.sendInfo s.client.service) else none
  | .askService service => if s.client.phase = .asking then some (s.sendInfo service) else none
  | .clientRecv r => s.clientRecv r
  | .sendFeatures f => if s.client.phase = .collecting then some (s.sendFeatures f) else none
  | .serverRecv r => s.serverRecv r
  | .answer => if s.server.phase = .answering then some s.answer else none
  | .command b => if s.server.phase = .deciding then some (s.sendCommand b) else none

/-! ### The property -/

end Connection

/-! ### The invariant -/

/-- The messages in transit. -/
structure Transit where
  answers : List Message
  commands : List Message
  info : List (Block UInt8 infoSize)
  features : List Message

/-- In the handshake, with its request sent. -/
abbrev ClientPhase.Waiting (p : ClientPhase) : Prop := p = .awaitingAnswer ∨ p = .stopped

/-- Past the handshake. -/
abbrev ClientPhase.InMain (p : ClientPhase) : Prop :=
  p = .collecting ∨ p = .awaitingCommand ∨ p = .rebooting ∨ p = .stopped

/-- In the handshake, before the next request. -/
abbrev ServerPhase.Listening (q : ServerPhase) : Prop :=
  q = .awaitingInfo ∨ q = .awaitingInfoAgain ∨ q = .finished

/-- Past the handshake. -/
abbrev ServerPhase.Accepted (q : ServerPhase) : Prop :=
  q = .communicating ∨ q = .idle ∨ q = .finished

/-- The stages of a connection, and what can be in transit in each: the
handshake goes back and forth, so it has at most one message in transit. -/
inductive Stage : ClientPhase → ServerPhase → Transit → Prop
  | start {q : ServerPhase} (hq : q.Listening) : Stage .connected q ⟨[], [], [], []⟩
  | requested {p : ClientPhase} {q : ServerPhase} (hp : p.Waiting) (hq : q.Listening)
      (i : Block UInt8 infoSize) : Stage p q ⟨[], [], [i], []⟩
  | answering {p : ClientPhase} (hp : p.Waiting) : Stage p .answering ⟨[], [], [], []⟩
  | refused {p : ClientPhase} {q : ServerPhase} (hp : p.Waiting) (hq : q.Listening) (m : Message)
      (hm : isText m "ok" = false) : Stage p q ⟨[m], [], [], []⟩
  | asking {q : ServerPhase} (hq : q.Listening) : Stage .asking q ⟨[], [], [], []⟩
  | accepted {p : ClientPhase} {q : ServerPhase} (hp : p.Waiting) (hq : q.Accepted) (m : Message)
      (hm : isText m "ok" = true) : Stage p q ⟨[m], [], [], []⟩
  | main {p : ClientPhase} {q : ServerPhase} (hp : p.InMain) (hq : q.Accepted ∨ q = .deciding)
      (commands features : List Message) : Stage p q ⟨[], commands, [], features⟩

namespace Connection

/-- The connection with the messages of `t` in transit. -/
structure InTransit (s : Connection) (t : Transit) : Prop where
  stage : Stage s.client.phase s.server.phase t
  answers : s.server.answers = s.client.answers ++ t.answers
  commands : s.server.commands = s.client.commands ++ t.commands
  features : s.client.features = s.server.processed ++ t.features
  toClient : s.toClient = bytes t.answers ++ bytes t.commands
  toServer : s.toServer = bytes t.info ++ bytes t.features
  oneCommandEach : s.server.processed.length =
    s.server.commands.length + if s.server.phase = .deciding then 1 else 0

/-- The client's next whole message is the first one in transit. -/
theorem InTransit.head {s : Connection} {t : Transit} (h : s.InTransit t)
    (hle : bufsize ≤ s.toClient.length) :
    ∃ m rest, t.answers ++ t.commands = m :: rest ∧
      receive zeros (s.toClient.take bufsize) = m ∧ s.toClient.drop bufsize = bytes rest := by
  rw [h.toClient, ← bytes_append] at hle ⊢
  obtain ⟨m, rest, heq⟩ := exists_cons_of_le_length (by decide) hle
  refine ⟨m, rest, heq, ?_, ?_⟩
  · rw [heq, receive_bytes_cons]
  · rw [heq, drop_bytes_cons]

end Connection

end A2PM.VmProtocol
