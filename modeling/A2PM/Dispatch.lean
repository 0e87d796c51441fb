/-
A2PM/Dispatch.lean

The datagrams of `broadcast_loop` in `controller/broadcast.c`: `recvfrom`, the
search for the sender among the connections, and `call_function`.

The loop goes on after `recvfrom` has failed, and after the search has found
nothing.  The message is what `msg` holds then, the sender what `receiver`
holds, and the connection the one behind the last.  A round is as it should be
iff the sender is found and the message, if there is a callback for it, is
complete (`attempts_dispatched_iff`).
-/
import A2PM.Connections
import A2PM.Transition

namespace A2PM.Broadcast

open MachineInt MessageStream TextInput Transition
open Leader (Msg maxControllers)

/-! ### Messages and addresses -/

/-- `sizeof(msg_struct)`. -/
abbrev msgSize : ℕ := 24

/-- The unsigned number in `width` bytes at an offset, on a little-endian
machine. -/
def readWord (bytes : List UInt8) (offset width : ℕ) : ℕ :=
  ((bytes.drop offset).take width).foldr (fun b n => b.toNat + 256 * n) 0

/-- The bytes as a `msg_struct`. -/
def readMsg (bytes : List UInt8) : Msg where
  type := toInt (readWord bytes 0 4)
  size := readWord bytes 8 8
  payload := toLong (readWord bytes 16 8)

/-- `struct in_addr`. -/
structure InAddr where
  a : UInt8
  b : UInt8
  c : UInt8
  d : UInt8
  deriving DecidableEq

/-- `inet_ntoa`. -/
def inetNtoa (addr : InAddr) : List Char :=
  let group (b : UInt8) : List Char := Nat.toDigits 10 b.toNat
  group addr.a ++ '.' :: (group addr.b ++ '.' :: (group addr.c ++ '.' :: group addr.d))

/-- What `recvfrom` returns, and what is in `receiver` then. -/
inductive RecvFrom
  /-- A datagram, with its sender. -/
  | datagram (bytes : List UInt8) (receiver : InAddr)
  /-- -1.  `receiver` has not been set. -/
  | error (receiver : InAddr)

namespace RecvFrom

def receiver : RecvFrom → InAddr
  | .datagram _ receiver => receiver
  | .error receiver => receiver

/-- The bytes that go into `msg`; the rest of a longer datagram is lost. -/
def received : RecvFrom → List UInt8
  | .datagram bytes _ => bytes.take msgSize
  | .error _ => []

end RecvFrom

/-! ### One round -/

/-- A call of a callback. -/
structure Call where
  /-- The type that it is registered for. -/
  callback : ℤ
  sock : ℤ
  content : ℤ
  size : ℕ
  deriving DecidableEq

/-- `call_function`; the callbacks are known by their types. -/
def callFunction (sock : ℤ) (msg : Msg) : List ℤ → List Call
  | [] => []
  | type :: callbacks =>
      if msg.type = 0 then callFunction sock msg callbacks
      else if msg.type = type then [⟨type, sock, msg.payload, msg.size⟩]
      else callFunction sock msg callbacks

/-- The variables of `broadcast_loop` that a round reads. -/
structure Receiver where
  connections : ℕ → Connection
  lastControllerSocket : ℕ
  callbacks : List ℤ
  /-- `msg`, which keeps its contents from round to round. -/
  msg : Block UInt8 msgSize

/-- What a round does. -/
structure Round where
  /-- The connections that it reads. -/
  reads : List ℕ
  calls : List Call

namespace Receiver

/-- The search for the sender: its `i`. -/
def search (s : Receiver) (receiver : InAddr) : ℕ :=
  (List.range s.lastControllerSocket).findIdx fun i =>
    (s.connections i).host = inetNtoa receiver

/-- The message after `recvfrom`. -/
def message (s : Receiver) (r : RecvFrom) : Msg := readMsg (receive s.msg r.received).val

/-- What a round does when `recvfrom` has returned. -/
def round (s : Receiver) (r : RecvFrom) : Round :=
  let i := s.search r.receiver
  { reads := List.range (i + 1)
    calls := callFunction (s.connections i).socket (s.message r) s.callbacks }

/-- The variables after a round. -/
def step (s : Receiver) (r : RecvFrom) : Option Receiver :=
  let i := s.search r.receiver
  some { s with
    msg := receive s.msg r.received
    connections :=
      if i < s.lastControllerSocket then
        Function.update s.connections i { s.connections i with value := (s.message r).payload }
      else s.connections }

/-! ### The property -/

/-- A complete datagram from a controller: what it says, and the socket of the
controller. -/
def IsFrom (s : Receiver) (r : RecvFrom) (sock : ℤ) (msg : Msg) : Prop :=
  ∃ bytes sender, r = .datagram bytes sender ∧ msgSize ≤ bytes.length ∧
    msg = readMsg (bytes.take msgSize) ∧
    ∃ i < s.lastControllerSocket, (s.connections i).host = inetNtoa sender ∧
      sock = (s.connections i).socket

/-- **Dispatch of datagrams.** -/
structure Dispatched (s : Receiver) (r : RecvFrom) : Prop where
  once : (s.round r).calls.length ≤ 1
  complete : ∀ call ∈ (s.round r).calls,
    ∃ msg, s.IsFrom r call.sock msg ∧ call = ⟨msg.type, call.sock, msg.payload, msg.size⟩
  inTable : ∀ i ∈ (s.round r).reads, i < s.lastControllerSocket

/-- There is a callback for the message. -/
def Registered (s : Receiver) (msg : Msg) : Prop := msg.type ≠ 0 ∧ msg.type ∈ s.callbacks

instance (s : Receiver) (msg : Msg) : Decidable (s.Registered msg) :=
  inferInstanceAs (Decidable (_ ∧ _))

/-- What `receiver` holds is the address of a controller. -/
def Known (s : Receiver) (receiver : InAddr) : Prop :=
  ∃ i < s.lastControllerSocket, (s.connections i).host = inetNtoa receiver

/-- The sender is known, and a message with a callback is complete. -/
def Orderly (s : Receiver) (r : RecvFrom) : Prop :=
  s.Known r.receiver ∧
    ((∃ bytes sender, r = .datagram bytes sender ∧ msgSize ≤ bytes.length) ∨
      ¬ s.Registered (s.message r))

/-! ### Rounds -/

/-- `call_function` calls at most one callback. -/
theorem callFunction_eq (sock : ℤ) (msg : Msg) (callbacks : List ℤ) :
    callFunction sock msg callbacks =
      if msg.type ≠ 0 ∧ msg.type ∈ callbacks then [⟨msg.type, sock, msg.payload, msg.size⟩]
      else [] := by
  induction callbacks with
  | nil => exact (if_neg fun h => List.not_mem_nil h.2).symm
  | cons type callbacks ih =>
      rw [callFunction, ih]
      by_cases hzero : msg.type = 0
      · rw [if_pos hzero, if_neg fun h => h.1 hzero, if_neg fun h => h.1 hzero]
      · rw [if_neg hzero]
        by_cases htype : msg.type = type
        · rw [if_pos htype, if_pos ⟨hzero, htype ▸ List.mem_cons_self⟩, htype]
        · rw [if_neg htype]
          simp only [List.mem_cons, htype, false_or]

variable {s : Receiver} {r : RecvFrom}

theorem round_calls (s : Receiver) (r : RecvFrom) :
    (s.round r).calls =
      if s.Registered (s.message r) then
        [⟨(s.message r).type, (s.connections (s.search r.receiver)).socket, (s.message r).payload,
          (s.message r).size⟩]
      else [] := callFunction_eq ..

theorem findIdx_range_lt_iff (n : ℕ) (p : ℕ → Bool) :
    (List.range n).findIdx p < n ↔ ∃ i < n, p i = true := by
  have hlt : (List.range n).findIdx p < (List.range n).length ↔ ∃ i ∈ List.range n, p i = true :=
    List.findIdx_lt_length
  rw [List.length_range] at hlt
  simpa only [List.mem_range] using hlt

theorem of_findIdx_range {n : ℕ} {p : ℕ → Bool} (h : (List.range n).findIdx p < n) :
    p ((List.range n).findIdx p) = true := by
  have hlt : (List.range n).findIdx p < (List.range n).length := by rwa [List.length_range]
  have hfound := List.findIdx_getElem (w := hlt)
  rwa [List.getElem_range] at hfound

theorem search_lt_iff (s : Receiver) (receiver : InAddr) :
    s.search receiver < s.lastControllerSocket ↔ s.Known receiver := by
  rw [search, findIdx_range_lt_iff]
  simp only [decide_eq_true_eq]
  exact Iff.rfl

/-- The search ends at a connection to the sender. -/
theorem host_search {receiver : InAddr} (h : s.search receiver < s.lastControllerSocket) :
    (s.connections (s.search receiver)).host = inetNtoa receiver :=
  of_decide_eq_true (of_findIdx_range h)

/-- A round reads the connections up to where the search ends. -/
theorem reads_lt_iff (s : Receiver) (r : RecvFrom) :
    (∀ i ∈ (s.round r).reads, i < s.lastControllerSocket) ↔ s.Known r.receiver := by
  rw [← search_lt_iff]
  constructor
  · exact fun h => h _ (List.mem_range.mpr (Nat.lt_succ_self _))
  · exact fun h i hi => Nat.lt_of_le_of_lt (Nat.le_of_lt_succ (List.mem_range.mp hi)) h

/-- A complete datagram is the message. -/
theorem message_datagram {bytes : List UInt8} (h : msgSize ≤ bytes.length) (s : Receiver)
    (sender : InAddr) : s.message (.datagram bytes sender) = readMsg (bytes.take msgSize) := by
  rw [message]
  congr 1
  exact receive_of_length_eq (List.length_take_of_le h)

/-- Where the sender is known, it is the message that decides. -/
theorem isFrom_of_complete {bytes : List UInt8} {sender : InAddr} (h : msgSize ≤ bytes.length)
    (hknown : s.Known sender) :
    s.IsFrom (.datagram bytes sender) (s.connections (s.search sender)).socket
      (s.message (.datagram bytes sender)) := by
  have hlt := (search_lt_iff s sender).mpr hknown
  exact ⟨bytes, sender, rfl, h, message_datagram h s sender, _, hlt, host_search hlt, rfl⟩

theorem dispatched_iff (s : Receiver) (r : RecvFrom) : s.Dispatched r ↔ s.Orderly r := by
  constructor
  · intro h
    refine ⟨(reads_lt_iff s r).mp h.inTable, ?_⟩
    by_cases hregistered : s.Registered (s.message r)
    · have hcomplete := h.complete
      rw [round_calls, if_pos hregistered, List.forall_mem_singleton] at hcomplete
      obtain ⟨msg, ⟨bytes, sender, hr, hlength, -⟩, -⟩ := hcomplete
      exact .inl ⟨bytes, sender, hr, hlength⟩
    · exact .inr hregistered
  · rintro ⟨hknown, hcomplete⟩
    refine ⟨?_, ?_, (reads_lt_iff s r).mpr hknown⟩
    · rw [round_calls]
      split <;> simp
    · rw [round_calls]
      split
      next hregistered =>
          rw [List.forall_mem_singleton]
          rcases hcomplete with ⟨bytes, sender, rfl, hlength⟩ | hnone
          · exact ⟨_, isFrom_of_complete hlength hknown, rfl⟩
          · exact absurd hregistered hnone
      next => exact List.forall_mem_nil _

/-- **Dispatch of datagrams.**  Whatever `recvfrom` returns in turn, and whatever
`msg` holds at first, all rounds are as they should be iff they are orderly. -/
theorem attempts_dispatched_iff (s : Receiver) (rs : List RecvFrom) :
    Attempts step Dispatched s rs ↔ Attempts step Orderly s rs :=
  attempts_congr (I := fun _ => True) (fun _ _ _ _ _ _ => trivial)
    (fun s r _ => dispatched_iff s r) trivial

/-- The controller 10.0.0.1 is the only one, and has not been heard of. -/
def oneController : Receiver where
  connections := Function.update Connections.initial.connections 0
    ⟨receive (fill 16 nul) firstAddress, 3, 0⟩
  lastControllerSocket := 1
  callbacks := [Leader.leaderHeartbeat, Leader.leaderPropose]
  msg := fill msgSize 0

/-- A heartbeat, from 10.0.0.2. -/
def strayHeartbeat : RecvFrom :=
  .datagram (0x20 :: 0x4e :: List.replicate 22 0) ⟨10, 0, 0, 2⟩

/-- The connection behind the last is read for it. -/
theorem stray_not_dispatched : ¬ Attempts step Dispatched oneController [strayHeartbeat] := by
  intro hall
  obtain ⟨i, hi, hhost⟩ := (reads_lt_iff _ _).mp hall.1.inTable
  obtain rfl := Nat.lt_one_iff.mp hi
  exact absurd hhost (by decide)

end Receiver

end A2PM.Broadcast
