/-
A2PM/Handshake.lean

One call of `accept_new_client` (`controller/server.c`): the handshake with
its retry loop, the registration of the VM and the start of its thread.

A client is the outcomes of the calls of `recv` and `send` on the accepted
socket, indexed by the iteration of the loop: iteration `k` does `send k` and
then `recv (k + 1)`, and `recv 0` is the call before the loop.  Once the
socket is closed, both calls fail on its descriptor.  The two mutexes are
taken to be granted.

No failure is cleaned up after.  Main results: a call registers the VM
completely or leaves no trace iff the client stays quiet until a record with
an existing service, and then `ok` is sent whole and the thread is created, or
the client is lost before its first record (`allOrNothing_iff`); the loop ends
iff the client sends no record or one with an existing service
(`handshake_ends_iff`), because losing the client does not leave it.  The
accept loop of `main` serves a queue iff each of its handshakes ends
(`acceptLoop_serves_iff`).
-/
import A2PM.ControllerData
import A2PM.FuelLoop

namespace A2PM.Controller.Handshake

open FuelLoop

/-- `BUFSIZE`. -/
def bufsize : ℕ := 4096

/-! ### The client -/

/-- `struct vm_service` as `recv` fills it in: the service may be any
`unsigned int`. -/
structure ServiceRecord where
  service : UInt32
  state : VmState
  providedPort : ℤ

/-- `s.service < NUMBER_GROUPS`. -/
def ServiceRecord.Exists (s : ServiceRecord) : Prop := s.service.toNat < numberGroups

instance (s : ServiceRecord) : Decidable s.Exists := inferInstanceAs (Decidable (_ < _))

/-- The outcome of `recv(socket, &s, sizeof(struct vm_service), 0)`. -/
inductive Received
  /-- `s` holds this record afterwards. -/
  | record (s : ServiceRecord)
  /-- 0 bytes. -/
  | disconnected
  /-- -1 with `EAGAIN` or `EWOULDBLOCK`. -/
  | timeout
  /-- -1 with another error. -/
  | failed

/-- The outcome of `send(socket, buffer, BUFSIZE, 0)`. -/
inductive Sent
  | bytes (n : ℕ)
  | failed
  deriving DecidableEq

/-- What the calls on the socket do while it is open. -/
structure Client where
  recv : ℕ → Received
  send : ℕ → Sent

/-! ### The loop -/

/-- The local variable `s` and the socket; `closes` counts the calls of
`close` on it. -/
structure Conversation where
  s : ServiceRecord
  isOpen : Bool
  closes : ℕ

namespace Conversation

variable (client : Client) (k : ℕ) (c : Conversation)

/-- `close(socket)`. -/
def close : Conversation := { c with isOpen := false, closes := c.closes + 1 }

/-- The text in `buffer`. -/
def answer : String := if c.s.Exists then "ok" else "groups"

/-- The outcome of the `send` in the loop. -/
def sendOutcome : Sent := if c.isOpen then client.send k else .failed

/-- The `send` in the loop, which closes the socket on every error. -/
def afterSend : Conversation := if c.sendOutcome client k = .failed then c.close else c

/-- The outcome of the `recv` in the loop. -/
def recvOutcome : Received := if c.isOpen then client.recv (k + 1) else .failed

/-- The `recv` in the loop.  An error other than a timeout leaves the socket
as it is, and every error leaves `s` as it is. -/
def afterRecv : Conversation :=
  match c.recvOutcome client k with
  | .record s => { c with s := s }
  | .disconnected | .timeout => c.close
  | .failed => c

end Conversation

/-- Iteration `k` of the loop: it leaves with the outcome of the `send` when
the text sent was `ok`. -/
def iteration (client : Client) (k : ℕ) (c : Conversation) :
    Conversation ⊕ Conversation × Sent :=
  let c' := c.afterSend client k
  -- `break` depends on the text, not on what became of sending it
  if c.answer = "ok" then .inr (c', c.sendOutcome client k)
  else .inl (c'.afterRecv client k)

/-- What the handshake comes to. -/
inductive Outcome
  /-- The call returns before the loop. -/
  | givenUp (isOpen : Bool) (closes : ℕ)
  /-- The loop is left, after this outcome of sending `ok`. -/
  | accepted (c : Conversation) (ok : Sent)

/-- `accept_new_client` up to the end of its loop. -/
def handshake (client : Client) (fuel : ℕ) : Option Outcome :=
  match client.recv 0 with
  | .failed => some (.givenUp true 0)
  | .disconnected | .timeout => some (.givenUp false 1)
  | .record s => (run (iteration client) fuel 0 ⟨s, true, 0⟩).map fun r => .accepted r.1 r.2

/-! ### The registration -/

/-- What a call finds besides its client: the accepted connection, the memory
that `realloc` adds, whether `pthread_create` succeeds, and whether another
thread holds `manage_vm_mutex` then. -/
structure Circumstances where
  socket : ℤ
  ip : String
  port : ℕ
  fresh : ℕ → VmData
  created : Bool
  otherHolds : Bool

/-- What a call leaves behind. -/
structure Result where
  registry : Registry
  isOpen : Bool
  closes : ℕ
  /-- The outcome of sending `ok`. -/
  ok : Option Sent
  /-- The record that the balancer is to be sent. -/
  posted : Option VirtualMachine
  /-- The argument of the communication thread. -/
  thread : Option VmData
  /-- `manage_vm_mutex` was released while another thread held it. -/
  releasedForOther : Bool

/-- `accept_new_client` after the loop; `none` where it leaves `vm_data_set`
or the block of a group. -/
def registration (env : Circumstances) (c : Conversation) (ok : Sent) (reg : Registry) :
    Option Result :=
  if h : c.s.Exists then
    let s : VmService := ⟨⟨c.s.service.toNat, h⟩, c.s.state, c.s.providedPort⟩
    (register env.fresh s env.ip env.socket env.port reg).bind fun r =>
      ((r.1 s.service).cells[r.2]?).map fun vm =>
        { registry := r.1
          isOpen := c.isOpen
          closes := c.closes
          ok := some ok
          posted := if s.state = .active then some (notification vm .add) else none
          thread := if env.created then some vm else none
          -- the error branch unlocks it also when this call did not lock it
          releasedForOther := !env.created && s.state != .active && env.otherHolds }
  else none

/-- `accept_new_client`. -/
def acceptNewClient (env : Circumstances) (client : Client) (fuel : ℕ) (reg : Registry) :
    Option Result :=
  (handshake client fuel).bind fun
    | .givenUp isOpen closes => some ⟨reg, isOpen, closes, none, none, none, false⟩
    | .accepted c ok => registration env c ok reg

/-! ### All or nothing -/

/-- One new entry of an existing service, whose socket is open and was sent
`ok` whole, and the thread for it. -/
def Registered (env : Circumstances) (reg : Registry) (r : Result) : Prop :=
  ∃ vm : VmData,
    (∀ g, (r.registry g).live =
      (reg g).live ++ if g = vm.serviceInfo.service then [vm] else []) ∧
    vm.socket = env.socket ∧ r.isOpen = true ∧ r.ok = some (.bytes bufsize) ∧ r.thread = some vm

/-- No trace of the client. -/
structure Untouched (reg : Registry) (r : Result) : Prop where
  registry : r.registry = reg
  posted : r.posted = none
  releasedForOther : r.releasedForOther = false
  closes : r.closes = 1

/-- The call ends, with one or the other. -/
def AllOrNothing (env : Circumstances) (client : Client) (reg : Registry) : Prop :=
  ∃ fuel r, acceptNewClient env client fuel reg = some r ∧
    (Registered env reg r ∨ Untouched reg r)

/-- Up to iteration `n` nothing closes the socket or leaves the loop. -/
structure Client.Quiet (client : Client) (n : ℕ) : Prop where
  first : ∃ s, client.recv 0 = .record s
  refused : ∀ k < n, ∀ s, client.recv k = .record s → ¬ s.Exists
  received : ∀ k ≤ n, client.recv k ≠ .disconnected ∧ client.recv k ≠ .timeout
  sent : ∀ k < n, client.send k ≠ .failed

/-- The client is quiet until it sends a record with an existing service, and
takes the whole answer. -/
def Client.Completes (client : Client) : Prop :=
  ∃ n s, client.Quiet n ∧ client.recv n = .record s ∧ s.Exists ∧
    client.send n = .bytes bufsize

/-- The client is lost before its first record. -/
def Client.LostAtOnce (client : Client) : Prop :=
  client.recv 0 = .disconnected ∨ client.recv 0 = .timeout

/-! ### One iteration -/

theorem Conversation.answer_eq_ok {c : Conversation} : c.answer = "ok" ↔ c.s.Exists := by
  unfold answer
  split <;> simp_all

theorem iteration_exists {client : Client} {k : ℕ} {c : Conversation} (h : c.s.Exists) :
    iteration client k c = .inr (c.afterSend client k, c.sendOutcome client k) :=
  if_pos (Conversation.answer_eq_ok.mpr h)

theorem iteration_refused {client : Client} {k : ℕ} {c : Conversation} (h : ¬ c.s.Exists) :
    iteration client k c = .inl ((c.afterSend client k).afterRecv client k) :=
  if_neg fun hok => h (Conversation.answer_eq_ok.mp hok)

theorem exists_of_iteration {client : Client} {k : ℕ} {c c' : Conversation} {ok : Sent}
    (h : iteration client k c = .inr (c', ok)) :
    c.s.Exists ∧ c' = c.afterSend client k ∧ ok = c.sendOutcome client k := by
  by_cases he : c.s.Exists
  · rw [iteration_exists he] at h
    obtain ⟨rfl, rfl⟩ := Prod.mk.inj (Sum.inr.inj h)
    exact ⟨he, rfl, rfl⟩
  · rw [iteration_refused he] at h
    cases h

theorem refused_of_iteration {client : Client} {k : ℕ} {c c' : Conversation}
    (h : iteration client k c = .inl c') :
    ¬ c.s.Exists ∧ c' = (c.afterSend client k).afterRecv client k := by
  by_cases he : c.s.Exists
  · rw [iteration_exists he] at h
    cases h
  · rw [iteration_refused he] at h
    exact ⟨he, (Sum.inl.inj h).symm⟩

/-- The `send` changes the socket only. -/
theorem Conversation.s_afterSend (client : Client) (k : ℕ) (c : Conversation) :
    (c.afterSend client k).s = c.s := by
  unfold afterSend
  split <;> rfl

/-- A `send` that leaves the socket open found it open and did not fail. -/
theorem Conversation.afterSend_isOpen {client : Client} {k : ℕ} {c : Conversation}
    (h : (c.afterSend client k).isOpen = true) :
    c.isOpen = true ∧ client.send k ≠ .failed ∧ c.afterSend client k = c ∧
      c.sendOutcome client k = client.send k := by
  by_cases hsend : c.sendOutcome client k = .failed
  · rw [afterSend, if_pos hsend] at h
    cases h
  · have hc : c.afterSend client k = c := if_neg hsend
    have hopen : c.isOpen = true := hc ▸ h
    rw [sendOutcome, if_pos hopen] at hsend ⊢
    exact ⟨hopen, hsend, hc, rfl⟩

/-- A `send` that does not fail on an open socket changes nothing. -/
theorem Conversation.afterSend_eq {client : Client} {k : ℕ} {c : Conversation}
    (hopen : c.isOpen = true) (hsend : client.send k ≠ .failed) :
    c.afterSend client k = c ∧ c.sendOutcome client k = client.send k := by
  have h : c.sendOutcome client k = client.send k := if_pos hopen
  exact ⟨if_neg (h ▸ hsend), h⟩

/-- A `recv` that leaves the socket open found it open, and neither the end
of the stream nor a timeout. -/
theorem Conversation.afterRecv_isOpen {client : Client} {k : ℕ} {c : Conversation}
    (h : (c.afterRecv client k).isOpen = true) :
    c.isOpen = true ∧ client.recv (k + 1) ≠ .disconnected ∧ client.recv (k + 1) ≠ .timeout := by
  cases hopen : c.isOpen with
  | false => simp [afterRecv, recvOutcome, hopen] at h
  | true =>
      refine ⟨rfl, fun hr => ?_, fun hr => ?_⟩ <;>
        simp [afterRecv, recvOutcome, hopen, hr, close] at h

/-- On an open socket `recv` takes the record that comes, and otherwise keeps
the one there was. -/
theorem Conversation.afterRecv_record {client : Client} {k : ℕ} {c : Conversation}
    {s : ServiceRecord} (hopen : c.isOpen = true) (hr : client.recv (k + 1) = .record s) :
    c.afterRecv client k = { c with s := s } := by
  simp [afterRecv, recvOutcome, hopen, hr]

theorem Conversation.afterRecv_failed {client : Client} {k : ℕ} {c : Conversation}
    (hr : client.recv (k + 1) = .failed) : c.afterRecv client k = c := by
  simp [afterRecv, recvOutcome, hr]

/-- On a closed socket `recv` changes nothing. -/
theorem Conversation.afterRecv_closed {client : Client} {k : ℕ} {c : Conversation}
    (hopen : c.isOpen = false) : c.afterRecv client k = c := by
  simp [afterRecv, recvOutcome, hopen]

/-- `s` is what `recv` took last. -/
theorem Conversation.s_afterRecv (client : Client) (k : ℕ) (c : Conversation) :
    (c.afterRecv client k).s = c.s ∨
      client.recv (k + 1) = .record (c.afterRecv client k).s := by
  cases hopen : c.isOpen with
  | false => exact .inl (congrArg Conversation.s (afterRecv_closed hopen))
  | true =>
      cases hr : client.recv (k + 1) with
      | record s =>
          rw [afterRecv_record hopen hr]
          exact .inr rfl
      | disconnected | timeout | failed =>
          exact .inl (by simp [afterRecv, recvOutcome, hopen, hr, close])

/-! ### The loop on an open socket -/

/-- `s` holds the record of iteration `k`; where the `recv` before it failed,
it holds one that was refused before. -/
structure Current (client : Client) (k : ℕ) (s : ServiceRecord) : Prop where
  record : ∀ s', client.recv k = .record s' → s = s'
  older : (∀ s', client.recv k ≠ .record s') → ¬ s.Exists

theorem Current.recv_eq {client : Client} {k : ℕ} {s : ServiceRecord} (h : Current client k s)
    (he : s.Exists) : client.recv k = .record s := by
  by_contra hne
  refine h.older (fun s' hs' => ?_) he
  exact hne (h.record s' hs' ▸ hs')

theorem current_first {client : Client} {s : ServiceRecord} (h : client.recv 0 = .record s) :
    Current client 0 s where
  record _ hs := Received.record.inj (h.symm.trans hs)
  older hne := absurd h (hne s)

/-- What the `recv` of iteration `k` leaves in `s`, on an open socket that
stays open. -/
theorem Current.afterRecv {client : Client} {k : ℕ} {c : Conversation} (hopen : c.isOpen = true)
    (hrefused : ¬ c.s.Exists)
    (hrecv : client.recv (k + 1) ≠ .disconnected ∧ client.recv (k + 1) ≠ .timeout) :
    (c.afterRecv client k).isOpen = true ∧
      Current client (k + 1) (c.afterRecv client k).s := by
  cases hr : client.recv (k + 1) with
  | record s =>
      rw [Conversation.afterRecv_record hopen hr]
      exact ⟨hopen, fun _ hs => Received.record.inj (hr.symm.trans hs),
        fun hne => absurd hr (hne s)⟩
  | disconnected => exact absurd hr hrecv.1
  | timeout => exact absurd hr hrecv.2
  | failed =>
      rw [Conversation.afterRecv_failed hr]
      exact ⟨hopen, fun _ hs => Received.noConfusion (hr.symm.trans hs), fun _ => hrefused⟩

theorem Client.Quiet.zero {client : Client} {s : ServiceRecord} (h : client.recv 0 = .record s) :
    client.Quiet 0 where
  first := ⟨s, h⟩
  refused k hk := absurd hk (Nat.not_lt_zero k)
  received k hk := by
    obtain rfl : k = 0 := Nat.le_zero.mp hk
    rw [h]
    exact ⟨nofun, nofun⟩
  sent k hk := absurd hk (Nat.not_lt_zero k)

theorem Client.Quiet.succ {client : Client} {n : ℕ} (h : client.Quiet n)
    (hrefused : ∀ s, client.recv n = .record s → ¬ s.Exists) (hsent : client.send n ≠ .failed)
    (hrecv : client.recv (n + 1) ≠ .disconnected ∧ client.recv (n + 1) ≠ .timeout) :
    client.Quiet (n + 1) where
  first := h.first
  refused k hk := by
    rcases Nat.lt_succ_iff_lt_or_eq.mp hk with hk | rfl
    · exact h.refused k hk
    · exact hrefused
  received k hk := by
    rcases Nat.le_succ_iff.mp hk with hk | rfl
    · exact h.received k hk
    · exact hrecv
  sent k hk := by
    rcases Nat.lt_succ_iff_lt_or_eq.mp hk with hk | rfl
    · exact h.sent k hk
    · exact hsent

/-- A loop left with the socket open was quiet before. -/
theorem quiet_of_run {client : Client} {s : ServiceRecord} (h : client.recv 0 = .record s)
    {fuel : ℕ} {r : Conversation × Sent}
    (hr : run (iteration client) fuel 0 ⟨s, true, 0⟩ = some r) :
    r.1.s.Exists ∧ (r.1.isOpen = true → ∃ n, client.Quiet n ∧
      client.recv n = .record r.1.s ∧ client.send n = r.2) := by
  -- nothing opens the socket again, so the invariant may be about an open one
  refine run_inv
    (fun k (c : Conversation) => c.isOpen = true → client.Quiet k ∧ Current client k c.s)
    (fun r => r.1.s.Exists ∧ (r.1.isOpen = true → ∃ n, client.Quiet n ∧
      client.recv n = .record r.1.s ∧ client.send n = r.2))
    ?_ ?_ (fun _ => ⟨Client.Quiet.zero h, current_first h⟩) hr
  · intro k c c' hinv hc hopen'
    obtain ⟨hrefused, rfl⟩ := refused_of_iteration hc
    obtain ⟨hopen, hrecv⟩ := Conversation.afterRecv_isOpen hopen'
    obtain ⟨hopen, hsend, heq, -⟩ := Conversation.afterSend_isOpen hopen
    obtain ⟨hquiet, hcurrent⟩ := hinv hopen
    rw [heq]
    refine ⟨hquiet.succ (fun s hs => ?_) hsend hrecv, (Current.afterRecv hopen hrefused hrecv).2⟩
    exact hcurrent.record s hs ▸ hrefused
  · rintro k c ⟨c', ok⟩ hinv hc
    obtain ⟨he, rfl, rfl⟩ := exists_of_iteration hc
    refine ⟨(Conversation.s_afterSend client k c).symm ▸ he, fun hopen' => ?_⟩
    obtain ⟨hopen, -, heq, hsend⟩ := Conversation.afterSend_isOpen hopen'
    obtain ⟨hquiet, hcurrent⟩ := hinv hopen
    refine ⟨k, hquiet, ?_, hsend.symm⟩
    show client.recv k = .record (c.afterSend client k).s
    rw [heq]
    exact hcurrent.recv_eq he

/-- A quiet client gets to the answer to its first record with an existing
service. -/
theorem exists_run_of_quiet {client : Client} {s₀ s : ServiceRecord} {n : ℕ}
    (h₀ : client.recv 0 = .record s₀) (hquiet : client.Quiet n)
    (hs : client.recv n = .record s) (he : s.Exists) :
    ∃ fuel r, run (iteration client) fuel 0 ⟨s₀, true, 0⟩ = some r ∧ r.1.s.Exists ∧
      (client.send n ≠ .failed → r.1.isOpen = true ∧ r.2 = client.send n) := by
  refine exists_run (fun k (c : Conversation) => c.isOpen = true ∧ Current client k c.s)
    (fun k c hk hinv => ?_) (fun c hinv => ?_) (Nat.zero_le n) ⟨rfl, current_first h₀⟩
  · obtain ⟨hopen, hcurrent⟩ := hinv
    -- an existing service in `s` would be that of record `k`
    have hrefused : ¬ c.s.Exists := fun hexists =>
      hquiet.refused k hk _ (hcurrent.recv_eq hexists) hexists
    refine ⟨_, iteration_refused hrefused, ?_⟩
    rw [(Conversation.afterSend_eq hopen (hquiet.sent k hk)).1]
    exact Current.afterRecv hopen hrefused (hquiet.received (k + 1) hk)
  · obtain ⟨hopen, hcurrent⟩ := hinv
    have hexists : c.s.Exists := (hcurrent.record s hs).symm ▸ he
    refine ⟨_, iteration_exists hexists, ?_, fun hsend => ?_⟩
    · exact (Conversation.s_afterSend client n c).symm ▸ hexists
    · obtain ⟨heq, hout⟩ := Conversation.afterSend_eq hopen hsend
      exact ⟨heq.symm ▸ hopen, hout⟩

/-! ### The whole call -/

theorem handshake_record {client : Client} {s : ServiceRecord} (h : client.recv 0 = .record s)
    (fuel : ℕ) :
    handshake client fuel =
      (run (iteration client) fuel 0 ⟨s, true, 0⟩).map fun r => .accepted r.1 r.2 := by
  rw [handshake, h]

/-- The registration of an existing service adds one entry, on the socket as
it is, and starts the thread for it if it can. -/
theorem registration_spec {reg : Registry} (hreg : reg.Wf) (env : Circumstances)
    {c : Conversation} (he : c.s.Exists) (ok : Sent) :
    ∃ r, ∃ vm : VmData, registration env c ok reg = some r ∧ r.registry.Wf ∧
      (∀ g, (r.registry g).live =
        (reg g).live ++ if g = vm.serviceInfo.service then [vm] else []) ∧
      vm.socket = env.socket ∧ r.isOpen = c.isOpen ∧ r.ok = some ok ∧
      r.thread = if env.created then some vm else none := by
  let s : VmService := ⟨⟨c.s.service.toNat, he⟩, c.s.state, c.s.providedPort⟩
  obtain ⟨reg', i, slot, hregister, hwf, hcell, hlive, -⟩ :=
    register_spec hreg env.fresh s env.ip env.socket env.port
  have hr : ∃ r, registration env c ok reg = some r ∧ r.registry = reg' ∧
      r.isOpen = c.isOpen ∧ r.ok = some ok ∧ r.thread =
        if env.created then some (fillSlot s env.ip env.socket env.port slot) else none := by
    rw [registration, dif_pos he]
    show ∃ r, (register env.fresh s env.ip env.socket env.port reg).bind _ = some r ∧ _
    rw [hregister, Option.bind_some, hcell]
    exact ⟨_, rfl, rfl, rfl, rfl, rfl⟩
  obtain ⟨r, hr, rfl, hfields⟩ := hr
  exact ⟨r, fillSlot s env.ip env.socket env.port slot, hr, hwf, hlive, rfl, hfields⟩

/-- A new entry is a trace. -/
theorem registry_ne {reg reg' : Registry} {vm : VmData}
    (h : ∀ g, (reg' g).live =
      (reg g).live ++ if g = vm.serviceInfo.service then [vm] else []) : reg' ≠ reg := by
  rintro rfl
  have hlive := h vm.serviceInfo.service
  rw [if_pos rfl] at hlive
  exact List.cons_ne_nil vm [] (List.self_eq_append_right.mp hlive)

theorem allOrNothing_of_lostAtOnce {client : Client} (h : client.LostAtOnce)
    (env : Circumstances) (reg : Registry) : AllOrNothing env client reg := by
  have hlost : handshake client 0 = some (.givenUp false 1) := by
    rcases h with hrecv | hrecv <;> rw [handshake, hrecv]
  refine ⟨0, ⟨reg, false, 1, none, none, none, false⟩, ?_, .inr ⟨rfl, rfl, rfl, rfl⟩⟩
  rw [acceptNewClient, hlost]
  rfl

theorem allOrNothing_of_completes {reg : Registry} (hreg : reg.Wf) {env : Circumstances}
    {client : Client} (h : client.Completes) (hcreated : env.created = true) :
    AllOrNothing env client reg := by
  obtain ⟨n, s, hquiet, hs, he, hsend⟩ := h
  obtain ⟨s₀, h₀⟩ := hquiet.first
  obtain ⟨fuel, ⟨c, ok⟩, hrun, he', hopen⟩ := exists_run_of_quiet h₀ hquiet hs he
  obtain ⟨hopen, hok⟩ := hopen (by rw [hsend]; nofun)
  obtain ⟨r, vm, hr, -, hlive, hsocket, hisOpen, hok', hthread⟩ :=
    registration_spec hreg env he' ok
  refine ⟨fuel, r, ?_, .inl ⟨vm, hlive, hsocket, hisOpen.trans hopen, ?_, ?_⟩⟩
  · rw [acceptNewClient, handshake_record h₀, hrun]
    exact hr
  · rw [hok', ← hsend]
    exact congrArg some hok
  · rw [hthread, if_pos hcreated]

/-- A call that gets as far as the loop leaves a trace; if the trace is that
of a registration, the handshake was completed and the thread created. -/
theorem completes_of_accepted {reg : Registry} (hreg : reg.Wf) {env : Circumstances}
    {client : Client} {s : ServiceRecord} (hrecv : client.recv 0 = .record s) {fuel : ℕ}
    {r : Result} (hr : acceptNewClient env client fuel reg = some r)
    (h : Registered env reg r ∨ Untouched reg r) : client.Completes ∧ env.created = true := by
  obtain ⟨o, ho, hr⟩ := Option.bind_eq_some_iff.mp hr
  rw [handshake_record hrecv] at ho
  obtain ⟨⟨c, ok⟩, hrun, rfl⟩ := Option.map_eq_some_iff.mp ho
  obtain ⟨he, hopen⟩ := quiet_of_run hrecv hrun
  obtain ⟨r', vm, hr', -, hlive, -, hisOpen, hok, hthread⟩ := registration_spec hreg env he ok
  obtain rfl : r' = r := Option.some.inj (hr'.symm.trans hr)
  rcases h with ⟨vm', -, -, hisOpen', hok', hthread'⟩ | h
  · obtain ⟨n, hquiet, hs, hsend⟩ := hopen (hisOpen.symm.trans hisOpen')
    have hall : ok = .bytes bufsize := Option.some.inj (hok.symm.trans hok')
    refine ⟨⟨n, c.s, hquiet, hs, he, hsend.trans hall⟩, ?_⟩
    by_contra hcreated
    rw [if_neg hcreated] at hthread
    cases hthread.symm.trans hthread'
  · exact absurd h.registry (registry_ne hlive)

/-- **All or nothing.**  A call registers the VM completely or leaves no trace
iff the client is lost before its first record, or completes the handshake
and gets its thread. -/
theorem allOrNothing_iff {reg : Registry} (hreg : reg.Wf) (env : Circumstances)
    (client : Client) :
    AllOrNothing env client reg ↔
      client.LostAtOnce ∨ client.Completes ∧ env.created = true := by
  constructor
  · rintro ⟨fuel, r, hr, h⟩
    cases hrecv : client.recv 0 with
    | disconnected => exact .inl (.inl hrecv)
    | timeout => exact .inl (.inr hrecv)
    | record s => exact .inr (completes_of_accepted hreg hrecv hr h)
    | failed =>
        -- the call returns with the socket open
        obtain ⟨o, ho, hr⟩ := Option.bind_eq_some_iff.mp hr
        rw [handshake, hrecv] at ho
        cases ho
        cases hr
        rcases h with ⟨vm, -, -, -, hok, -⟩ | h
        · cases hok
        · cases h.closes
  · rintro (hlost | ⟨hcompletes, hcreated⟩)
    · exact allOrNothing_of_lostAtOnce hlost env reg
    · exact allOrNothing_of_completes hreg hcompletes hcreated

/-- A VM that sends a record and is there for the answer. -/
def politeClient : Client where
  recv _ := .record ⟨0, .standBy, 8080⟩
  send _ := .bytes bufsize

/-- A connection whose thread can be created. -/
def circumstances : Circumstances where
  socket := 4
  ip := "10.0.0.1"
  port := 40000
  fresh _ := default
  created := true
  otherHolds := false

theorem allOrNothing_politeClient :
    AllOrNothing circumstances politeClient (initialRegistry fun _ _ => default) :=
  (allOrNothing_iff (initialRegistry_wf _) circumstances politeClient).mpr
    (.inr ⟨⟨0, ⟨0, .standBy, 8080⟩, Client.Quiet.zero rfl, rfl, by decide, rfl⟩, rfl⟩)

/-- The VM is gone when it is sent `ok`: the socket is closed, and the VM is
registered on it all the same. -/
theorem registered_on_closed_socket :
    ¬ AllOrNothing circumstances { politeClient with send := fun _ => .failed }
      (initialRegistry fun _ _ => default) := by
  rintro ⟨fuel, r, hr, h⟩
  cases fuel with
  | zero => cases hr
  | succ fuel =>
      obtain rfl := Option.some.inj hr
      rcases h with ⟨vm, -, -, hopen, -⟩ | h
      · cases hopen
      -- the group has one entry, and had none
      · have hcurrent := congrArg (fun reg : Registry => (reg service1).current) h.registry
        exact absurd hcurrent (by decide)

/-! ### The end of the loop -/

/-- How a client that has sent its records goes. -/
inductive Ending
  | disconnection
  | timeout
  /-- The `send` that answers the last record fails. -/
  | sendFailure
  deriving DecidableEq

/-- The client that sends these records; the answers to them are sent in the
given numbers of bytes. -/
def Client.ofRecords (records : List ServiceRecord) (ending : Ending) (sent : ℕ → ℕ) :
    Client where
  recv k :=
    match records[k]?, ending with
    | some s, _ => .record s
    | none, .disconnection => .disconnected
    | none, .timeout => .timeout
    | none, .sendFailure => .failed
  send k :=
    if ending = .sendFailure ∧ records.length ≤ k + 1 then .failed else .bytes (sent k)

/-- `accept_new_client` gets past its loop. -/
def HandshakeEnds (client : Client) : Prop := ∃ fuel o, handshake client fuel = some o

section Records

variable {records : List ServiceRecord} {ending : Ending} {sent : ℕ → ℕ}

theorem recv_ofRecords {k : ℕ} {s : ServiceRecord} (h : records[k]? = some s) :
    (Client.ofRecords records ending sent).recv k = .record s := by
  simp only [Client.ofRecords, h]

theorem send_ofRecords {k : ℕ} (h : k + 1 < records.length) :
    (Client.ofRecords records ending sent).send k = .bytes (sent k) :=
  if_neg fun hlast => absurd hlast.2 (Nat.not_le.mpr h)

/-- A client that sends nothing is given up at once. -/
theorem handshakeEnds_nil : HandshakeEnds (Client.ofRecords [] ending sent) := by
  cases ending
  · exact ⟨0, _, rfl⟩
  · exact ⟨0, _, rfl⟩
  · exact ⟨0, _, rfl⟩

/-- Until its last record the client is quiet, if the records before the
last one are refused. -/
theorem quiet_ofRecords {n : ℕ} (hn : n < records.length)
    (hrefused : ∀ k < n, ∀ s, records[k]? = some s → ¬ s.Exists) :
    (Client.ofRecords records ending sent).Quiet n where
  first := ⟨_, recv_ofRecords (List.getElem?_eq_getElem (Nat.zero_lt_of_lt hn))⟩
  refused k hk s hs := by
    have hget : records[k]? = some records[k] := List.getElem?_eq_getElem (hk.trans hn)
    obtain rfl := Received.record.inj ((recv_ofRecords hget).symm.trans hs)
    exact hrefused k hk _ hget
  received k hk := by
    rw [recv_ofRecords (List.getElem?_eq_getElem (Nat.lt_of_le_of_lt hk hn))]
    exact ⟨nofun, nofun⟩
  sent k hk := by
    rw [send_ofRecords (Nat.lt_of_le_of_lt hk hn)]
    nofun

/-- An existing service is answered with `ok`, whatever comes of that. -/
theorem handshakeEnds_of_exists (h : ∃ s ∈ records, s.Exists) :
    HandshakeEnds (Client.ofRecords records ending sent) := by
  -- the loop runs up to the first such record
  obtain ⟨n, hfirst⟩ : ∃ n, records.findIdx? (fun s => s.Exists) = some n := by
    obtain ⟨s, hs, he⟩ := h
    rw [← Option.isSome_iff_exists, List.findIdx?_isSome, List.any_eq_true]
    exact ⟨s, hs, decide_eq_true he⟩
  obtain ⟨hn, hexists, hbefore⟩ := List.findIdx?_eq_some_iff_getElem.mp hfirst
  have hquiet : (Client.ofRecords records ending sent).Quiet n := by
    refine quiet_ofRecords hn fun k hk s hs he => ?_
    obtain ⟨hlt, rfl⟩ := List.getElem?_eq_some_iff.mp hs
    exact hbefore k hk (decide_eq_true he)
  obtain ⟨s₀, h₀⟩ := hquiet.first
  obtain ⟨fuel, r, hr, -⟩ := exists_run_of_quiet h₀ hquiet
    (recv_ofRecords (List.getElem?_eq_getElem hn)) (of_decide_eq_true hexists)
  exact ⟨fuel, _, by rw [handshake_record h₀, hr]; rfl⟩

theorem mem_of_recv {k : ℕ} {s : ServiceRecord}
    (h : (Client.ofRecords records ending sent).recv k = .record s) : s ∈ records := by
  cases hk : records[k]? with
  | some s' =>
      obtain rfl := Received.record.inj ((recv_ofRecords hk).symm.trans h)
      exact List.mem_of_getElem? hk
  | none => cases ending <;> simp [Client.ofRecords, hk] at h

/-- Where all records are refused nothing leaves the loop: what comes after
the last one does not change `s`. -/
theorem run_refused (hrefused : ∀ s ∈ records, ¬ s.Exists) (fuel : ℕ) {k : ℕ}
    {c : Conversation} (hs : ¬ c.s.Exists) :
    run (iteration (Client.ofRecords records ending sent)) fuel k c = none := by
  refine run_eq_none (fun _ (c : Conversation) => ¬ c.s.Exists) (fun k c hs => ?_) fuel hs
  refine ⟨_, iteration_refused hs, ?_⟩
  rcases Conversation.s_afterRecv (Client.ofRecords records ending sent) k
    (c.afterSend (Client.ofRecords records ending sent) k) with hkept | hrecv
  · rw [hkept, Conversation.s_afterSend]
    exact hs
  · exact hrefused _ (mem_of_recv hrecv)

theorem not_handshakeEnds (hne : records ≠ []) (hrefused : ∀ s ∈ records, ¬ s.Exists) :
    ¬ HandshakeEnds (Client.ofRecords records ending sent) := by
  rintro ⟨fuel, o, ho⟩
  obtain ⟨s, rest, rfl⟩ := List.exists_cons_of_ne_nil hne
  rw [handshake_record (recv_ofRecords rfl),
    run_refused hrefused fuel (hrefused s List.mem_cons_self)] at ho
  cases ho

end Records

/-- **End of the handshake.**  After any records and any end of the
conversation the loop ends iff there was no record at all or one with an
existing service. -/
theorem handshake_ends_iff (records : List ServiceRecord) (ending : Ending) (sent : ℕ → ℕ) :
    HandshakeEnds (Client.ofRecords records ending sent) ↔
      records = [] ∨ ∃ s ∈ records, s.Exists := by
  constructor
  · intro hends
    rcases eq_or_ne records [] with hnil | hne
    · exact .inl hnil
    · refine .inr ?_
      by_contra hnone
      push Not at hnone
      exact not_handshakeEnds hne hnone hends
  · rintro (rfl | hexists)
    · exact handshakeEnds_nil
    · exact handshakeEnds_of_exists hexists

/-- A VM asks for a service that no group has and disconnects: the controller
accepts no VM any more. -/
theorem refused_then_disconnected :
    ¬ HandshakeEnds (Client.ofRecords [⟨7, .standBy, 8080⟩] .disconnection fun _ => bufsize) := by
  refine not_handshakeEnds (List.cons_ne_nil _ _) fun s hs => ?_
  obtain rfl := List.mem_singleton.mp hs
  decide

/-! ### The accept loop -/

/-- The loop of `main` over a queue of connections: the registry after the
last of them. -/
def acceptLoop (fuel : ℕ) : List (Circumstances × Client) → Registry → Option Registry
  | [], reg => some reg
  | (env, client) :: queue, reg =>
      (acceptNewClient env client fuel reg).bind fun r => acceptLoop fuel queue r.registry

theorem handshake_mono {client : Client} {fuel : ℕ} {o : Outcome}
    (h : handshake client fuel = some o) (extra : ℕ) :
    handshake client (fuel + extra) = some o := by
  cases hrecv : client.recv 0 with
  | record s =>
      rw [handshake_record hrecv] at h ⊢
      obtain ⟨r, hr, rfl⟩ := Option.map_eq_some_iff.mp h
      rw [run_mono hr extra]
      rfl
  | disconnected | timeout | failed =>
      rw [handshake, hrecv] at h ⊢
      exact h

theorem acceptNewClient_mono {env : Circumstances} {client : Client} {reg : Registry} {fuel : ℕ}
    {r : Result} (h : acceptNewClient env client fuel reg = some r) (extra : ℕ) :
    acceptNewClient env client (fuel + extra) reg = some r := by
  obtain ⟨o, ho, hr⟩ := Option.bind_eq_some_iff.mp h
  rw [acceptNewClient, handshake_mono ho extra]
  exact hr

theorem acceptLoop_mono {queue : List (Circumstances × Client)} {reg reg' : Registry} {fuel : ℕ}
    (h : acceptLoop fuel queue reg = some reg') (extra : ℕ) :
    acceptLoop (fuel + extra) queue reg = some reg' := by
  induction queue generalizing reg with
  | nil => exact h
  | cons call queue ih =>
      obtain ⟨r, hr, hrest⟩ := Option.bind_eq_some_iff.mp h
      rw [acceptLoop, acceptNewClient_mono hr extra]
      exact ih hrest

/-- After the handshake the call goes through, and leaves a sound registry. -/
theorem exists_acceptNewClient {reg : Registry} (hreg : reg.Wf) (env : Circumstances)
    {client : Client} {fuel : ℕ} {o : Outcome} (h : handshake client fuel = some o) :
    ∃ r, acceptNewClient env client fuel reg = some r ∧ r.registry.Wf := by
  rw [acceptNewClient, h]
  cases o with
  | givenUp isOpen closes => exact ⟨_, rfl, hreg⟩
  | accepted c ok =>
      have he : c.s.Exists := by
        cases hrecv : client.recv 0 with
        | record s =>
            rw [handshake_record hrecv] at h
            obtain ⟨⟨c', ok'⟩, hr, heq⟩ := Option.map_eq_some_iff.mp h
            obtain ⟨rfl, rfl⟩ := Outcome.accepted.inj heq
            exact (quiet_of_run hrecv hr).1
        | disconnected | timeout | failed =>
            rw [handshake, hrecv] at h
            cases h
      obtain ⟨r, vm, hr, hwf, -⟩ := registration_spec hreg env he ok
      exact ⟨r, hr, hwf⟩

/-- The accept loop serves a queue iff each of its clients lets its handshake
end. -/
theorem acceptLoop_serves_iff {reg : Registry} (hreg : reg.Wf)
    (queue : List (Circumstances × Client)) :
    (∃ fuel reg', acceptLoop fuel queue reg = some reg') ↔
      ∀ call ∈ queue, HandshakeEnds call.2 := by
  induction queue generalizing reg with
  | nil => exact ⟨fun _ _ hmem => absurd hmem List.not_mem_nil, fun _ => ⟨0, reg, rfl⟩⟩
  | cons call queue ih =>
      rw [List.forall_mem_cons]
      constructor
      · rintro ⟨fuel, reg', h⟩
        obtain ⟨r, hr, hrest⟩ := Option.bind_eq_some_iff.mp h
        obtain ⟨o, ho, -⟩ := Option.bind_eq_some_iff.mp hr
        obtain ⟨r', hr', hwf⟩ := exists_acceptNewClient hreg call.1 ho
        obtain rfl : r' = r := Option.some.inj (hr'.symm.trans hr)
        exact ⟨⟨fuel, o, ho⟩, (ih hwf).mp ⟨fuel, reg', hrest⟩⟩
      · rintro ⟨⟨fuel, o, ho⟩, hqueue⟩
        obtain ⟨r, hr, hwf⟩ := exists_acceptNewClient hreg call.1 ho
        obtain ⟨fuel', reg', hrest⟩ := (ih hwf).mpr hqueue
        refine ⟨fuel + fuel', reg', ?_⟩
        rw [acceptLoop, acceptNewClient_mono hr fuel', Option.bind_some, Nat.add_comm]
        exact acceptLoop_mono hrest fuel

end A2PM.Controller.Handshake
