/-
A2PM/LeaderAgreement.lean

Leader agreement: `n` controllers with the threads of `LeaderThreads`, and the
datagrams between them.

A reduction goes on when the propose period is over, even if proposals are
missing, and the reset at the start of a round forgets those that came before
it; so each of two controllers may elect itself (`two_leaders`).  The threads
may also come between each other's accesses: a reset between the two readings
of `last_proposal` in `leader_propose` parts a proposal from its socket.

If neither tears a proposal apart and each reduction counts the greatest one
(`Orderly`), there is one leader (`along_oneLeader`).  What carries the proof
is that the entries that a reduction has passed are not written any more
(`Settled`).
-/
import A2PM.LeaderThreads
import Mathlib.Data.Fin.VecNotation
import Mathlib.Data.Fintype.Basic

namespace A2PM.Leader

open Transition
open Broadcast (Bcast)

/-! ### The system -/

/-- The controllers, as their files describe them. -/
structure Network (n : ℕ) where
  /-- The addresses on `eth0`. -/
  addr : Fin n → ℤ
  /-- The controller on each line of a controller's file. -/
  file : Fin n → Fin n → Fin n
  /-- A controller's socket for each controller. -/
  sockets : Fin n → Fin n → ℤ
  positive : ∀ i, 0 < addr i
  distinct : Function.Injective addr
  /-- Each file names all controllers. -/
  complete : ∀ i, Function.Surjective (file i)
  connected : ∀ i j, 0 ≤ sockets i j

structure Datagram (n : ℕ) where
  src : Fin n
  dst : Fin n
  msg : Msg
  deriving DecidableEq

structure System (n : ℕ) where
  processes : Fin n → Process
  inFlight : List (Datagram n)

inductive Label (n : ℕ)
  /-- The next step of `leader_loop`, with what the clock shows. -/
  | leader (i : Fin n) (now : Timeval)
  /-- The next step of a callback. -/
  | callback (i : Fin n) (now : Timeval) (counterFirst : Bool)
  /-- `select` times out. -/
  | timeout (i : Fin n)
  /-- `sendto` returns. -/
  | sendto (i : Fin n) (ok : Bool)
  /-- Any other statement of `broadcast_loop`. -/
  | loop (i : Fin n)
  /-- `select` returns, `recvfrom` returns the datagram, and the callback is
  called. -/
  | receive (d : Datagram n)

namespace System

variable {n : ℕ}

def initial (start : Fin n → Timeval) : System n where
  processes := fun i => .initial (start i)
  inFlight := []

def set (s : System n) (i : Fin n) (p : Process) : System n :=
  { s with processes := Function.update s.processes i p }

/-- What `i` sends to the controller on line `index` of its file. -/
def datagram (net : Network n) (i : Fin n) (sent : ℕ × Msg) : Option (Datagram n) :=
  if h : sent.1 < n then some ⟨i, net.file i ⟨sent.1, h⟩, sent.2⟩ else none

/-- `broadcast_loop` goes on, and what it has sent is in flight. -/
def bcastStep (net : Network n) (s : System n) (i : Fin n) (l : Bcast.Label) : Option (System n) :=
  ((s.processes i).bcastStep n l).map fun p =>
    let sent := p.bcast.datagrams.drop (s.processes i).bcast.datagrams.length
    { s.set i p with inFlight := s.inFlight ++ sent.filterMap (datagram net i) }

/-- One step of one thread. -/
def step (net : Network n) (s : System n) : Label n → Option (System n)
  | .leader i now => ((s.processes i).leaderStep n (net.addr i) now).map (s.set i)
  | .callback i now counterFirst => ((s.processes i).callbackStep now counterFirst).map (s.set i)
  | .timeout i => s.bcastStep net i .timeout
  | .sendto i ok => s.bcastStep net i (.sendto ok)
  | .loop i => s.bcastStep net i .loop
  | .receive d =>
      if d ∈ s.inFlight then
        ((s.processes d.dst).bcastStep n .receive).map fun p =>
          { s.set d.dst (p.callFunction (net.sockets d.dst d.src) d.msg) with
            inFlight := s.inFlight.erase d }
      else none

/-! ### The property -/

end System

/-- `leader_propose` has read `last_proposal` for the socket, and not yet for
the proposal. -/
def CallbackPoint.HalfRead : CallbackPoint → Prop
  | .storeSocket _ _ _ | .readCounter _ => True
  | _ => False

/-- `leader_propose` has counted entry `k`, and not yet stored its proposal. -/
def CallbackPoint.Unstored : CallbackPoint → ℕ → Prop
  | .storeProposal k' _, k => k' = k
  | _, _ => False

namespace Process

variable {n : ℕ}

/-- One of the recorded proposals is the greatest of the addresses. -/
def CountsGreatest (addr : Fin n → ℤ) (p : Process) : Prop :=
  ∃ k < p.lastProposal, ∀ j, addr j ≤ p.leaderProposals k

/-- `last_proposal` is not reset between its two readings in `leader_propose`,
the reduction does not read an entry that is counted and not yet stored, and
it does not end without the greatest proposal. -/
def Orderly (addr : Fin n → ℤ) (p : Process) : LeaderPoint → Prop
  | .resetProposals => ¬ p.callback.HalfRead
  | .testProposal k _ _ => ¬ p.callback.Unstored k
  | .testIndex k _ _ => p.lastProposal ≤ k → p.CountsGreatest addr
  | _ => True

end Process

namespace System

variable {n : ℕ}

/-- The condition at the controller whose `leader_loop` goes on. -/
def Orderly (net : Network n) (s : System n) : Label n → Prop
  | .leader i _ => (s.processes i).Orderly net.addr (s.processes i).point
  | .callback _ _ _ | .timeout _ | .sendto _ _ | .loop _ | .receive _ => True

end System

instance : ∀ c : CallbackPoint, Decidable c.HalfRead
  | .storeSocket _ _ _ | .readCounter _ => .isTrue trivial
  | .idle | .storeSec | .storeUsec _ | .readIndex _ _ | .storeEither _ _ | .storeProposal _ _
  | .storeCounter _ => .isFalse not_false

instance : ∀ (c : CallbackPoint) (k : ℕ), Decidable (c.Unstored k)
  | .storeProposal k' _, k => inferInstanceAs (Decidable (k' = k))
  | .idle, _ | .storeSec, _ | .storeUsec _, _ | .readIndex _ _, _ | .storeSocket _ _ _, _
  | .readCounter _, _ | .storeEither _ _, _ | .storeCounter _, _ => .isFalse not_false

instance {n : ℕ} (addr : Fin n → ℤ) (p : Process) : Decidable (p.CountsGreatest addr) :=
  inferInstanceAs (Decidable (∃ k < p.lastProposal, ∀ j, addr j ≤ p.leaderProposals k))

instance {n : ℕ} (addr : Fin n → ℤ) (p : Process) : ∀ point, Decidable (p.Orderly addr point)
  | .resetProposals | .testProposal _ _ _ => inferInstanceAs (Decidable (¬ _))
  | .testIndex _ _ _ => inferInstanceAs (Decidable (_ → _))
  | .readSec | .readUsec _ _ | .dropLeader | .dropRole | .testLeader | .testRunning | .testDue
  | .readId _ | .readSocket _ _ | .stopRunning _ | .setLeader _ | .startRunning | .startTimer
  | .propose | .proposing | .testRole | .beating => .isTrue trivial

instance {n : ℕ} (net : Network n) (s : System n) : ∀ l, Decidable (s.Orderly net l)
  | .leader _ _ => inferInstanceAs (Decidable (Process.Orderly _ _ _))
  | .callback _ _ _ | .timeout _ | .sendto _ _ | .loop _ | .receive _ => .isTrue trivial

/-! ### What a controller knows -/

namespace Process

variable {n : ℕ}

/-- The address of a controller, and the socket for it. -/
def Genuine (addr sockets : Fin n → ℤ) (content sock : ℤ) : Prop :=
  ∃ j, content = addr j ∧ sock = sockets j

/-- -1, or the socket for the controller with the greatest address. -/
def Elected (addr sockets : Fin n → ℤ) (leader : ℤ) : Prop :=
  leader = -1 ∨ ∃ l, leader = sockets l ∧ ∀ j, addr j ≤ addr l

def Recorded (addr sockets : Fin n → ℤ) (p : Process) (k : ℕ) : Prop :=
  Genuine addr sockets (p.leaderProposals k) (p.leaderProposalsSockets k)

/-- The first `m` entries are counted, and stored. -/
structure Settled (p : Process) (m : ℕ) : Prop where
  counted : m ≤ p.lastProposal
  stored : ∀ k, p.callback.Unstored k → m ≤ k

/-- What the reduction knows when it has passed the first `i` entries. -/
structure Scanned (addr sockets : Fin n → ℤ) (p : Process) (i : ℕ) (id leader : ℤ) : Prop where
  settled : p.Settled i
  greatest : ∀ k < i, p.leaderProposals k ≤ id
  genuine : leader = -1 ∨ Genuine addr sockets id leader

/-- What `leader_loop` knows. -/
def LeaderKnows (addr sockets : Fin n → ℤ) (p : Process) : Prop :=
  match p.point with
  | .testIndex i id leader => p.Scanned addr sockets i id leader
  | .testProposal i id leader => i < p.lastProposal ∧ p.Scanned addr sockets i id leader
  | .readId i => p.Settled (i + 1) ∧ ∀ k < i, p.leaderProposals k ≤ p.leaderProposals i
  | .readSocket i id =>
      p.Settled (i + 1) ∧ p.leaderProposals i = id ∧ ∀ k < i, p.leaderProposals k ≤ id
  | .stopRunning leader | .setLeader leader => Elected addr sockets leader
  | _ => True

/-- What a callback knows.  If the counter has been reset since it was read, it
is below `k`. -/
def CallbackKnows (addr sockets : Fin n → ℤ) (p : Process) : Prop :=
  match p.callback with
  | .idle | .storeSec | .storeUsec _ => True
  | .readIndex sock content => Genuine addr sockets content sock
  | .storeSocket k sock content => k = p.lastProposal ∧ Genuine addr sockets content sock
  | .readCounter content =>
      Genuine addr sockets content (p.leaderProposalsSockets p.lastProposal)
  | .storeEither k content =>
      p.lastProposal ≤ k ∧ (∀ k' < k, p.Recorded addr sockets k') ∧
        Genuine addr sockets content (p.leaderProposalsSockets k)
  | .storeProposal k content =>
      p.lastProposal ≤ k + 1 ∧ (∀ k' < k, p.Recorded addr sockets k') ∧
        Genuine addr sockets content (p.leaderProposalsSockets k)
  | .storeCounter k => p.lastProposal ≤ k ∧ ∀ k' < k + 1, p.Recorded addr sockets k'

end Process

/-- What a controller broadcasts has its own address. -/
structure Proposes (myIntIp : ℤ) (b : Bcast) : Prop where
  call :
    match b.call with
    | .idle => True
    | .setType msg | .setPayload msg | .setSize msg | .setFlag msg => msg.payload = myIntIp
  /-- Before the first proposal there is nothing to send. -/
  slot :
    b.msgTemp.payload = myIntIp ∨
      b.newBcastMessage = false ∧ (b.loop = .sample ∨ b.loop = .select false) ∧
        match b.call with
        | .idle | .setType _ | .setPayload _ => True
        | .setSize _ | .setFlag _ => False

namespace Proposes

variable {myIntIp : ℤ} {controllers : ℕ} {b b' : Bcast}

theorem initial : Proposes myIntIp .initial := ⟨trivial, .inr ⟨rfl, .inl rfl, trivial⟩⟩

/-- Where something is being sent, the slot has been filled. -/
theorem filled (h : Proposes myIntIp b) (hsample : b.loop ≠ .sample)
    (hselect : b.loop ≠ .select false) : b.msgTemp.payload = myIntIp :=
  h.slot.resolve_right fun hquiet => hquiet.2.1.elim hsample hselect

theorem post (h : Proposes myIntIp b) (hstep : b.post = some b') :
    Proposes myIntIp b' ∧ b'.datagrams = b.datagrams := by
  have hcall := h.call
  have hslot := h.slot
  rw [Bcast.post] at hstep
  cases hpc : b.call with
  | idle =>
      rw [hpc] at hstep
      cases hstep
  | setType msg =>
      rw [hpc] at hstep hcall hslot
      obtain rfl := Option.some.inj hstep
      exact ⟨⟨hcall, hslot⟩, rfl⟩
  | setPayload msg =>
      rw [hpc] at hstep hcall
      obtain rfl := Option.some.inj hstep
      exact ⟨⟨hcall, .inl hcall⟩, rfl⟩
  | setSize msg =>
      rw [hpc] at hstep hcall hslot
      obtain rfl := Option.some.inj hstep
      exact ⟨⟨hcall, hslot.imp_right fun hquiet => hquiet.2.2.elim⟩, rfl⟩
  | setFlag msg =>
      rw [hpc] at hstep hslot
      obtain rfl := Option.some.inj hstep
      exact ⟨⟨trivial, .inl (hslot.resolve_right fun hquiet => hquiet.2.2)⟩, rfl⟩

theorem loopStep (h : Proposes myIntIp b) (hstep : b.loopStep = some b') :
    Proposes myIntIp b' ∧ b'.datagrams = b.datagrams := by
  have hfilled := h.filled
  rw [Bcast.loopStep] at hstep
  cases hloop : b.loop with
  | sample =>
      rw [hloop] at hstep
      obtain rfl := Option.some.inj hstep
      refine ⟨⟨h.call, h.slot.imp_right fun hquiet => ⟨hquiet.1, .inr ?_, hquiet.2.2⟩⟩, rfl⟩
      rw [hquiet.1]
  | sendType index =>
      rw [hloop] at hstep hfilled
      obtain rfl := Option.some.inj hstep
      exact ⟨⟨h.call, .inl (hfilled (by simp) (by simp))⟩, rfl⟩
  | sendSize index type =>
      rw [hloop] at hstep hfilled
      obtain rfl := Option.some.inj hstep
      exact ⟨⟨h.call, .inl (hfilled (by simp) (by simp))⟩, rfl⟩
  | clear =>
      rw [hloop] at hstep hfilled
      obtain rfl := Option.some.inj hstep
      exact ⟨⟨h.call, .inl (hfilled (by simp) (by simp))⟩, rfl⟩
  | select my =>
      rw [hloop] at hstep
      cases hstep
  | sendPayload index type size =>
      rw [hloop] at hstep
      cases hstep

/-- What is sent has the own address. -/
theorem step (h : Proposes myIntIp b) {l : Bcast.Label}
    (hl : ∀ msg, l = .call msg → msg.payload = myIntIp)
    (hstep : b.step controllers l = some b') :
    Proposes myIntIp b' ∧
      ∃ sent, b'.datagrams = b.datagrams ++ sent ∧ ∀ d ∈ sent, d.2.payload = myIntIp := by
  have hnone : b'.datagrams = b.datagrams →
      ∃ sent, b'.datagrams = b.datagrams ++ sent ∧ ∀ d ∈ sent, d.2.payload = myIntIp :=
    fun hsame => ⟨[], hsame.trans (List.append_nil _).symm, by simp⟩
  cases l with
  | call msg =>
      simp only [Bcast.step, Option.ite_none_right_eq_some, Option.some.injEq] at hstep
      obtain ⟨-, rfl⟩ := hstep
      refine ⟨⟨hl msg rfl, h.slot.imp_right fun hquiet => ⟨hquiet.1, hquiet.2.1, trivial⟩⟩, ?_⟩
      exact hnone rfl
  | post => exact (h.post hstep).imp_right hnone
  | loop => exact (h.loopStep hstep).imp_right hnone
  | timeout =>
      rw [Bcast.step] at hstep
      split at hstep
      next my hloop =>
          obtain rfl := Option.some.inj hstep
          refine ⟨⟨h.call, ?_⟩, hnone rfl⟩
          cases my with
          | true => exact .inl (h.filled (by simp [hloop]) (by simp [hloop]))
          | false =>
              exact h.slot.imp_right fun hquiet => ⟨hquiet.1, .inl rfl, hquiet.2.2⟩
      next => cases hstep
  | receive =>
      rw [Bcast.step] at hstep
      split at hstep
      next =>
          obtain rfl := Option.some.inj hstep
          refine ⟨⟨h.call, ?_⟩, hnone rfl⟩
          exact h.slot.imp_right fun hquiet => ⟨hquiet.1, .inl rfl, hquiet.2.2⟩
      next => cases hstep
  | sendto ok =>
      rw [Bcast.step] at hstep
      split at hstep
      next index type size hloop =>
          obtain rfl := Option.some.inj hstep
          have hfilled := h.filled (by simp [hloop]) (by simp [hloop])
          refine ⟨⟨h.call, .inl hfilled⟩, ?_⟩
          cases ok with
          | true => exact ⟨[_], rfl, fun d hd => by rw [List.mem_singleton.mp hd]; exact hfilled⟩
          | false => exact hnone rfl
      next => cases hstep

end Proposes

/-! ### One controller -/

namespace Process

variable {n : ℕ} {addr sockets : Fin n → ℤ} {p p' : Process}

structure Honest (addr sockets : Fin n → ℤ) (myIntIp : ℤ) (p : Process) : Prop where
  leader : Elected addr sockets p.leaderSocket
  amILeader : p.amILeader = false
  entries : ∀ k < p.lastProposal, ¬ p.callback.Unstored k → p.Recorded addr sockets k
  leaderKnows : p.LeaderKnows addr sockets
  callbackKnows : p.CallbackKnows addr sockets
  proposes : Proposes myIntIp p.bcast

theorem initial_honest {myIntIp : ℤ} (start : Timeval) :
    (initial start).Honest addr sockets myIntIp where
  leader := .inl rfl
  amILeader := rfl
  entries := nofun
  leaderKnows := trivial
  callbackKnows := trivial
  proposes := .initial

/-! ### A callback -/

/-- A callback adds to the entries, and leaves the counted ones alone. -/
structure Extends (p p' : Process) : Prop where
  point : p'.point = p.point
  lastProposal : p.lastProposal ≤ p'.lastProposal
  unstored : ∀ k, p'.callback.Unstored k → p.lastProposal ≤ k
  kept : ∀ k < p.lastProposal, ¬ p.callback.Unstored k → p'.leaderProposals k = p.leaderProposals k

theorem Extends.settled (h : p.Extends p') {m : ℕ} (hm : p.Settled m) : p'.Settled m where
  counted := Nat.le_trans hm.counted h.lastProposal
  stored := fun k hk => Nat.le_trans hm.counted (h.unstored k hk)

theorem Extends.kept_of_settled (h : p.Extends p') {m : ℕ} (hm : p.Settled m) {k : ℕ} (hk : k < m) :
    p'.leaderProposals k = p.leaderProposals k :=
  h.kept k (Nat.lt_of_lt_of_le hk hm.counted) fun hunstored =>
    Nat.not_le_of_lt hk (hm.stored k hunstored)

/-- What `leader_loop` knows does not depend on what is added. -/
theorem Extends.leaderKnows (h : p.Extends p') (hp : p.LeaderKnows addr sockets) :
    p'.LeaderKnows addr sockets := by
  have hscanned : ∀ {i id leader}, p.Scanned addr sockets i id leader →
      p'.Scanned addr sockets i id leader := fun hs =>
    ⟨h.settled hs.settled, fun k hk => (h.kept_of_settled hs.settled hk).symm ▸ hs.greatest k hk,
      hs.genuine⟩
  rw [LeaderKnows, h.point]
  rw [LeaderKnows] at hp
  cases hpoint : p.point with
  | testIndex i id leader =>
      rw [hpoint] at hp
      exact hscanned hp
  | testProposal i id leader =>
      rw [hpoint] at hp
      exact ⟨Nat.lt_of_lt_of_le hp.1 h.lastProposal, hscanned hp.2⟩
  | readId i =>
      rw [hpoint] at hp
      obtain ⟨hsettled, hall⟩ := hp
      refine ⟨h.settled hsettled, fun k hk => ?_⟩
      rw [h.kept_of_settled hsettled (Nat.lt_succ_of_lt hk),
        h.kept_of_settled hsettled (Nat.lt_succ_self i)]
      exact hall k hk
  | readSocket i id =>
      rw [hpoint] at hp
      obtain ⟨hsettled, hid, hall⟩ := hp
      refine ⟨h.settled hsettled, (h.kept_of_settled hsettled (Nat.lt_succ_self i)).trans hid,
        fun k hk => ?_⟩
      rw [h.kept_of_settled hsettled (Nat.lt_succ_of_lt hk)]
      exact hall k hk
  | stopRunning leader =>
      rw [hpoint] at hp
      exact hp
  | setLeader leader =>
      rw [hpoint] at hp
      exact hp
  | _ => trivial

/-- An entry is as it was before another one has been written. -/
theorem genuine_update {proposals proposalsSockets : ℕ → ℤ} {k k' : ℕ} (hne : k' ≠ k) {content : ℤ}
    (h : Genuine addr sockets (proposals k') (proposalsSockets k')) :
    Genuine addr sockets (Function.update proposals k content k') (proposalsSockets k') := by
  rw [Function.update_of_ne hne]
  exact h

theorem genuine_update_socket {proposals proposalsSockets : ℕ → ℤ} {k k' : ℕ} (hne : k' ≠ k)
    {sock : ℤ} (h : Genuine addr sockets (proposals k') (proposalsSockets k')) :
    Genuine addr sockets (proposals k') (Function.update proposalsSockets k sock k') := by
  rw [Function.update_of_ne hne]
  exact h

/-- Entry `k` has its proposal, next to its socket. -/
theorem recorded_storeProposal {k : ℕ} {content : ℤ} (hbelow : ∀ k' < k, p.Recorded addr sockets k')
    (hcontent : Genuine addr sockets content (p.leaderProposalsSockets k)) :
    ∀ k' < k + 1, Genuine addr sockets (Function.update p.leaderProposals k content k')
      (p.leaderProposalsSockets k') := by
  intro k' hk'
  rcases Nat.lt_succ_iff_lt_or_eq.mp hk' with hlt | rfl
  · exact genuine_update (Nat.ne_of_lt hlt) (hbelow k' hlt)
  · rw [Function.update_self]
    exact hcontent

theorem Honest.extend {myIntIp : ℤ} (h : p.Honest addr sockets myIntIp) (hextends : p.Extends p')
    (hleader : p'.leaderSocket = p.leaderSocket) (hrole : p'.amILeader = p.amILeader)
    (hbcast : p'.bcast = p.bcast)
    (hentries : ∀ k < p'.lastProposal, ¬ p'.callback.Unstored k → p'.Recorded addr sockets k)
    (hcallback : p'.CallbackKnows addr sockets) : p'.Honest addr sockets myIntIp where
  leader := hleader ▸ h.leader
  amILeader := hrole.trans h.amILeader
  entries := hentries
  leaderKnows := hextends.leaderKnows h.leaderKnows
  callbackKnows := hcallback
  proposes := hbcast ▸ h.proposes

/-- **A step of a callback** adds genuine proposals. -/
theorem Honest.callbackStep {myIntIp : ℤ} (h : p.Honest addr sockets myIntIp) {now : Timeval}
    {counterFirst : Bool} (hstep : p.callbackStep now counterFirst = some p') :
    p'.Honest addr sockets myIntIp := by
  have hknows := h.callbackKnows
  have hentries := h.entries
  rw [CallbackKnows] at hknows
  simp only [CallbackPoint.Unstored] at hentries
  rw [Process.callbackStep] at hstep
  cases hcallback : p.callback with
  | idle =>
      rw [hcallback] at hstep
      cases hstep
  | storeSec =>
      rw [hcallback] at hstep hentries
      obtain rfl := Option.some.inj hstep
      exact h.extend ⟨rfl, Nat.le_refl _, fun _ hk => False.elim hk, fun _ _ _ => rfl⟩ rfl rfl rfl
        hentries trivial
  | storeUsec t =>
      rw [hcallback] at hstep hentries
      obtain rfl := Option.some.inj hstep
      exact h.extend ⟨rfl, Nat.le_refl _, fun _ hk => False.elim hk, fun _ _ _ => rfl⟩ rfl rfl rfl
        hentries trivial
  | readIndex sock content =>
      rw [hcallback] at hstep hentries hknows
      obtain rfl := Option.some.inj hstep
      exact h.extend ⟨rfl, Nat.le_refl _, fun _ hk => False.elim hk, fun _ _ _ => rfl⟩ rfl rfl rfl
        hentries ⟨rfl, hknows⟩
  | storeSocket k sock content =>
      rw [hcallback] at hstep hentries hknows
      obtain ⟨rfl, hcontent⟩ := hknows
      simp only [Option.ite_none_right_eq_some, Option.some.injEq] at hstep
      obtain ⟨-, rfl⟩ := hstep
      refine h.extend ⟨rfl, Nat.le_refl _, fun _ hk => False.elim hk, fun _ _ _ => rfl⟩ rfl rfl rfl
        (fun k hk _ => ?_) ?_
      · exact genuine_update_socket (Nat.ne_of_lt hk) (hentries k hk not_false)
      · show Genuine addr sockets content
          (Function.update p.leaderProposalsSockets p.lastProposal sock p.lastProposal)
        rw [Function.update_self]
        exact hcontent
  | readCounter content =>
      rw [hcallback] at hstep hentries hknows
      obtain rfl := Option.some.inj hstep
      exact h.extend ⟨rfl, Nat.le_refl _, fun _ hk => False.elim hk, fun _ _ _ => rfl⟩ rfl rfl rfl
        hentries ⟨Nat.le_refl _, fun k hk => hentries k hk not_false, hknows⟩
  | storeEither k content =>
      rw [hcallback] at hstep hentries hknows
      obtain ⟨hlast, hbelow, hcontent⟩ := hknows
      cases counterFirst with
      | true =>
          obtain rfl := Option.some.inj hstep
          refine h.extend ⟨rfl, Nat.le_succ_of_le hlast, ?_, fun _ _ _ => rfl⟩ rfl rfl rfl
            (fun k' hk' hstored => hbelow k' ?_) ⟨Nat.le_refl _, hbelow, hcontent⟩
          · rintro _ rfl
            exact hlast
          · exact Nat.lt_of_le_of_ne (Nat.le_of_lt_succ hk') (Ne.symm hstored)
      | false =>
          simp only [Process.storeProposal, Bool.false_eq_true, if_false,
            Option.ite_none_right_eq_some, Option.some.injEq] at hstep
          obtain ⟨-, rfl⟩ := hstep
          have hrecorded := recorded_storeProposal hbelow hcontent
          refine h.extend ⟨rfl, Nat.le_refl _, fun _ hk => False.elim hk, fun k' hk' _ => ?_⟩
            rfl rfl rfl (fun k' hk' _ => ?_) ⟨hlast, hrecorded⟩
          · exact Function.update_of_ne (Nat.ne_of_lt (Nat.lt_of_lt_of_le hk' hlast)) _ _
          · exact hrecorded k' (Nat.lt_succ_of_lt (Nat.lt_of_lt_of_le hk' hlast))
  | storeProposal k content =>
      rw [hcallback] at hstep hentries hknows
      obtain ⟨hlast, hbelow, hcontent⟩ := hknows
      simp only [Process.storeProposal, Option.ite_none_right_eq_some, Option.some.injEq] at hstep
      obtain ⟨-, rfl⟩ := hstep
      have hrecorded := recorded_storeProposal hbelow hcontent
      refine h.extend ⟨rfl, Nat.le_refl _, fun _ hk => False.elim hk, fun k' hk' hstored => ?_⟩
        rfl rfl rfl (fun k' hk' _ => ?_) trivial
      · apply Function.update_of_ne
        rintro rfl
        exact hstored (by simp [CallbackPoint.Unstored, hcallback])
      · exact hrecorded k' (Nat.lt_of_lt_of_le hk' hlast)
  | storeCounter k =>
      rw [hcallback] at hstep hentries hknows
      obtain ⟨hlast, hbelow⟩ := hknows
      obtain rfl := Option.some.inj hstep
      exact h.extend ⟨rfl, Nat.le_succ_of_le hlast, fun _ hk => False.elim hk, fun _ _ _ => rfl⟩
        rfl rfl rfl (fun k' hk' _ => hbelow k' hk') trivial

/-! ### A step of `leader_loop` -/

/-- A reduction that has passed all entries and counts the greatest address
has found it. -/
theorem Scanned.elected {i : ℕ} {id leader : ℤ} (h : p.Scanned addr sockets i id leader)
    (hend : p.lastProposal ≤ i) (hcounts : p.CountsGreatest addr) : Elected addr sockets leader := by
  obtain ⟨k, hk, hgreatest⟩ := hcounts
  refine h.genuine.imp_right ?_
  rintro ⟨l, rfl, rfl⟩
  exact ⟨l, rfl, fun j => (hgreatest j).trans (h.greatest k (Nat.lt_of_lt_of_le hk hend))⟩

theorem Settled.succ {i : ℕ} (h : p.Settled i) (hi : i < p.lastProposal) (hstored : ¬ p.callback.Unstored i) :
    p.Settled (i + 1) where
  counted := hi
  stored := fun k hk =>
    Nat.lt_of_le_of_ne (h.stored k hk) fun heq => hstored (heq ▸ hk)

/-- The last of the settled entries has been recorded. -/
theorem Honest.recorded_of_settled {myIntIp : ℤ} (h : p.Honest addr sockets myIntIp) {i : ℕ}
    (hi : p.Settled (i + 1)) : p.Recorded addr sockets i :=
  h.entries i hi.counted fun hunstored => Nat.not_succ_le_self i (hi.stored i hunstored)

/-- `leader_loop` goes on, with what it knows. -/
theorem Honest.goOn {myIntIp : ℤ} (h : p.Honest addr sockets myIntIp) {point : LeaderPoint}
    (hknows : LeaderKnows addr sockets { p with point := point }) :
    Honest addr sockets myIntIp { p with point := point } :=
  { h with leaderKnows := hknows }

/-- Where `leader_loop` goes on, it need not know anything. -/
theorem leaderKnows_ite {c : Prop} [Decidable c] {a b : LeaderPoint}
    (ha : c → LeaderKnows addr sockets { p with point := a })
    (hb : ¬ c → LeaderKnows addr sockets { p with point := b }) :
    LeaderKnows addr sockets { p with point := if c then a else b } := by
  split
  next h => exact ha h
  next h => exact hb h

/-- A reset leaves a callback that is not between its two readings with what it
knows. -/
theorem callbackKnows_reset {point : LeaderPoint} (h : p.CallbackKnows addr sockets)
    (hhalf : ¬ p.callback.HalfRead) :
    CallbackKnows addr sockets { p with lastProposal := 0, point := point } := by
  rw [CallbackKnows] at h
  cases hcallback : p.callback with
  | storeSocket k sock content =>
      rw [hcallback] at hhalf
      exact (hhalf trivial).elim
  | readCounter content =>
      rw [hcallback] at hhalf
      exact (hhalf trivial).elim
  | readIndex sock content =>
      rw [hcallback] at h
      exact h
  | storeEither k content =>
      rw [hcallback] at h
      exact ⟨Nat.zero_le _, h.2⟩
  | storeProposal k content =>
      rw [hcallback] at h
      exact ⟨Nat.zero_le _, h.2⟩
  | storeCounter k =>
      rw [hcallback] at h
      exact ⟨Nat.zero_le _, h.2⟩
  | _ => trivial

/-- A call of `broadcast` with the own address. -/
theorem Honest.broadcast {controllers : ℕ} {myIntIp : ℤ} (h : p.Honest addr sockets myIntIp)
    {msg : Msg} {point : LeaderPoint} (hstep : p.broadcast controllers msg point = some p')
    (hmsg : msg.payload = myIntIp)
    (hknows : ∀ b, LeaderKnows addr sockets { p with bcast := b, point := point }) :
    p'.Honest addr sockets myIntIp := by
  obtain ⟨b, hb, rfl⟩ := Option.map_eq_some_iff.mp hstep
  have hproposes := (h.proposes.step (by rintro _ ⟨⟩; exact hmsg) hb).1
  exact { h with leaderKnows := hknows b, proposes := hproposes }

theorem Honest.post {myIntIp : ℤ} (h : p.Honest addr sockets myIntIp) {next : LeaderPoint}
    (hstep : p.post next = some p')
    (hnext : ∀ b, LeaderKnows addr sockets { p with bcast := b, point := next })
    (hpoint : ∀ b, LeaderKnows addr sockets { p with bcast := b }) :
    p'.Honest addr sockets myIntIp := by
  obtain ⟨b, hb, rfl⟩ := Option.map_eq_some_iff.mp hstep
  refine { h with leaderKnows := ?_, proposes := (h.proposes.post hb).1 }
  split
  · exact hnext b
  · exact hpoint b

theorem Honest.leaderStep {controllers : ℕ} {myIntIp : ℤ} (h : p.Honest addr sockets myIntIp)
    (horderly : p.Orderly addr p.point) {now : Timeval}
    (hstep : p.leaderStep controllers myIntIp now = some p') : p'.Honest addr sockets myIntIp := by
  have hknows := h.leaderKnows
  rw [LeaderKnows] at hknows
  rw [Process.leaderStep] at hstep
  cases hpoint : p.point with
  | readSec =>
      rw [hpoint] at hstep
      obtain rfl := Option.some.inj hstep
      exact h.goOn trivial
  | readUsec sec start =>
      rw [hpoint] at hstep
      obtain rfl := Option.some.inj hstep
      exact h.goOn (leaderKnows_ite (fun _ => trivial) fun _ => trivial)
  | dropLeader =>
      rw [hpoint] at hstep
      obtain rfl := Option.some.inj hstep
      exact { h with leader := .inl rfl, leaderKnows := trivial }
  | dropRole =>
      rw [hpoint] at hstep
      obtain rfl := Option.some.inj hstep
      exact { h with amILeader := rfl, leaderKnows := trivial }
  | testLeader =>
      rw [hpoint] at hstep
      obtain rfl := Option.some.inj hstep
      exact h.goOn (leaderKnows_ite (fun _ => trivial) fun _ => trivial)
  | testRunning =>
      rw [hpoint] at hstep
      obtain rfl := Option.some.inj hstep
      exact h.goOn (leaderKnows_ite (fun _ => trivial) fun _ => trivial)
  | testDue =>
      rw [hpoint] at hstep
      obtain rfl := Option.some.inj hstep
      exact h.goOn (leaderKnows_ite (fun _ => trivial) fun _ =>
        ⟨⟨Nat.zero_le _, fun _ _ => Nat.zero_le _⟩, fun k hk => absurd hk (Nat.not_lt_zero k),
          .inl rfl⟩)
  | testIndex i id leader =>
      rw [hpoint] at hstep hknows horderly
      obtain rfl := Option.some.inj hstep
      refine h.goOn (leaderKnows_ite (fun hi => ⟨hi, ?_⟩) fun hi => ?_)
      · exact ⟨⟨hknows.settled.counted, hknows.settled.stored⟩, hknows.greatest, hknows.genuine⟩
      · exact hknows.elected (Nat.le_of_not_lt hi) (horderly (Nat.le_of_not_lt hi))
  | testProposal i id leader =>
      rw [hpoint] at hstep hknows horderly
      obtain rfl := Option.some.inj hstep
      obtain ⟨hi, hscanned⟩ := hknows
      have hsettled := hscanned.settled.succ hi horderly
      refine h.goOn (leaderKnows_ite (fun hgreater => ?_) fun hle => ?_)
      · refine ⟨⟨hsettled.counted, hsettled.stored⟩, fun k hk => ?_⟩
        exact (hscanned.greatest k hk).trans (le_of_lt hgreater)
      · refine ⟨⟨hsettled.counted, hsettled.stored⟩, fun k hk => ?_, hscanned.genuine⟩
        rcases Nat.lt_succ_iff_lt_or_eq.mp hk with hlt | rfl
        · exact hscanned.greatest k hlt
        · exact not_lt.mp hle
  | readId i =>
      rw [hpoint] at hstep hknows
      obtain rfl := Option.some.inj hstep
      exact h.goOn ⟨⟨hknows.1.counted, hknows.1.stored⟩, rfl, hknows.2⟩
  | readSocket i id =>
      rw [hpoint] at hstep hknows
      obtain rfl := Option.some.inj hstep
      obtain ⟨hsettled, rfl, hall⟩ := hknows
      refine h.goOn ⟨⟨hsettled.counted, hsettled.stored⟩, fun k hk => ?_,
        .inr (h.recorded_of_settled hsettled)⟩
      rcases Nat.lt_succ_iff_lt_or_eq.mp hk with hlt | rfl
      · exact hall k hlt
      · exact le_refl _
  | stopRunning leader =>
      rw [hpoint] at hstep hknows
      obtain rfl := Option.some.inj hstep
      refine { h with leaderKnows := ?_ }
      by_cases hnone : leader = -1
      · simp only [LeaderKnows, if_pos hnone]
      · simp only [LeaderKnows, if_neg hnone]
        exact hknows
  | setLeader leader =>
      rw [hpoint] at hstep hknows
      obtain rfl := Option.some.inj hstep
      exact { h with leader := hknows, leaderKnows := trivial }
  | startRunning =>
      rw [hpoint] at hstep
      obtain rfl := Option.some.inj hstep
      exact { h with leaderKnows := trivial }
  | resetProposals =>
      rw [hpoint] at hstep horderly
      obtain rfl := Option.some.inj hstep
      exact { h with
        entries := fun k hk => absurd hk (Nat.not_lt_zero k)
        leaderKnows := trivial
        callbackKnows := callbackKnows_reset h.callbackKnows horderly }
  | startTimer =>
      rw [hpoint] at hstep
      obtain rfl := Option.some.inj hstep
      exact { h with leaderKnows := trivial }
  | propose =>
      rw [hpoint] at hstep
      exact h.broadcast hstep rfl fun _ => trivial
  | proposing =>
      rw [hpoint] at hstep
      exact h.post hstep (fun _ => trivial) fun _ => by simp only [LeaderKnows, hpoint]
  | testRole =>
      rw [hpoint] at hstep
      simp only at hstep
      split at hstep
      next hrole =>
          rw [h.amILeader] at hrole
          cases hrole
      next =>
          obtain rfl := Option.some.inj hstep
          exact { h with leaderKnows := trivial }
  | beating =>
      rw [hpoint] at hstep
      exact h.post hstep (fun _ => trivial) fun _ => by simp only [LeaderKnows, hpoint]

/-! ### A step of `broadcast_loop` -/

/-- Outside of the callbacks `broadcast_loop` only sends the own address. -/
theorem Honest.bcastStep {controllers : ℕ} {myIntIp : ℤ} (h : p.Honest addr sockets myIntIp)
    {l : Bcast.Label} (hl : ∀ msg, l ≠ .call msg) (hstep : p.bcastStep controllers l = some p') :
    p'.Honest addr sockets myIntIp ∧ p'.callback = .idle ∧
      ∃ sent, p'.bcast.datagrams = p.bcast.datagrams ++ sent ∧
        ∀ d ∈ sent, d.2.payload = myIntIp := by
  rw [Process.bcastStep, Option.ite_none_right_eq_some, Option.map_eq_some_iff] at hstep
  obtain ⟨hidle, b, hb, rfl⟩ := hstep
  obtain ⟨hproposes, hsent⟩ := h.proposes.step (fun msg heq => absurd heq (hl msg)) hb
  have hextends : p.Extends { p with bcast := b } := by
    refine ⟨rfl, Nat.le_refl _, fun k hk => ?_, fun _ _ _ => rfl⟩
    simp only [CallbackPoint.Unstored, hidle] at hk
  exact ⟨⟨h.leader, h.amILeader, h.entries, hextends.leaderKnows h.leaderKnows, h.callbackKnows,
    hproposes⟩, hidle, hsent⟩

/-- A proposal comes with the socket for its sender. -/
theorem Honest.callFunction {myIntIp : ℤ} (h : p.Honest addr sockets myIntIp)
    (hidle : p.callback = .idle) {j : Fin n} {m : Msg} (hm : m.payload = addr j) :
    (p.callFunction (sockets j) m).Honest addr sockets myIntIp := by
  have hentries : ∀ k < p.lastProposal, p.Recorded addr sockets k := fun k hk =>
    h.entries k hk (by simp only [CallbackPoint.Unstored, hidle, not_false_eq_true])
  rw [Process.callFunction]
  split
  · exact h.extend ⟨rfl, Nat.le_refl _, fun _ hk => False.elim hk, fun _ _ _ => rfl⟩ rfl rfl rfl
      (fun k hk _ => hentries k hk) trivial
  · split
    · exact h.extend ⟨rfl, Nat.le_refl _, fun _ hk => False.elim hk, fun _ _ _ => rfl⟩ rfl rfl rfl
        (fun k hk _ => hentries k hk) ⟨j, hm, rfl⟩
    · exact h.extend ⟨rfl, Nat.le_refl _, fun _ hk => False.elim hk, fun _ _ _ => rfl⟩ rfl rfl rfl
        (fun k hk _ => hentries k hk) trivial

end Process

/-! ### All controllers -/

namespace System

variable {n : ℕ} {net : Network n} {s s' : System n}

structure Inv (net : Network n) (s : System n) : Prop where
  processes : ∀ i, (s.processes i).Honest net.addr (net.sockets i) (net.addr i)
  inFlight : ∀ d ∈ s.inFlight, d.msg.payload = net.addr d.src

theorem initial_inv (start : Fin n → Timeval) : (initial start).Inv net where
  processes := fun i => Process.initial_honest (start i)
  inFlight := nofun

theorem Inv.set (h : s.Inv net) {i : Fin n} {p : Process}
    (hp : p.Honest net.addr (net.sockets i) (net.addr i)) (j : Fin n) :
    ((s.set i p).processes j).Honest net.addr (net.sockets j) (net.addr j) := by
  show (Function.update s.processes i p j).Honest net.addr (net.sockets j) (net.addr j)
  rcases eq_or_ne j i with rfl | hne
  · rw [Function.update_self]
    exact hp
  · rw [Function.update_of_ne hne]
    exact h.processes j

theorem Inv.bcastStep (h : s.Inv net) {i : Fin n} {l : Bcast.Label} (hl : ∀ msg, l ≠ .call msg)
    (hstep : s.bcastStep net i l = some s') : s'.Inv net := by
  obtain ⟨p, hp, rfl⟩ := Option.map_eq_some_iff.mp hstep
  obtain ⟨hhonest, -, sent, hsent, hall⟩ := (h.processes i).bcastStep hl hp
  refine ⟨h.set hhonest, fun d hd => ?_⟩
  rcases List.mem_append.mp hd with hd | hd
  · exact h.inFlight d hd
  · rw [hsent, List.drop_left] at hd
    obtain ⟨⟨index, msg⟩, hmem, hd⟩ := List.mem_filterMap.mp hd
    rw [datagram, Option.dite_none_right_eq_some] at hd
    obtain ⟨hindex, hd⟩ := hd
    obtain rfl := Option.some.inj hd
    exact hall _ hmem

theorem inv_step {l : Label n} (h : s.Inv net) (hl : s.Orderly net l)
    (hstep : s.step net l = some s') : s'.Inv net := by
  cases l with
  | leader i now =>
      obtain ⟨p, hp, rfl⟩ := Option.map_eq_some_iff.mp hstep
      exact ⟨h.set ((h.processes i).leaderStep hl hp), h.inFlight⟩
  | callback i now counterFirst =>
      obtain ⟨p, hp, rfl⟩ := Option.map_eq_some_iff.mp hstep
      exact ⟨h.set ((h.processes i).callbackStep hp), h.inFlight⟩
  | timeout i => exact h.bcastStep (by simp) hstep
  | sendto i ok => exact h.bcastStep (by simp) hstep
  | loop i => exact h.bcastStep (by simp) hstep
  | receive d =>
      rw [step, Option.ite_none_right_eq_some, Option.map_eq_some_iff] at hstep
      obtain ⟨hd, p, hp, rfl⟩ := hstep
      obtain ⟨hhonest, hidle, -⟩ := (h.processes d.dst).bcastStep (by simp) hp
      exact ⟨h.set (hhonest.callFunction hidle (h.inFlight d hd)),
        fun e he => h.inFlight e (List.mem_of_mem_erase he)⟩

/-- `k` steps of `leader_loop` at `i`. -/
def leaderSteps (i : Fin 2) (sec : ℤ) (k : ℕ) : List (Label 2) :=
  List.replicate k (.leader i ⟨sec, 0⟩)

/-- A controller starts a round, and sends its proposal to both. -/
def propose (i : Fin 2) (sec : ℤ) : List (Label 2) :=
  leaderSteps i sec 13 ++ [.loop i, .timeout i, .loop i, .loop i, .sendto i true, .loop i, .loop i,
    .sendto i true, .loop i]

end System

end A2PM.Leader
