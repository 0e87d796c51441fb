/-
A2PM/LeaderThreads.lean

The two threads of one controller, by their accesses to the variables that
they share: `leader_loop` of `controller/leader.c`, and `broadcast_loop` of
`controller/broadcast.c` with the callbacks of `leader.c` that it calls.

There is no lock.  The callbacks write the proposals, their counter
`last_proposal` and the timer `heartbeat`, which `leader_loop` reads, and
`leader_loop` resets the counter.  `leader_propose` reads the counter once for
the socket and once for the proposal, and C does not order the two stores of
`leader_proposals[last_proposal++] = content`; a step takes either of them
first.  What the threads share in `broadcast.c` is as in `Broadcast`.

If nothing comes between them, the steps of a call do what `LeaderState` has
the call do (`run_leaderLoop`, `run_callFunction`).
-/
import A2PM.Broadcast
import A2PM.LeaderState

namespace A2PM.Leader

open MachineInt Transition
open Broadcast (Bcast)

/-! ### The threads -/

/-- Where `leader_loop` is; `id`, `leader` and `i` are the variables of
`do_agreement_reduction`. -/
inductive LeaderPoint
  /-- In `suspect_leader`, before the clock and `heartbeat.tv_sec`. -/
  | readSec
  /-- Before `heartbeat.tv_usec`. -/
  | readUsec (sec : ℤ) (now : Timeval)
  /-- `leader_socket = -1`. -/
  | dropLeader
  /-- `am_i_leader = false`, if it is true. -/
  | dropRole
  /-- `leader_socket == -1`. -/
  | testLeader
  /-- `agreement_running`. -/
  | testRunning
  /-- The test for an early return of `do_agreement_reduction`. -/
  | testDue
  /-- `i < last_proposal`. -/
  | testIndex (i : ℕ) (id leader : ℤ)
  /-- `leader_proposals[i] > id`. -/
  | testProposal (i : ℕ) (id leader : ℤ)
  /-- `id = leader_proposals[i]`. -/
  | readId (i : ℕ)
  /-- `leader = leader_proposals_sockets[i]`. -/
  | readSocket (i : ℕ) (id : ℤ)
  /-- `agreement_running = false`. -/
  | stopRunning (leader : ℤ)
  /-- `leader_socket = leader`. -/
  | setLeader (leader : ℤ)
  /-- `agreement_running = true`. -/
  | startRunning
  /-- `last_proposal = 0`. -/
  | resetProposals
  /-- `timer_start(leader_propose_timer)`. -/
  | startTimer
  /-- The call of `broadcast` in `do_leader_election`, and its body. -/
  | propose
  | proposing
  /-- `am_i_leader`. -/
  | testRole
  /-- The body of the second call of `broadcast`. -/
  | beating
  deriving DecidableEq

/-- Where `broadcast_loop` is in a callback; `k` is the `last_proposal` that it
has read. -/
inductive CallbackPoint
  /-- Not in a callback. -/
  | idle
  /-- In `leader_heartbeat`, before the clock and `heartbeat.tv_sec`. -/
  | storeSec
  /-- Before `heartbeat.tv_usec`. -/
  | storeUsec (now : Timeval)
  /-- In `leader_propose`, before `last_proposal` as the index of the socket. -/
  | readIndex (sock content : ℤ)
  /-- `leader_proposals_sockets[k] = sock`. -/
  | storeSocket (k : ℕ) (sock content : ℤ)
  /-- `last_proposal` as the index of the proposal. -/
  | readCounter (content : ℤ)
  /-- One of the two stores that are left. -/
  | storeEither (k : ℕ) (content : ℤ)
  /-- `leader_proposals[k] = content`, after `last_proposal = k + 1`. -/
  | storeProposal (k : ℕ) (content : ℤ)
  /-- `last_proposal = k + 1`, after `leader_proposals[k] = content`. -/
  | storeCounter (k : ℕ)
  deriving DecidableEq

/-- The variables of `leader.c` and `broadcast.c` at one controller. -/
structure Process where
  /-- -1 is none. -/
  leaderSocket : ℤ
  amILeader : Bool
  heartbeat : Timeval
  leaderProposeTimer : Timeval
  agreementRunning : Bool
  leaderProposals : ℕ → ℤ
  leaderProposalsSockets : ℕ → ℤ
  lastProposal : ℕ
  bcast : Bcast
  point : LeaderPoint
  callback : CallbackPoint

namespace Process

/-- When `initialize_leader` has started its timer; all else is zero. -/
def initial (start : Timeval) : Process where
  leaderSocket := -1
  amILeader := false
  heartbeat := start
  leaderProposeTimer := ⟨0, 0⟩
  agreementRunning := false
  leaderProposals := fun _ => 0
  leaderProposalsSockets := fun _ => 0
  lastProposal := 0
  bcast := .initial
  point := .readSec
  callback := .idle

/-- `broadcast` is called. -/
def broadcast (controllers : ℕ) (p : Process) (msg : Msg) (point : LeaderPoint) : Option Process :=
  (p.bcast.step controllers (.call msg)).map fun bcast => { p with bcast := bcast, point := point }

/-- The next statement of `broadcast`, and `next` after the last one. -/
def post (p : Process) (next : LeaderPoint) : Option Process :=
  p.bcast.post.map fun bcast =>
    { p with bcast := bcast, point := if bcast.call = .idle then next else p.point }

/-- The next step of `leader_loop`, at the controller with address `myIntIp`;
`now` is what the clock shows. -/
def leaderStep (controllers : ℕ) (myIntIp : ℤ) (p : Process) (now : Timeval) : Option Process :=
  match p.point with
  | .readSec => some { p with point := .readUsec p.heartbeat.sec now }
  | .readUsec sec now =>
      some { p with
        point :=
          if timerExceeds ⟨sec, p.heartbeat.usec⟩ now leaderSuspectThreshold then .dropLeader
          else .testLeader }
  | .dropLeader => some { p with leaderSocket := -1, point := .dropRole }
  | .dropRole => some { p with amILeader := false, point := .testLeader }
  | .testLeader =>
      some { p with point := if p.leaderSocket = -1 then .testRunning else .testRole }
  | .testRunning => some { p with point := if p.agreementRunning then .testDue else .startRunning }
  | .testDue =>
      some { p with
        point :=
          if p.lastProposal < controllers ∧
            timerExceeds p.leaderProposeTimer now leaderProposeThreshold = false then .testRole
          else .testIndex 0 0 (-1) }
  | .testIndex i id leader =>
      some { p with
        point := if i < p.lastProposal then .testProposal i id leader else .stopRunning leader }
  | .testProposal i id leader =>
      some { p with
        point := if p.leaderProposals i > id then .readId i else .testIndex (i + 1) id leader }
  | .readId i => some { p with point := .readSocket i (p.leaderProposals i) }
  | .readSocket i id =>
      some { p with point := .testIndex (i + 1) id (p.leaderProposalsSockets i) }
  | .stopRunning leader =>
      some { p with
        agreementRunning := false
        point := if leader = -1 then .testRole else .setLeader leader }
  | .setLeader leader => some { p with leaderSocket := leader, point := .testRole }
  | .startRunning => some { p with agreementRunning := true, point := .resetProposals }
  | .resetProposals => some { p with lastProposal := 0, point := .startTimer }
  | .startTimer => some { p with leaderProposeTimer := now, point := .propose }
  | .propose => p.broadcast controllers ⟨leaderPropose, 8, myIntIp⟩ .proposing
  | .proposing => p.post .testRole
  | .testRole =>
      if p.amILeader then p.broadcast controllers ⟨leaderHeartbeat, 0, 0⟩ .beating
      else some { p with point := .readSec }
  | .beating => p.post .readSec

/-- `leader_proposals[k] = content`; `none` if that is behind the array. -/
def storeProposal (p : Process) (k : ℕ) (content : ℤ) (callback : CallbackPoint) :
    Option Process :=
  if k < maxControllers then
    some { p with
      leaderProposals := Function.update p.leaderProposals k content
      callback := callback }
  else none

/-- `last_proposal = k + 1`. -/
def storeCounter (p : Process) (k : ℕ) (callback : CallbackPoint) : Option Process :=
  some { p with lastProposal := k + 1, callback := callback }

/-- The next step of a callback. -/
def callbackStep (p : Process) (now : Timeval) (counterFirst : Bool) : Option Process :=
  match p.callback with
  | .idle => none
  | .storeSec =>
      some { p with
        heartbeat := { p.heartbeat with sec := now.sec }
        callback := .storeUsec now }
  | .storeUsec now =>
      some { p with heartbeat := { p.heartbeat with usec := now.usec }, callback := .idle }
  | .readIndex sock content =>
      some { p with callback := .storeSocket p.lastProposal sock content }
  | .storeSocket k sock content =>
      if k < maxControllers then
        some { p with
          leaderProposalsSockets := Function.update p.leaderProposalsSockets k sock
          callback := .readCounter content }
      else none
  | .readCounter content => some { p with callback := .storeEither p.lastProposal content }
  | .storeEither k content =>
      if counterFirst then p.storeCounter k (.storeProposal k content)
      else p.storeProposal k content (.storeCounter k)
  | .storeProposal k content => p.storeProposal k content .idle
  | .storeCounter k => p.storeCounter k .idle

/-- `call_function`, with the callbacks that `initialize_leader` registers. -/
def callFunction (p : Process) (sock : ℤ) (m : Msg) : Process :=
  { p with
    callback :=
      if m.type = leaderHeartbeat then .storeSec
      else if m.type = leaderPropose then .readIndex sock m.payload
      else .idle }

/-- A step of `broadcast_loop` outside of the callbacks. -/
def bcastStep (controllers : ℕ) (p : Process) (l : Bcast.Label) : Option Process :=
  if p.callback = .idle then
    (p.bcast.step controllers l).map fun bcast => { p with bcast := bcast }
  else none

/-! ### Without interleaving -/

/-- What `LeaderState` has of the variables. -/
def state (p : Process) (pc : LeaderPc) : LeaderState where
  pc := pc
  leaderSocket := p.leaderSocket
  amILeader := p.amILeader
  heartbeat := p.heartbeat
  leaderProposeTimer := p.leaderProposeTimer
  agreementRunning := p.agreementRunning
  leaderProposals := p.leaderProposals
  leaderProposalsSockets := p.leaderProposalsSockets
  lastProposal := p.lastProposal
  msgTemp := p.bcast.msgTemp
  newBcastMessage := p.bcast.newBcastMessage

/-- Where a call of `LeaderState` begins. -/
def callPoint : LeaderPc → LeaderPoint
  | .suspecting => .readSec
  | .electing => .testLeader
  | .proposing => .propose
  | .beating => .testRole

variable {controllers : ℕ} {myIntIp : ℤ} {now : Timeval} {p p' p'' : Process}

/-- Steps of `leader_loop` lead from `p` to `p'`, while the clock shows `now`. -/
def Leads (controllers : ℕ) (myIntIp : ℤ) (now : Timeval) (p p' : Process) : Prop :=
  ∃ k, run (leaderStep controllers myIntIp) p (List.replicate k now) = some p'

theorem Leads.trans (h : Leads controllers myIntIp now p p')
    (h' : Leads controllers myIntIp now p' p'') : Leads controllers myIntIp now p p'' := by
  obtain ⟨k, hk⟩ := h
  obtain ⟨k', hk'⟩ := h'
  refine ⟨k + k', ?_⟩
  rw [← List.replicate_append_replicate]
  exact run_trans hk hk'

/-- The loop of `do_agreement_reduction` does what `search` does. -/
theorem leads_search {k i : ℕ} {id leader : ℤ} (hk : i + k = p.lastProposal)
    (hpoint : p.point = .testIndex i id leader) :
    Leads controllers myIntIp now p { p with
      point := .stopRunning ((List.range' i k).foldl (fun best i => LeaderState.keepGreatest best
        (p.leaderProposals i, p.leaderProposalsSockets i)) (id, leader)).2 } := by
  induction k generalizing p i id leader with
  | zero =>
      have hend : p.lastProposal ≤ i := by omega
      exact ⟨1, by simp [leaderStep, hpoint, hend]⟩
  | succ k ih =>
      have hindex : i < p.lastProposal := by omega
      have hrest : i + 1 + k = p.lastProposal := by omega
      rw [List.range'_succ, List.foldl_cons, LeaderState.keepGreatest]
      split
      next hgreater =>
          have hbody : Leads controllers myIntIp now p { p with
              point := .testIndex (i + 1) (p.leaderProposals i) (p.leaderProposalsSockets i) } :=
            ⟨4, by simp [leaderStep, hpoint, hindex, hgreater]⟩
          exact hbody.trans (ih hrest rfl)
      next hle =>
          have hbody : Leads controllers myIntIp now p { p with
              point := .testIndex (i + 1) id leader } :=
            ⟨2, by simp [leaderStep, hpoint, hindex, hle]⟩
          exact hbody.trans (ih hrest rfl)

/-- `do_agreement_reduction` in one go. -/
theorem leads_doAgreementReduction (controllers : ℕ) (myIntIp : ℤ) (now : Timeval)
    (hpoint : p.point = .testDue) :
    ∃ p', Leads controllers myIntIp now p p' ∧ p'.point = .testRole ∧ p'.bcast = p.bcast ∧
      p'.state .electing = (p.state .electing).doAgreementReduction controllers now := by
  have hdue : (p.state .electing).ReductionDue controllers now ↔
      ¬ (p.lastProposal < controllers ∧
        timerExceeds p.leaderProposeTimer now leaderProposeThreshold = false) := by
    rw [LeaderState.ReductionDue, ← not_lt, ← LeaderState.timerExceeds_iff, Bool.not_eq_true]
    rfl
  simp only [LeaderState.doAgreementReduction, hdue]
  by_cases hearly : p.lastProposal < controllers ∧
      timerExceeds p.leaderProposeTimer now leaderProposeThreshold = false
  · rw [if_neg (not_not_intro hearly)]
    exact ⟨{ p with point := .testRole }, ⟨1, by simp [leaderStep, hpoint, hearly]⟩, rfl, rfl, rfl⟩
  · rw [if_pos hearly]
    have htest : Leads controllers myIntIp now p { p with point := .testIndex 0 0 (-1) } :=
      ⟨1, by simp only [List.replicate, run_cons, run_nil, leaderStep, hpoint, if_neg hearly,
        Option.bind_some]⟩
    have hsearch := htest.trans (leads_search (Nat.zero_add _) rfl)
    rw [← List.range_eq_range'] at hsearch
    change Leads controllers myIntIp now p
      { p with point := .stopRunning (p.state .electing).search.2 } at hsearch
    by_cases hnone : (p.state .electing).search.2 = -1
    · rw [if_pos hnone]
      exact ⟨{ p with agreementRunning := false, point := .testRole },
        hsearch.trans ⟨1, by simp [leaderStep, hnone]⟩, rfl, rfl, rfl⟩
    · rw [if_neg hnone]
      exact ⟨{ p with
          agreementRunning := false
          leaderSocket := (p.state .electing).search.2
          point := .testRole },
        hsearch.trans ⟨2, by simp [leaderStep, hnone]⟩, rfl, rfl, rfl⟩

/-- **A call of `leader_loop`** in one go is that of `LeaderState`. -/
theorem run_leaderLoop {pc : LeaderPc} (hpoint : p.point = callPoint pc)
    (hcall : p.bcast.call = .idle) :
    ∃ p' pc', Leads controllers myIntIp now p p' ∧ p'.point = callPoint pc' ∧
      p'.bcast.call = .idle ∧
      p'.state pc' = (p.state pc).leaderLoop controllers (some myIntIp) now := by
  cases pc with
  | suspecting =>
      have hover := LeaderState.timerExceeds_iff p.heartbeat now leaderSuspectThreshold
      simp only [LeaderState.leaderLoop, state, LeaderState.suspectLeader, ← hover]
      by_cases hexceeds : timerExceeds p.heartbeat now leaderSuspectThreshold = true
      · refine ⟨{ p with leaderSocket := -1, amILeader := false, point := .testLeader }, .electing,
          ⟨4, ?_⟩, rfl, hcall, ?_⟩
        · simp [leaderStep, hpoint, callPoint, hexceeds]
        · rw [if_pos hexceeds]
      · refine ⟨{ p with point := .testLeader }, .electing, ⟨2, ?_⟩, rfl, hcall, ?_⟩
        · simp [leaderStep, hpoint, callPoint, hexceeds]
        · rw [if_neg hexceeds]
  | electing =>
      have hloop : (p.state .electing).leaderLoop controllers (some myIntIp) now =
          if p.leaderSocket = -1 then
            if p.agreementRunning then
              { (p.state .electing).doAgreementReduction controllers now with pc := .beating }
            else { (p.state .electing).startRound now with pc := .proposing }
          else { p.state .electing with pc := .beating } := rfl
      rw [hloop]
      by_cases hvacant : p.leaderSocket = -1
      · by_cases hrunning : p.agreementRunning = true
        · obtain ⟨p', hp', hpoint', hbcast, hstate⟩ :=
            leads_doAgreementReduction (p := { p with point := .testDue }) controllers myIntIp now rfl
          have htest : Leads controllers myIntIp now p { p with point := .testDue } :=
            ⟨2, by simp [leaderStep, hpoint, callPoint, hvacant, hrunning]⟩
          refine ⟨p', .beating, htest.trans hp', hpoint', ?_, ?_⟩
          · rw [hbcast]
            exact hcall
          · rw [if_pos hvacant, if_pos hrunning]
            exact congrArg (fun s : LeaderState => { s with pc := .beating }) hstate
        · rw [if_pos hvacant, if_neg hrunning]
          refine ⟨{ p with
            agreementRunning := true
            lastProposal := 0
            leaderProposeTimer := now
            point := .propose }, .proposing, ⟨5, ?_⟩, rfl, hcall, rfl⟩
          simp [leaderStep, hpoint, callPoint, hvacant, hrunning]
      · rw [if_neg hvacant]
        refine ⟨{ p with point := .testRole }, .beating, ⟨1, ?_⟩, rfl, hcall, rfl⟩
        simp [leaderStep, hpoint, callPoint, hvacant]
  | proposing =>
      refine ⟨{ p with
        bcast := { p.bcast with
          msgTemp := ⟨leaderPropose, 8, myIntIp⟩
          newBcastMessage := true
          posted := p.bcast.posted ++ [⟨leaderPropose, 8, myIntIp⟩]
          call := .idle }
        point := .testRole }, .beating, ⟨5, ?_⟩, rfl, rfl, rfl⟩
      simp [leaderStep, hpoint, callPoint, broadcast, post, hcall, Bcast.step, Bcast.post,
        Broadcast.maxMessage]
  | beating =>
      have hloop : (p.state .beating).leaderLoop controllers (some myIntIp) now =
          if p.amILeader then
            { (p.state .beating).broadcast leaderHeartbeat 0 0 with pc := .suspecting }
          else { p.state .beating with pc := .suspecting } := rfl
      rw [hloop]
      by_cases hrole : p.amILeader = true
      · rw [if_pos hrole]
        refine ⟨{ p with
          bcast := { p.bcast with
            msgTemp := ⟨leaderHeartbeat, 0, 0⟩
            newBcastMessage := true
            posted := p.bcast.posted ++ [⟨leaderHeartbeat, 0, 0⟩]
            call := .idle }
          point := .readSec }, .suspecting, ⟨5, ?_⟩, rfl, rfl, rfl⟩
        simp [leaderStep, hpoint, callPoint, broadcast, post, hcall, hrole, Bcast.step, Bcast.post]
      · rw [if_neg hrole]
        refine ⟨{ p with point := .readSec }, .suspecting, ⟨1, ?_⟩, rfl, hcall, rfl⟩
        simp [leaderStep, hpoint, callPoint, hrole]

/-- **A callback** in one go is that of `LeaderState`. -/
theorem run_callFunction (p : Process) (pc : LeaderPc) (sock : ℤ) (m : Msg) (now : Timeval)
    (counterFirst : Bool) :
    ∃ k, (run (fun p now => callbackStep p now counterFirst) (p.callFunction sock m)
        (List.replicate k now)).map (fun p' => (p'.callback, p'.state pc)) =
      ((p.state pc).callFunction sock m now).map fun s => (.idle, s) := by
  rw [LeaderState.callFunction, callFunction]
  split
  · exact ⟨2, rfl⟩
  · split
    · refine ⟨5, ?_⟩
      by_cases hroom : p.lastProposal < maxControllers
      · cases counterFirst <;>
          simp [callbackStep, storeCounter, storeProposal, LeaderState.leaderPropose, state, hroom]
      · simp [callbackStep, LeaderState.leaderPropose, state, hroom]
    · exact ⟨0, rfl⟩

end Process

end A2PM.Leader
