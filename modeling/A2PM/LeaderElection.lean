/-
A2PM/LeaderElection.lean

The leader election of one controller, by the calls of its functions:
`controller/leader.c`, with `broadcast` of `controller/broadcast.c` and
`timer.h`.

`leader_loop` goes from call to call, and messages are handled in between, each
in one step; a socket is known by the controller that it is connected to.
`LeaderState` has the same functions on the variables of the source, and
`LeaderThreads` has the accesses of which the calls consist.
-/
import A2PM.MachineInt
import Mathlib.Logic.Function.Basic
import Mathlib.Order.Basic

namespace A2PM.Leader

open MachineInt

/-! ### Timers -/

/-- `struct timeval`. -/
structure Timeval where
  sec : ℤ
  usec : ℤ
  deriving DecidableEq

def Timeval.milli (t : Timeval) : ℤ := t.sec * 1000 + t.usec.tdiv 1000

/-- `timer_value_milli`, which goes through an `int`. -/
def timerValueMilli (start now : Timeval) : ℤ := toInt (toInt now.milli - start.milli)

/-- `timer_value_seconds(timer) > threshold`, for a whole number of seconds. -/
def timerExceeds (start now : Timeval) (threshold : ℤ) : Bool :=
  threshold * 1000 < timerValueMilli start now

/-! ### Messages -/

/-- `msg_struct`. -/
structure Msg where
  type : ℤ
  size : ℕ
  payload : ℤ
  deriving DecidableEq

/-- `LEADER_HEARTBEAT`. -/
abbrev leaderHeartbeat : ℤ := 20000

/-- `LEADER_PROPOSE`. -/
abbrev leaderPropose : ℤ := 20001

/-- `LEADER_SUSPECT_THRESHOLD`. -/
abbrev leaderSuspectThreshold : ℤ := 10

/-- `LEADER_PROPOSE_THRESHOLD`. -/
abbrev leaderProposeThreshold : ℤ := 10

/-- `MAX_CONTROLLERS`. -/
abbrev maxControllers : ℕ := 32

/-! ### A controller -/

/-- The place of `leader_loop` in its body. -/
inductive LeaderPc
  /-- Before `suspect_leader`. -/
  | suspecting
  /-- Before the test of `leader_socket`. -/
  | electing
  /-- In `do_leader_election`, before `broadcast`. -/
  | proposing
  /-- Before the test of `am_i_leader`. -/
  | beating
  deriving DecidableEq

structure Controller (n : ℕ) where
  pc : LeaderPc
  /-- `none` is -1. -/
  leaderSocket : Option (Fin n)
  amILeader : Bool
  heartbeat : Timeval
  leaderProposeTimer : Timeval
  agreementRunning : Bool
  /-- The first `last_proposal` entries of `leader_proposals` and
  `leader_proposals_sockets`. -/
  proposals : List (ℤ × Fin n)
  msgTemp : Msg
  newBcastMessage : Bool
  deriving DecidableEq

namespace Controller

variable {n : ℕ}

/-- A controller when `initialize_leader` has started its timer and created
the threads. -/
def initial (start : Timeval) : Controller n where
  pc := .suspecting
  leaderSocket := none
  amILeader := false
  heartbeat := start
  leaderProposeTimer := ⟨0, 0⟩
  agreementRunning := false
  proposals := []
  msgTemp := ⟨0, 0, 0⟩
  newBcastMessage := false

/-- `suspect_leader`. -/
def suspectLeader (c : Controller n) (now : Timeval) : Controller n :=
  if timerExceeds c.heartbeat now leaderSuspectThreshold then
    { c with leaderSocket := none, amILeader := false }
  else c

/-- The loop of `do_agreement_reduction`, from `id` and `leader` on. -/
def greatestFrom : List (ℤ × Fin n) → ℤ → Option (Fin n) → Option (Fin n)
  | [], _, leader => leader
  | (v, socket) :: rest, id, leader =>
      if v > id then greatestFrom rest v (some socket) else greatestFrom rest id leader

/-- `do_agreement_reduction` goes on if all controllers have proposed, and
also if the propose period is over. -/
def ReductionDue (c : Controller n) (now : Timeval) : Prop :=
  ¬ (c.proposals.length < n ∧
    timerExceeds c.leaderProposeTimer now leaderProposeThreshold = false)

instance (c : Controller n) (now : Timeval) : Decidable (c.ReductionDue now) :=
  inferInstanceAs (Decidable (¬ _))

/-- `do_agreement_reduction`. -/
def doAgreementReduction (c : Controller n) (now : Timeval) : Controller n :=
  if c.ReductionDue now then
    match greatestFrom c.proposals 0 none with
    | none => { c with agreementRunning := false }
    | some leader => { c with agreementRunning := false, leaderSocket := some leader }
  else c

/-- `broadcast`. -/
def broadcast (c : Controller n) (type : ℤ) (payload : ℤ) (size : ℕ) : Controller n :=
  { c with msgTemp := ⟨type, size, payload⟩, newBcastMessage := true }

/-- The start of a round in `do_leader_election`. -/
def startRound (c : Controller n) (now : Timeval) : Controller n :=
  { c with agreementRunning := true, proposals := [], leaderProposeTimer := now }

/-- The next step of `leader_loop`, at the controller with address `myIntIp`. -/
def leaderLoop (myIntIp : ℤ) (c : Controller n) (now : Timeval) : Controller n :=
  match c.pc with
  | .suspecting => { c.suspectLeader now with pc := .electing }
  | .electing =>
      if c.leaderSocket = none then
        if c.agreementRunning then { c.doAgreementReduction now with pc := .beating }
        else { c.startRound now with pc := .proposing }
      else { c with pc := .beating }
  | .proposing => { c.broadcast leaderPropose myIntIp 8 with pc := .beating }
  | .beating =>
      if c.amILeader then { c.broadcast leaderHeartbeat 0 0 with pc := .suspecting }
      else { c with pc := .suspecting }

/-- `call_function`, for a message from `src`.  `leader_propose` has room for
`MAX_CONTROLLERS` proposals, and does not check it. -/
def callFunction (c : Controller n) (src : Fin n) (m : Msg) (now : Timeval) :
    Option (Controller n) :=
  if m.type = leaderHeartbeat then some { c with heartbeat := now }
  else if m.type = leaderPropose then
    if c.proposals.length < maxControllers then
      some { c with proposals := c.proposals ++ [(m.payload, src)] }
    else none
  else some c

end Controller

end A2PM.Leader
