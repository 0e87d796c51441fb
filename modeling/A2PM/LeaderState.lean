/-
A2PM/LeaderState.lean

The functions of `controller/leader.c` on the variables that they use:
sockets are numbers, with -1 for none, the proposals are in two arrays with
one counter, and a timer is read with the arithmetic of the machine.

`LeaderElection` has the same functions with a list of proposals, and knows a
socket by the controller at its other end.  A step here shows what a step
there does (`Shows.leaderLoop`, `Shows.callFunction`).

The reduction keeps the greatest proposal, so the order in which proposals
have arrived does not matter (`reduction_perm`).  The age of a heartbeat is
right modulo `2 ^ 32` milliseconds only (`suspectLeader_iff`).
-/
import A2PM.LeaderElection
import Mathlib.Algebra.Order.Field.Rat
import Mathlib.Tactic.NormNum

namespace A2PM.Leader

open MachineInt

/-! ### The variables of `leader.c` -/

@[ext] structure LeaderState where
  pc : LeaderPc
  /-- -1 is none. -/
  leaderSocket : ℤ
  amILeader : Bool
  heartbeat : Timeval
  leaderProposeTimer : Timeval
  agreementRunning : Bool
  leaderProposals : ℕ → ℤ
  leaderProposalsSockets : ℕ → ℤ
  lastProposal : ℕ
  msgTemp : Msg
  newBcastMessage : Bool

namespace LeaderState

/-- When `initialize_leader` has started its timer; all else is zero. -/
def initial (start : Timeval) : LeaderState where
  pc := .suspecting
  leaderSocket := -1
  amILeader := false
  heartbeat := start
  leaderProposeTimer := ⟨0, 0⟩
  agreementRunning := false
  leaderProposals := fun _ => 0
  leaderProposalsSockets := fun _ => 0
  lastProposal := 0
  msgTemp := ⟨0, 0, 0⟩
  newBcastMessage := false

/-- `tv_sec * 1000 + tv_usec / 1000`, a `long`. -/
def milliLong (t : Timeval) : ℤ := toLong (toLong (t.sec * 1000) + t.usec.tdiv 1000)

/-- `timer_value_milli`; `__rs_timedif` is an `int`. -/
def timerValueMilli (start now : Timeval) : ℤ :=
  let timedif := toInt (milliLong now)
  toInt (toLong (timedif - milliLong start))

/-- `timer_value_seconds`, with an exact `double`. -/
def timerValueSeconds (start now : Timeval) : ℚ := timerValueMilli start now / 1000

/-- `suspect_leader`. -/
def suspectLeader (s : LeaderState) (now : Timeval) : LeaderState :=
  if (leaderSuspectThreshold : ℚ) < timerValueSeconds s.heartbeat now then
    { s with leaderSocket := -1, amILeader := false }
  else s

/-- The body of the loop of `do_agreement_reduction`, on `id` and `leader`. -/
def keepGreatest (best proposal : ℤ × ℤ) : ℤ × ℤ :=
  if proposal.1 > best.1 then proposal else best

/-- `id` and `leader` after the loop. -/
def search (s : LeaderState) : ℤ × ℤ :=
  (List.range s.lastProposal).foldl
    (fun best i => keepGreatest best (s.leaderProposals i, s.leaderProposalsSockets i)) (0, -1)

/-- `do_agreement_reduction` does not return early. -/
def ReductionDue (controllers : ℕ) (s : LeaderState) (now : Timeval) : Prop :=
  ¬ (s.lastProposal < controllers ∧
    timerValueSeconds s.leaderProposeTimer now ≤ (leaderProposeThreshold : ℚ))

instance (controllers : ℕ) (s : LeaderState) (now : Timeval) :
    Decidable (s.ReductionDue controllers now) :=
  inferInstanceAs (Decidable (¬ _))

/-- `do_agreement_reduction`. -/
def doAgreementReduction (controllers : ℕ) (s : LeaderState) (now : Timeval) : LeaderState :=
  if s.ReductionDue controllers now then
    let leader := s.search.2
    if leader = -1 then { s with agreementRunning := false }
    else { s with agreementRunning := false, leaderSocket := leader }
  else s

/-- The start of a round in `do_leader_election`. -/
def startRound (s : LeaderState) (now : Timeval) : LeaderState :=
  { s with agreementRunning := true, lastProposal := 0, leaderProposeTimer := now }

/-- `broadcast`, whose `size` is small. -/
def broadcast (s : LeaderState) (type payload : ℤ) (size : ℕ) : LeaderState :=
  { s with msgTemp := ⟨type, size, payload⟩, newBcastMessage := true }

/-- The rest of `do_leader_election`; without an address on `eth0` the
controller does not take part. -/
def proposeOwn (s : LeaderState) : Option ℤ → LeaderState
  | some myIntIp => s.broadcast Leader.leaderPropose myIntIp 8
  | none => s

/-- The next step of `leader_loop`. -/
def leaderLoop (controllers : ℕ) (myIntIp : Option ℤ) (s : LeaderState) (now : Timeval) :
    LeaderState :=
  match s.pc with
  | .suspecting => { s.suspectLeader now with pc := .electing }
  | .electing =>
      if s.leaderSocket = -1 then
        if s.agreementRunning then { s.doAgreementReduction controllers now with pc := .beating }
        else { s.startRound now with pc := .proposing }
      else { s with pc := .beating }
  | .proposing => { s.proposeOwn myIntIp with pc := .beating }
  | .beating =>
      if s.amILeader then { s.broadcast Leader.leaderHeartbeat 0 0 with pc := .suspecting }
      else { s with pc := .suspecting }

/-- `leader_propose`; `none` where it stores behind the arrays. -/
def leaderPropose (s : LeaderState) (sock content : ℤ) : Option LeaderState :=
  -- the source does not compare
  if s.lastProposal < maxControllers then
    some { s with
      leaderProposalsSockets := Function.update s.leaderProposalsSockets s.lastProposal sock
      leaderProposals := Function.update s.leaderProposals s.lastProposal content
      lastProposal := s.lastProposal + 1 }
  else none

/-- `leader_heartbeat`. -/
def leaderHeartbeat (s : LeaderState) (now : Timeval) : LeaderState := { s with heartbeat := now }

/-- `call_function`, with the callbacks that `initialize_leader` registers. -/
def callFunction (s : LeaderState) (sock : ℤ) (m : Msg) (now : Timeval) : Option LeaderState :=
  if m.type = Leader.leaderHeartbeat then some (s.leaderHeartbeat now)
  else if m.type = Leader.leaderPropose then s.leaderPropose sock m.payload
  else some s

/-- The proposals that have been recorded, with their sockets. -/
def recorded (s : LeaderState) : List (ℤ × ℤ) :=
  (List.range s.lastProposal).map fun i => (s.leaderProposals i, s.leaderProposalsSockets i)

/-! ### Timers -/

theorem toInt_milliLong (t : Timeval) : toInt (milliLong t) = toInt t.milli := by
  rw [milliLong, toInt_toLong, toInt_toLong_add, Timeval.milli]

/-- The difference of two `long`s, in an `int`, is that of the times. -/
theorem timerValueMilli_eq (start now : Timeval) :
    timerValueMilli start now = toInt (now.milli - start.milli) := by
  rw [timerValueMilli, toInt_toLong, toInt_milliLong, toInt_toInt_sub, ← toInt_sub_toInt,
    toInt_milliLong, toInt_sub_toInt]

/-- The threshold is compared with whole milliseconds. -/
theorem lt_timerValueSeconds_iff (start now : Timeval) (threshold : ℤ) :
    (threshold : ℚ) < timerValueSeconds start now ↔
      threshold * 1000 < toInt (now.milli - start.milli) := by
  rw [timerValueSeconds, timerValueMilli_eq, lt_div_iff₀ (by norm_num)]
  exact_mod_cast Iff.rfl

theorem timerExceeds_iff (start now : Timeval) (threshold : ℤ) :
    timerExceeds start now threshold = true ↔
      (threshold : ℚ) < timerValueSeconds start now := by
  rw [lt_timerValueSeconds_iff, timerExceeds, Leader.timerValueMilli, decide_eq_true_iff,
    toInt_toInt_sub]

/-! ### The recorded proposals -/

@[simp] theorem length_recorded (s : LeaderState) : s.recorded.length = s.lastProposal := by
  rw [recorded, List.length_map, List.length_range]

/-- A socket is not taken for none. -/
theorem socket_ne {sock : ℤ} (h : 0 ≤ sock) : sock ≠ -1 := by omega

/-- The loop goes over the recorded proposals. -/
theorem search_eq (s : LeaderState) : s.search = s.recorded.foldl keepGreatest (0, -1) :=
  List.foldl_map.symm

/-- `leader_propose` records a proposal, if there is room, and nothing else. -/
theorem leaderPropose_eq_some {s s' : LeaderState} {sock content : ℤ}
    (h : s.leaderPropose sock content = some s') :
    s.lastProposal < maxControllers ∧ s'.recorded = s.recorded ++ [(content, sock)] ∧
      s' = { s with
        leaderProposals := s'.leaderProposals
        leaderProposalsSockets := s'.leaderProposalsSockets
        lastProposal := s.lastProposal + 1 } := by
  rw [leaderPropose, Option.ite_none_right_eq_some] at h
  obtain ⟨hroom, hs'⟩ := h
  obtain rfl := Option.some.inj hs'
  refine ⟨hroom, ?_, rfl⟩
  have hold : ∀ i ∈ List.range s.lastProposal, i ≠ s.lastProposal := fun i hi =>
    Nat.ne_of_lt (List.mem_range.mp hi)
  show List.map (fun i => (Function.update s.leaderProposals s.lastProposal content i,
    Function.update s.leaderProposalsSockets s.lastProposal sock i))
      (List.range (s.lastProposal + 1)) = _
  rw [List.range_succ, List.map_append, List.map_singleton, Function.update_self,
    Function.update_self, recorded]
  congr 1
  apply List.map_congr_left
  intro i hi
  rw [Function.update_of_ne (hold i hi), Function.update_of_ne (hold i hi)]

/-! ### The model on lists -/

/-- The variables show this controller, whose sockets are known by the
controllers at their other ends. -/
structure Shows {n : ℕ} (sockets : Fin n → ℤ) (s : LeaderState) (c : Controller n) : Prop where
  pc : s.pc = c.pc
  leaderSocket : s.leaderSocket = c.leaderSocket.elim (-1) sockets
  amILeader : s.amILeader = c.amILeader
  heartbeat : s.heartbeat = c.heartbeat
  leaderProposeTimer : s.leaderProposeTimer = c.leaderProposeTimer
  agreementRunning : s.agreementRunning = c.agreementRunning
  recorded : s.recorded = c.proposals.map fun p => (p.1, sockets p.2)
  msgTemp : s.msgTemp = c.msgTemp
  newBcastMessage : s.newBcastMessage = c.newBcastMessage

namespace Shows

variable {n : ℕ} {sockets : Fin n → ℤ} {s : LeaderState} {c : Controller n}

theorem initial (start : Timeval) :
    Shows sockets (LeaderState.initial start) (Controller.initial start) :=
  ⟨rfl, rfl, rfl, rfl, rfl, rfl, rfl, rfl, rfl⟩

theorem lastProposal (h : Shows sockets s c) : s.lastProposal = c.proposals.length := by
  rw [← length_recorded, h.recorded, List.length_map]

/-- The two loops of the reduction. -/
theorem foldl_keepGreatest (ps : List (ℤ × Fin n)) (id : ℤ) (leader : Option (Fin n)) :
    ((ps.map fun p => (p.1, sockets p.2)).foldl keepGreatest (id, leader.elim (-1) sockets)).2 =
      (Controller.greatestFrom ps id leader).elim (-1) sockets := by
  induction ps generalizing id leader with
  | nil => rfl
  | cons p ps ih =>
      rw [List.map_cons, List.foldl_cons, Controller.greatestFrom, keepGreatest]
      split
      · exact ih p.1 (some p.2)
      · exact ih id leader

theorem search (h : Shows sockets s c) :
    s.search.2 = (Controller.greatestFrom c.proposals 0 none).elim (-1) sockets := by
  rw [search_eq, h.recorded]
  exact foldl_keepGreatest c.proposals 0 none

theorem reductionDue_iff (h : Shows sockets s c) (now : Timeval) :
    s.ReductionDue n now ↔ c.ReductionDue now := by
  rw [ReductionDue, Controller.ReductionDue, h.lastProposal, h.leaderProposeTimer, ← not_lt,
    ← timerExceeds_iff, Bool.not_eq_true]

theorem suspectLeader (h : Shows sockets s c) (now : Timeval) :
    Shows sockets (s.suspectLeader now) (c.suspectLeader now) := by
  have hiff : (leaderSuspectThreshold : ℚ) < timerValueSeconds s.heartbeat now ↔
      timerExceeds c.heartbeat now leaderSuspectThreshold = true := by
    rw [h.heartbeat, timerExceeds_iff]
  simp only [LeaderState.suspectLeader, Controller.suspectLeader, hiff]
  split
  · exact { h with leaderSocket := rfl, amILeader := rfl }
  · exact h

theorem doAgreementReduction (h : Shows sockets s c) (hsockets : ∀ i, 0 ≤ sockets i)
    (now : Timeval) :
    Shows sockets (s.doAgreementReduction n now) (c.doAgreementReduction now) := by
  simp only [LeaderState.doAgreementReduction, Controller.doAgreementReduction,
    h.reductionDue_iff, h.search]
  split
  · cases Controller.greatestFrom c.proposals 0 none with
    | none => exact { h with agreementRunning := rfl }
    | some leader =>
        rw [Option.elim_some, if_neg (socket_ne (hsockets leader))]
        exact { h with agreementRunning := rfl, leaderSocket := rfl }
  · exact h

theorem broadcast (h : Shows sockets s c) (type payload : ℤ) (size : ℕ) :
    Shows sockets (s.broadcast type payload size) (c.broadcast type payload size) :=
  { h with msgTemp := rfl, newBcastMessage := rfl }

/-- **A step of `leader_loop`** on the variables is one of the controller. -/
theorem leaderLoop (h : Shows sockets s c) (hsockets : ∀ i, 0 ≤ sockets i) (myIntIp : ℤ)
    (now : Timeval) :
    Shows sockets (s.leaderLoop n (some myIntIp) now) (c.leaderLoop myIntIp now) := by
  have hvacant : s.leaderSocket = -1 ↔ c.leaderSocket = none := by
    rw [h.leaderSocket]
    cases c.leaderSocket with
    | none => exact iff_of_true rfl rfl
    | some i => exact iff_of_false (socket_ne (hsockets i)) (Option.some_ne_none i)
  rw [LeaderState.leaderLoop, Controller.leaderLoop, h.pc]
  cases c.pc with
  | suspecting => exact { h.suspectLeader now with pc := rfl }
  | electing =>
      show Shows sockets (if s.leaderSocket = -1 then _ else _)
        (if c.leaderSocket = none then _ else _)
      by_cases hnone : s.leaderSocket = -1
      · rw [if_pos hnone, if_pos (hvacant.mp hnone)]
        by_cases hrunning : s.agreementRunning = true
        · rw [if_pos hrunning, if_pos (h.agreementRunning ▸ hrunning)]
          exact { h.doAgreementReduction hsockets now with pc := rfl }
        · rw [if_neg hrunning, if_neg (h.agreementRunning ▸ hrunning)]
          exact { h with
            pc := rfl, agreementRunning := rfl, leaderProposeTimer := rfl, recorded := rfl }
      · rw [if_neg hnone, if_neg (hvacant.not.mp hnone)]
        exact { h with pc := rfl }
  | proposing => exact { h.broadcast Leader.leaderPropose myIntIp 8 with pc := rfl }
  | beating =>
      show Shows sockets (if s.amILeader = true then _ else _)
        (if c.amILeader = true then _ else _)
      by_cases hrole : s.amILeader = true
      · rw [if_pos hrole, if_pos (h.amILeader ▸ hrole)]
        exact { h.broadcast Leader.leaderHeartbeat 0 0 with pc := rfl }
      · rw [if_neg hrole, if_neg (h.amILeader ▸ hrole)]
        exact { h with pc := rfl }

/-- **A callback** on the variables is one of the controller. -/
theorem callFunction (h : Shows sockets s c) (src : Fin n) (m : Msg) (now : Timeval) :
    Option.Rel (Shows sockets) (s.callFunction (sockets src) m now) (c.callFunction src m now) := by
  rw [LeaderState.callFunction, Controller.callFunction]
  split
  · exact .some { h with heartbeat := rfl }
  · split
    · cases hpropose : s.leaderPropose (sockets src) m.payload with
      | none =>
          rw [LeaderState.leaderPropose, ite_eq_right_iff] at hpropose
          have hfull : ¬ c.proposals.length < maxControllers := by
            rw [← h.lastProposal]
            exact fun hroom => Option.some_ne_none _ (hpropose hroom)
          rw [if_neg hfull]
          exact .none
      | some s' =>
          obtain ⟨hroom, hrecorded, hs'⟩ := leaderPropose_eq_some hpropose
          rw [if_pos (h.lastProposal ▸ hroom)]
          have hproposals : s'.recorded =
              (c.proposals ++ [(m.payload, src)]).map fun p => (p.1, sockets p.2) := by
            rw [hrecorded, h.recorded, List.map_append, List.map_singleton]
          rw [hs'] at hproposals ⊢
          exact .some { h with recorded := hproposals }
    · exact .some h

end Shows

/-! ### The order of the proposals -/

theorem le_keepGreatest (best p : ℤ × ℤ) :
    best.1 ≤ (keepGreatest best p).1 ∧ p.1 ≤ (keepGreatest best p).1 := by
  rw [keepGreatest]
  split
  next hgreater => exact ⟨le_of_lt hgreater, le_refl _⟩
  next hle => exact ⟨le_refl _, not_lt.mp hle⟩

theorem keepGreatest_mem (best p : ℤ × ℤ) : keepGreatest best p ∈ [best, p] := by
  rw [keepGreatest]
  split
  · exact List.mem_cons_of_mem _ List.mem_cons_self
  · exact List.mem_cons_self

/-- What the loop keeps is one of those that it has seen, and the greatest. -/
theorem foldl_keepGreatest_spec (ps : List (ℤ × ℤ)) (best : ℤ × ℤ) :
    ps.foldl keepGreatest best ∈ best :: ps ∧
      ∀ p ∈ best :: ps, p.1 ≤ (ps.foldl keepGreatest best).1 := by
  induction ps generalizing best with
  | nil =>
      refine ⟨List.mem_cons_self, fun p hp => ?_⟩
      rw [List.mem_singleton.mp hp]
      exact le_refl _
  | cons q ps ih =>
      rw [List.foldl_cons]
      obtain ⟨hmem, hall⟩ := ih (keepGreatest best q)
      obtain ⟨hkept, hrest⟩ := List.forall_mem_cons.mp hall
      obtain ⟨hbest, hq⟩ := le_keepGreatest best q
      constructor
      · rcases List.mem_cons.mp hmem with hkeep | hmem
        · rw [hkeep]
          exact List.mem_append_left ps (keepGreatest_mem best q)
        · exact List.mem_cons_of_mem _ (List.mem_cons_of_mem _ hmem)
      · exact List.forall_mem_cons.mpr
          ⟨hbest.trans hkept, List.forall_mem_cons.mpr ⟨hq.trans hkept, hrest⟩⟩

/-- `leader_propose` for each of the proposals, `id` and socket, in turn. -/
def recordAll (s : LeaderState) (ps : List (ℤ × ℤ)) : Option LeaderState :=
  ps.foldlM (fun s p => s.leaderPropose p.2 p.1) s

/-- All proposals that there is room for are recorded, and nothing else
changes. -/
theorem exists_recordAll {s : LeaderState} {ps : List (ℤ × ℤ)}
    (h : s.lastProposal + ps.length ≤ maxControllers) :
    ∃ s', s.recordAll ps = some s' ∧ s'.recorded = s.recorded ++ ps ∧
      s' = { s with
        leaderProposals := s'.leaderProposals
        leaderProposalsSockets := s'.leaderProposalsSockets
        lastProposal := s.lastProposal + ps.length } := by
  induction ps generalizing s with
  | nil => exact ⟨s, rfl, (List.append_nil _).symm, rfl⟩
  | cons p ps ih =>
      rw [List.length_cons] at h
      cases hpropose : s.leaderPropose p.2 p.1 with
      | none =>
          rw [leaderPropose, if_pos (by omega)] at hpropose
          cases hpropose
      | some s₁ =>
          obtain ⟨-, hrecorded, hs₁⟩ := leaderPropose_eq_some hpropose
          have hlast : s₁.lastProposal = s.lastProposal + 1 := by rw [hs₁]
          obtain ⟨s', hs', hall, hframe⟩ := ih (s := s₁) (by omega)
          refine ⟨s', ?_, ?_, ?_⟩
          · rw [recordAll, List.foldlM_cons, hpropose]
            exact hs'
          · rw [hall, hrecorded, List.append_assoc, List.singleton_append]
          · rw [hframe, hs₁, List.length_cons]
            simp only [Nat.add_assoc, Nat.add_comm 1]

/-- Proposals as the controllers send them: there is room for all of them, one
is positive, and equal ones come from one socket. -/
structure Admissible (ps : List (ℤ × ℤ)) : Prop where
  room : ps.length ≤ maxControllers
  positive : ∃ p ∈ ps, 0 < p.1
  socket : ∀ p ∈ ps, 0 ≤ p.2
  distinct : ∀ p ∈ ps, ∀ q ∈ ps, p.1 = q.1 → p.2 = q.2

/-- The loop finds the greatest proposal. -/
theorem Admissible.search {ps : List (ℤ × ℤ)} (h : Admissible ps) :
    ps.foldl keepGreatest (0, -1) ∈ ps ∧
      ∀ p ∈ ps, p.1 ≤ (ps.foldl keepGreatest (0, -1)).1 := by
  obtain ⟨hmem, hall⟩ := foldl_keepGreatest_spec ps (0, -1)
  obtain ⟨hstart, hall⟩ := List.forall_mem_cons.mp hall
  obtain ⟨p, hp, hpos⟩ := h.positive
  rcases List.mem_cons.mp hmem with heq | hmem
  · have hle := hall p hp
    rw [heq] at hle
    exact absurd hpos (not_lt_of_ge hle)
  · exact ⟨hmem, hall⟩

theorem Admissible.perm {ps qs : List (ℤ × ℤ)} (h : Admissible ps) (hperm : qs.Perm ps) :
    Admissible qs where
  room := hperm.length_eq.symm ▸ h.room
  positive := by
    obtain ⟨p, hp, hpos⟩ := h.positive
    exact ⟨p, hperm.mem_iff.mpr hp, hpos⟩
  socket := fun p hp => h.socket p (hperm.mem_iff.mp hp)
  distinct := fun p hp q hq => h.distinct p (hperm.mem_iff.mp hp) q (hperm.mem_iff.mp hq)

/-- In any order, the loop finds the same socket. -/
theorem Admissible.search_perm {ps qs : List (ℤ × ℤ)} (h : Admissible ps) (hperm : qs.Perm ps) :
    (qs.foldl keepGreatest (0, -1)).2 = (ps.foldl keepGreatest (0, -1)).2 := by
  obtain ⟨hp, hpmax⟩ := h.search
  obtain ⟨hq, hqmax⟩ := (h.perm hperm).search
  apply h.distinct _ (hperm.mem_iff.mp hq) _ hp
  exact le_antisymm (hpmax _ (hperm.mem_iff.mp hq)) (hqmax _ (hperm.mem_iff.mpr hp))

/-- The reduction of admissible proposals. -/
theorem doAgreementReduction_eq {s : LeaderState} (h : Admissible s.recorded) (controllers : ℕ)
    (now : Timeval) :
    s.doAgreementReduction controllers now =
      if s.ReductionDue controllers now then
        { s with
          agreementRunning := false
          leaderSocket := (s.recorded.foldl keepGreatest (0, -1)).2 }
      else s := by
  have hne := socket_ne (h.socket _ h.search.1)
  simp only [doAgreementReduction, search_eq, if_neg hne]

/-- At the start of a round. -/
theorem exists_recordAll_round {s : LeaderState} (hs : s.lastProposal = 0) {ps : List (ℤ × ℤ)}
    (hps : Admissible ps) :
    ∃ s', s.recordAll ps = some s' ∧ s'.recorded = ps ∧ s'.lastProposal = ps.length ∧
      s'.leaderProposeTimer = s.leaderProposeTimer ∧
      s'.agreementRunning = s.agreementRunning ∧ s'.leaderSocket = s.leaderSocket := by
  have hroom : s.lastProposal + ps.length ≤ maxControllers := by
    rw [hs, Nat.zero_add]
    exact hps.room
  obtain ⟨s', hs', hrecorded, hframe⟩ := exists_recordAll hroom
  have hempty : s.recorded = [] := List.eq_nil_of_length_eq_zero ((length_recorded s).trans hs)
  rw [hempty, List.nil_append] at hrecorded
  refine ⟨s', hs', hrecorded, ?_, ?_, ?_, ?_⟩
  · rw [← hrecorded, length_recorded]
  · rw [hframe]
  · rw [hframe]
  · rw [hframe]

/-- **Order-independent election.**  A reduction of admissible proposals that
does not return early ends the round with the socket of the greatest one, and
in any other order they have the same outcome. -/
theorem reduction_perm (controllers : ℕ) (now : Timeval) (s : LeaderState)
    (hs : s.lastProposal = 0) (ps : List (ℤ × ℤ)) (hps : Admissible ps) :
    ∃ s₁, s.recordAll ps = some s₁ ∧
      (s₁.ReductionDue controllers now →
        (s₁.doAgreementReduction controllers now).agreementRunning = false ∧
          ∃ p ∈ ps, (∀ q ∈ ps, q.1 ≤ p.1) ∧
            (s₁.doAgreementReduction controllers now).leaderSocket = p.2) ∧
      ∀ qs, qs.Perm ps → ∃ s₂, s.recordAll qs = some s₂ ∧
        (s₂.ReductionDue controllers now ↔ s₁.ReductionDue controllers now) ∧
        (s₂.doAgreementReduction controllers now).agreementRunning =
          (s₁.doAgreementReduction controllers now).agreementRunning ∧
        (s₂.doAgreementReduction controllers now).leaderSocket =
          (s₁.doAgreementReduction controllers now).leaderSocket := by
  obtain ⟨s₁, hs₁, hrecorded₁, hlast₁, htimer₁, hrunning₁, hleader₁⟩ :=
    exists_recordAll_round hs hps
  have hadmissible₁ : Admissible s₁.recorded := hrecorded₁ ▸ hps
  refine ⟨s₁, hs₁, fun hdue => ?_, fun qs hperm => ?_⟩
  · rw [doAgreementReduction_eq hadmissible₁, if_pos hdue, hrecorded₁]
    exact ⟨rfl, _, hps.search.1, hps.search.2, rfl⟩
  · obtain ⟨s₂, hs₂, hrecorded₂, hlast₂, htimer₂, hrunning₂, hleader₂⟩ :=
      exists_recordAll_round hs (hps.perm hperm)
    have hdue : s₂.ReductionDue controllers now ↔ s₁.ReductionDue controllers now := by
      rw [ReductionDue, ReductionDue, hlast₁, hlast₂, htimer₁, htimer₂, hperm.length_eq]
    have hadmissible₂ : Admissible s₂.recorded := hrecorded₂ ▸ hps.perm hperm
    refine ⟨s₂, hs₂, hdue, ?_⟩
    rw [doAgreementReduction_eq hadmissible₁, doAgreementReduction_eq hadmissible₂, hrecorded₁,
      hrecorded₂]
    by_cases hround : s₁.ReductionDue controllers now
    · rw [if_pos hround, if_pos (hdue.mpr hround)]
      exact ⟨rfl, hps.search_perm hperm⟩
    · rw [if_neg hround, if_neg (hdue.not.mpr hround)]
      exact ⟨hrunning₂.trans hrunning₁.symm, hleader₂.trans hleader₁.symm⟩

/-- Three proposals, two of them from one socket. -/
def threeProposals : List (ℤ × ℤ) := [(5, 3), (7, 4), (5, 3)]

theorem admissible_threeProposals : Admissible threeProposals :=
  ⟨by decide, by decide, by decide, by decide⟩

theorem reduction_perm_threeProposals :
    ∃ s, (initial ⟨1000, 0⟩).recordAll threeProposals = some s ∧
      (s.doAgreementReduction 3 ⟨1001, 0⟩).leaderSocket = 4 := by
  obtain ⟨s, hs, hround, -⟩ := reduction_perm 3 ⟨1001, 0⟩ (initial ⟨1000, 0⟩) rfl threeProposals
    admissible_threeProposals
  have hlast : s.lastProposal = 3 := by
    obtain rfl := Option.some.inj hs
    rfl
  obtain ⟨-, p, hp, hmax, hleader⟩ := hround fun h => absurd h.1 (hlast ▸ Nat.lt_irrefl 3)
  refine ⟨s, hs, hleader.trans ?_⟩
  have hgreatest : ∀ p ∈ threeProposals, (∀ q ∈ threeProposals, q.1 ≤ p.1) → p.2 = 4 := by decide
  exact hgreatest p hp hmax

/-! ### The age of a heartbeat -/

/-- What `gettimeofday` stores. -/
def IsTime (t : Timeval) : Prop := 0 ≤ t.usec ∧ t.usec < 1000000

instance : DecidablePred IsTime := fun _ => inferInstanceAs (Decidable (_ ∧ _))

/-- In microseconds. -/
def micro (t : Timeval) : ℤ := t.sec * 1000000 + t.usec

/-- The difference of the times, each in whole milliseconds. -/
def elapsed (start now : Timeval) : ℤ := micro now / 1000 - micro start / 1000

theorem milli_eq {t : Timeval} (h : IsTime t) : t.milli = micro t / 1000 := by
  rw [Timeval.milli, micro, Int.tdiv_eq_ediv_of_nonneg h.1]
  omega

/-- `suspect_leader` goes by what an `int` has of the time. -/
theorem suspectLeader_eq_neg_one_iff {s : LeaderState} {now : Timeval} (hstart : IsTime s.heartbeat)
    (hnow : IsTime now) :
    (s.suspectLeader now).leaderSocket = -1 ↔
      s.leaderSocket = -1 ∨ 10000 < toInt (elapsed s.heartbeat now) := by
  have hlt := lt_timerValueSeconds_iff s.heartbeat now leaderSuspectThreshold
  rw [milli_eq hstart, milli_eq hnow] at hlt
  rw [suspectLeader]
  split
  next hover => exact iff_of_true rfl (.inr (hlt.mp hover))
  next hover => exact (or_iff_left (hlt.not.mp hover)).symm

/-- **Elapsed time.**  `suspect_leader` resets the leader at the right times iff
the elapsed milliseconds are not above the threshold or, modulo `2 ^ 32`, are
between it and `2 ^ 31`. -/
theorem suspectLeader_iff (s : LeaderState) (now : Timeval) (hstart : IsTime s.heartbeat)
    (hnow : IsTime now) (hle : micro s.heartbeat ≤ micro now) :
    ((s.suspectLeader now).leaderSocket = -1 ↔
        s.leaderSocket = -1 ∨ 1000 * leaderSuspectThreshold < elapsed s.heartbeat now) ↔
      s.leaderSocket = -1 ∨ elapsed s.heartbeat now ≤ 1000 * leaderSuspectThreshold ∨
        1000 * leaderSuspectThreshold < elapsed s.heartbeat now % 2 ^ 32 ∧
          elapsed s.heartbeat now % 2 ^ 32 < 2 ^ 31 := by
  have hnonneg : 0 ≤ elapsed s.heartbeat now :=
    sub_nonneg.mpr (Int.ediv_le_ediv (by decide) hle)
  rw [suspectLeader_eq_neg_one_iff hstart hnow, lt_toInt_iff (by decide)]
  simp only [leaderSuspectThreshold]
  omega

/-- A controller with a leader and a heartbeat at 1000 s. -/
def led : LeaderState := { initial ⟨1000, 0⟩ with leaderSocket := 3 }

theorem suspectLeader_iff_led :
    (led.suspectLeader ⟨1011, 0⟩).leaderSocket = -1 ↔
      led.leaderSocket = -1 ∨ 1000 * leaderSuspectThreshold < elapsed led.heartbeat ⟨1011, 0⟩ :=
  (suspectLeader_iff led ⟨1011, 0⟩ (by decide) (by decide) (by decide)).mpr (by decide)

/-- `2 ^ 31` milliseconds, about 25 days, later. -/
theorem led_not_suspected :
    ¬ ((led.suspectLeader ⟨2148483, 648000⟩).leaderSocket = -1 ↔
      led.leaderSocket = -1 ∨
        1000 * leaderSuspectThreshold < elapsed led.heartbeat ⟨2148483, 648000⟩) := by
  rw [suspectLeader_eq_neg_one_iff (by decide) (by decide)]
  decide

end LeaderState

end A2PM.Leader
