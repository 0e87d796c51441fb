/-
A2PM/LeaderRole.lean

One controller of `controller/leader.c` on its own: `leader_loop`, with the
heartbeats and proposals that happen to arrive, and what the clock shows.  Two
things are observed about it.

* `Role`: whether `am_i_leader` is true at the controller whose address is the
  greatest of the proposals.  No function sets it, so it is not
  (`along_kept_iff`).
* `Watch`: how long `suspect_leader` waits before it discards a leader.  The
  timer `heartbeat` is started by `initialize_leader` and restarted by a
  heartbeat, and not when a leader is installed (`along_patient_iff`).

Installing and discarding a leader are read off `leader_socket`.
-/
import A2PM.LeaderElection
import A2PM.Transition

namespace A2PM.Leader

open MachineInt Transition

/-! ### A controller and what happens to it -/

/-- What `gettimeofday` stores, `t` microseconds after the epoch. -/
def Timeval.ofMicro (t : ℕ) : Timeval := ⟨(t / 1000000 : ℕ), (t % 1000000 : ℕ)⟩

theorem Timeval.milli_ofMicro (t : ℕ) : (Timeval.ofMicro t).milli = (t / 1000 : ℕ) := by
  have husec : ((t % 1000000 : ℕ) : ℤ).tdiv 1000 = (t % 1000000 : ℕ) / 1000 :=
    Int.tdiv_eq_ediv_of_nonneg (Int.natCast_nonneg _)
  show ((t / 1000000 : ℕ) : ℤ) * 1000 + ((t % 1000000 : ℕ) : ℤ).tdiv 1000 = (t / 1000 : ℕ)
  rw [husec]
  omega

inductive Event (n : ℕ)
  /-- The next step of `leader_loop`. -/
  | leader (now : ℕ)
  /-- `call_function`. -/
  | receive (src : Fin n) (msg : Msg) (now : ℕ)

/-- What the clock shows. -/
def Event.now {n : ℕ} : Event n → ℕ
  | .leader now => now
  | .receive _ _ now => now

namespace Controller

variable {n : ℕ}

def handle (myIntIp : ℤ) (c : Controller n) : Event n → Option (Controller n)
  | .leader now => some (c.leaderLoop myIntIp (.ofMicro now))
  | .receive src msg now => c.callFunction src msg (.ofMicro now)

/-- From `c` to `c'` a leader has been installed. -/
def Installs (c c' : Controller n) : Prop := c.leaderSocket = none ∧ c'.leaderSocket ≠ none

/-- From `c` to `c'` the leader has been discarded. -/
def Discards (c c' : Controller n) : Prop := c.leaderSocket ≠ none ∧ c'.leaderSocket = none

instance (c c' : Controller n) : Decidable (c.Installs c') := inferInstanceAs (Decidable (_ ∧ _))

instance (c c' : Controller n) : Decidable (c.Discards c') := inferInstanceAs (Decidable (_ ∧ _))

/-- `suspect_leader` finds that the threshold is over. -/
def Suspects (c : Controller n) (now : ℕ) : Prop :=
  c.pc = .suspecting ∧ timerExceeds c.heartbeat (.ofMicro now) leaderSuspectThreshold = true

/-- `do_agreement_reduction` gets to its end. -/
def Completes (c : Controller n) (now : ℕ) : Prop :=
  c.pc = .electing ∧ c.leaderSocket = none ∧ c.agreementRunning = true ∧
    c.ReductionDue (.ofMicro now) ∧ ∃ p ∈ c.proposals, 0 < p.1

/-- The loop keeps `leader` if nothing is greater than `id`. -/
theorem greatestFrom_eq_none {ps : List (ℤ × Fin n)} {id : ℤ} {leader : Option (Fin n)} :
    greatestFrom ps id leader = none ↔ leader = none ∧ ∀ p ∈ ps, p.1 ≤ id := by
  induction ps generalizing id leader with
  | nil => simp [greatestFrom]
  | cons p ps ih =>
      obtain ⟨v, socket⟩ := p
      rw [greatestFrom]
      split
      next hgreater =>
          rw [ih]
          constructor
          · rintro ⟨hnone, -⟩
            cases hnone
          · rintro ⟨-, hall⟩
            exact absurd (hall _ List.mem_cons_self) (not_le_of_gt hgreater)
      next hle =>
          rw [ih, List.forall_mem_cons]
          exact ⟨fun h => ⟨h.1, not_lt.mp hle, h.2⟩, fun h => ⟨h.1, h.2.2⟩⟩

/-- The reduction installs a leader if there is a proposal above 0. -/
theorem doAgreementReduction_cases (c : Controller n) (now : Timeval) :
    (c.ReductionDue now ∧ (∃ p ∈ c.proposals, 0 < p.1) ∧
      (c.doAgreementReduction now).leaderSocket ≠ none) ∨
    (¬ (c.ReductionDue now ∧ ∃ p ∈ c.proposals, 0 < p.1) ∧
      (c.doAgreementReduction now).leaderSocket = c.leaderSocket) := by
  rw [doAgreementReduction]
  split
  next hdue =>
      cases hgreatest : greatestFrom c.proposals 0 none with
      | none =>
          obtain ⟨-, hall⟩ := greatestFrom_eq_none.mp hgreatest
          refine .inr ⟨?_, rfl⟩
          rintro ⟨-, p, hp, hpos⟩
          exact absurd hpos (not_lt_of_ge (hall p hp))
      | some leader =>
          refine .inl ⟨hdue, ?_, by simp⟩
          by_contra hnone
          have hall : ∀ p ∈ c.proposals, p.1 ≤ 0 := fun p hp =>
            not_lt.mp fun hpos => hnone ⟨p, hp, hpos⟩
          rw [greatestFrom_eq_none.mpr ⟨rfl, hall⟩] at hgreatest
          cases hgreatest
  next hdue => exact .inr ⟨fun h => hdue h.1, rfl⟩

theorem frame_doAgreementReduction (c : Controller n) (now : Timeval) :
    (c.doAgreementReduction now).amILeader = c.amILeader ∧
      (c.doAgreementReduction now).heartbeat = c.heartbeat := by
  rw [doAgreementReduction]
  split
  · split <;> exact ⟨rfl, rfl⟩
  · exact ⟨rfl, rfl⟩

/-- Away from `suspect_leader` nothing is suspected. -/
theorem not_suspects {c : Controller n} (hpc : c.pc ≠ .suspecting) (now : ℕ) : ¬ c.Suspects now :=
  fun h => hpc h.1

theorem not_completes {c : Controller n} (hpc : c.pc ≠ .electing) (now : ℕ) : ¬ c.Completes now :=
  fun h => hpc h.1

/-- What a step of `leader_loop` does to the leader. -/
theorem leaderLoop_cases (c : Controller n) (myIntIp : ℤ) (now : ℕ) {c' : Controller n}
    (h : c.leaderLoop myIntIp (.ofMicro now) = c') :
    (c.Suspects now ∧ c'.leaderSocket = none ∧ c'.amILeader = false) ∨
      (c.Completes now ∧ c'.leaderSocket ≠ none ∧ c'.amILeader = c.amILeader) ∨
      (¬ c.Suspects now ∧ ¬ c.Completes now ∧ c'.leaderSocket = c.leaderSocket ∧
        c'.amILeader = c.amILeader) := by
  rw [leaderLoop] at h
  cases hpc : c.pc with
  | suspecting =>
      -- `suspect_leader`
      have hcompletes := not_completes (c := c) (by rw [hpc]; decide) now
      simp only [hpc, suspectLeader] at h
      subst h
      split
      next hover => exact .inl ⟨⟨hpc, hover⟩, rfl, rfl⟩
      next hover => exact .inr (.inr ⟨fun h => hover h.2, hcompletes, rfl, rfl⟩)
  | electing =>
      -- `do_leader_election`: a reduction, a new round, or nothing
      have hsuspects := not_suspects (c := c) (by rw [hpc]; decide) now
      simp only [hpc] at h
      subst h
      split
      next hnone =>
          split
          next hrunning =>
              obtain ⟨hrole, -⟩ := frame_doAgreementReduction c (.ofMicro now)
              rcases doAgreementReduction_cases c (.ofMicro now) with
                ⟨hdue, hpos, hsome⟩ | ⟨hnot, hsame⟩
              · exact .inr (.inl ⟨⟨hpc, hnone, hrunning, hdue, hpos⟩, hsome, hrole⟩)
              · exact .inr (.inr ⟨hsuspects, fun h => hnot h.2.2.2, hsame, hrole⟩)
          next hrunning => exact .inr (.inr ⟨hsuspects, fun h => hrunning h.2.2.1, rfl, rfl⟩)
      next hnone => exact .inr (.inr ⟨hsuspects, fun h => hnone h.2.1, rfl, rfl⟩)
  | proposing =>
      simp only [hpc] at h
      subst h
      exact .inr (.inr ⟨not_suspects (by rw [hpc]; decide) now,
        not_completes (by rw [hpc]; decide) now, rfl, rfl⟩)
  | beating =>
      simp only [hpc] at h
      refine .inr (.inr ⟨not_suspects (by rw [hpc]; decide) now,
        not_completes (by rw [hpc]; decide) now, ?_⟩)
      subst h
      split <;> exact ⟨rfl, rfl⟩

theorem heartbeat_leaderLoop (c : Controller n) (myIntIp : ℤ) (now : Timeval) :
    (c.leaderLoop myIntIp now).heartbeat = c.heartbeat := by
  rw [leaderLoop]
  split
  · rw [suspectLeader]
    split <;> rfl
  · split
    · split
      · exact (frame_doAgreementReduction c now).2
      · rfl
    · rfl
  · rfl
  · split <;> rfl

/-- A message leaves the leader as it is, and a heartbeat restarts the timer. -/
theorem callFunction_frame {c c' : Controller n} {src : Fin n} {m : Msg} {now : Timeval}
    (h : c.callFunction src m now = some c') :
    c'.leaderSocket = c.leaderSocket ∧ c'.amILeader = c.amILeader ∧
      c'.heartbeat = if m.type = leaderHeartbeat then now else c.heartbeat := by
  rw [callFunction] at h
  split at h
  next htype =>
      obtain rfl := Option.some.inj h
      exact ⟨rfl, rfl, (if_pos htype).symm⟩
  next htype =>
      rw [if_neg htype]
      split at h
      next =>
          simp only [Option.ite_none_right_eq_some, Option.some.injEq] at h
          obtain ⟨-, rfl⟩ := h
          exact ⟨rfl, rfl, rfl⟩
      next =>
          obtain rfl := Option.some.inj h
          exact ⟨rfl, rfl, rfl⟩

variable {myIntIp : ℤ} {c c' : Controller n} {e : Event n}

/-- A leader is installed by a reduction that gets to its end. -/
theorem installs_iff (h : c.handle myIntIp e = some c') :
    c.Installs c' ↔ ∃ now, e = .leader now ∧ c.Completes now := by
  cases e with
  | leader now =>
      have hnow : (∃ now', (.leader now : Event n) = .leader now' ∧ c.Completes now') ↔
          c.Completes now := by simp
      rw [hnow]
      rcases leaderLoop_cases c myIntIp now (Option.some.inj h) with
        ⟨hsuspects, hnone, -⟩ | ⟨hcompletes, hsome, -⟩ | ⟨-, hcompletes, hsame, -⟩
      · constructor
        · exact fun hinstalls => absurd hnone hinstalls.2
        · exact fun hcompletes => absurd (hsuspects.1.symm.trans hcompletes.1) (by decide)
      · exact ⟨fun _ => hcompletes, fun _ => ⟨hcompletes.2.1, hsome⟩⟩
      · constructor
        · exact fun hinstalls => absurd (hsame.trans hinstalls.1) hinstalls.2
        · exact fun hnot => absurd hnot hcompletes
  | receive src msg now =>
      obtain ⟨hsame, -⟩ := callFunction_frame h
      constructor
      · exact fun hinstalls => absurd (hsame.trans hinstalls.1) hinstalls.2
      · rintro ⟨_, he, -⟩
        cases he

/-- A leader is discarded by `suspect_leader`. -/
theorem discards_iff (h : c.handle myIntIp e = some c') :
    c.Discards c' ↔ ∃ now, e = .leader now ∧ c.leaderSocket ≠ none ∧ c.Suspects now := by
  cases e with
  | leader now =>
      have hnow : (∃ now', (.leader now : Event n) = .leader now' ∧ c.leaderSocket ≠ none ∧
          c.Suspects now') ↔ c.leaderSocket ≠ none ∧ c.Suspects now := by simp
      rw [hnow]
      rcases leaderLoop_cases c myIntIp now (Option.some.inj h) with
        ⟨hsuspects, hnone, -⟩ | ⟨hcompletes, hsome, -⟩ | ⟨hsuspects, -, hsame, -⟩
      · exact ⟨fun hdiscards => ⟨hdiscards.1, hsuspects⟩, fun hleader => ⟨hleader.1, hnone⟩⟩
      · constructor
        · exact fun hdiscards => absurd hdiscards.2 hsome
        · exact fun hleader => absurd hcompletes.2.1 hleader.1
      · constructor
        · exact fun hdiscards => absurd (hsame.symm.trans hdiscards.2) hdiscards.1
        · exact fun hleader => absurd hleader.2 hsuspects
  | receive src msg now =>
      obtain ⟨hsame, -⟩ := callFunction_frame h
      constructor
      · exact fun hdiscards => absurd (hsame.symm.trans hdiscards.2) hdiscards.1
      · rintro ⟨_, he, -⟩
        cases he

/-- No function sets `am_i_leader`. -/
theorem amILeader_handle (h : c.handle myIntIp e = some c') (hrole : c.amILeader = false) :
    c'.amILeader = false := by
  cases e with
  | leader now =>
      rcases leaderLoop_cases c myIntIp now (Option.some.inj h) with
        ⟨-, -, hfalse⟩ | ⟨-, -, hsame⟩ | ⟨-, -, -, hsame⟩
      · exact hfalse
      · exact hsame.trans hrole
      · exact hsame.trans hrole
  | receive src msg now => exact (callFunction_frame h).2.1.trans hrole

end Controller

/-! ### The role -/

/-- `v` is the greatest of the proposals. -/
def Greatest {n : ℕ} (v : ℤ) (proposals : List (ℤ × Fin n)) : Prop :=
  (∃ p ∈ proposals, p.1 = v) ∧ ∀ p ∈ proposals, p.1 ≤ v

instance {n : ℕ} (v : ℤ) (proposals : List (ℤ × Fin n)) : Decidable (Greatest v proposals) :=
  inferInstanceAs (Decidable (_ ∧ _))

/-- A controller, with what its `am_i_leader` should go by. -/
structure Role (n : ℕ) where
  controller : Controller n
  /-- The proposals of the latest reduction that got to its end. -/
  reduced : Option (List (ℤ × Fin n))
  /-- The leader that it installed has been discarded. -/
  suspected : Bool

namespace Role

variable {n : ℕ}

def initial (start : ℕ) : Role n where
  controller := .initial (.ofMicro start)
  reduced := none
  suspected := false

/-- The role after the controller has become `c`. -/
def next (s : Role n) (c : Controller n) : Role n where
  controller := c
  reduced := if s.controller.Installs c then some s.controller.proposals else s.reduced
  suspected :=
    if s.controller.Installs c then false
    else if s.controller.Discards c then true
    else s.suspected

def step (myIntIp : ℤ) (s : Role n) (e : Event n) : Option (Role n) :=
  (s.controller.handle myIntIp e).map s.next

/-- **Leader role.** -/
structure Kept (myIntIp : ℤ) (s : Role n) : Prop where
  /-- The winner is the leader until it is suspected. -/
  own : ∀ ps, s.reduced = some ps → Greatest myIntIp ps → s.suspected = false →
    s.controller.amILeader = true
  /-- Nobody else is. -/
  other : ∀ ps, s.reduced = some ps → ¬ Greatest myIntIp ps → s.controller.amILeader = false

/-- A reduction that gets to its end has not the own address as its greatest
proposal. -/
def Outbid (myIntIp : ℤ) (s : Role n) : Event n → Prop
  | .leader now => s.controller.Completes now → ¬ Greatest myIntIp s.controller.proposals
  | .receive _ _ _ => True

structure Inv (myIntIp : ℤ) (s : Role n) : Prop where
  amILeader : s.controller.amILeader = false
  outbid : ∀ ps, s.reduced = some ps → ¬ Greatest myIntIp ps

variable {myIntIp : ℤ} {s s' : Role n} {e : Event n}

theorem initial_inv (start : ℕ) : (initial start : Role n).Inv myIntIp where
  amILeader := rfl
  outbid := nofun

theorem Inv.kept (h : s.Inv myIntIp) : s.Kept myIntIp where
  own := fun ps hps hgreatest _ => absurd hgreatest (h.outbid ps hps)
  other := fun _ _ _ => h.amILeader

theorem inv_step (h : s.Inv myIntIp) (he : s.Outbid myIntIp e) (hstep : s.step myIntIp e = some s') :
    s'.Inv myIntIp := by
  obtain ⟨c, hc, rfl⟩ := Option.map_eq_some_iff.mp hstep
  refine ⟨Controller.amILeader_handle hc h.amILeader, fun ps hps => ?_⟩
  simp only [next] at hps
  split at hps
  next hinstalls =>
      obtain ⟨now, rfl, hcompletes⟩ := (Controller.installs_iff hc).mp hinstalls
      obtain rfl := Option.some.inj hps
      exact he hcompletes
  next => exact h.outbid ps hps

/-- A controller that wins does not learn it. -/
theorem outbid_of_kept (h : s.Inv myIntIp) (hstep : s.step myIntIp e = some s')
    (hkept : s'.Kept myIntIp) : s.Outbid myIntIp e := by
  obtain ⟨c, hc, rfl⟩ := Option.map_eq_some_iff.mp hstep
  cases e with
  | receive src msg now => trivial
  | leader now =>
      intro hcompletes hgreatest
      have hinstalls : s.controller.Installs c :=
        (Controller.installs_iff hc).mpr ⟨now, rfl, hcompletes⟩
      have hrole : c.amILeader = true := by
        apply hkept.own s.controller.proposals _ hgreatest
        · exact if_pos hinstalls
        · exact if_pos hinstalls
      rw [Controller.amILeader_handle hc h.amILeader] at hrole
      cases hrole

/-- **Leader role.**  `am_i_leader` is as it should be in the runs in which the
controller wins no reduction, and in no others. -/
theorem along_kept_iff (myIntIp : ℤ) (start : ℕ) (es : List (Event n)) :
    Along (step myIntIp) (Kept myIntIp) (initial start) es ↔
      AllSteps (step myIntIp) (Outbid myIntIp) (initial start) es :=
  along_iff_allSteps (fun _ => Inv.kept) (fun _ _ _ h he hstep => inv_step h he hstep)
    (fun _ _ _ h hstep hkept => outbid_of_kept h hstep hkept) (initial_inv start)

/-- The controller `own`, at 10.0.0.2, proposes; its proposal and that of
`other`, at 10.0.0.1, arrive, and it elects itself. -/
def twoProposals (own other : Fin 2) : List (Event 2) :=
  [.leader 1001000000, .leader 1001000000, .leader 1001000000, .leader 1001000000,
    .receive own ⟨leaderPropose, 8, 33554442⟩ 1001100000,
    .receive other ⟨leaderPropose, 8, 16777226⟩ 1001200000, .leader 1002000000, .leader 1002000000]

theorem winner_without_role :
    ¬ Along (step 33554442) (Kept 33554442) (initial 1000000000) (twoProposals 1 0) := by
  intro hall
  obtain ⟨s, hs, hreduced, hsuspected, hrole⟩ : ∃ s,
      run (step 33554442) (initial 1000000000) (twoProposals 1 0) = some s ∧
        s.reduced = some [(33554442, 1), (16777226, 0)] ∧ s.suspected = false ∧
        s.controller.amILeader = false :=
    ⟨_, rfl, rfl, rfl, rfl⟩
  have hown := (hall.last hs).own _ hreduced (by decide) hsuspected
  rw [hrole] at hown
  cases hown

end Role

/-! ### The patience -/

/-- `LEADER_SUSPECT_THRESHOLD`, in microseconds. -/
abbrev suspectPeriod : ℕ := 10000000

/-- A timer that has been started at `start` shows more than the threshold: so
many milliseconds, in an `int`. -/
def TimerOver (start now : ℕ) : Prop :=
  leaderSuspectThreshold * 1000 < toInt ((now / 1000 : ℕ) - (start / 1000 : ℕ))

theorem timerExceeds_ofMicro_iff {start now : ℕ} :
    timerExceeds (.ofMicro start) (.ofMicro now) leaderSuspectThreshold = true ↔
      TimerOver start now := by
  rw [timerExceeds, timerValueMilli, Timeval.milli_ofMicro, Timeval.milli_ofMicro,
    decide_eq_true_iff, toInt_toInt_sub]
  exact Iff.rfl

/-- Such a timer has been started before the threshold. -/
theorem lt_of_timerOver {start now : ℕ} (hle : start ≤ now) (h : TimerOver start now) :
    start + suspectPeriod < now := by
  have hover : 10 * 1000 < toInt ((now / 1000 : ℕ) - (start / 1000 : ℕ)) := h
  have hle' : start / 1000 ≤ now / 1000 := Nat.div_le_div_right hle
  have hmilli := lt_of_lt_of_le hover (toInt_le (by omega))
  show start + 10000000 < now
  omega

/-- What was known when a leader was discarded. -/
structure Discard where
  installed : ℕ
  lastHeartbeat : Option ℕ
  now : ℕ
  deriving DecidableEq

/-- The threshold is over since the leader was installed, and since the last
heartbeat. -/
def Discard.Late (d : Discard) : Prop :=
  d.installed + suspectPeriod < d.now ∧
    ∀ heard, d.lastHeartbeat = some heard → heard + suspectPeriod < d.now

/-- A controller, with what its patience is measured by. -/
structure Watch (n : ℕ) where
  controller : Controller n
  /-- What the clock has shown last. -/
  clock : ℕ
  /-- When the timer `heartbeat` was last started. -/
  started : ℕ
  /-- When the latest leader was installed. -/
  installed : ℕ
  /-- When the last heartbeat was received. -/
  lastHeartbeat : Option ℕ
  discards : List Discard

namespace Watch

variable {n : ℕ}

def initial (start : ℕ) : Watch n where
  controller := .initial (.ofMicro start)
  clock := start
  started := start
  installed := start
  lastHeartbeat := none
  discards := []

/-- The time of the last heartbeat after the event. -/
def heard (s : Watch n) : Event n → Option ℕ
  | .leader _ => s.lastHeartbeat
  | .receive _ msg now => if msg.type = leaderHeartbeat then some now else s.lastHeartbeat

/-- A heartbeat starts the timer. -/
def restarted (s : Watch n) : Event n → ℕ
  | .leader _ => s.started
  | .receive _ msg now => if msg.type = leaderHeartbeat then now else s.started

/-- What is known after the controller has become `c`. -/
def next (s : Watch n) (e : Event n) (c : Controller n) : Watch n where
  controller := c
  clock := e.now
  started := s.restarted e
  installed := if s.controller.Installs c then e.now else s.installed
  lastHeartbeat := s.heard e
  discards :=
    if s.controller.Discards c then s.discards ++ [⟨s.installed, s.lastHeartbeat, e.now⟩]
    else s.discards

/-- The clock does not go back. -/
def step (myIntIp : ℤ) (s : Watch n) (e : Event n) : Option (Watch n) :=
  if s.clock ≤ e.now then (s.controller.handle myIntIp e).map (s.next e) else none

/-- **Suspicion only after silence.** -/
def Patient (s : Watch n) : Prop := ∀ d ∈ s.discards, d.Late

/-- In the period that follows an installation, and before a heartbeat,
`suspect_leader` finds the timer to have been started recently enough. -/
def TimerFresh (s : Watch n) : Event n → Prop
  | .leader now =>
      s.controller.pc = .suspecting → s.controller.leaderSocket ≠ none →
        now ≤ s.installed + suspectPeriod →
        (∀ heard, s.lastHeartbeat = some heard → heard < s.installed) → ¬ TimerOver s.started now
  | .receive _ _ _ => True

structure Inv (s : Watch n) : Prop where
  timer : s.controller.heartbeat = .ofMicro s.started
  started : s.started ≤ s.clock
  /-- The last heartbeat, if there is one, has started the timer. -/
  lastHeartbeat : ∀ heard, s.lastHeartbeat = some heard → heard = s.started
  patient : s.Patient

variable {myIntIp : ℤ} {s s' : Watch n} {e : Event n}

theorem initial_inv (start : ℕ) : (initial start : Watch n).Inv where
  timer := rfl
  started := Nat.le_refl _
  lastHeartbeat := nofun
  patient := nofun

theorem Inv.suspects_iff (h : s.Inv) {now : ℕ} :
    s.controller.Suspects now ↔ s.controller.pc = .suspecting ∧ TimerOver s.started now := by
  rw [Controller.Suspects, h.timer, timerExceeds_ofMicro_iff]

/-- A leader that is suspected has been silent since its last heartbeat. -/
theorem Inv.silent (h : s.Inv) {now : ℕ} (hclock : s.clock ≤ now) (hover : TimerOver s.started now)
    {heard : ℕ} (hheard : s.lastHeartbeat = some heard) : heard + suspectPeriod < now := by
  rw [h.lastHeartbeat heard hheard]
  exact lt_of_timerOver (Nat.le_trans h.started hclock) hover

theorem Inv.timer_next (h : s.Inv) (hclock : s.clock ≤ e.now) {c : Controller n}
    (hc : s.controller.handle myIntIp e = some c) :
    c.heartbeat = .ofMicro (s.restarted e) ∧ s.restarted e ≤ e.now ∧
      ∀ heard, s.heard e = some heard → heard = s.restarted e := by
  cases e with
  | leader now =>
      refine ⟨?_, Nat.le_trans h.started hclock, h.lastHeartbeat⟩
      rw [← Option.some.inj hc, Controller.heartbeat_leaderLoop]
      exact h.timer
  | receive src msg now =>
      obtain ⟨-, -, hheartbeat⟩ := Controller.callFunction_frame hc
      rw [hheartbeat]
      simp only [heard, restarted]
      split
      next =>
          refine ⟨rfl, Nat.le_refl _, fun t ht => ?_⟩
          exact (Option.some.inj ht).symm
      next => exact ⟨h.timer, Nat.le_trans h.started hclock, h.lastHeartbeat⟩

theorem inv_step (h : s.Inv) (he : s.TimerFresh e) (hstep : s.step myIntIp e = some s') : s'.Inv := by
  simp only [step, Option.ite_none_right_eq_some, Option.map_eq_some_iff] at hstep
  obtain ⟨hclock, c, hc, rfl⟩ := hstep
  obtain ⟨htimer, hstarted, hlast⟩ := h.timer_next hclock hc
  refine ⟨htimer, hstarted, hlast, fun d hd => ?_⟩
  simp only [next] at hd
  split at hd
  next hdiscards =>
      obtain ⟨now, rfl, hleader, hsuspects⟩ := (Controller.discards_iff hc).mp hdiscards
      obtain ⟨hpc, hover⟩ := h.suspects_iff.mp hsuspects
      rcases List.mem_append.mp hd with hd | hd
      · exact h.patient d hd
      obtain rfl := List.mem_singleton.mp hd
      -- the heartbeat, if there is one, has started the timer; only the
      -- installation can be too recent
      have hsilent : ∀ heard, s.lastHeartbeat = some heard → heard + suspectPeriod < now :=
        fun _ hheard => h.silent hclock hover hheard
      refine ⟨?_, hsilent⟩
      by_contra hearly
      apply he hpc hleader (Nat.le_of_not_lt hearly) _ hover
      intro heard hheard
      have hnow := hsilent heard hheard
      simp only [Event.now] at hearly hnow
      omega
  next => exact h.patient d hd

/-- A leader that is discarded too early meets a timer that is over. -/
theorem timerFresh_of_patient (h : s.Inv) (hstep : s.step myIntIp e = some s')
    (hpatient : s'.Patient) : s.TimerFresh e := by
  simp only [step, Option.ite_none_right_eq_some, Option.map_eq_some_iff] at hstep
  obtain ⟨hclock, c, hc, rfl⟩ := hstep
  cases e with
  | receive src msg now => trivial
  | leader now =>
      intro hpc hleader hearly _ hover
      have hdiscards : s.controller.Discards c :=
        (Controller.discards_iff hc).mpr ⟨now, rfl, hleader, h.suspects_iff.mpr ⟨hpc, hover⟩⟩
      have hlate := hpatient ⟨s.installed, s.lastHeartbeat, now⟩ (by
        simp only [next, if_pos hdiscards]
        exact List.mem_append_right _ (List.mem_singleton_self _))
      exact absurd hlate.1 (Nat.not_lt_of_le hearly)

/-- **Suspicion only after silence.**  `suspect_leader` waits long enough in the
runs in which the timer has always been started recently enough in the period
after an installation without a heartbeat, and in no others. -/
theorem along_patient_iff (myIntIp : ℤ) (start : ℕ) (es : List (Event n)) :
    Along (step myIntIp) Patient (initial start) es ↔
      AllSteps (step myIntIp) TimerFresh (initial start) es :=
  along_iff_allSteps (fun _ h => h.patient) (fun _ _ _ h he hstep => inv_step h he hstep)
    (fun _ _ _ h hstep hpatient => timerFresh_of_patient h hstep hpatient) (initial_inv start)

/-- A leader is installed 10 s after the start, and suspected one second
later. -/
def firstLeader : List (Event 1) :=
  [.leader 1009000000, .leader 1009000000, .leader 1009000000, .leader 1009000000,
    .receive 0 ⟨leaderPropose, 8, 33554442⟩ 1009100000, .leader 1010000000, .leader 1010000000,
    .leader 1010000000, .leader 1011000000]

theorem discarded_after_one_second :
    ¬ Along (step 33554442) Patient (initial 1000000000) firstLeader := by
  intro hall
  obtain ⟨s, hs, hdiscards⟩ : ∃ s, run (step 33554442) (initial 1000000000) firstLeader = some s ∧
      s.discards = [⟨1010000000, none, 1011000000⟩] :=
    ⟨_, rfl, by decide⟩
  have hlate := hall.last hs ⟨1010000000, none, 1011000000⟩ (by
    rw [hdiscards]
    exact List.mem_singleton_self _)
  exact absurd hlate.1 (by decide)

end Watch

end A2PM.Leader
