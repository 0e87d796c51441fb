/-
A2PM/LeaderProposals.lean

Whose proposals one controller of `controller/leader.c` has recorded.

`leader_propose` stores whatever proposal arrives, and `last_proposal` goes
back to 0 when the controller starts a round of its own; nothing relates the
two.  `do_agreement_reduction` takes `last_proposal` for the number of
controllers that have proposed.  It is that in the runs in which each proposal
comes from a configured controller that has not proposed since the last reset
(`attempts_sound_iff`).
-/
import A2PM.LeaderState
import A2PM.Transition
import Mathlib.Data.Fintype.Option

namespace A2PM.Leader

open MachineInt Transition LeaderState

/-- A controller, with `controllers` equal to `n`, and the hosts that the
recorded proposals are from: `none` is a host that is not configured. -/
structure Recording (n : ℕ) where
  state : LeaderState
  sources : List (Option (Fin n))

namespace Recording

variable {n : ℕ}

inductive Label (n : ℕ)
  /-- The next step of `leader_loop`. -/
  | leader (now : Timeval)
  /-- `call_function` for a datagram from `src`. -/
  | receive (src : Option (Fin n)) (sock : ℤ) (msg : Msg) (now : Timeval)

def initial (start : Timeval) : Recording n where
  state := .initial start
  sources := []

def step (myIntIp : Option ℤ) (s : Recording n) : Label n → Option (Recording n)
  | .leader now =>
      let state := s.state.leaderLoop n myIntIp now
      some ⟨state, s.sources.take state.lastProposal⟩
  | .receive src sock msg now =>
      (s.state.callFunction sock msg now).map fun state =>
        ⟨state, if msg.type = Leader.leaderPropose then s.sources ++ [src] else s.sources⟩

/-! ### The property -/

/-- **Distinct proposers.** -/
structure Distinct (s : Recording n) : Prop where
  configured : none ∉ s.sources
  distinct : s.sources.Nodup
  controllers : s.state.lastProposal ≤ n
  bound : s.state.lastProposal ≤ maxControllers

/-- A reduction within the propose period has counted a proposal of every
controller. -/
def CountsAll (s : Recording n) : Label n → Prop
  | .leader now =>
      s.state.pc = .electing → s.state.leaderSocket = -1 → s.state.agreementRunning = true →
        s.state.ReductionDue n now →
        timerValueSeconds s.state.leaderProposeTimer now ≤ (leaderProposeThreshold : ℚ) →
        ∀ i, some i ∈ s.sources
  | .receive _ _ _ _ => True

/-- The step counts right, stores in bounds, and leaves distinct proposers. -/
def Sound (myIntIp : Option ℤ) (s : Recording n) (l : Label n) : Prop :=
  s.CountsAll l ∧ ∃ t, s.step myIntIp l = some t ∧ t.Distinct

/-- A proposal that arrives is from a configured controller, the first one
from there, and there is room for it. -/
def Fresh (s : Recording n) : Label n → Prop
  | .leader _ => True
  | .receive src _ msg _ =>
      msg.type = Leader.leaderPropose →
        (∃ i, src = some i) ∧ src ∉ s.sources ∧ s.state.lastProposal < maxControllers

/-! ### Steps -/

/-- The proposals with their hosts. -/
structure Inv (s : Recording n) : Prop extends s.Distinct where
  length : s.sources.length = s.state.lastProposal

variable {myIntIp : Option ℤ} {s t : Recording n}

theorem initial_inv (start : Timeval) : (initial start : Recording n).Inv where
  configured := List.not_mem_nil
  distinct := List.nodup_nil
  controllers := Nat.zero_le _
  bound := Nat.zero_le _
  length := rfl

/-- There are not more different configured hosts than controllers. -/
theorem length_le {sources : List (Option (Fin n))} (hnone : none ∉ sources)
    (hnodup : sources.Nodup) : sources.length ≤ n := by
  have hcard := (List.nodup_cons.mpr ⟨hnone, hnodup⟩).length_le_card
  rw [List.length_cons, Fintype.card_option, Fintype.card_fin] at hcard
  exact Nat.le_of_succ_le_succ hcard

/-- As many different configured hosts as controllers are all of them. -/
theorem mem_of_full {sources : List (Option (Fin n))} (hnone : none ∉ sources)
    (hnodup : sources.Nodup) (hfull : n ≤ sources.length) (i : Fin n) : some i ∈ sources := by
  by_contra hmissing
  have hnodup' : (some i :: sources).Nodup := List.nodup_cons.mpr ⟨hmissing, hnodup⟩
  have hnone' : none ∉ some i :: sources := by
    rintro (_ | ⟨_, hmem⟩)
    exact hnone hmem
  have hlength := length_le hnone' hnodup'
  rw [List.length_cons] at hlength
  exact absurd hfull (Nat.not_le_of_lt hlength)

theorem Inv.countsAll (h : s.Inv) (l : Label n) : s.CountsAll l := by
  cases l with
  | receive => trivial
  | leader now =>
      intro _ _ _ hdue hperiod i
      apply mem_of_full h.configured h.distinct
      rw [h.length]
      by_contra hfew
      exact hdue ⟨Nat.not_le.mp hfew, hperiod⟩

/-- `leader_loop` keeps the proposals or forgets them all. -/
theorem lastProposal_leaderLoop (s : LeaderState) (myIntIp : Option ℤ) (now : Timeval) :
    (s.leaderLoop n myIntIp now).lastProposal = s.lastProposal ∨
      (s.leaderLoop n myIntIp now).lastProposal = 0 := by
  rw [leaderLoop]
  cases s.pc with
  | suspecting =>
      left
      show (s.suspectLeader now).lastProposal = _
      rw [suspectLeader]
      split <;> rfl
  | electing =>
      simp only
      split
      · split
        · left
          show (s.doAgreementReduction n now).lastProposal = _
          rw [doAgreementReduction]
          split
          · dsimp only
            split <;> rfl
          · rfl
        · exact .inr rfl
      · exact .inl rfl
  | proposing =>
      left
      cases myIntIp <;> rfl
  | beating =>
      left
      simp only
      split <;> rfl

/-- A step of `leader_loop` leaves distinct proposers. -/
theorem Inv.leader (h : s.Inv) (now : Timeval) (hstep : s.step myIntIp (.leader now) = some t) :
    t.Inv := by
  obtain rfl := Option.some.inj hstep
  rcases lastProposal_leaderLoop (n := n) s.state myIntIp now with hsame | hzero
  · have htake : s.sources.take (s.state.leaderLoop n myIntIp now).lastProposal = s.sources :=
      List.take_of_length_le (hsame ▸ Nat.le_of_eq h.length)
    rw [htake]
    exact ⟨⟨h.configured, h.distinct, hsame.symm ▸ h.controllers, hsame.symm ▸ h.bound⟩,
      h.length.trans hsame.symm⟩
  · rw [hzero, List.take_zero]
    exact ⟨⟨List.not_mem_nil, List.nodup_nil, hzero.symm ▸ Nat.zero_le _,
      hzero.symm ▸ Nat.zero_le _⟩, hzero.symm⟩

/-- What a datagram does to the recorded proposals. -/
theorem receive_cases (myIntIp : Option ℤ) (s : Recording n) (src : Option (Fin n)) (sock : ℤ)
    (msg : Msg) (now : Timeval) :
    (msg.type ≠ Leader.leaderPropose ∧ ∃ state,
        s.step myIntIp (.receive src sock msg now) = some ⟨state, s.sources⟩ ∧
          state.lastProposal = s.state.lastProposal) ∨
      (msg.type = Leader.leaderPropose ∧
        (¬ s.state.lastProposal < maxControllers ∧
            s.step myIntIp (.receive src sock msg now) = none ∨
          s.state.lastProposal < maxControllers ∧ ∃ state,
            s.step myIntIp (.receive src sock msg now) = some ⟨state, s.sources ++ [src]⟩ ∧
              state.lastProposal = s.state.lastProposal + 1)) := by
  by_cases hpropose : msg.type = Leader.leaderPropose
  · right
    have hheartbeat : msg.type ≠ Leader.leaderHeartbeat := by
      rw [hpropose]
      decide
    have hcall : s.state.callFunction sock msg now = s.state.leaderPropose sock msg.payload := by
      rw [callFunction, if_neg hheartbeat, if_pos hpropose]
    refine ⟨hpropose, ?_⟩
    rw [step, hcall, LeaderState.leaderPropose]
    by_cases hroom : s.state.lastProposal < maxControllers
    · rw [if_pos hroom, Option.map_some, if_pos hpropose]
      exact .inr ⟨hroom, _, rfl, rfl⟩
    · rw [if_neg hroom]
      exact .inl ⟨hroom, rfl⟩
  · left
    refine ⟨hpropose, ?_⟩
    simp only [step, callFunction, if_neg hpropose]
    split
    · exact ⟨_, rfl, rfl⟩
    · exact ⟨_, rfl, rfl⟩

/-- A proposal that is added leaves distinct proposers iff it is a fresh one. -/
theorem Inv.add_iff (h : s.Inv) (src : Option (Fin n)) {state : LeaderState}
    (hlast : state.lastProposal = s.state.lastProposal + 1)
    (hroom : s.state.lastProposal < maxControllers) :
    (Recording.mk state (s.sources ++ [src])).Distinct ↔
      (∃ i, src = some i) ∧ src ∉ s.sources := by
  rw [← Option.ne_none_iff_exists']
  constructor
  · intro hdistinct
    have hnodup := List.nodup_append.mp hdistinct.distinct
    refine ⟨?_, fun hmem => hnodup.2.2 src hmem src List.mem_cons_self rfl⟩
    rintro rfl
    exact hdistinct.configured (List.mem_append_right _ List.mem_cons_self)
  · rintro ⟨hconfigured, hnew⟩
    have hnone : none ∉ s.sources ++ [src] := by
      rw [List.mem_append, List.mem_singleton]
      exact not_or_intro h.configured hconfigured.symm
    have hnodup : (s.sources ++ [src]).Nodup := by
      refine List.nodup_append.mpr ⟨h.distinct, List.nodup_singleton _, ?_⟩
      rintro a ha b hb rfl
      exact hnew (List.mem_singleton.mp hb ▸ ha)
    have hlength := length_le hnone hnodup
    rw [List.length_append, List.length_singleton, h.length, ← hlast] at hlength
    exact ⟨hnone, hnodup, hlength, hlast ▸ hroom⟩

theorem Inv.sound_iff (h : s.Inv) (l : Label n) : s.Sound myIntIp l ↔ s.Fresh l := by
  cases l with
  | leader now =>
      have hstep : s.step myIntIp (.leader now) = some _ := rfl
      exact iff_of_true ⟨h.countsAll _, _, hstep, (h.leader now hstep).toDistinct⟩ trivial
  | receive src sock msg now =>
      rcases receive_cases myIntIp s src sock msg now with
        ⟨hother, state, hstep, hlast⟩ | ⟨hpropose, ⟨hfull, hstep⟩ | ⟨hroom, state, hstep, hlast⟩⟩
      · refine iff_of_true ⟨trivial, _, hstep, ?_⟩ fun hpropose => absurd hpropose hother
        exact ⟨h.configured, h.distinct, hlast ▸ h.controllers, hlast ▸ h.bound⟩
      · refine iff_of_false ?_ fun hfresh => hfull (hfresh hpropose).2.2
        rintro ⟨-, t, ht, -⟩
        cases hstep.symm.trans ht
      · have hadd := h.add_iff src hlast hroom
        constructor
        · rintro ⟨-, t, ht, hdistinct⟩ -
          obtain rfl := Option.some.inj (hstep.symm.trans ht)
          exact ⟨(hadd.mp hdistinct).1, (hadd.mp hdistinct).2, hroom⟩
        · intro hfresh
          obtain ⟨hsome, hnew, -⟩ := hfresh hpropose
          exact ⟨trivial, _, hstep, hadd.mpr ⟨hsome, hnew⟩⟩

theorem Inv.step (h : s.Inv) {l : Label n} (hl : s.Sound myIntIp l)
    (hstep : s.step myIntIp l = some t) : t.Inv := by
  cases l with
  | leader now => exact h.leader now hstep
  | receive src sock msg now =>
      obtain ⟨-, t', ht', hdistinct⟩ := hl
      obtain rfl := Option.some.inj (ht'.symm.trans hstep)
      refine ⟨hdistinct, ?_⟩
      rcases receive_cases myIntIp s src sock msg now with
        ⟨-, state, hstep', hlast⟩ | ⟨-, ⟨-, hstep'⟩ | ⟨-, state, hstep', hlast⟩⟩
      · obtain rfl := Option.some.inj (hstep'.symm.trans hstep)
        exact h.length.trans hlast.symm
      · cases hstep'.symm.trans hstep
      · obtain rfl := Option.some.inj (hstep'.symm.trans hstep)
        show (s.sources ++ [src]).length = state.lastProposal
        rw [List.length_append, List.length_singleton, h.length, hlast]

/-- **Distinct proposers.**  The recorded proposals are those of distinct
configured controllers, in bounds, and count all of them when they are as many,
in the runs whose proposals are all fresh, and in no others. -/
theorem attempts_sound_iff (myIntIp : Option ℤ) (start : Timeval) (ls : List (Label n)) :
    Attempts (Recording.step myIntIp) (Sound myIntIp) (initial start) ls ↔
      Attempts (Recording.step myIntIp) Fresh (initial start) ls :=
  attempts_congr (fun _ _ _ h hl hstep => h.step hl hstep) (fun _ l h => h.sound_iff l)
    (initial_inv start)

/-- The proposal of the first of two controllers. -/
def firstProposal : Label 2 :=
  .receive (some ⟨0, Nat.zero_lt_two⟩) 3 ⟨Leader.leaderPropose, 8, 16777226⟩ ⟨1001, 0⟩

/-- It proposes again before the other one has started a round. -/
theorem proposed_twice :
    ¬ Attempts (Recording.step none) (Sound none) (initial ⟨1000, 0⟩)
      [firstProposal, firstProposal] := by
  intro hall
  obtain ⟨s, hs, t, ht, src, hsources⟩ :
      ∃ s, (initial ⟨1000, 0⟩).step none firstProposal = some s ∧
        ∃ t, s.step none firstProposal = some t ∧ ∃ src, t.sources = [src, src] :=
    ⟨_, rfl, _, rfl, _, rfl⟩
  obtain ⟨-, t', ht', hdistinct⟩ := (hall.2 s hs).1
  obtain rfl := Option.some.inj (ht.symm.trans ht')
  have hnodup := hdistinct.distinct
  rw [hsources] at hnodup
  exact (List.nodup_cons.mp hnodup).1 List.mem_cons_self

end Recording

end A2PM.Leader
