/-
A2PM/ControllerLocks.lean

The lock discipline of the controller's threads, and who holds `mutex`.

`owesMutex c` and `owesManageVm c` read off a thread's remaining code that
its next instruction on the mutex is a release.  That the code keeps to the
lock discipline is a property of its text alone (`shaped`), which every
fragment of the source has; `CodeInv` says that what is left of each thread
is such a text.  The first invariant that follows is `MutexInv`: `mutex` is
held iff some thread owes its release, and then by exactly one.
-/
import A2PM.ControllerThreads
import Mathlib.Data.List.Infix

namespace A2PM.Controller

open Instr Transition

/-! ### The lock discipline, read off the code -/

/-- The next instruction on `mutex` releases it or hands it over. -/
def owesMutex : List Instr → Bool
  | unlockMutex :: _ | createThread :: _ => true
  | assign :: c | switchVm :: c | removeVm :: c | copyVm _ _ :: c => owesMutex c
  | lockManageVm _ :: c | setIp :: c | setPort :: c | setService :: c | setOp _ :: c
  | setStateManVm :: c => owesMutex c
  | _ => false

/-- The thread is filling in `virt_machine`. -/
def owesManageVm : List Instr → Bool
  | setStateManVm :: _ => true
  | setIp :: c | setPort :: c | setService :: c | setOp _ :: c => owesManageVm c
  | _ => false

/-- The code is the rest of a post of `op`, all four fields to be written. -/
def startsPost (op : Operations) : List Instr → Bool
  | setIp :: setPort :: setService :: setOp op' :: setStateManVm :: c =>
      op' == op && !owesManageVm c
  | _ => false

/-- `i` may stand before `c`: a lock is taken only to be released, and a
post is not interrupted.  (Not for the instructions of `balancer_thread`.) -/
def follows : Instr → List Instr → Bool
  | lockMutex, c => owesMutex c && !owesManageVm c
  | lockManageVm op, c => startsPost op c
  | setIp, c | setPort, c | setService, c | setOp _, c => owesManageVm c
  | setStateManVm, c => !owesManageVm c
  | assign, c | switchVm, c | removeVm, c | copyVm _ _, c => owesMutex c && !owesManageVm c
  | unlockMutex, c | createThread, c | sendRejuvenate, c | closeSocket, c | storeFeatures, c
  | halt, c => !owesMutex c && !owesManageVm c
  | sendContinue, c => c.isEmpty
  | _, _ => false

def shaped : List Instr → Bool
  | [] => true
  | i :: c => follows i c && shaped c

/-- The record in `virt_machine` once the post under way is complete. -/
def finishPost (vm : VmData) : List Instr → VirtualMachine → VirtualMachine
  | setIp :: c, v => finishPost vm c { v with ip := vm.ipAddress }
  | setPort :: c, v => finishPost vm c { v with port := htons 8080 }
  | setService :: c, v => finishPost vm c { v with service := vm.serviceInfo.service }
  | setOp op :: c, v => finishPost vm c { v with op := op }
  | _, v => v

/-- The record `send` has read once it has read all of `v`. -/
def finishSend (v : VirtualMachine) : List Instr → VirtualMachine → VirtualMachine
  | copyIp :: c, out => finishSend v c { out with ip := v.ip }
  | copyPort :: c, out => finishSend v c { out with port := v.port }
  | copyService :: c, out => finishSend v c { out with service := v.service }
  | copyOp :: c, out => finishSend v c { out with op := v.op }
  | _, out => out

/-- A post fills in all of the record, whatever was there before. -/
theorem finishPost_of_startsPost (vm : VmData) {op : Operations} {c : List Instr}
    (h : startsPost op c = true) (v : VirtualMachine) :
    owesManageVm c = true ∧ finishPost vm c v = notification vm op := by
  unfold startsPost at h
  split at h
  · simp only [Bool.and_eq_true, beq_iff_eq] at h
    obtain ⟨rfl, -⟩ := h
    exact ⟨rfl, rfl⟩
  · cases h

namespace Server

/-! ### What one instruction changes -/

/-- The part of the state that a post goes through. -/
def mailbox (s : Server) :=
  (s.manageVmMutex, s.stateManVm, s.virtMachine, s.out, s.sent, s.acquired, s.raised)

/-- Instructions on the mailbox. -/
def onMailbox : Instr → Bool
  | lockManageVm _ | setIp | setPort | setService | setOp _ | setStateManVm => true
  | copyIp | copyPort | copyService | copyOp | sendRecord | clearStateManVm | unlockManageVm =>
      true
  | _ => false

/-- Instructions on `mutex`. -/
def onMutex : Instr → Bool
  | lockMutex | unlockMutex | createThread => true
  | _ => false

/-- Instructions that change the registry. -/
def writesRegistry : Instr → Bool
  | assign | switchVm | removeVm => true
  | _ => false

/-- What an instruction of thread `t` leaves as it is. -/
structure Frame (t : Tid) (i : Instr) (s s' : Server) : Prop where
  mutex : onMutex i = false → s'.mutex = s.mutex
  mailbox : onMailbox i = false → s'.mailbox = s.mailbox
  registry : writesRegistry i = false → s'.registry = s.registry
  assigned : i ≠ assign → s'.index = s.index ∧ s'.registered = s.registered
  registered : ∀ n, n ≠ s.created → s'.registered n = s.registered n
  created : s'.created = if i = createThread then s.created + 1 else s.created
  /-- A thread's `vm` is its own: only the thread changes it, and only when it
  copies its slot or stores the last features. -/
  vm : ∀ u, u ≠ t ∨ (∀ g k, i ≠ copyVm g k) ∧ i ≠ storeFeatures → s'.vm u = s.vm u
  openSockets : i ≠ closeSocket → s'.openSockets = s.openSockets

theorem Frame.refl (s : Server) (t : Tid) {i : Instr} (hi : i ≠ createThread) : Frame t i s s where
  mutex := fun _ => rfl
  mailbox := fun _ => rfl
  registry := fun _ => rfl
  assigned := fun _ => ⟨rfl, rfl⟩
  registered := fun _ _ => rfl
  created := (if_neg hi).symm
  vm := fun _ _ => rfl
  openSockets := fun _ => rfl

theorem effect_frame {s s' : Server} {t : Tid} {env : Env} {i : Instr}
    (h : s.effect t env i = some s') : Frame t i s s' := by
  by_cases hcreate : i = createThread
  · subst hcreate
    obtain rfl := Option.some.inj h
    exact ⟨fun hi => (by cases hi), fun _ => rfl, fun _ => rfl, fun _ => ⟨rfl, rfl⟩,
      fun _ _ => rfl, rfl, fun _ _ => rfl, fun _ => rfl⟩
  have hsame : Frame t i s s := .refl s t hcreate
  cases i with
  | lockMutex =>
      obtain ⟨-, heq⟩ := Option.ite_none_right_eq_some.mp h
      obtain rfl := Option.some.inj heq
      exact { hsame with mutex := fun hi => by cases hi }
  | unlockMutex =>
      obtain rfl := Option.some.inj h
      exact { hsame with mutex := fun hi => by cases hi }
  | createThread => exact absurd rfl hcreate
  | lockManageVm =>
      obtain ⟨-, heq⟩ := Option.ite_none_right_eq_some.mp h
      obtain rfl := Option.some.inj heq
      exact { hsame with mailbox := fun hi => by cases hi }
  | assign =>
      obtain ⟨_, -, rfl⟩ := Option.map_eq_some_iff.mp h
      exact { hsame with
        registry := fun hi => by cases hi
        assigned := fun hi => absurd rfl hi
        registered := fun n hn => Function.update_of_ne hn _ _ }
  | switchVm | removeVm =>
      obtain ⟨_, -, rfl⟩ := Option.map_eq_some_iff.mp h
      exact { hsame with registry := fun hi => by cases hi }
  | copyVm g k =>
      obtain ⟨_, -, rfl⟩ := Option.map_eq_some_iff.mp h
      refine { hsame with vm := ?_ }
      rintro u (hu | ⟨hcopy, -⟩)
      · exact Function.update_of_ne hu _ _
      · exact absurd rfl (hcopy g k)
  | storeFeatures =>
      cases t with
      | accept | balancer => cases h
      | comm n =>
          obtain rfl := Option.some.inj h
          refine { hsame with vm := ?_ }
          rintro u (hu | ⟨-, hstore⟩)
          · exact Function.update_of_ne hu _ _
          · exact absurd rfl hstore
  | closeSocket =>
      obtain rfl := Option.some.inj h
      exact { hsame with openSockets := fun hi => absurd rfl hi }
  | sendRejuvenate | sendContinue =>
      obtain rfl := Option.some.inj h
      exact hsame
  | halt => cases h
  | _ =>
      -- the other instructions of a post, and those of `balancer_thread`
      obtain rfl := Option.some.inj h
      exact { hsame with mailbox := fun hi => by cases hi }

/-- A step of a thread is one instruction, or a poll of `balancer_thread`. -/
theorem step_run {s s' : Server} {t : Tid} {env : Env} (h : s.step (.run t env) = some s') :
    (∃ i c s₁, s.code t = i :: c ∧ s.effect t env i = some s₁ ∧
      s' = { s₁ with code := s.nextCode t env i c }) ∨
    (t = .balancer ∧ s.code .balancer = [] ∧
      s' = if s.stateManVm then s.goto .balancer sendCode else s) := by
  rcases hc : s.code t with - | ⟨i, c⟩
  · simp only [step, hc, Option.ite_none_right_eq_some, Option.some.injEq] at h
    obtain ⟨rfl, rfl⟩ := h
    exact .inr ⟨rfl, hc, rfl⟩
  · simp only [step, hc, Option.map_eq_some_iff] at h
    obtain ⟨s₁, hs₁, rfl⟩ := h
    exact .inl ⟨i, c, s₁, rfl, hs₁, rfl⟩

theorem nextCode_self {s : Server} {t : Tid} {env : Env} {i : Instr} {c : List Instr}
    (h : i ≠ createThread ∨ t ≠ .comm s.created) :
    s.nextCode t env i c t = s.rest t env i c := by
  unfold nextCode
  by_cases hi : i = createThread
  · have ht : t ≠ .comm s.created := h.resolve_left (not_not_intro hi)
    simp [hi, ht]
  · simp [hi]

theorem nextCode_other {s : Server} {t u : Tid} {env : Env} {i : Instr} {c : List Instr}
    (hut : u ≠ t) (h : i ≠ createThread ∨ u ≠ .comm s.created) :
    s.nextCode t env i c u = s.code u := by
  unfold nextCode
  by_cases hi : i = createThread
  · have hu : u ≠ .comm s.created := h.resolve_left (not_not_intro hi)
    simp [hi, hu, hut]
  · simp [hi, hut]

theorem nextCode_created {s : Server} {t : Tid} {env : Env} {c : List Instr} :
    s.nextCode t env createThread c (.comm s.created) =
      communicationStart (s.vm t).serviceInfo.service s.index := by
  simp [nextCode]

/-- The code continues, except in the error branches of the two `send`s. -/
theorem rest_cases (s : Server) (t : Tid) (env : Env) (i : Instr) (c : List Instr) :
    s.rest t env i c = c ∨
    (i = sendRejuvenate ∧ s.rest t env i c = manageDisconnectedVmsCode ++ closeSocket :: c) ∨
    (i = sendContinue ∧ s.rest t env i c = exitCode) := by
  cases i with
  | sendRejuvenate =>
      by_cases hs : s.sends t env = true
      · exact .inl (if_pos hs)
      · exact .inr (.inl ⟨rfl, if_neg hs⟩)
  | sendContinue =>
      by_cases hs : s.sends t env = true
      · exact .inl (if_pos hs)
      · exact .inr (.inr ⟨rfl, if_neg hs⟩)
  | _ => exact .inl rfl

theorem shaped_rest {s : Server} {t : Tid} {env : Env} {i : Instr} {c : List Instr}
    (h : shaped (i :: c) = true) : shaped (s.rest t env i c) = true := by
  simp only [shaped, Bool.and_eq_true] at h
  rcases s.rest_cases t env i c with hr | ⟨rfl, hr⟩ | ⟨rfl, hr⟩ <;> rw [hr]
  · exact h.2
  · simpa [shaped, follows, manageDisconnectedVmsCode, owesMutex, owesManageVm] using h
  · rfl

/-- Only the instructions on `mutex` change whether it is owed. -/
theorem owesMutex_rest {s : Server} {t : Tid} {env : Env} {i : Instr} {c : List Instr}
    (h : shaped (i :: c) = true) (hi : onMutex i = false) :
    owesMutex (s.rest t env i c) = owesMutex (i :: c) := by
  simp only [shaped, Bool.and_eq_true] at h
  rcases s.rest_cases t env i c with hr | ⟨rfl, hr⟩ | ⟨rfl, hr⟩ <;> rw [hr]
  · cases i <;> simp_all [follows, owesMutex, onMutex]
  · rfl
  · rfl

/-- Outside a post nothing is owed before or after an instruction. -/
theorem owesManageVm_rest {s : Server} {t : Tid} {env : Env} {i : Instr} {c : List Instr}
    (h : shaped (i :: c) = true) (hi : onMailbox i = false) :
    owesManageVm (s.rest t env i c) = false ∧ owesManageVm (i :: c) = false := by
  simp only [shaped, Bool.and_eq_true] at h
  rcases s.rest_cases t env i c with hr | ⟨rfl, hr⟩ | ⟨rfl, hr⟩ <;> rw [hr]
  · cases i <;> simp_all [follows, owesManageVm, onMailbox]
  · exact ⟨rfl, rfl⟩
  · exact ⟨rfl, rfl⟩

/-! ### The code of each thread -/

/-- `c` can be what is left of thread `t`'s code, if the accept thread is
registering a VM in state `st`. -/
def Fits (st : VmState) : Tid → List Instr → Prop
  | .accept, c => c <:+ acceptCode st
  | .comm _, c => shaped c = true ∧ createThread ∉ c ∧ assign ∉ c
  | .balancer, c => c <:+ sendCode

/-- The state of the VM that the accept thread is registering. -/
def acceptState (s : Server) : VmState := (s.vm .accept).serviceInfo.state

structure CodeInv (s : Server) : Prop where
  fits : ∀ t, Fits s.acceptState t (s.code t)
  notCreated : ∀ n, s.created ≤ n → s.code (.comm n) = [halt]

theorem shaped_of_suffix {l c : List Instr} (hl : shaped l = true) (h : c <:+ l) :
    shaped c = true := by
  obtain ⟨p, rfl⟩ := h
  induction p with
  | nil => exact hl
  | cons i p ih =>
      simp only [List.cons_append, shaped, Bool.and_eq_true] at hl
      exact ih hl.2

theorem shaped_acceptCode (st : VmState) : shaped (acceptCode st) = true := by
  cases st <;> rfl

theorem CodeInv.shaped {s : Server} (h : s.CodeInv) {t : Tid} (ht : t ≠ .balancer) :
    shaped (s.code t) = true := by
  cases t with
  | accept => exact shaped_of_suffix (shaped_acceptCode _) (h.fits .accept)
  | comm n => exact (h.fits (.comm n)).1
  | balancer => exact absurd rfl ht

/-- Instructions that only communication threads execute. -/
def ofComm : Instr → Bool
  | copyVm _ _ | switchVm | sendRejuvenate | removeVm | closeSocket | storeFeatures
  | sendContinue => true
  | _ => false

theorem ofComm_of_fits {st : VmState} {t : Tid} {c : List Instr} (h : Fits st t c) {i : Instr}
    (hi : i ∈ c) (hcomm : ofComm i = true) : ∃ n, t = .comm n := by
  cases t with
  | accept =>
      have hmem := h.subset hi
      revert hmem hcomm
      cases st <;> cases i <;> simp [acceptCode, notify, ofComm]
  | comm n => exact ⟨n, rfl⟩
  | balancer =>
      have hmem := h.subset hi
      revert hmem hcomm
      cases i <;> simp [sendCode, ofComm]

theorem fits_rest {s : Server} {st : VmState} {t : Tid} {env : Env} {i : Instr}
    {c : List Instr} (h : Fits st t (i :: c)) : Fits st t (s.rest t env i c) := by
  have hkeep : s.rest t env i c = c ∨ ∃ n, t = .comm n := by
    rcases s.rest_cases t env i c with hr | ⟨rfl, -⟩ | ⟨rfl, -⟩
    · exact .inl hr
    · exact .inr (ofComm_of_fits h List.mem_cons_self rfl)
    · exact .inr (ofComm_of_fits h List.mem_cons_self rfl)
  cases t with
  | accept | balancer =>
      rw [hkeep.resolve_right (by simp)]
      exact (List.suffix_cons i c).trans h
  | comm n =>
      obtain ⟨hshaped, hcreate, hassign⟩ := h
      refine ⟨shaped_rest hshaped, ?_⟩
      simp only [List.mem_cons, not_or] at hcreate hassign
      rcases s.rest_cases (.comm n) env i c with hr | ⟨-, hr⟩ | ⟨-, hr⟩ <;> rw [hr]
      · exact ⟨hcreate.2, hassign.2⟩
      · simpa [manageDisconnectedVmsCode] using ⟨hcreate.2, hassign.2⟩
      · decide

/-- The accept thread's `vm` is set when a client arrives only. -/
theorem effect_vm_accept {s s' : Server} {st : VmState} {t : Tid} {env : Env} {i : Instr}
    {c : List Instr} (hfits : Fits st t (i :: c)) (h : s.effect t env i = some s') :
    s'.vm .accept = s.vm .accept := by
  refine (effect_frame h).vm .accept ?_
  by_cases hi : ofComm i = true
  · obtain ⟨n, rfl⟩ := ofComm_of_fits hfits (by simp) hi
    exact .inl (by simp)
  · refine .inr ⟨?_, ?_⟩
    · rintro g k rfl
      exact hi rfl
    · rintro rfl
      exact hi rfl

theorem initial_codeInv (mem : Service → ℕ → VmData) (stack : Tid → VmData)
    (features : ℕ → SystemFeatures) : (initial mem stack features).CodeInv where
  fits t := by
    cases t with
    | accept | balancer => exact List.nil_suffix
    | comm n => exact ⟨rfl, by simp [initial], by simp [initial]⟩
  notCreated _ _ := rfl

/-- Sending one thread somewhere else keeps the invariant. -/
theorem CodeInv.goto {s : Server} (h : s.CodeInv) {t : Tid} {c : List Instr}
    (ht : s.code t = []) (hc : Fits s.acceptState t c) : (s.goto t c).CodeInv where
  fits u := by
    show Fits s.acceptState u (Function.update s.code t c u)
    rcases eq_or_ne u t with rfl | hu
    · rwa [Function.update_self]
    · rw [Function.update_of_ne hu]
      exact h.fits u
  notCreated n hn := by
    have hnt : .comm n ≠ t := by
      rintro rfl
      rw [h.notCreated n hn] at ht
      cases ht
    simpa [Server.goto, hnt] using h.notCreated n hn

/-- A thread that can take a step has been created. -/
theorem CodeInv.created_of_effect {s s' : Server} (h : s.CodeInv) {n : ℕ} {env : Env}
    {i : Instr} {c : List Instr} (hcode : s.code (.comm n) = i :: c)
    (heff : s.effect (.comm n) env i = some s') : n < s.created := by
  by_contra hn
  rw [h.notCreated n (by omega), List.cons.injEq] at hcode
  rw [← hcode.1] at heff
  cases heff

/-- The code of every thread after an instruction of thread `t`. -/
theorem CodeInv.nextCode_cases {s s' : Server} (h : s.CodeInv) {t : Tid} {env : Env}
    {i : Instr} {c : List Instr} (hcode : s.code t = i :: c)
    (heff : s.effect t env i = some s') (u : Tid) :
    (u = t ∧ s.nextCode t env i c u = s.rest t env i c) ∨
    (u = .comm s.created ∧ u ≠ t ∧ i = createThread ∧
      s.nextCode t env i c u = communicationStart (s.vm t).serviceInfo.service s.index) ∨
    (u ≠ t ∧ (i = createThread → u ≠ .comm s.created) ∧ s.nextCode t env i c u = s.code u) := by
  have ht : t ≠ .comm s.created := by
    rintro rfl
    exact absurd (h.created_of_effect hcode heff) (by omega)
  rcases eq_or_ne u t with rfl | hu
  · exact .inl ⟨rfl, nextCode_self (.inr ht)⟩
  · by_cases hnew : i = createThread ∧ u = .comm s.created
    · obtain ⟨rfl, rfl⟩ := hnew
      exact .inr (.inl ⟨rfl, hu, rfl, nextCode_created⟩)
    · have hor : i ≠ createThread ∨ u ≠ .comm s.created := by tauto
      exact .inr (.inr ⟨hu, fun hi => hor.resolve_left (not_not_intro hi),
        nextCode_other hu hor⟩)

theorem codeInv_run {s s' : Server} {t : Tid} {env : Env} (h : s.CodeInv)
    (hstep : s.step (.run t env) = some s') : s'.CodeInv := by
  rcases step_run hstep with ⟨i, c, s₁, hcode, heff, rfl⟩ | ⟨rfl, hcode, rfl⟩
  · have hfits : Fits s.acceptState t (i :: c) := hcode ▸ h.fits t
    have hvm := effect_vm_accept hfits heff
    have hcreated := (effect_frame heff).created
    refine ⟨fun u => ?_, fun n hn => ?_⟩
    · have hst : acceptState { s₁ with code := s.nextCode t env i c } = s.acceptState := by
        show (s₁.vm .accept).serviceInfo.state = _
        rw [hvm, acceptState]
      rw [hst]
      rcases h.nextCode_cases hcode heff u with ⟨rfl, hu⟩ | ⟨rfl, -, -, hu⟩ | ⟨-, -, hu⟩ <;>
        dsimp only <;> rw [hu]
      · exact fits_rest hfits
      · exact ⟨rfl, by simp [communicationStart], by simp [communicationStart]⟩
      · exact h.fits u
    · change s₁.created ≤ n at hn
      rw [hcreated] at hn
      have hle : s.created ≤ n := by split at hn <;> omega
      rcases h.nextCode_cases hcode heff (.comm n) with ⟨rfl, -⟩ | ⟨hu, -, hi, -⟩ | ⟨-, -, hu⟩
      · exact absurd (h.created_of_effect hcode heff) (by omega)
      · rw [if_pos hi] at hn
        simp only [Tid.comm.injEq] at hu
        omega
      · exact hu.trans (h.notCreated n hle)
  · split
    · exact h.goto hcode (List.suffix_refl _)
    · exact h

theorem codeInv_step {s s' : Server} {l : Label} (h : s.CodeInv) (hstep : s.step l = some s') :
    s'.CodeInv := by
  cases l with
  | run t env => exact codeInv_run h hstep
  | newClient info ip socket port answered =>
      simp only [step, Option.ite_none_right_eq_some, Option.some.injEq] at hstep
      obtain ⟨-, rfl⟩ := hstep
      refine ⟨fun t => ?_, fun n hn => by simpa [goto] using h.notCreated n hn⟩
      cases t with
      | accept => simp [Fits, acceptState, goto, fillSlot]
      | comm n => simpa [Fits, goto] using h.fits (.comm n)
      | balancer => simpa [Fits, goto] using h.fits .balancer
  | recvFail n =>
      simp only [step, Option.ite_none_right_eq_some, Option.some.injEq] at hstep
      obtain ⟨⟨hn, -⟩, rfl⟩ := hstep
      exact h.goto hn ⟨rfl, by decide⟩
  | recvFeatures n rejuvenate =>
      simp only [step, Option.ite_none_right_eq_some, Option.some.injEq] at hstep
      obtain ⟨⟨hn, -⟩, rfl⟩ := hstep
      cases rejuvenate
      · exact h.goto hn ⟨rfl, by decide⟩
      · exact h.goto hn ⟨rfl, by decide⟩

/-! ### Who holds `mutex` -/

/-- `mutex` is held by the thread that owes its release. -/
def MutexInv (s : Server) : Prop := ∀ t, s.mutex = some t ↔ owesMutex (s.code t) = true

theorem owesMutex_sendCode {c : List Instr} (h : c <:+ sendCode) : owesMutex c = false := by
  have := (List.mem_tails _ _).mpr h
  revert this
  simp only [sendCode, List.tails, List.mem_cons, List.not_mem_nil, or_false]
  rintro (rfl | rfl | rfl | rfl | rfl | rfl | rfl | rfl) <;> rfl

theorem owesMutex_rest_of_fits {s : Server} {st : VmState} {t : Tid} {env : Env} {i : Instr}
    {c : List Instr} (h : Fits st t (i :: c)) (hs : t ≠ .balancer → shaped (i :: c) = true)
    (hi : onMutex i = false) : owesMutex (s.rest t env i c) = owesMutex (i :: c) := by
  by_cases ht : t = .balancer
  · subst ht
    have hrest : Fits st .balancer (s.rest .balancer env i c) := fits_rest h
    rw [owesMutex_sendCode h, owesMutex_sendCode hrest]
  · exact owesMutex_rest (hs ht) hi

/-- Only a communication thread or the accept thread works on `mutex`. -/
theorem ne_balancer_of_onMutex {st : VmState} {t : Tid} {i : Instr} {c : List Instr}
    (h : Fits st t (i :: c)) (hi : onMutex i = true) : t ≠ .balancer := by
  rintro rfl
  have := h.subset List.mem_cons_self
  revert this hi
  cases i <;> simp [sendCode, onMutex]

theorem mutexInv_effect {s s₁ : Server} {t : Tid} {env : Env} {i : Instr} {c : List Instr}
    (hc : s.CodeInv) (h : s.MutexInv) (hcode : s.code t = i :: c)
    (heff : s.effect t env i = some s₁) :
    MutexInv { s₁ with code := s.nextCode t env i c } := by
  have hfits : Fits s.acceptState t (i :: c) := hcode ▸ hc.fits t
  have hshaped : t ≠ .balancer → shaped (i :: c) = true := fun ht => hcode ▸ hc.shaped ht
  have hcases := hc.nextCode_cases hcode heff
  have hself := h t
  rw [hcode] at hself
  by_cases hi : onMutex i = true
  · have hs := hshaped (ne_balancer_of_onMutex hfits hi)
    simp only [Controller.shaped, Bool.and_eq_true] at hs
    intro u
    dsimp only
    cases i with
    | lockMutex =>
        simp only [effect, Option.ite_none_right_eq_some, Option.some.injEq] at heff
        obtain ⟨hfree, rfl⟩ := heff
        simp only [follows, Bool.and_eq_true] at hs
        rcases hcases u with ⟨rfl, hu⟩ | ⟨-, -, hi, -⟩ | ⟨hne, -, hu⟩
        · rw [hu]
          exact ⟨fun _ => hs.1.1, fun _ => rfl⟩
        · cases hi
        · rw [hu, ← h u, hfree]
          simp [hne.symm]
    | unlockMutex =>
        obtain rfl := Option.some.inj heff
        simp only [follows, Bool.and_eq_true, Bool.not_eq_true'] at hs
        rcases hcases u with ⟨rfl, hu⟩ | ⟨-, -, hi, -⟩ | ⟨hne, -, hu⟩
        · rw [hu]
          simp [rest, hs.1.1]
        · cases hi
        · rw [hu, ← h u, hself.mpr rfl]
          simp [hne.symm]
    | createThread =>
        obtain rfl := Option.some.inj heff
        simp only [follows, Bool.and_eq_true, Bool.not_eq_true'] at hs
        have hheld : s.mutex = some t := hself.mpr rfl
        simp only [hheld, Option.map_some, Option.some.injEq]
        rcases hcases u with ⟨rfl, hu⟩ | ⟨rfl, -, -, hu⟩ | ⟨hne, hnew, hu⟩
        · rw [hu]
          have hold : u ≠ .comm s.created := by
            rintro rfl
            have henabled : s.effect (.comm s.created) env createThread = some _ := rfl
            exact absurd (hc.created_of_effect hcode henabled) (by omega)
          simp [rest, hs.1.1, hold.symm]
        · rw [hu]
          simp [communicationStart, owesMutex]
        · rw [hu, ← h u, hheld]
          simp [hne.symm, (hnew rfl).symm]
    | _ => cases hi
  · simp only [Bool.not_eq_true] at hi
    have hct : i ≠ createThread := by
      rintro rfl
      cases hi
    intro u
    dsimp only
    rw [(effect_frame heff).mutex hi]
    rcases hcases u with ⟨rfl, hu⟩ | ⟨-, -, hi, -⟩ | ⟨-, -, hu⟩
    · rw [hu, owesMutex_rest_of_fits hfits hshaped hi]
      exact hself
    · exact absurd hi hct
    · rw [hu]
      exact h u

theorem MutexInv.goto {s : Server} (h : s.MutexInv) {t : Tid} {c : List Instr}
    (ht : s.code t = []) (hc : owesMutex c = false) : (s.goto t c).MutexInv := by
  intro u
  show s.mutex = some u ↔ owesMutex (Function.update s.code t c u) = true
  rcases eq_or_ne u t with rfl | hu
  · rw [h u, Function.update_self, ht, hc]
    rfl
  · rw [Function.update_of_ne hu]
    exact h u

theorem mutexInv_step {s s' : Server} {l : Label} (hc : s.CodeInv) (h : s.MutexInv)
    (hstep : s.step l = some s') : s'.MutexInv := by
  cases l with
  | run t env =>
      rcases step_run hstep with ⟨i, c, s₁, hcode, heff, rfl⟩ | ⟨rfl, hcode, rfl⟩
      · exact mutexInv_effect hc h hcode heff
      · split
        · exact h.goto hcode rfl
        · exact h
  | newClient info ip socket port answered =>
      simp only [step, Option.ite_none_right_eq_some, Option.some.injEq] at hstep
      obtain ⟨⟨hcode, -⟩, rfl⟩ := hstep
      exact h.goto hcode rfl
  | recvFail n =>
      simp only [step, Option.ite_none_right_eq_some, Option.some.injEq] at hstep
      obtain ⟨⟨hcode, -⟩, rfl⟩ := hstep
      exact h.goto hcode rfl
  | recvFeatures n rejuvenate =>
      simp only [step, Option.ite_none_right_eq_some, Option.some.injEq] at hstep
      obtain ⟨⟨hcode, -⟩, rfl⟩ := hstep
      cases rejuvenate <;> exact h.goto hcode rfl

end Server

end A2PM.Controller
