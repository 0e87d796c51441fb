/-
A2PM/ControllerDescriptors.lean

Which descriptors the communication threads use, and whose they are.

`close` gives a descriptor's number back, and the next `accept` may return
it.  A thread that still has the number then works on another VM's
connection.  `Descriptors` adds to the controller the kernel's view, the
connection that each number stands for, and a log of the calls.

The loop of `communication_thread` leaves a connection alone once it has
closed it (`along_ownUse`), but for the error branch of
`switch_active_machine`: the callee removes the VM and closes its socket,
and the caller goes on with both (`closed_by_callee`).

A connection that `accept_new_client` gives up before its registration never
reaches a communication thread; it is left out.
-/
import A2PM.ControllerHistory
import Mathlib.Data.List.Count
import Mathlib.Data.List.Pairwise

namespace A2PM.Controller

open Instr Transition

namespace Server

/-! ### The socket that a thread works on -/

/-- Slot `i` of group `g` has the socket. -/
def HoldsSocket (s : Server) (g : Service) (i : ℕ) (socket : ℤ) : Prop :=
  ∃ e, (s.registry g).cells[i]? = some e ∧ e.socket = socket

/-- Communication thread `n` is to copy the socket of its connection, or has
copied it. -/
inductive Carries (s : Server) (n : ℕ) : Prop
  | starting (g : Service) (i : ℕ) (hcode : s.code (.comm n) = communicationStart g i)
      (hslot : s.HoldsSocket g i (s.registered n).socket)
  | copied (hcopy : ∀ g i, copyVm g i ∉ s.code (.comm n))
      (hvm : (s.vm (.comm n)).socket = (s.registered n).socket)

structure SocketInv (s : Server) : Prop where
  assigned : s.code .accept ≠ [] → assign ∉ s.code .accept →
    s.HoldsSocket (s.vm .accept).serviceInfo.service s.index (s.vm .accept).socket
  carries : ∀ n, n < s.created → s.Carries n

/-- Nothing changes the socket in a thread's `vm` once it has been copied. -/
theorem socket_effect {s s₁ : Server} {t : Tid} {env : Env} {i : Instr}
    (heff : s.effect t env i = some s₁) (u : Tid) (hu : u ≠ t ∨ ∀ g k, i ≠ copyVm g k) :
    (s₁.vm u).socket = (s.vm u).socket := by
  by_cases hstore : i = storeFeatures
  · subst hstore
    cases t <;> simp only [effect, Option.some.injEq, reduceCtorEq] at heff
    subst heff
    rename_i n
    rcases eq_or_ne u (.comm n) with rfl | hne
    · show (Function.update s.vm (.comm n) _ (.comm n)).socket = _
      rw [Function.update_self]
    · show (Function.update s.vm (.comm n) _ u).socket = _
      rw [Function.update_of_ne hne]
  · rw [(effect_frame heff).vm u (hu.imp_right fun hcopy => ⟨hcopy, hstore⟩)]

/-- An instruction of another thread. -/
theorem Carries.frame {s s₁ : Server} {t : Tid} {env : Env} {i : Instr} {c : List Instr} {n : ℕ}
    (hp : s.Carries n) (h : s.ThreadInv) (hcode : s.code t = i :: c)
    (heff : s.effect t env i = some s₁) (hn : .comm n ≠ t) {code : Tid → List Instr}
    (hsame : code (.comm n) = s.code (.comm n)) (hreg : s₁.registered n = s.registered n) :
    Carries { s₁ with code := code } n := by
  cases hp with
  | starting g k hk hslot =>
      have hregistry : s₁.registry = s.registry := by
        apply registry_frame h hcode heff hn
        rw [hk]
        rfl
      refine .starting g k (hsame.trans hk) ?_
      show ∃ e, (s₁.registry g).cells[k]? = some e ∧ e.socket = (s₁.registered n).socket
      rw [hregistry, hreg]
      exact hslot
  | copied hcopy hvm =>
      refine .copied ?_ ?_
      · intro g k
        show copyVm g k ∉ code (.comm n)
        rw [hsame]
        exact hcopy g k
      · show (s₁.vm (.comm n)).socket = (s₁.registered n).socket
        rw [socket_effect heff _ (.inl hn), hreg]
        exact hvm

/-- The thread's own instruction. -/
theorem Carries.self {s s₁ : Server} {env : Env} {i : Instr} {c : List Instr} {n : ℕ}
    (hp : s.Carries n) (hcode : s.code (.comm n) = i :: c)
    (heff : s.effect (.comm n) env i = some s₁) {code : Tid → List Instr}
    (hself : code (.comm n) = s.rest (.comm n) env i c)
    (hreg : s₁.registered n = s.registered n) : Carries { s₁ with code := code } n := by
  cases hp with
  | starting g k hk hslot =>
      rw [hcode, communicationStart, List.cons.injEq] at hk
      obtain ⟨rfl, rfl⟩ := hk
      obtain ⟨e, he, hsocket⟩ := hslot
      simp only [effect, he, Option.map_some, Option.some.injEq] at heff
      subst heff
      refine .copied ?_ ?_
      · intro g k
        show copyVm g k ∉ code (.comm n)
        rw [hself]
        simp [rest]
      · show (Function.update s.vm (.comm n) e (.comm n)).socket = (s.registered n).socket
        rw [Function.update_self]
        exact hsocket
  | copied hcopy hvm =>
      rw [hcode] at hcopy
      refine .copied ?_ ?_
      · intro g k
        show copyVm g k ∉ code (.comm n)
        rw [hself]
        exact copyVm_notMem_rest hcopy g k
      · show (s₁.vm (.comm n)).socket = (s₁.registered n).socket
        rw [socket_effect heff _ (.inr ?_), hreg]
        · exact hvm
        · rintro g k rfl
          exact hcopy g k List.mem_cons_self

/-- `pthread_create`: the slot that has been filled in is the one the new
thread copies. -/
theorem socketInv_createThread {s : Server} (h : s.Inv) (hi : s.SocketInv)
    (hcode : s.code .accept = [createThread]) {code : Tid → List Instr}
    (haccept : code .accept = [])
    (hnew : code (.comm s.created) =
      communicationStart (s.vm .accept).serviceInfo.service s.index)
    (hsame : ∀ n, n < s.created → code (.comm n) = s.code (.comm n)) :
    SocketInv { s with
      mutex := s.mutex.map fun _ => .comm s.created
      created := s.created + 1
      code := code } := by
  have hne : s.code .accept ≠ [] := by simp [hcode]
  have hassign : assign ∉ s.code .accept := by simp [hcode]
  refine ⟨fun hbusy => absurd haccept hbusy, fun n hn => ?_⟩
  rcases Nat.lt_succ_iff_lt_or_eq.mp hn with hlt | rfl
  · cases hi.carries n hlt with
    | starting g k hk hslot => exact .starting g k ((hsame n hlt).trans hk) hslot
    | copied hcopy hvm =>
        refine .copied (fun g k => ?_) hvm
        show copyVm g k ∉ code (.comm n)
        rw [hsame n hlt]
        exact hcopy g k
  · refine .starting _ _ hnew ?_
    show s.HoldsSocket (s.vm .accept).serviceInfo.service s.index (s.registered s.created).socket
    rw [(h.history.assigned hne hassign).1]
    exact hi.assigned hne hassign

theorem socketInv_effect {s s₁ : Server} {t : Tid} {env : Env} {i : Instr} {c : List Instr}
    (h : s.Inv) (hi : s.SocketInv) (hcode : s.code t = i :: c)
    (heff : s.effect t env i = some s₁) (hcreate : i ≠ createThread) :
    SocketInv { s₁ with code := s.nextCode t env i c } := by
  have hfits : Fits s.acceptState t (i :: c) := hcode ▸ h.thread.code.fits t
  have haccept : s₁.vm .accept = s.vm .accept := effect_vm_accept hfits heff
  have hcreated : s₁.created = s.created := by simpa [hcreate] using (effect_frame heff).created
  refine ⟨fun hne hassign => ?_, fun n hn => ?_⟩
  · show s₁.HoldsSocket (s₁.vm .accept).serviceInfo.service s₁.index (s₁.vm .accept).socket
    rw [haccept]
    by_cases hia : i = assign
    · subst hia
      obtain rfl := eq_accept_of_assign hfits
      obtain ⟨reg', k, slot, hreg, -, hcell, -⟩ := register_spec h.wf env.fresh
        (s.vm .accept).serviceInfo (s.vm .accept).ipAddress (s.vm .accept).socket
        (s.vm .accept).port
      simp only [effect, hreg, Option.map_some, Option.some.injEq] at heff
      subst heff
      exact ⟨_, hcell, rfl⟩
    · obtain ⟨hne', hassign', hregistry⟩ :=
        assigned_frame h.thread hcode heff hcreate hia hne hassign
      rw [((effect_frame heff).assigned hia).1, HoldsSocket, hregistry]
      exact hi.assigned hne' hassign'
  · replace hn : n < s.created := hcreated ▸ hn
    have hreg := (effect_frame heff).registered n hn.ne
    by_cases ht : t = .comm n
    · subst ht
      exact (hi.carries n hn).self hcode heff (nextCode_self (.inl hcreate)) hreg
    · exact (hi.carries n hn).frame h.thread hcode heff (Ne.symm ht)
        (nextCode_other (Ne.symm ht) (.inl hcreate)) hreg

theorem SocketInv.goto {s : Server} (hi : s.SocketInv) {t : Tid} (ht : s.code t = [])
    {c : List Instr} (hcopy : ∀ g i, copyVm g i ∉ c) (hc : t = .accept → assign ∈ c) :
    (s.goto t c).SocketInv := by
  refine ⟨fun hne hassign => ?_, fun n hn => ?_⟩
  · by_cases hacc : t = .accept
    · subst hacc
      rw [goto_self] at hassign
      exact absurd (hc rfl) hassign
    · rw [goto_other s c (Ne.symm hacc)] at hne hassign
      exact hi.assigned hne hassign
  · by_cases hn' : t = .comm n
    · subst hn'
      have hself := s.goto_self (.comm n) c
      cases hi.carries n hn with
      | starting g k hk =>
          rw [ht] at hk
          cases hk
      | copied _ hvm => exact .copied (hself.symm ▸ hcopy) hvm
    · have hother := goto_other s c (Ne.symm hn')
      cases hi.carries n hn with
      | starting g k hk hslot => exact .starting g k (hother.trans hk) hslot
      | copied hcopy' hvm => exact .copied (hother.symm ▸ hcopy') hvm

theorem socketInv_step {s s' : Server} {l : Label} (h : s.Inv) (hi : s.SocketInv)
    (hstep : s.step l = some s') : s'.SocketInv := by
  cases l with
  | run t env =>
      rcases step_run hstep with ⟨i, c, s₁, hcode, heff, rfl⟩ | ⟨rfl, hcode, rfl⟩
      · by_cases hcreate : i = createThread
        · subst hcreate
          have hfits : Fits s.acceptState t (createThread :: c) := hcode ▸ h.thread.code.fits t
          obtain ⟨rfl, rfl⟩ := eq_accept_of_createThread hfits
          obtain rfl := Option.some.inj heff
          refine socketInv_createThread h hi hcode ?_ nextCode_created fun n hn => ?_
          · exact nextCode_self (.inr (by simp))
          · exact nextCode_other (by simp) (.inr (by simp [hn.ne]))
        · exact socketInv_effect h hi hcode heff hcreate
      · split
        · exact hi.goto hcode (by simp [sendCode]) (by simp)
        · exact hi
  | newClient info ip socket port answered =>
      simp only [step, Option.ite_none_right_eq_some, Option.some.injEq] at hstep
      obtain ⟨⟨hcode, -⟩, rfl⟩ := hstep
      have hgoto := hi.goto hcode (c := acceptCode info.state)
        (by cases info.state <;> simp [acceptCode, notify]) (by simp [acceptCode])
      refine ⟨fun _ hassign => ?_, fun n hn => ?_⟩
      · simp [Server.goto, acceptCode] at hassign
      · cases hgoto.carries n hn with
        | starting g k hk hslot => exact .starting g k hk hslot
        | copied hcopy hvm => exact .copied hcopy hvm
  | recvFail n =>
      simp only [step, Option.ite_none_right_eq_some, Option.some.injEq] at hstep
      obtain ⟨⟨hcode, -⟩, rfl⟩ := hstep
      exact hi.goto hcode (by simp [exitCode, notify, manageDisconnectedVmsCode]) (by simp)
  | recvFeatures n rejuvenate =>
      simp only [step, Option.ite_none_right_eq_some, Option.some.injEq] at hstep
      obtain ⟨⟨hcode, -⟩, rfl⟩ := hstep
      apply hi.goto hcode
      · cases rejuvenate <;>
          simp [rejuvenationCode, continueCode, switchActiveMachineCode, notify]
      · simp

end Server

/-! ### The calls on descriptors -/

inductive Call
  | recv | send | close
  /-- `manage_disconnected_vms`. -/
  | remove
  deriving DecidableEq

/-- A call on behalf of a connection, and the connection that its descriptor
stands for. -/
structure Use where
  connection : ℕ
  call : Call
  hit : Option ℕ
  deriving DecidableEq

/-- The call that an instruction makes. -/
def callOf : Instr → Option Call
  | sendRejuvenate | sendContinue => some .send
  | removeVm => some .remove
  | closeSocket => some .close
  | _ => none

structure Descriptors where
  server : Server
  /-- The connection that each open descriptor stands for. -/
  holder : ℤ → Option ℕ
  log : List Use

namespace Descriptors

open Server

def initial (mem : Service → ℕ → VmData) (stack : Tid → VmData)
    (features : ℕ → SystemFeatures) : Descriptors where
  server := .initial mem stack features
  holder := fun _ => none
  log := []

/-- A call of communication thread `n`. -/
def use (d : Descriptors) (n : ℕ) (c : Call) : Use :=
  ⟨n, c, d.holder (d.server.vm (.comm n)).socket⟩

/-- The calls that a step makes. -/
def uses (d : Descriptors) : Label → List Use
  | .run (.comm n) _ => ((d.server.code (.comm n)).head?.bind callOf).toList.map (d.use n)
  | .run _ _ => []
  | .newClient _ _ _ _ answered =>
      -- `accept_new_client` closes the socket when it cannot answer
      if answered then [] else [⟨d.server.created, .close, some d.server.created⟩]
  | .recvFail n | .recvFeatures n _ => [d.use n .recv]

def holderAfter (d : Descriptors) : Label → ℤ → Option ℕ
  | .run t _ =>
      if (d.server.code t).head? = some closeSocket then
        Function.update d.holder (d.server.vm t).socket none
      else d.holder
  | .newClient _ _ socket _ answered =>
      if answered then Function.update d.holder socket (some d.server.created) else d.holder
  | _ => d.holder

def step (d : Descriptors) (l : Label) : Option Descriptors :=
  (d.server.step l).map fun s =>
    { server := s, holder := d.holderAfter l, log := d.log ++ d.uses l }

/-- The calls on behalf of connection `n`, in their order. -/
def calls (d : Descriptors) (n : ℕ) : List Call :=
  (d.log.filter fun u => u.connection = n).map (·.call)

/-- **Descriptor ownership.**  A connection is left alone once it is closed;
every call works on the connection it is made for, so that no other thread
uses it; and a connection is closed and removed at most once. -/
structure OwnUse (d : Descriptors) : Prop where
  quiet : ∀ n, (d.calls n).Pairwise fun a b => a = .close → b = .remove
  own : ∀ u ∈ d.log, u.call ≠ .remove → u.hit = some u.connection
  closedOnce : ∀ n, (d.calls n).count .close ≤ 1
  removedOnce : ∀ n, (d.calls n).count .remove ≤ 1

/-- The answer of the handshake and the `REJUVENATE` command are sent. -/
def Sent (d : Descriptors) : Label → Prop
  | .run t env => (d.server.code t).head? = some sendRejuvenate → d.server.sends t env = true
  | .newClient _ _ _ _ answered => answered = true
  | _ => True

instance (d : Descriptors) (l : Label) : Decidable (d.Sent l) := by
  cases l <;> unfold Sent <;> infer_instance

/-! ### The life of a connection -/

/-- An instruction of the loop. -/
def stays : Instr → Bool
  | removeVm | closeSocket | halt => false
  | _ => true

/-- A call of the loop. -/
def serves : Call → Bool
  | .recv | .send => true
  | _ => false

/-- Connection `n`, whose thread is in its loop or behind it. -/
inductive Life (d : Descriptors) (n : ℕ) : Prop
  | serving (hcode : ∀ i ∈ d.server.code (.comm n), stays i = true)
      (hcalls : ∀ c ∈ d.calls n, serves c = true)
  | leaving (before : List Call) (hbefore : ∀ c ∈ before, serves c = true)
      (hcode : d.server.code (.comm n) <:+ exitCode) (hne : d.server.code (.comm n) ≠ [])
      (hcalls : d.calls n ++ (d.server.code (.comm n)).filterMap callOf =
        before ++ [.remove, .close])

structure Inv (d : Descriptors) : Prop where
  server : d.server.Inv
  socket : d.server.SocketInv
  life : ∀ n, n < d.server.created → d.Life n
  known : ∀ u ∈ d.log, u.connection < d.server.created
  /-- The descriptor that the accept thread is working on. -/
  accepted : d.server.code .accept ≠ [] →
    d.holder (d.server.vm .accept).socket = some d.server.created
  held : ∀ n, n < d.server.created → .close ∉ d.calls n →
    d.holder (d.server.registered n).socket = some n
  isOpen : ∀ fd, d.holder fd ≠ none → fd ∈ d.server.openSockets
  own : ∀ u ∈ d.log, u.call ≠ .remove → u.hit = some u.connection

/-- What has been called is the beginning of a complete life. -/
theorem Life.exists_before {d : Descriptors} {n : ℕ} (h : d.Life n) :
    ∃ before, (∀ c ∈ before, serves c = true) ∧ d.calls n <+: before ++ [.remove, .close] := by
  cases h with
  | serving _ hcalls => exact ⟨d.calls n, hcalls, List.prefix_append _ _⟩
  | leaving before hbefore _ _ hcalls => exact ⟨before, hbefore, hcalls ▸ List.prefix_append _ _⟩

theorem close_notMem_of_serves {before : List Call} (h : ∀ c ∈ before, serves c = true) :
    Call.close ∉ before :=
  fun hmem => by simpa [serves] using h _ hmem

/-- A life has one call of each kind that the loop does not make. -/
theorem count_le_one {calls before : List Call} (hbefore : ∀ c ∈ before, serves c = true)
    (hle : calls <+: before ++ [.remove, .close]) {a : Call} (ha : serves a = false) :
    calls.count a ≤ 1 := by
  have hnot : a ∉ before := by
    intro hmem
    rw [hbefore a hmem] at ha
    cases ha
  apply (hle.sublist.count_le a).trans
  rw [List.count_append, List.count_eq_zero_of_not_mem hnot]
  cases a <;> decide

theorem Inv.ownUse {d : Descriptors} (h : d.Inv) : d.OwnUse := by
  have hprefix : ∀ n, ∃ before, (∀ c ∈ before, serves c = true) ∧
      d.calls n <+: before ++ [.remove, .close] := by
    intro n
    by_cases hn : n < d.server.created
    · exact (h.life n hn).exists_before
    · refine ⟨[], by simp, ?_⟩
      have hnil : d.calls n = [] := by
        rw [calls, List.map_eq_nil_iff, List.filter_eq_nil_iff]
        intro u hu hconnection
        have := h.known u hu
        rw [decide_eq_true_eq] at hconnection
        omega
      rw [hnil]
      exact List.nil_prefix
  refine ⟨fun n => ?_, h.own, fun n => ?_, fun n => ?_⟩
  · obtain ⟨before, hbefore, hle⟩ := hprefix n
    refine List.Pairwise.sublist hle.sublist ?_
    have hclose := close_notMem_of_serves hbefore
    rw [List.pairwise_append]
    refine ⟨?_, by simp, ?_⟩
    · apply List.pairwise_of_forall_mem_list
      rintro a ha b - rfl
      exact absurd ha hclose
    · rintro a ha b - rfl
      exact absurd ha hclose
  · obtain ⟨before, hbefore, hle⟩ := hprefix n
    exact count_le_one hbefore hle rfl
  · obtain ⟨before, hbefore, hle⟩ := hprefix n
    exact count_le_one hbefore hle rfl

/-! ### One step -/

/-- The calls of a step add up to those of its connection. -/
theorem calls_append {d d' : Descriptors} {us : List Use} (hlog : d'.log = d.log ++ us) (n : ℕ) :
    d'.calls n = d.calls n ++ (us.filter fun u => u.connection = n).map (·.call) := by
  rw [calls, hlog, List.filter_append, List.map_append, calls]

/-- While its thread is in the loop, or has not closed it yet, the descriptor
of a connection is its own. -/
theorem Inv.use_hit {d : Descriptors} (h : d.Inv) {n : ℕ} (hn : n < d.server.created)
    (hcopy : ∀ g i, d.server.code (.comm n) ≠ communicationStart g i)
    (hclosed : Call.close ∉ d.calls n) (c : Call) : (d.use n c).hit = some n := by
  show d.holder (d.server.vm (.comm n)).socket = some n
  cases h.socket.carries n hn with
  | starting g i hcode => exact absurd hcode (hcopy g i)
  | copied _ hvm =>
      rw [hvm]
      exact h.held n hn hclosed

/-- A thread that is about to make a call has copied its entry, and has not
closed its socket. -/
theorem Inv.call_of_head {d : Descriptors} (h : d.Inv) {n : ℕ} (hn : n < d.server.created)
    {i : Instr} {c : List Instr} (hcode : d.server.code (.comm n) = i :: c) {a : Call}
    (ha : callOf i = some a) :
    (∀ g k, d.server.code (.comm n) ≠ communicationStart g k) ∧
      (a ≠ .remove → Call.close ∉ d.calls n) := by
  refine ⟨fun g k hstart => ?_, fun hremove => ?_⟩
  · rw [hcode, communicationStart, List.cons.injEq] at hstart
    rw [hstart.1] at ha
    cases ha
  · cases h.life n hn with
    | serving _ hcalls => exact close_notMem_of_serves hcalls
    | leaving before hbefore hsuffix _ hcalls =>
        rw [hcode] at hsuffix hcalls
        obtain rfl : a = .close := by
          have hmem := hsuffix.subset List.mem_cons_self
          revert hmem ha hremove
          cases i <;> simp [exitCode, notify, manageDisconnectedVmsCode, callOf] <;> rintro rfl <;>
            simp
        -- the list has one `close` only, and it is still to come
        have hcount := congrArg (List.count Call.close) hcalls
        rw [List.filterMap_cons_some ha, List.count_append, List.count_append, List.count_cons_self,
          List.count_eq_zero_of_not_mem (close_notMem_of_serves hbefore)] at hcount
        apply List.count_eq_zero.mp
        have : List.count Call.close [Call.remove, .close] = 1 := rfl
        omega

/-- The thread's own instruction, in the life of its connection. -/
theorem Life.self {d d' : Descriptors} {n : ℕ} (hlife : d.Life n) {env : Env} {i : Instr}
    {c : List Instr} (hcode : d.server.code (.comm n) = i :: c) (hi : i ≠ halt)
    (hsent : i = sendRejuvenate → d.server.sends (.comm n) env = true)
    (hcode' : d'.server.code (.comm n) = d.server.rest (.comm n) env i c)
    (hcalls' : d'.calls n = d.calls n ++ (callOf i).toList) : d'.Life n := by
  cases hlife with
  | serving hstays hcalls =>
      rw [hcode] at hstays
      have hc : ∀ j ∈ c, stays j = true := fun j hj => hstays j (List.mem_cons_of_mem i hj)
      have hnew : ∀ a ∈ d.calls n ++ (callOf i).toList, serves a = true := by
        intro a ha
        rcases List.mem_append.mp ha with hold | hcall
        · exact hcalls a hold
        · have hi := hstays i List.mem_cons_self
          revert hcall hi
          cases i <;> simp +contextual [callOf, stays, serves]
      rcases d.server.rest_cases (.comm n) env i c with hrest | ⟨rfl, -⟩ | ⟨rfl, hrest⟩
      · exact .serving (hcode'.trans hrest ▸ hc) (hcalls' ▸ hnew)
      · have hrest : d.server.rest (.comm n) env sendRejuvenate c = c := if_pos (hsent rfl)
        exact .serving (hcode'.trans hrest ▸ hc) (hcalls' ▸ hnew)
      · have hexit := hcode'.trans hrest
        refine .leaving _ hnew ?_ ?_ ?_
        · rw [hexit]
        · rw [hexit]
          exact List.cons_ne_nil _ _
        · rw [hexit, hcalls']
          rfl
  | leaving before hbefore hsuffix hne hcalls =>
      rw [hcode] at hsuffix hcalls
      have hrest : d.server.rest (.comm n) env i c = c := by
        have hmem := hsuffix.subset List.mem_cons_self
        revert hmem
        cases i <;> simp [exitCode, notify, manageDisconnectedVmsCode, rest]
      have hc : c ≠ [] := by
        rintro rfl
        obtain ⟨p, hp⟩ := hsuffix
        have hlast := congrArg List.getLast? hp
        rw [List.getLast?_append, List.getLast?_singleton] at hlast
        exact hi (Option.some.inj hlast)
      refine .leaving before hbefore ?_ ?_ ?_
      · rw [hcode', hrest]
        exact (List.suffix_cons i c).trans hsuffix
      · rwa [hcode', hrest]
      · rw [hcode', hrest, hcalls', ← hcalls, List.append_assoc]
        cases h : callOf i with
        | none => rw [List.filterMap_cons_none h]; rfl
        | some a => rw [List.filterMap_cons_some h]; rfl

section Run

variable {d : Descriptors} {t : Tid} {env : Env} {i : Instr} {c : List Instr}

/-- The calls are made by communication threads. -/
theorem ofComm_of_call {a : Call} (h : callOf i = some a) : ofComm i = true := by
  revert h
  cases i <;> simp [callOf, ofComm]

theorem uses_run (h : d.Inv) (hcode : d.server.code t = i :: c) :
    d.uses (.run t env) =
      (callOf i).toList.map fun a => ⟨d.server.connection t, a, d.holder (d.server.vm t).socket⟩ := by
  have hfits : Fits d.server.acceptState t (i :: c) := hcode ▸ h.server.thread.code.fits t
  have hnone : (∀ n, t ≠ .comm n) → callOf i = none := by
    intro ht
    by_contra hcall
    obtain ⟨a, ha⟩ := Option.ne_none_iff_exists'.mp hcall
    obtain ⟨n, hn⟩ := ofComm_of_fits hfits List.mem_cons_self (ofComm_of_call ha)
    exact ht n hn
  cases t with
  | comm n =>
      rw [uses, hcode]
      rfl
  | accept | balancer =>
      rw [hnone (by simp)]
      rfl

theorem calls_run (h : d.Inv) (hcode : d.server.code t = i :: c) {d' : Descriptors}
    (hlog : d'.log = d.log ++ d.uses (.run t env)) {n : ℕ} (hn : n < d.server.created) :
    d'.calls n = d.calls n ++ if t = .comm n then (callOf i).toList else [] := by
  have hconnection : d.server.connection t = n ↔ t = .comm n := by
    cases t with
    | comm m => simp [connection]
    | accept | balancer => simp [connection, hn.ne']
  rw [calls_append hlog, uses_run h hcode]
  cases callOf i with
  | none => simp
  | some a =>
      by_cases ht : t = .comm n
      · simp [hconnection.mpr ht, if_pos ht]
      · simp [mt hconnection.mp ht, if_neg ht]

theorem holderAfter_run (hcode : d.server.code t = i :: c) :
    d.holderAfter (.run t env) =
      if i = closeSocket then Function.update d.holder (d.server.vm t).socket none
      else d.holder := by
  rw [holderAfter, hcode]
  simp only [List.head?_cons, Option.some.injEq]

/-- `close` is called by a thread on the descriptor of its own connection. -/
theorem Inv.eq_comm_of_close {s₁ : Server} (h : d.Inv) (hcode : d.server.code t = closeSocket :: c)
    (heff : d.server.effect t env closeSocket = some s₁) :
    ∃ m, t = .comm m ∧ m < d.server.created ∧ d.holder (d.server.vm t).socket = some m := by
  have hfits : Fits d.server.acceptState t (closeSocket :: c) :=
    hcode ▸ h.server.thread.code.fits t
  obtain ⟨m, rfl⟩ := ofComm_of_fits hfits List.mem_cons_self rfl
  have hm := h.server.thread.code.created_of_effect hcode heff
  obtain ⟨hcopy, hclosed⟩ := h.call_of_head hm hcode (a := .close) rfl
  exact ⟨m, rfl, hm, h.use_hit hm hcopy (hclosed (by simp)) .close⟩

/-- A descriptor keeps its connection until that connection's thread closes
it. -/
theorem Inv.holder_frame {s₁ : Server} (h : d.Inv) (hcode : d.server.code t = i :: c)
    (heff : d.server.effect t env i = some s₁) {fd : ℤ} {n : ℕ} (hfd : d.holder fd = some n)
    (hn : i = closeSocket → t ≠ .comm n) : d.holderAfter (.run t env) fd = some n := by
  rw [holderAfter_run hcode]
  split
  · rename_i hi
    subst hi
    obtain ⟨m, rfl, -, hm⟩ := h.eq_comm_of_close hcode heff
    rw [Function.update_of_ne, hfd]
    rintro rfl
    exact hn rfl (congrArg Tid.comm (Option.some.inj (hm.symm.trans hfd)))
  · exact hfd

/-- A call of the step works on the connection it is made for. -/
theorem Inv.own_run {s₁ : Server} (h : d.Inv) (hcode : d.server.code t = i :: c)
    (heff : d.server.effect t env i = some s₁) :
    ∀ u ∈ d.uses (.run t env), u.connection < d.server.created ∧
      (u.call ≠ .remove → u.hit = some u.connection) := by
  intro u hu
  have hfits : Fits d.server.acceptState t (i :: c) := hcode ▸ h.server.thread.code.fits t
  rw [uses_run h hcode] at hu
  obtain ⟨a, ha, rfl⟩ := List.mem_map.mp hu
  have hcall : callOf i = some a := Option.mem_toList.mp ha
  obtain ⟨n, rfl⟩ := ofComm_of_fits hfits List.mem_cons_self (ofComm_of_call hcall)
  have hn := h.server.thread.code.created_of_effect hcode heff
  obtain ⟨hcopy, hclosed⟩ := h.call_of_head hn hcode hcall
  exact ⟨hn, fun hremove => h.use_hit hn hcopy (hclosed hremove) a⟩

theorem Inv.held_run {s₁ : Server} (h : d.Inv) (hcode : d.server.code t = i :: c)
    (heff : d.server.effect t env i = some s₁) {d' : Descriptors}
    (hlog : d'.log = d.log ++ d.uses (.run t env)) {n : ℕ} (hn : n < s₁.created)
    (hclosed : Call.close ∉ d'.calls n) :
    d.holderAfter (.run t env) (s₁.registered n).socket = some n := by
  by_cases hold : n < d.server.created
  · rw [calls_run h hcode hlog hold, List.mem_append, not_or] at hclosed
    rw [(effect_frame heff).registered _ hold.ne]
    apply h.holder_frame hcode heff (h.held n hold hclosed.1)
    rintro rfl rfl
    exact hclosed.2 (by simp [callOf])
  · -- the connection whose thread is created
    have hcreated := (effect_frame heff).created
    have hi : i = createThread := by
      by_contra hi
      rw [if_neg hi] at hcreated
      omega
    subst hi
    rw [if_pos rfl] at hcreated
    obtain rfl : n = d.server.created := by omega
    have hfits : Fits d.server.acceptState t (createThread :: c) :=
      hcode ▸ h.server.thread.code.fits t
    obtain ⟨rfl, rfl⟩ := eq_accept_of_createThread hfits
    have hregistered := (h.server.history.assigned (by simp [hcode]) (by simp [hcode])).1
    rw [((effect_frame heff).assigned (by simp)).2, hregistered]
    exact h.holder_frame hcode heff (h.accepted (by simp [hcode])) (by simp)

theorem Inv.life_run {s₁ : Server} (h : d.Inv) (hcode : d.server.code t = i :: c)
    (heff : d.server.effect t env i = some s₁)
    (hsent : i = sendRejuvenate → d.server.sends t env = true) {d' : Descriptors}
    (hcode' : d'.server.code = d.server.nextCode t env i c)
    (hlog : d'.log = d.log ++ d.uses (.run t env)) {n : ℕ} (hn : n < s₁.created) : d'.Life n := by
  have hcreated := (effect_frame heff).created
  rcases h.server.thread.code.nextCode_cases hcode heff (.comm n) with
    ⟨rfl, hnext⟩ | ⟨hnew, hne, rfl, hnext⟩ | ⟨hne, hold, hnext⟩
  · have hlt := h.server.thread.code.created_of_effect hcode heff
    apply (h.life n hlt).self hcode (ne_halt_of_effect heff) hsent
    · rw [hcode', hnext]
    · rw [calls_run h hcode hlog hlt, if_pos rfl]
  · -- the new thread; nothing has been called for its connection
    obtain rfl : n = d.server.created := Tid.comm.inj hnew
    have hnil : d'.calls d.server.created = [] := by
      rw [calls, List.map_eq_nil_iff, List.filter_eq_nil_iff, hlog]
      intro u hu hconnection
      rw [decide_eq_true_eq] at hconnection
      rcases List.mem_append.mp hu with hu | hu
      · exact absurd hconnection (h.known u hu).ne
      · exact absurd hconnection (h.own_run hcode heff u hu).1.ne
    refine .serving ?_ (by simp [hnil])
    rw [hcode', hnext]
    simp [communicationStart, stays]
  · have hlt : n < d.server.created := by
      by_cases hi : i = createThread
      · have hn' : n ≠ d.server.created := fun heq => hold hi (congrArg Tid.comm heq)
        rw [if_pos hi] at hcreated
        omega
      · rwa [hcreated, if_neg hi] at hn
    have hsame : d'.server.code (.comm n) = d.server.code (.comm n) := by rw [hcode', hnext]
    have hcalls : d'.calls n = d.calls n := by
      rw [calls_run h hcode hlog hlt, if_neg (Ne.symm hne), List.append_nil]
    cases h.life n hlt with
    | serving hstays hserves => exact .serving (hsame ▸ hstays) (hcalls ▸ hserves)
    | leaving before hbefore hsuffix hne hlist =>
        exact .leaving before hbefore (hsame ▸ hsuffix) (hsame ▸ hne) (by rw [hsame, hcalls, hlist])

theorem Inv.isOpen_run {s₁ : Server} (h : d.Inv) (hcode : d.server.code t = i :: c)
    (heff : d.server.effect t env i = some s₁) {fd : ℤ}
    (hfd : d.holderAfter (.run t env) fd ≠ none) : fd ∈ s₁.openSockets := by
  rw [holderAfter_run hcode] at hfd
  by_cases hi : i = closeSocket
  · subst hi
    obtain rfl := Option.some.inj heff
    rw [if_pos rfl] at hfd
    have hne : fd ≠ (d.server.vm t).socket := by
      rintro rfl
      exact hfd (Function.update_self _ _ _)
    rw [Function.update_of_ne hne] at hfd
    exact (List.mem_erase_of_ne hne).mpr (h.isOpen fd hfd)
  · rw [if_neg hi] at hfd
    rw [(effect_frame heff).openSockets hi]
    exact h.isOpen fd hfd

theorem inv_instr {s₁ : Server} (h : d.Inv) (hcode : d.server.code t = i :: c)
    (heff : d.server.effect t env i = some s₁)
    (hsent : i = sendRejuvenate → d.server.sends t env = true)
    (hs : Server.Inv { s₁ with code := d.server.nextCode t env i c })
    (hsocket : SocketInv { s₁ with code := d.server.nextCode t env i c }) :
    Inv {
      server := { s₁ with code := d.server.nextCode t env i c }
      holder := d.holderAfter (.run t env)
      log := d.log ++ d.uses (.run t env) } where
  server := hs
  socket := hsocket
  life := fun n hn => h.life_run hcode heff hsent rfl rfl hn
  known := by
    intro u hu
    have hcreated : s₁.created = if i = createThread then d.server.created + 1
        else d.server.created := (effect_frame heff).created
    have hlt : u.connection < d.server.created := by
      rcases List.mem_append.mp hu with hu | hu
      · exact h.known u hu
      · exact (h.own_run hcode heff u hu).1
    show u.connection < s₁.created
    split at hcreated <;> omega
  accepted := by
    intro hne
    have hfits : Fits d.server.acceptState t (i :: c) := hcode ▸ h.server.thread.code.fits t
    have hcreate : i ≠ createThread := by
      rintro rfl
      obtain ⟨rfl, rfl⟩ := eq_accept_of_createThread hfits
      have hnil : d.server.nextCode .accept env createThread [] .accept = [] :=
        nextCode_self (.inr (by simp))
      exact hne hnil
    have hbusy : d.server.code .accept ≠ [] := by
      by_cases ht : t = .accept
      · subst ht
        simp [hcode]
      · rwa [← nextCode_other (Ne.symm ht) (.inl hcreate)]
    show d.holderAfter (.run t env) (s₁.vm .accept).socket = some s₁.created
    rw [effect_vm_accept hfits heff, (effect_frame heff).created, if_neg hcreate]
    apply h.holder_frame hcode heff (h.accepted hbusy)
    rintro rfl rfl
    exact absurd (h.server.thread.code.created_of_effect hcode heff) (lt_irrefl _)
  held := fun n hn hclosed => h.held_run hcode heff rfl hn hclosed
  isOpen := fun _ hfd => h.isOpen_run hcode heff hfd
  own := by
    intro u hu
    rcases List.mem_append.mp hu with hu | hu
    · exact h.own u hu
    · exact (h.own_run hcode heff u hu).2

end Run

/-- A connection whose thread waits for a message is being served. -/
theorem Inv.serving_of_nil {d : Descriptors} (h : d.Inv) {n : ℕ}
    (hcode : d.server.code (.comm n) = []) :
    n < d.server.created ∧ (∀ c ∈ d.calls n, serves c = true) ∧
      (d.use n .recv).hit = some n := by
  have hn := h.server.thread.code.created_of_nil hcode
  have hcalls : ∀ c ∈ d.calls n, serves c = true := by
    cases h.life n hn with
    | serving _ hcalls => exact hcalls
    | leaving _ _ _ hne => exact absurd hcode hne
  refine ⟨hn, hcalls, h.use_hit hn ?_ (close_notMem_of_serves hcalls) .recv⟩
  intro g i hstart
  rw [hcode] at hstart
  cases hstart

/-- The result of a `recv`: its thread goes on with `c`. -/
theorem Inv.recv {d : Descriptors} (h : d.Inv) {n : ℕ} (hcode : d.server.code (.comm n) = [])
    {c : List Instr} (hc : (∀ i ∈ c, stays i = true) ∨ c = exitCode)
    (hs : (d.server.goto (.comm n) c).Inv) (hsocket : (d.server.goto (.comm n) c).SocketInv) :
    Inv {
      server := d.server.goto (.comm n) c
      holder := d.holder
      log := d.log ++ [d.use n .recv] } := by
  obtain ⟨hn, hserves, hhit⟩ := h.serving_of_nil hcode
  set d' : Descriptors :=
    { server := d.server.goto (.comm n) c, holder := d.holder, log := d.log ++ [d.use n .recv] }
    with hd'
  have hcalls : ∀ m, d'.calls m = d.calls m ++ if n = m then [.recv] else [] := by
    intro m
    have happend : d'.log = d.log ++ [d.use n .recv] := rfl
    rw [calls_append happend m]
    by_cases hm : n = m <;> simp [use, hm]
  refine ⟨hs, hsocket, fun m hm => ?_, ?_, fun hbusy => ?_, fun m hm hclosed => ?_, h.isOpen, ?_⟩
  · by_cases hnm : n = m
    · subst hnm
      have hself : d'.server.code (.comm n) = c := d.server.goto_self (.comm n) c
      have hnew : ∀ a ∈ d'.calls n, serves a = true := by
        rw [hcalls, if_pos rfl]
        intro a ha
        rcases List.mem_append.mp ha with hold | hrecv
        · exact hserves a hold
        · obtain rfl := List.mem_singleton.mp hrecv
          rfl
      rcases hc with hstays | rfl
      · exact .serving (hself ▸ hstays) hnew
      · refine .leaving _ hnew ?_ ?_ ?_ <;> rw [hself]
        · exact List.cons_ne_nil _ _
        · rfl
    · have hother : d'.server.code (.comm m) = d.server.code (.comm m) :=
        goto_other d.server c (by simpa using Ne.symm hnm)
      have hsame : d'.calls m = d.calls m := by rw [hcalls, if_neg hnm, List.append_nil]
      cases h.life m hm with
      | serving hstays hserves => exact .serving (hother ▸ hstays) (hsame ▸ hserves)
      | leaving before hbefore hsuffix hne hlist =>
          exact .leaving before hbefore (hother ▸ hsuffix) (hother ▸ hne)
            (by rw [hother, hsame, hlist])
  · intro u hu
    rcases List.mem_append.mp hu with hu | hu
    · exact h.known u hu
    · obtain rfl := List.mem_singleton.mp hu
      exact hn
  · have haccept := goto_other d.server (t := .comm n) (u := .accept) c (by simp)
    exact h.accepted (haccept ▸ hbusy)
  · rw [hcalls, List.mem_append, not_or] at hclosed
    exact h.held m hm hclosed.1
  · intro u hu
    rcases List.mem_append.mp hu with hu | hu
    · exact h.own u hu
    · obtain rfl := List.mem_singleton.mp hu
      exact fun _ => hhit

/-- A client that has been answered: its descriptor was free, so no
connection loses its own. -/
theorem Inv.accept {d : Descriptors} (h : d.Inv) {info : VmService} {ip : String} {socket : ℤ}
    {port : ℕ} {s : Server}
    (hs : s = { d.server.goto .accept (acceptCode info.state) with
      openSockets := socket :: d.server.openSockets
      vm := Function.update d.server.vm .accept
        (fillSlot info ip socket port (d.server.vm .accept)) })
    (hfree : socket ∉ d.server.openSockets) (hinv : s.Inv) (hsocket : s.SocketInv) :
    Inv {
      server := s
      holder := Function.update d.holder socket (some d.server.created)
      log := d.log } := by
  subst hs
  have hkeep : ∀ {fd n}, d.holder fd = some n →
      Function.update d.holder socket (some d.server.created) fd = some n := by
    intro fd n hfd
    have hne : fd ≠ socket := by
      rintro rfl
      exact hfree (h.isOpen fd (by simp [hfd]))
    rwa [Function.update_of_ne hne]
  refine ⟨hinv, hsocket, fun n hn => ?_, h.known, fun _ => ?_, fun n hn hclosed => ?_, ?_, h.own⟩
  · have hother := goto_other d.server (t := .accept) (u := .comm n) (acceptCode info.state)
      (by simp)
    cases h.life n hn with
    | serving hstays hserves => exact .serving (hother.symm ▸ hstays) hserves
    | leaving before hbefore hsuffix hne hlist =>
        exact .leaving before hbefore (hother.symm ▸ hsuffix) (hother.symm ▸ hne)
          (hother.symm ▸ hlist)
  · show Function.update d.holder socket (some d.server.created)
      (Function.update d.server.vm .accept (fillSlot info ip socket port (d.server.vm .accept))
        .accept).socket = some d.server.created
    rw [Function.update_self]
    exact Function.update_self _ _ _
  · exact hkeep (h.held n hn hclosed)
  · intro fd hfd
    show fd ∈ socket :: d.server.openSockets
    rcases eq_or_ne fd socket with rfl | hne
    · exact List.mem_cons_self
    · replace hfd : Function.update d.holder socket (some d.server.created) fd ≠ none := hfd
      rw [Function.update_of_ne hne] at hfd
      exact List.mem_cons_of_mem _ (h.isOpen fd hfd)

/-- A poll of `balancer_thread`. -/
theorem Inv.poll {d : Descriptors} (h : d.Inv) (c : List Instr)
    (hs : (d.server.goto .balancer c).Inv) (hsocket : (d.server.goto .balancer c).SocketInv) :
    Inv { d with server := d.server.goto .balancer c } := by
  have hother : ∀ t, t ≠ .balancer → (d.server.goto .balancer c).code t = d.server.code t :=
    fun t ht => goto_other d.server c ht
  refine ⟨hs, hsocket, fun n hn => ?_, h.known, fun hbusy => ?_, h.held, h.isOpen, h.own⟩
  · have hsame := hother (.comm n) (by simp)
    cases h.life n hn with
    | serving hstays hserves => exact .serving (hsame.symm ▸ hstays) hserves
    | leaving before hbefore hsuffix hne hlist =>
        exact .leaving before hbefore (hsame.symm ▸ hsuffix) (hsame.symm ▸ hne) (hsame.symm ▸ hlist)
  · exact h.accepted (hother .accept (by simp) ▸ hbusy)

theorem inv_step {d d' : Descriptors} {l : Label} (h : d.Inv) (hl : d.Sent l)
    (hstep : d.step l = some d') : d'.Inv := by
  simp only [step, Option.map_eq_some_iff] at hstep
  obtain ⟨s, hs, rfl⟩ := hstep
  have hinv : s.Inv := Server.inv_step h.server hs
  have hsocket : s.SocketInv := socketInv_step h.server h.socket hs
  cases l with
  | run t env =>
      rcases step_run hs with ⟨i, c, s₁, hcode, heff, rfl⟩ | ⟨rfl, hcode, hpoll⟩
      · refine inv_instr h hcode heff ?_ hinv hsocket
        rintro rfl
        exact hl (by rw [hcode]; rfl)
      · have hholder : d.holderAfter (.run .balancer env) = d.holder := by
          rw [holderAfter, hcode]
          rfl
        have huses : d.uses (.run .balancer env) = [] := rfl
        rw [hholder, huses, List.append_nil]
        cases hstate : d.server.stateManVm with
        | true =>
            rw [hstate, if_pos rfl] at hpoll
            subst hpoll
            exact h.poll sendCode hinv hsocket
        | false =>
            rw [hstate, if_neg (by simp)] at hpoll
            subst hpoll
            exact h
  | newClient info ip socket port answered =>
      obtain rfl : answered = true := hl
      simp only [Server.step, Option.ite_none_right_eq_some, Option.some.injEq] at hs
      obtain ⟨⟨-, hfree⟩, hs⟩ := hs
      have huses : d.uses (.newClient info ip socket port true) = [] := rfl
      rw [huses, List.append_nil]
      exact h.accept hs.symm hfree hinv hsocket
  | recvFail n =>
      simp only [Server.step, Option.ite_none_right_eq_some, Option.some.injEq] at hs
      obtain ⟨⟨hcode, -⟩, rfl⟩ := hs
      exact h.recv hcode (.inr rfl) hinv hsocket
  | recvFeatures n rejuvenate =>
      simp only [Server.step, Option.ite_none_right_eq_some, Option.some.injEq] at hs
      obtain ⟨⟨hcode, -⟩, rfl⟩ := hs
      refine h.recv hcode (.inl ?_) hinv hsocket
      cases rejuvenate <;>
        simp [rejuvenationCode, continueCode, switchActiveMachineCode, notify, stays]

theorem initial_inv (mem : Service → ℕ → VmData) (stack : Tid → VmData)
    (features : ℕ → SystemFeatures) : (initial mem stack features).Inv where
  server := Server.initial_inv mem stack features
  socket :=
    { assigned := fun hne => absurd rfl hne
      carries := fun _ hn => absurd hn (Nat.not_lt_zero _) }
  life := fun _ hn => absurd hn (Nat.not_lt_zero _)
  known := fun _ hu => absurd hu List.not_mem_nil
  accepted := fun hne => absurd rfl hne
  held := fun _ hn => absurd hn (Nat.not_lt_zero _)
  isOpen := fun _ hfd => absurd rfl hfd
  own := fun _ hu => absurd hu List.not_mem_nil

/-- **Descriptor ownership.**  It holds all along a run in which every answer
of the handshake and every `REJUVENATE` command is sent, whatever other
`send`s and `recv`s fail. -/
theorem along_ownUse {mem : Service → ℕ → VmData} {stack : Tid → VmData}
    {features : ℕ → SystemFeatures} {ls : List Label}
    (h : AllSteps step Sent (initial mem stack features) ls) :
    Along step OwnUse (initial mem stack features) ls :=
  (along_of_allSteps (P := Inv) (fun _ _ _ hd hl hstep => inv_step hd hl hstep)
    (initial_inv mem stack features) h).mono fun _ => Inv.ownUse

/-! ### Two runs -/

/-- Thread `t` executes `k` instructions; its `send`s succeed iff `ok`. -/
def runs (t : Tid) (k : ℕ) (ok : Bool) : List Label :=
  List.replicate k (.run t ⟨ok, fun _ => default⟩)

/-- An `ACTIVE` VM registers for `SERVICE_1` on descriptor 4, and the balancer
is told. -/
def arrival (n : ℕ) (ip : String) : List Label :=
  .newClient ⟨service1, .active, 8080⟩ ip 4 4000 true ::
    (runs .accept 9 true ++ runs (.comm n) 2 true ++ runs .balancer 8 true)

/-- The VM disconnects after its first features message, and the next one
gets its descriptor. -/
def reuse : List Label :=
  arrival 0 "10.0.0.1" ++ .recvFeatures 0 false :: runs (.comm 0) 2 true ++
    .recvFail 0 :: runs (.comm 0) 10 true ++ runs .balancer 8 true ++ arrival 1 "10.0.0.2"

theorem along_ownUse_reuse :
    ((run step (initial (fun _ _ => default) (fun _ => default) fun _ => default) reuse).map
      fun d => (d.log.map fun u => (u.call, u.hit), d.holder 4)) =
      some ([(.recv, some 0), (.send, some 0), (.recv, some 0), (.remove, some 0),
        (.close, some 0)], some 1) ∧
    Along step OwnUse (initial (fun _ _ => default) (fun _ => default) fun _ => default) reuse :=
  ⟨by decide, along_ownUse (by decide +kernel)⟩

/-- The second features message of the VM leads to its rejuvenation, and the
`send` fails.  The next VM gets the descriptor that the callee has closed,
before the thread is back in its loop. -/
def failedRejuvenation : List Label :=
  arrival 0 "10.0.0.1" ++ .recvFeatures 0 false :: runs (.comm 0) 2 true ++
    .recvFeatures 0 true :: runs (.comm 0) 8 false ++ arrival 1 "10.0.0.2" ++
    runs (.comm 0) 6 true ++ .recvFail 0 :: runs .balancer 8 true ++ runs (.comm 0) 10 true

/-- The thread receives from the new VM's connection, calls
`manage_disconnected_vms` once more, and closes the new VM's connection. -/
theorem closed_by_callee :
    ((run step (initial (fun _ _ => default) (fun _ => default) fun _ => default)
        failedRejuvenation).map fun d => (d.log.map fun u => (u.connection, u.call, u.hit))) =
      some [(0, .recv, some 0), (0, .send, some 0), (0, .recv, some 0), (0, .send, some 0),
        (0, .remove, some 0), (0, .close, some 0), (0, .recv, some 1), (0, .remove, some 1),
        (0, .close, some 1)] ∧
    ¬ Along step OwnUse (initial (fun _ _ => default) (fun _ => default) fun _ => default)
      failedRejuvenation := by
  have hfinal : ((run step (initial (fun _ _ => default) (fun _ => default) fun _ => default)
        failedRejuvenation).map fun d => (d.log.map fun u => (u.connection, u.call, u.hit))) =
      some [(0, .recv, some 0), (0, .send, some 0), (0, .recv, some 0), (0, .send, some 0),
        (0, .remove, some 0), (0, .close, some 0), (0, .recv, some 1), (0, .remove, some 1),
        (0, .close, some 1)] := by
    decide +kernel
  refine ⟨hfinal, fun hok => ?_⟩
  obtain ⟨d, hd, hlog⟩ := Option.map_eq_some_iff.mp hfinal
  have hclosed : d.calls 0 = ((d.log.map fun u => (u.connection, u.call, u.hit)).filter
      fun u => u.1 = 0).map (·.2.1) := by
    rw [calls, List.filter_map, List.map_map]
    rfl
  have honce := (hok.last hd).closedOnce 0
  rw [hclosed, hlog] at honce
  exact absurd honce (by decide)

end Descriptors

end A2PM.Controller
