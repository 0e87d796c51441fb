/-
A2PM/ControllerHistory.lean

The history of one connection: which operations its threads have posted
about it so far.

The accept thread posts `ADD` about a VM registered `ACTIVE` before it
creates the thread of the connection; that thread posts `REJ` at each
rejuvenation and `DELETE` on its way out.  The invariant `HistoryInv` joins
the posts made so far with the posts still in the threads' code
(`postOps`): the joint list changes only where a loop starts over.

A VM registered otherwise never gets that far: its thread copies the slot
while `mutex` is still held on its behalf, so that the copy has the state
of the registration, and then it polls its own copy for ever.
-/
import A2PM.ControllerMailbox

namespace A2PM.Controller

open Instr Transition

/-! ### Posts in the code -/

/-- The operations of the posts that `c` has still to begin. -/
def postOps : List Instr → List Operations
  | [] => []
  | lockManageVm op :: c => op :: postOps c
  | _ :: c => postOps c

/-- What the accept thread posts about a VM that it registers. -/
def registrationOps (st : VmState) : List Operations := if st = .active then [.add] else []

/-- The operations about a connection registered `ACTIVE`: those posted, and
those that its thread, with `c` left to execute, is about to post. -/
def Story (ops : List Operations) (c : List Instr) : Prop :=
  ∃ k, ops ++ postOps c =
    .add :: List.replicate k .rej ++ if halt ∈ c then [.delete] else []

theorem postOps_cons (i : Instr) (c : List Instr) : postOps (i :: c) = postOps [i] ++ postOps c := by
  cases i <;> rfl

theorem postOps_acceptCode (st : VmState) : postOps (acceptCode st) = registrationOps st := by
  cases st <;> rfl

theorem postOps_append (c d : List Instr) : postOps (c ++ d) = postOps c ++ postOps d := by
  induction c with
  | nil => rfl
  | cons i c ih => rw [List.cons_append, postOps_cons, ih, postOps_cons i c, List.append_assoc]

theorem postOps_of_assign {st : VmState} {c : List Instr} (h : c <:+ acceptCode st)
    (hassign : assign ∈ c) : postOps c = registrationOps st := by
  obtain ⟨d, hd⟩ := h
  have hsplit : postOps d ++ postOps c = registrationOps st := by
    rw [← postOps_append, hd, postOps_acceptCode]
  rcases d with - | ⟨i, - | ⟨j, d⟩⟩
  · exact hsplit
  · obtain rfl : i = lockMutex := (List.cons.inj hd).1
    exact hsplit
  · -- `assign` is the second instruction, and there is no other
    exfalso
    have htail : d ++ c = (if st = .active then notify .add else []) ++ [createThread] :=
      (List.cons.inj (List.cons.inj hd).2).2
    have hmem : assign ∈ d ++ c := List.mem_append_right _ hassign
    rw [htail] at hmem
    cases st <;> simp [notify] at hmem

theorem nil_of_createThread {st : VmState} {c : List Instr}
    (h : createThread :: c <:+ acceptCode st) : c = [] := by
  have hmem := (List.mem_tails _ _).mpr h
  cases st <;> simpa [acceptCode, notify, List.tails] using hmem

theorem ne_nil_of_accept {st : VmState} {i : Instr} {c : List Instr}
    (h : i :: c <:+ acceptCode st) (hi : i ≠ createThread) : c ≠ [] := by
  rintro rfl
  have hmem := (List.mem_tails _ _).mpr h
  revert hmem
  cases st <;> simpa [acceptCode, notify, List.tails] using hi

/-- From the assignment phase on the accept thread holds `mutex`. -/
theorem owesMutex_of_assigned {st : VmState} {c : List Instr} (h : c <:+ acceptCode st)
    (hc : c ≠ []) (hassign : assign ∉ c) : owesMutex c = true := by
  have hmem := (List.mem_tails _ _).mpr h
  revert hmem
  cases st <;> simp only [acceptCode, notify, reduceCtorEq, if_true, if_false, List.cons_append,
    List.nil_append, List.tails, List.mem_cons, List.not_mem_nil, or_false]
  all_goals
    intro hmem
    rcases hmem with rfl | rfl | rfl | hmem
    · simp at hassign
    · simp at hassign
    · rfl
  · exact absurd hmem hc
  · rcases hmem with rfl | rfl | rfl | rfl | rfl | rfl | rfl
    all_goals first | rfl | exact absurd rfl hc
  · exact absurd hmem hc

namespace Server

/-- The operations posted about connection `n`, in order. -/
def opsAbout (s : Server) (n : ℕ) : List Operations :=
  (s.acquired.filter fun p => p.1 == n).map fun p => p.2.op

theorem effect_acquired {s s₁ : Server} {t : Tid} {env : Env} {i : Instr}
    (h : s.effect t env i = some s₁) (hi : ∀ op, i ≠ lockManageVm op) :
    s₁.acquired = s.acquired := by
  cases i with
  | lockManageVm op => exact absurd rfl (hi op)
  | setIp | setPort | setService | setOp | setStateManVm | copyIp | copyPort | copyService
  | copyOp | sendRecord | clearStateManVm | unlockManageVm =>
      obtain rfl := Option.some.inj h
      rfl
  | _ =>
      have hmail := (effect_frame h).mailbox rfl
      simp only [mailbox, Prod.mk.injEq] at hmail
      exact hmail.2.2.2.2.2.1

/-- A post counts for the connection of the thread that makes it. -/
theorem opsAbout_effect {s s₁ : Server} {t : Tid} {env : Env} {i : Instr}
    (h : s.effect t env i = some s₁) (n : ℕ) :
    s₁.opsAbout n = s.opsAbout n ++ if s.connection t = n then postOps [i] else [] := by
  by_cases hlock : ∃ op, i = lockManageVm op
  · obtain ⟨op, rfl⟩ := hlock
    simp only [effect, Option.ite_none_right_eq_some, Option.some.injEq] at h
    obtain ⟨-, rfl⟩ := h
    by_cases hn : s.connection t = n
    · simp [opsAbout, hn, postOps, notification]
    · simp [opsAbout, hn]
  · have hops : postOps [i] = [] := by
      cases i with
      | lockManageVm op => exact absurd ⟨op, rfl⟩ hlock
      | _ => rfl
    rw [hops, ite_self, List.append_nil, opsAbout, opsAbout,
      effect_acquired h fun op hop => hlock ⟨op, hop⟩]

/-- The posts made and the posts to come, put together, change only where
the thread goes on its way out. -/
theorem story_rest {s : Server} {t : Tid} {env : Env} {i : Instr} {c : List Instr}
    {ops : List Operations} (h : Story ops (i :: c)) (hs : shaped (i :: c) = true)
    (hi : i ≠ halt) : Story (ops ++ postOps [i]) (s.rest t env i c) := by
  obtain ⟨k, hk⟩ := h
  rw [postOps_cons, ← List.append_assoc] at hk
  have hhalt : halt ∈ i :: c ↔ halt ∈ c := by simp [hi.symm]
  simp only [hhalt] at hk
  rcases s.rest_cases t env i c with hr | ⟨rfl, hr⟩ | ⟨rfl, hr⟩ <;> rw [hr]
  · exact ⟨k, hk⟩
  · refine ⟨k, ?_⟩
    simpa [manageDisconnectedVmsCode, postOps] using hk
  · -- the loop is left: `DELETE` is still to come
    obtain ⟨rfl, -⟩ : c = [] ∧ shaped c = true := by simpa [shaped, follows] using hs
    refine ⟨k, ?_⟩
    simp only [postOps, List.append_nil, List.not_mem_nil, if_false] at hk ⊢
    rw [hk]
    rfl

/-! ### The registry while `mutex` is held -/

/-- While a thread holds `mutex`, no other thread changes the registry. -/
theorem registry_frame {s s₁ : Server} {t u : Tid} {env : Env} {i : Instr} {c : List Instr}
    (h : s.ThreadInv) (hcode : s.code t = i :: c) (heff : s.effect t env i = some s₁)
    (hu : u ≠ t) (howes : owesMutex (s.code u) = true) : s₁.registry = s.registry := by
  refine (effect_frame heff).registry ?_
  by_contra hi
  rw [Bool.not_eq_false] at hi
  have ht : t ≠ .balancer := by
    have hfits : Fits s.acceptState t (i :: c) := hcode ▸ h.code.fits t
    apply ne_balancer_of_not_onMailbox hfits
    revert hi
    cases i <;> simp [writesRegistry, onMailbox]
  have hs : shaped (i :: c) = true := hcode ▸ h.code.shaped ht
  have hself : owesMutex (s.code t) = true := by
    rw [hcode]
    simp only [shaped, Bool.and_eq_true] at hs
    revert hi hs
    cases i <;> simp_all [writesRegistry, follows, owesMutex]
  have hheld : s.mutex = some t := (h.mutex t).mpr hself
  exact hu (Option.some.inj (((h.mutex u).mpr howes).symm.trans hheld))

/-! ### The invariant -/

/-- Slot `i` of group `g` holds the VM. -/
def HoldsVm (s : Server) (g : Service) (i : ℕ) (vm : VmData) : Prop :=
  ∃ e, (s.registry g).cells[i]? = some e ∧ e.SameVm vm

/-- Where communication thread `n` is. -/
inductive Place (s : Server) (n : ℕ) : Prop
  /-- It has still to copy its slot, and `mutex` is held on its behalf. -/
  | starting (g : Service) (i : ℕ) (hcode : s.code (.comm n) = communicationStart g i)
      (hslot : s.HoldsVm g i (s.registered n))
  /-- It serves a VM registered `ACTIVE`. -/
  | active (hstate : s.registeredState n = .active)
      (hcopy : ∀ g i, copyVm g i ∉ s.code (.comm n))
      (hvm : (s.vm (.comm n)).SameVm (s.registered n))
  /-- Its VM was not registered `ACTIVE`; it never does anything again. -/
  | passive (hstate : s.registeredState n ≠ .active)
      (hcode : s.code (.comm n) = [unlockMutex] ∨ s.code (.comm n) = [])
      (hvm : (s.vm (.comm n)).SameVm (s.registered n))

structure HistoryInv (s : Server) : Prop where
  later : ∀ n, s.created < n → s.opsAbout n = []
  registering : s.opsAbout s.created ++ postOps (s.code .accept) =
    if s.code .accept = [] then [] else registrationOps s.acceptState
  assigned : s.code .accept ≠ [] → assign ∉ s.code .accept →
    s.registered s.created = s.vm .accept ∧
      s.HoldsVm (s.vm .accept).serviceInfo.service s.index (s.vm .accept)
  place : ∀ n, n < s.created → s.Place n
  active : ∀ n, n < s.created → s.registeredState n = .active →
    Story (s.opsAbout n) (s.code (.comm n))
  passive : ∀ n, n < s.created → s.registeredState n ≠ .active → s.opsAbout n = []
  about : ∀ p ∈ s.acquired, p.2 = notification (s.registered p.1) p.2.op

theorem copyVm_notMem_rest {s : Server} {t : Tid} {env : Env} {i : Instr} {c : List Instr}
    (h : ∀ g k, copyVm g k ∉ i :: c) (g : Service) (k : ℕ) :
    copyVm g k ∉ s.rest t env i c := by
  have hc : copyVm g k ∉ c := fun hmem => h g k (List.mem_cons_of_mem _ hmem)
  rcases s.rest_cases t env i c with hr | ⟨-, hr⟩ | ⟨-, hr⟩ <;> rw [hr]
  · exact hc
  · simpa [manageDisconnectedVmsCode] using hc
  · simp [exitCode, notify, manageDisconnectedVmsCode]

/-- The thread of a connection that has been created is not `[halt]` at the
start, so its first instruction is not `halt` when it takes a step. -/
theorem ne_halt_of_effect {s s₁ : Server} {t : Tid} {env : Env} {i : Instr}
    (h : s.effect t env i = some s₁) : i ≠ halt := by
  rintro rfl
  cases h

/-- An instruction of another thread leaves a communication thread where it is. -/
theorem Place.frame {s s₁ : Server} {t : Tid} {env : Env} {i : Instr} {c : List Instr} {n : ℕ}
    (hp : s.Place n) (h : s.ThreadInv) (hcode : s.code t = i :: c)
    (heff : s.effect t env i = some s₁) (hn : .comm n ≠ t)
    {code : Tid → List Instr} (hsame : code (.comm n) = s.code (.comm n))
    (hreg : s₁.registered n = s.registered n) :
    Place { s₁ with code := code } n := by
  have hstate : s₁.registeredState n = s.registeredState n := by
    rw [registeredState, hreg, registeredState]
  have hvm' : s₁.vm (.comm n) = s.vm (.comm n) := (effect_frame heff).vm _ (.inl hn)
  cases hp with
  | starting g k hk hslot =>
      have hregistry : s₁.registry = s.registry := by
        refine registry_frame h hcode heff hn ?_
        rw [hk]
        rfl
      refine .starting g k (hsame.trans hk) ?_
      show ∃ e, (s₁.registry g).cells[k]? = some e ∧ e.SameVm (s₁.registered n)
      rw [hregistry, hreg]
      exact hslot
  | active hact hcopy hvm =>
      refine .active (hstate.trans hact) (fun g k => ?_) ?_
      · show copyVm g k ∉ code (.comm n)
        rw [hsame]
        exact hcopy g k
      · show (s₁.vm (.comm n)).SameVm (s₁.registered n)
        rwa [hvm', hreg]
  | passive hpas hk hvm =>
      refine .passive (fun hact => hpas (hstate.symm.trans hact)) ?_ ?_
      · show code (.comm n) = _ ∨ code (.comm n) = _
        rwa [hsame]
      · show (s₁.vm (.comm n)).SameVm (s₁.registered n)
        rwa [hvm', hreg]

/-- A communication thread's own instruction. -/
theorem Place.self {s s₁ : Server} {env : Env} {i : Instr} {c : List Instr} {n : ℕ}
    (hp : s.Place n) (hcode : s.code (.comm n) = i :: c)
    (heff : s.effect (.comm n) env i = some s₁) {code : Tid → List Instr}
    (hself : code (.comm n) = s.rest (.comm n) env i c)
    (hreg : s₁.registered n = s.registered n) :
    Place { s₁ with code := code } n := by
  have hstate : s₁.registeredState n = s.registeredState n := by
    rw [registeredState, hreg, registeredState]
  cases hp with
  | starting g k hk hslot =>
      rw [hcode, communicationStart, List.cons.injEq] at hk
      obtain ⟨rfl, rfl⟩ := hk
      obtain ⟨e, he, hsame⟩ := hslot
      simp only [effect, he, Option.map_some, Option.some.injEq] at heff
      subst heff
      have hvm : (Function.update s.vm (.comm n) e (.comm n)).SameVm (s.registered n) := by
        rwa [Function.update_self]
      by_cases hact : s.registeredState n = .active
      · refine .active hact (fun g k => ?_) hvm
        show copyVm g k ∉ code (.comm n)
        rw [hself]
        simp [rest]
      · exact .passive hact (.inl hself) hvm
  | active hact hcopy hvm =>
      refine .active (hstate.trans hact) (fun g k => ?_) ?_
      · show copyVm g k ∉ code (.comm n)
        rw [hself]
        exact copyVm_notMem_rest (fun g k => hcode ▸ hcopy g k) g k
      · show (s₁.vm (.comm n)).SameVm (s₁.registered n)
        rw [hreg]
        by_cases hi : i = storeFeatures
        · subst hi
          obtain rfl := Option.some.inj heff
          simpa [VmData.SameVm] using hvm
        · rw [(effect_frame heff).vm _ (.inr ⟨fun g k hcopy' => ?_, hi⟩)]
          · exact hvm
          · exact hcopy g k (hcode ▸ hcopy' ▸ List.mem_cons_self)
  | passive hpas hk hvm =>
      obtain ⟨rfl, rfl⟩ : i = unlockMutex ∧ c = [] := by simpa [hcode] using hk
      refine .passive (fun hact => hpas (hstate.symm.trans hact)) (.inr hself) ?_
      show (s₁.vm (.comm n)).SameVm (s₁.registered n)
      rw [hreg, (effect_frame heff).vm _ (.inr ⟨by simp, by simp⟩)]
      exact hvm

theorem eq_accept_of_createThread {st : VmState} {t : Tid} {c : List Instr}
    (h : Fits st t (createThread :: c)) : t = .accept ∧ c = [] := by
  cases t with
  | accept => exact ⟨rfl, nil_of_createThread h⟩
  | comm n => exact absurd List.mem_cons_self h.2.1
  | balancer =>
      have := h.subset List.mem_cons_self
      simp [sendCode] at this

/-- `pthread_create`: the connection being registered becomes the one its
thread serves. -/
theorem historyInv_createThread {s : Server} (hi : s.HistoryInv)
    (hcode : s.code .accept = [createThread]) {code : Tid → List Instr}
    (haccept : code .accept = [])
    (hnew : code (.comm s.created) =
      communicationStart (s.vm .accept).serviceInfo.service s.index)
    (hsame : ∀ n, n < s.created → code (.comm n) = s.code (.comm n)) :
    HistoryInv { s with
      mutex := s.mutex.map fun _ => .comm s.created
      created := s.created + 1
      code := code } := by
  obtain ⟨hreg, hslot⟩ := hi.assigned (by simp [hcode]) (by simp [hcode])
  have hstate : s.registeredState s.created = s.acceptState := by
    rw [registeredState, hreg, acceptState]
  have hops : s.opsAbout s.created = registrationOps s.acceptState := by
    simpa [hcode, postOps] using hi.registering
  refine ⟨fun n hn => hi.later n (by simp only at hn; omega), ?_, fun hne => absurd haccept hne,
    fun n hn => ?_, fun n hn hact => ?_, fun n hn hpas => ?_, hi.about⟩
  · show s.opsAbout (s.created + 1) ++ postOps (code .accept) = if code .accept = [] then _ else _
    rw [hi.later _ (by omega), haccept]
    rfl
  · rcases Nat.lt_succ_iff_lt_or_eq.mp hn with hlt | rfl
    · cases hi.place n hlt with
      | starting g k hk hs => exact .starting g k ((hsame n hlt).trans hk) hs
      | active hact hcopy hvm =>
          refine .active hact (fun g k => ?_) hvm
          show copyVm g k ∉ code (.comm n)
          rw [hsame n hlt]
          exact hcopy g k
      | passive hpas hk hvm =>
          refine .passive hpas ?_ hvm
          show code (.comm n) = _ ∨ code (.comm n) = _
          rwa [hsame n hlt]
    · exact .starting _ _ hnew (hreg.symm ▸ hslot)
  · rcases Nat.lt_succ_iff_lt_or_eq.mp hn with hlt | rfl
    · show Story (s.opsAbout n) (code (.comm n))
      rw [hsame n hlt]
      exact hi.active n hlt hact
    · refine ⟨0, ?_⟩
      show s.opsAbout s.created ++ postOps (code (.comm s.created)) = _
      have hst : s.acceptState = .active := hstate.symm.trans hact
      simp [hops, hst, hnew, registrationOps, communicationStart, postOps]
  · rcases Nat.lt_succ_iff_lt_or_eq.mp hn with hlt | rfl
    · exact hi.passive n hlt hpas
    · have hst : s.acceptState ≠ .active := fun hact => hpas (hstate.trans hact)
      show s.opsAbout s.created = []
      rw [hops, registrationOps, if_neg hst]

/-- The registration fills in the slot that the new thread will copy. -/
theorem assigned_assign {s s₁ : Server} {t : Tid} {env : Env}
    (hwf : s.registry.Wf) (ht : t = .accept) (heff : s.effect t env assign = some s₁) :
    s₁.registered s.created = s.vm .accept ∧
      s₁.HoldsVm (s.vm .accept).serviceInfo.service s₁.index (s.vm .accept) := by
  subst ht
  obtain ⟨reg', k, slot, hreg, -, hcell, -⟩ := register_spec hwf env.fresh
    (s.vm .accept).serviceInfo (s.vm .accept).ipAddress (s.vm .accept).socket (s.vm .accept).port
  simp only [effect, hreg, Option.map_some, Option.some.injEq] at heff
  subst heff
  exact ⟨by simp, _, hcell, rfl, rfl⟩

/-- The other instructions of the accept thread leave it something to do. -/
theorem accept_rest {s : Server} {env : Env} {i : Instr} {c : List Instr} {st : VmState}
    (hfits : Fits st .accept (i :: c)) (hcreate : i ≠ createThread) :
    s.rest .accept env i c = c ∧ c ≠ [] := by
  refine ⟨?_, ne_nil_of_accept hfits hcreate⟩
  rcases s.rest_cases .accept env i c with hr | ⟨rfl, -⟩ | ⟨rfl, -⟩
  · exact hr
  · exact absurd (ofComm_of_fits hfits List.mem_cons_self rfl) (by simp)
  · exact absurd (ofComm_of_fits hfits List.mem_cons_self rfl) (by simp)

/-- A thread does not post about a connection that is not its own. -/
theorem opsAbout_frame {s s₁ : Server} {t : Tid} {env : Env} {i : Instr} {c : List Instr}
    (h : s.CodeInv) (hcode : s.code t = i :: c) (heff : s.effect t env i = some s₁) {n : ℕ}
    (hcomm : t ≠ .comm n) (hacc : t = .accept → n ≠ s.created) :
    s₁.opsAbout n = s.opsAbout n := by
  have hfits : Fits s.acceptState t (i :: c) := hcode ▸ h.fits t
  rw [opsAbout_effect heff]
  by_cases hn : s.connection t = n
  · have hpost : postOps [i] = [] := by
      cases t with
      | accept => exact absurd hn.symm (hacc rfl)
      | comm m => exact absurd (congrArg Tid.comm hn) hcomm
      | balancer =>
          have hmem := hfits.subset List.mem_cons_self
          revert hmem
          cases i <;> simp [sendCode, postOps]
    rw [hpost, ite_self, List.append_nil]
  · rw [if_neg hn, List.append_nil]

theorem eq_accept_of_assign {st : VmState} {t : Tid} {c : List Instr}
    (h : Fits st t (assign :: c)) : t = .accept := by
  cases t with
  | accept => rfl
  | comm n => exact absurd List.mem_cons_self h.2.2
  | balancer => simpa [sendCode] using h.subset List.mem_cons_self

/-- From the assignment phase on the registry is as the accept thread has
left it, until the thread is created. -/
theorem assigned_frame {s s₁ : Server} {t : Tid} {env : Env} {i : Instr} {c : List Instr}
    (h : s.ThreadInv) (hcode : s.code t = i :: c) (heff : s.effect t env i = some s₁)
    (hcreate : i ≠ createThread) (hia : i ≠ assign) (hne : s.nextCode t env i c .accept ≠ [])
    (hassign : assign ∉ s.nextCode t env i c .accept) :
    s.code .accept ≠ [] ∧ assign ∉ s.code .accept ∧ s₁.registry = s.registry := by
  have hfits : Fits s.acceptState t (i :: c) := hcode ▸ h.code.fits t
  by_cases ht : t = .accept
  · subst ht
    rw [nextCode_self (.inl hcreate), (accept_rest hfits hcreate).1] at hassign
    refine ⟨by simp [hcode], by simpa [hcode, Ne.symm hia] using hassign, ?_⟩
    apply (effect_frame heff).registry
    by_contra hw
    have hcomm : ofComm i = true := by
      revert hw hia
      cases i <;> simp [writesRegistry, ofComm]
    exact absurd (ofComm_of_fits hfits List.mem_cons_self hcomm) (by simp)
  · rw [nextCode_other (Ne.symm ht) (.inl hcreate)] at hne hassign
    exact ⟨hne, hassign, registry_frame h hcode heff (Ne.symm ht)
      (owesMutex_of_assigned (h.code.fits .accept) hne hassign)⟩

/-- What the accept thread has noted about the VM it is registering stays
true until the thread is created. -/
theorem assigned_effect {s s₁ : Server} {t : Tid} {env : Env} {i : Instr} {c : List Instr}
    (h : s.ThreadInv) (hwf : s.registry.Wf) (hi : s.HistoryInv) (hcode : s.code t = i :: c)
    (heff : s.effect t env i = some s₁) (hcreate : i ≠ createThread)
    (hne : s.nextCode t env i c .accept ≠ []) (hassign : assign ∉ s.nextCode t env i c .accept) :
    s₁.registered s.created = s.vm .accept ∧
      s₁.HoldsVm (s.vm .accept).serviceInfo.service s₁.index (s.vm .accept) := by
  by_cases hia : i = assign
  · subst hia
    have hfits : Fits s.acceptState t (assign :: c) := hcode ▸ h.code.fits t
    exact assigned_assign hwf (eq_accept_of_assign hfits) heff
  · obtain ⟨hindex, hregistered⟩ := (effect_frame heff).assigned hia
    obtain ⟨hne', hassign', hregistry⟩ :=
      assigned_frame h hcode heff hcreate hia hne hassign
    obtain ⟨hreg, hslot⟩ := hi.assigned hne' hassign'
    rw [hregistered, hindex, HoldsVm, hregistry]
    exact ⟨hreg, hslot⟩

theorem assign_notMem_of_lock {st : VmState} {op : Operations} {c : List Instr}
    (h : lockManageVm op :: c <:+ acceptCode st) : assign ∉ lockManageVm op :: c := by
  have hmem := (List.mem_tails _ _).mpr h
  revert hmem
  cases st <;> simp only [acceptCode, notify, reduceCtorEq, if_true, if_false, List.cons_append,
    List.nil_append, List.tails, List.mem_cons, List.not_mem_nil, or_false, List.cons.injEq,
    false_and, false_or, lockManageVm.injEq]
  · exact False.elim
  · rintro ⟨rfl, rfl⟩
    simp
  · exact False.elim

/-- A thread that is about to post has its connection's record. -/
theorem HistoryInv.sameVm_of_lock {s : Server} (hi : s.HistoryInv) (h : s.CodeInv) {t : Tid}
    {op : Operations} {c : List Instr} (hcode : s.code t = lockManageVm op :: c)
    (hlt : ∀ n, t = .comm n → n < s.created) :
    (s.vm t).SameVm (s.registered (s.connection t)) := by
  have hfits : Fits s.acceptState t (lockManageVm op :: c) := hcode ▸ h.fits t
  cases t with
  | accept =>
      obtain ⟨hreg, -⟩ := hi.assigned (by simp [hcode]) (hcode ▸ assign_notMem_of_lock hfits)
      rw [connection, hreg]
      exact ⟨rfl, rfl⟩
  | comm n =>
      cases hi.place n (hlt n rfl) with
      | starting g i hk => simp [hcode, communicationStart] at hk
      | active _ _ hs => exact hs
      | passive _ hk => simp [hcode] at hk
  | balancer => simpa [sendCode] using hfits.subset List.mem_cons_self

/-- Nothing has been posted about a connection that is being registered. -/
theorem HistoryInv.opsAbout_of_assign {s : Server} (h : s.HistoryInv) {t : Tid} {c : List Instr}
    (hfits : Fits s.acceptState t (assign :: c)) (hcode : s.code t = assign :: c) :
    s.opsAbout s.created = [] := by
  obtain rfl := eq_accept_of_assign hfits
  have hreg := h.registering
  rw [hcode, postOps_of_assign hfits List.mem_cons_self, if_neg (List.cons_ne_nil _ _)] at hreg
  exact List.append_left_eq_self.mp hreg

/-- Every post is about the connection it counts for. -/
theorem about_effect {s s₁ : Server} {t : Tid} {env : Env} {i : Instr} {c : List Instr}
    (h : s.ThreadInv) (hi : s.HistoryInv) (hcode : s.code t = i :: c)
    (heff : s.effect t env i = some s₁) :
    ∀ p ∈ s₁.acquired, p.2 = notification (s₁.registered p.1) p.2.op := by
  by_cases hassign : i = assign
  · subst hassign
    have hfits : Fits s.acceptState t (assign :: c) := hcode ▸ h.code.fits t
    have hnil : s.opsAbout s.created = [] := hi.opsAbout_of_assign hfits hcode
    simp only [effect, Option.map_eq_some_iff] at heff
    obtain ⟨r, -, rfl⟩ := heff
    intro p hp
    have hne : p.1 ≠ s.created := by
      intro heq
      have hmem : p.2.op ∈ s.opsAbout s.created :=
        List.mem_map_of_mem (List.mem_filter.mpr ⟨hp, by simpa using heq⟩)
      rw [hnil] at hmem
      cases hmem
    show p.2 = notification (Function.update s.registered s.created (s.vm t) p.1) p.2.op
    rw [Function.update_of_ne hne]
    exact hi.about p hp
  · rw [((effect_frame heff).assigned hassign).2]
    by_cases hlock : ∃ op, i = lockManageVm op
    · obtain ⟨op, rfl⟩ := hlock
      have hsame := hi.sameVm_of_lock h.code hcode fun n hn =>
        h.code.created_of_effect (hn ▸ hcode) (hn ▸ heff)
      simp only [effect, Option.ite_none_right_eq_some, Option.some.injEq] at heff
      obtain ⟨-, rfl⟩ := heff
      intro p hp
      rcases List.mem_append.mp hp with hold | hnew
      · exact hi.about p hold
      · obtain rfl := List.mem_singleton.mp hnew
        exact notification_congr hsame op
    · rw [effect_acquired heff fun op hop => hlock ⟨op, hop⟩]
      exact hi.about

/-- Every other instruction. -/
theorem historyInv_effect {s s₁ : Server} {t : Tid} {env : Env} {i : Instr} {c : List Instr}
    (h : s.ThreadInv) (hwf : s.registry.Wf) (hi : s.HistoryInv) (hcode : s.code t = i :: c)
    (heff : s.effect t env i = some s₁) (hcreate : i ≠ createThread) :
    HistoryInv { s₁ with code := s.nextCode t env i c } := by
  have hfits : Fits s.acceptState t (i :: c) := hcode ▸ h.code.fits t
  have hcreated : s₁.created = s.created := by simpa [hcreate] using (effect_frame heff).created
  have hself : s.nextCode t env i c t = s.rest t env i c := nextCode_self (.inl hcreate)
  have hother : ∀ u, u ≠ t → s.nextCode t env i c u = s.code u :=
    fun u hu => nextCode_other hu (.inl hcreate)
  have haccept : s₁.vm .accept = s.vm .accept := effect_vm_accept hfits heff
  have hacceptState : s₁.acceptState = s.acceptState := by
    rw [acceptState, haccept, acceptState]
  have hnotNew : ∀ n, s.created ≤ n → t ≠ .comm n := by
    rintro n hn rfl
    exact absurd (h.code.created_of_effect hcode heff) (by omega)
  have hreg : ∀ n, n < s.created → s₁.registered n = s.registered n :=
    fun n hn => (effect_frame heff).registered n hn.ne
  have hstate : ∀ n, n < s.created → s₁.registeredState n = s.registeredState n := by
    intro n hn
    rw [registeredState, hreg n hn, registeredState]
  have habout := about_effect h hi hcode heff
  refine ⟨fun n hn => ?_, ?_, fun hne hassign => ?_, fun n hn => ?_, fun n hn hact => ?_,
    fun n hn hpas => ?_, habout⟩
  · replace hn : s.created < n := hcreated ▸ hn
    exact (opsAbout_frame h.code hcode heff (hnotNew n hn.le) fun _ => hn.ne').trans (hi.later n hn)
  · show s₁.opsAbout s₁.created ++ postOps (s.nextCode t env i c .accept) =
      if s.nextCode t env i c .accept = [] then [] else registrationOps s₁.acceptState
    rw [hcreated, hacceptState]
    by_cases ht : t = .accept
    · subst ht
      obtain ⟨hc, hne⟩ : s.rest .accept env i c = c ∧ c ≠ [] := accept_rest hfits hcreate
      have hreg := hi.registering
      rw [hcode, if_neg (List.cons_ne_nil i c), postOps_cons, ← List.append_assoc] at hreg
      rw [hself, hc, if_neg hne, opsAbout_effect heff, connection, if_pos rfl, hreg]
    · rw [hother _ (Ne.symm ht), opsAbout_frame h.code hcode heff (hnotNew _ le_rfl)
        fun hacc => absurd hacc ht]
      exact hi.registering
  · show s₁.registered s₁.created = s₁.vm .accept ∧
      s₁.HoldsVm (s₁.vm .accept).serviceInfo.service s₁.index (s₁.vm .accept)
    rw [hcreated, haccept]
    exact assigned_effect h hwf hi hcode heff hcreate hne hassign
  · replace hn : n < s.created := hcreated ▸ hn
    by_cases ht : t = .comm n
    · subst ht
      exact (hi.place n hn).self hcode heff hself (hreg n hn)
    · exact (hi.place n hn).frame h hcode heff (Ne.symm ht) (hother _ (Ne.symm ht)) (hreg n hn)
  · replace hn : n < s.created := hcreated ▸ hn
    have hstory := hi.active n hn ((hstate n hn).symm.trans hact)
    show Story (s₁.opsAbout n) (s.nextCode t env i c (.comm n))
    by_cases ht : t = .comm n
    · subst ht
      rw [hself, opsAbout_effect heff, connection, if_pos rfl]
      exact story_rest (hcode ▸ hstory) (hcode ▸ h.code.shaped (by simp)) (ne_halt_of_effect heff)
    · rw [hother _ (Ne.symm ht), opsAbout_frame h.code hcode heff ht fun _ => hn.ne]
      exact hstory
  · replace hn : n < s.created := hcreated ▸ hn
    have hpas' : s.registeredState n ≠ .active := fun hact => hpas ((hstate n hn).trans hact)
    have hnil := hi.passive n hn hpas'
    show s₁.opsAbout n = []
    by_cases ht : t = .comm n
    · -- the two instructions at its start post nothing
      subst ht
      have hpost : postOps [i] = [] := by
        cases hi.place n hn with
        | starting g k hk =>
            rw [hcode, communicationStart, List.cons.injEq] at hk
            rw [hk.1]
            rfl
        | active hact => exact absurd hact hpas'
        | passive _ hk =>
            obtain ⟨rfl, -⟩ : i = unlockMutex ∧ c = [] := by simpa [hcode] using hk
            rfl
      rw [opsAbout_effect heff, hpost, hnil, ite_self]
      rfl
    · exact (opsAbout_frame h.code hcode heff ht fun _ => hn.ne).trans hnil

/-! ### The registry stays well formed -/

theorem wf_effect {s s₁ : Server} {t : Tid} {env : Env} {i : Instr} (hwf : s.registry.Wf)
    (heff : s.effect t env i = some s₁) : s₁.registry.Wf := by
  cases i with
  | assign =>
      simp only [effect, Option.map_eq_some_iff] at heff
      obtain ⟨r, hr, rfl⟩ := heff
      obtain ⟨reg', _, _, hreg, hwf', -⟩ := register_spec hwf env.fresh (s.vm t).serviceInfo
        (s.vm t).ipAddress (s.vm t).socket (s.vm t).port
      obtain rfl := Option.some.inj (hreg.symm.trans hr)
      exact hwf'
  | switchVm =>
      simp only [effect, Option.map_eq_some_iff] at heff
      obtain ⟨r, hr, rfl⟩ := heff
      obtain ⟨_, _, hreg, hwf', -⟩ := switchActiveMachine_spec hwf (s.vm t)
      obtain rfl := Option.some.inj (hreg.symm.trans hr)
      exact hwf'
  | removeVm =>
      simp only [effect, Option.map_eq_some_iff] at heff
      obtain ⟨r, hr, rfl⟩ := heff
      obtain ⟨_, hreg, hwf', -⟩ := manageDisconnectedVms_spec hwf (s.vm t)
      obtain rfl := Option.some.inj (hreg.symm.trans hr)
      exact hwf'
  | _ => exact (effect_frame heff).registry rfl ▸ hwf

/-! ### Every step -/

/-- What the steps keep, put together. -/
structure Inv (s : Server) : Prop where
  thread : s.ThreadInv
  wf : s.registry.Wf
  history : s.HistoryInv

theorem goto_self (s : Server) (t : Tid) (c : List Instr) : (s.goto t c).code t = c := by
  show Function.update s.code t c t = c
  rw [Function.update_self]

theorem goto_other (s : Server) {t u : Tid} (c : List Instr) (hu : u ≠ t) :
    (s.goto t c).code u = s.code u :=
  Function.update_of_ne hu _ _

theorem Place.goto {s : Server} {n : ℕ} (h : s.Place n) {t : Tid} (ht : .comm n ≠ t)
    (c : List Instr) : (s.goto t c).Place n := by
  have hsame := s.goto_other c ht
  cases h with
  | starting g k hk hs => exact .starting g k (hsame.trans hk) hs
  | active hact hcopy hs => exact .active hact (fun g k => hsame ▸ hcopy g k) hs
  | passive hpas hk hs => exact .passive hpas (by rwa [hsame]) hs

/-- The polls of `balancer_thread` are no part of any connection's history. -/
theorem HistoryInv.gotoBalancer {s : Server} (hi : s.HistoryInv) (c : List Instr) :
    (s.goto .balancer c).HistoryInv := by
  have haccept := s.goto_other c (t := .balancer) (u := .accept) (by simp)
  refine ⟨hi.later, ?_, ?_, fun n hn => (hi.place n hn).goto (by simp) c, fun n hn hact => ?_,
    hi.passive, hi.about⟩
  · rw [haccept]
    exact hi.registering
  · rw [haccept]
    exact hi.assigned
  · rw [s.goto_other c (by simp)]
    exact hi.active n hn hact

/-- Between its messages a thread has its VM's record. -/
theorem HistoryInv.sameVm {s : Server} (hi : s.HistoryInv) {n : ℕ} (hlt : n < s.created)
    (hcode : s.code (.comm n) = []) : (s.vm (.comm n)).SameVm (s.registered n) := by
  cases hi.place n hlt with
  | starting g i hk => simp [hcode, communicationStart] at hk
  | active _ _ hs => exact hs
  | passive _ _ hs => exact hs

/-- Between its messages a thread starts over: its posts to come are none. -/
theorem HistoryInv.goto {s : Server} (hi : s.HistoryInv) {n : ℕ} {c : List Instr}
    (hlt : n < s.created) (hcode : s.code (.comm n) = [])
    (hvm : (s.vm (.comm n)).serviceInfo.state = .active) (hcopy : ∀ g i, copyVm g i ∉ c)
    (hstory : ∀ ops, Story ops [] → Story ops c) : (s.goto (.comm n) c).HistoryInv := by
  have hactive : s.registeredState n = .active := by
    cases hi.place n hlt with
    | starting g i hk => simp [hcode, communicationStart] at hk
    | active hact => exact hact
    | passive _ _ hs => exact (congrArg VmService.state hs.1).symm.trans hvm
  have hself : (s.goto (.comm n) c).code (.comm n) = c := Function.update_self _ _ _
  refine ⟨hi.later, ?_, ?_, fun m hm => ?_, fun m hm hact => ?_, hi.passive, hi.about⟩
  · rw [s.goto_other c (by simp)]
    exact hi.registering
  · rw [s.goto_other c (by simp)]
    exact hi.assigned
  · rcases eq_or_ne m n with rfl | hne
    · refine .active hactive (fun g i => ?_) (hi.sameVm hlt hcode)
      rw [hself]
      exact hcopy g i
    · exact (hi.place m hm).goto (by simpa using hne) c
  · rcases eq_or_ne m n with rfl | hne
    · rw [hself]
      exact hstory _ (hcode ▸ hi.active m hm hact)
    · rw [s.goto_other c (by simpa using hne)]
      exact hi.active m hm hact

theorem CodeInv.created_of_nil {s : Server} (h : s.CodeInv) {n : ℕ}
    (hcode : s.code (.comm n) = []) : n < s.created := by
  by_contra hn
  rw [h.notCreated n (by omega)] at hcode
  cases hcode

theorem story_exitCode {ops : List Operations} (h : Story ops []) : Story ops exitCode := by
  obtain ⟨k, hk⟩ := h
  refine ⟨k, ?_⟩
  simp only [postOps, List.append_nil, List.not_mem_nil, if_false] at hk
  rw [hk]
  rfl

theorem story_rejuvenationCode {ops : List Operations} (h : Story ops []) :
    Story ops rejuvenationCode := by
  obtain ⟨k, hk⟩ := h
  refine ⟨k + 1, ?_⟩
  simp only [postOps, List.append_nil, List.not_mem_nil, if_false] at hk
  rw [hk, List.replicate_succ']
  simp [rejuvenationCode, switchActiveMachineCode, notify, postOps]

theorem story_continueCode {ops : List Operations} (h : Story ops []) :
    Story ops continueCode := h

theorem inv_run {s s' : Server} {t : Tid} {env : Env} (h : s.Inv)
    (hstep : s.step (.run t env) = some s') : s'.registry.Wf ∧ s'.HistoryInv := by
  rcases step_run hstep with ⟨i, c, s₁, hcode, heff, rfl⟩ | ⟨rfl, -, rfl⟩
  · have hwf : s₁.registry.Wf := wf_effect h.wf heff
    refine ⟨hwf, ?_⟩
    by_cases hi : i = createThread
    · subst hi
      have hfits : Fits s.acceptState t (createThread :: c) := hcode ▸ h.thread.code.fits t
      obtain ⟨rfl, rfl⟩ := eq_accept_of_createThread hfits
      obtain rfl := Option.some.inj heff
      refine historyInv_createThread h.history hcode ?_ nextCode_created fun n hn => ?_
      · exact nextCode_self (.inr (by simp))
      · exact nextCode_other (by simp) (.inr (by simp [hn.ne]))
    · exact historyInv_effect h.thread h.wf h.history hcode heff hi
  · split
    · exact ⟨h.wf, h.history.gotoBalancer sendCode⟩
    · exact ⟨h.wf, h.history⟩

theorem historyInv_newClient {s : Server} (h : s.HistoryInv) (hcode : s.code .accept = [])
    (info : VmService) (vm : VmData) (hvm : vm.serviceInfo = info) (open' : List ℤ) :
    HistoryInv { s.goto .accept (acceptCode info.state) with
      openSockets := open'
      vm := Function.update s.vm .accept vm } := by
  have hnil : s.opsAbout s.created = [] := by
    have hreg := h.registering
    rw [hcode, if_pos rfl] at hreg
    exact (List.append_eq_nil_iff.mp hreg).1
  have hne : acceptCode info.state ≠ [] := by simp [acceptCode]
  have hself : Function.update s.code .accept (acceptCode info.state) .accept =
      acceptCode info.state := Function.update_self _ _ _
  have hother : ∀ n, Function.update s.code .accept (acceptCode info.state) (.comm n) =
      s.code (.comm n) := fun n => Function.update_of_ne (by simp) _ _
  refine ⟨h.later, ?_, fun _ hassign => ?_, fun n hn => ?_, fun n hn hact => ?_, h.passive,
    h.about⟩
  · show s.opsAbout s.created ++
        postOps (Function.update s.code .accept (acceptCode info.state) .accept) =
      if Function.update s.code .accept (acceptCode info.state) .accept = [] then [] else
        registrationOps (Function.update s.vm .accept vm .accept).serviceInfo.state
    rw [hself, if_neg hne, Function.update_self, hvm, hnil, postOps_acceptCode]
    rfl
  · simp [Server.goto, acceptCode] at hassign
  · cases h.place n hn with
    | starting g k hk hs => exact .starting g k ((hother n).trans hk) hs
    | active hact hcopy hs => exact .active hact (fun g k => hother n ▸ hcopy g k) hs
    | passive hpas hk hs => exact .passive hpas ((hother n).symm ▸ hk) hs
  · show Story (s.opsAbout n) (Function.update s.code .accept (acceptCode info.state) (.comm n))
    rw [hother]
    exact h.active n hn hact

theorem inv_step {s s' : Server} {l : Label} (h : s.Inv) (hstep : s.step l = some s') :
    s'.Inv := by
  suffices hrest : s'.registry.Wf ∧ s'.HistoryInv from
    ⟨threadInv_step h.thread hstep, hrest.1, hrest.2⟩
  cases l with
  | run t env => exact inv_run h hstep
  | newClient info ip socket port answered =>
      simp only [step, Option.ite_none_right_eq_some, Option.some.injEq] at hstep
      obtain ⟨⟨hcode, -⟩, rfl⟩ := hstep
      exact ⟨h.wf, historyInv_newClient h.history hcode info _ rfl _⟩
  | recvFail n =>
      simp only [step, Option.ite_none_right_eq_some, Option.some.injEq] at hstep
      obtain ⟨⟨hcode, hvm⟩, rfl⟩ := hstep
      have hlt := h.thread.code.created_of_nil hcode
      exact ⟨h.wf, h.history.goto hlt hcode hvm
        (by simp [exitCode, notify, manageDisconnectedVmsCode]) fun _ => story_exitCode⟩
  | recvFeatures n rejuvenate =>
      simp only [step, Option.ite_none_right_eq_some, Option.some.injEq] at hstep
      obtain ⟨⟨hcode, hvm, -⟩, rfl⟩ := hstep
      have hlt := h.thread.code.created_of_nil hcode
      refine ⟨h.wf, h.history.goto hlt hcode hvm ?_ fun _ hops => ?_⟩
      · cases rejuvenate <;>
          simp [rejuvenationCode, continueCode, switchActiveMachineCode, notify]
      · cases rejuvenate
        · exact story_continueCode hops
        · exact story_rejuvenationCode hops

theorem initial_inv (mem : Service → ℕ → VmData) (stack : Tid → VmData)
    (features : ℕ → SystemFeatures) : (initial mem stack features).Inv where
  thread := initial_threadInv mem stack features
  wf := initialRegistry_wf mem
  history :=
    { later := fun _ _ => rfl
      registering := rfl
      assigned := fun hne => absurd rfl hne
      place := fun _ hn => absurd hn (Nat.not_lt_zero _)
      active := fun _ hn => absurd hn (Nat.not_lt_zero _)
      passive := fun _ _ _ => rfl
      about := fun _ hp => absurd hp List.not_mem_nil }

theorem inv_of_reachable {mem : Service → ℕ → VmData} {stack : Tid → VmData}
    {features : ℕ → SystemFeatures} {s : Server}
    (h : Reachable step (initial mem stack features) s) : s.Inv :=
  invariant_of_step (initial_inv mem stack features) (fun _ _ _ hs hstep => inv_step hs hstep) h

end Server

end A2PM.Controller
