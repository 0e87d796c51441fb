/-
A2PM/ControllerDeadlock.lean

A locked mutex of the controller is released, without any new client or
message.

`accept_new_client` takes `mutex` and then `manage_vm_mutex`, the exit path
of `communication_thread` the other way round; no order of the locks helps.
What helps is who will release them.  `manage_vm_mutex` is held either by a
thread that is filling in `virt_machine`, where nothing blocks, or by
`balancer_thread`, which takes no lock (`exists_manageVm_free`).  So it can
always be freed first, and then the thread that owes the release of `mutex`
can go on until it pays (`exists_mutex_free`).
-/
import A2PM.ControllerHistory

namespace A2PM.Controller

open Instr Transition

/-- Steps of the threads: no new connection, no message. -/
def Label.ofThread : Label → Prop
  | .run _ _ => True
  | _ => False

/-- The two mutexes of the controller. -/
inductive Lock
  | mutex | manageVmMutex

namespace Server

/-- Is the mutex locked? -/
def Locked (s : Server) : Lock → Prop
  | .mutex => s.mutex ≠ none
  | .manageVmMutex => s.manageVmMutex ≠ none

/-- The next instruction of thread `t` locks the mutex. -/
def AboutToLock (s : Server) (t : Tid) : Lock → Prop
  | .mutex => ∃ c, s.code t = lockMutex :: c
  | .manageVmMutex => ∃ op c, s.code t = lockManageVm op :: c

/-- Thread `t` waits for the mutex. -/
def Waits (s : Server) (t : Tid) (m : Lock) : Prop := s.AboutToLock t m ∧ s.Locked m

/-! ### Only the two locks block -/

theorem step_of_effect {s s₁ : Server} {t : Tid} {env : Env} {i : Instr} {c : List Instr}
    (hcode : s.code t = i :: c) (heff : s.effect t env i = some s₁) :
    s.step (.run t env) = some { s₁ with code := s.nextCode t env i c } := by
  simp only [step, hcode, heff, Option.map_some]

theorem path_of_effect {s s₁ : Server} {t : Tid} {env : Env} {i : Instr} {c : List Instr}
    (hcode : s.code t = i :: c) (heff : s.effect t env i = some s₁) :
    StepPath step Label.ofThread s { s₁ with code := s.nextCode t env i c } :=
  have hl : (Label.run t env).ofThread := trivial
  StepPath.single hl (step_of_effect hcode heff)

/-- In a reachable state an instruction other than a lock can be executed. -/
theorem exists_effect {s : Server} (h : s.Inv) {t : Tid} (env : Env) {i : Instr}
    {c : List Instr} (hcode : s.code t = i :: c) (hmutex : i = lockMutex → s.mutex = none)
    (hmanage : ∀ op, i = lockManageVm op → s.manageVmMutex = none) (hhalt : i ≠ halt) :
    ∃ s₁, s.effect t env i = some s₁ := by
  have hfits : Fits s.acceptState t (i :: c) := hcode ▸ h.thread.code.fits t
  cases i with
  -- the locks are free by assumption
  | lockMutex => exact ⟨_, if_pos (hmutex rfl)⟩
  | lockManageVm op => exact ⟨_, if_pos (hmanage op rfl)⟩
  -- the registry functions succeed on a well-formed registry
  | assign =>
      obtain ⟨_, _, _, hreg, -⟩ := register_spec h.wf env.fresh (s.vm t).serviceInfo
        (s.vm t).ipAddress (s.vm t).socket (s.vm t).port
      simp only [effect, hreg]
      exact ⟨_, rfl⟩
  | switchVm =>
      obtain ⟨_, _, hreg, -⟩ := switchActiveMachine_spec h.wf (s.vm t)
      simp only [effect, hreg]
      exact ⟨_, rfl⟩
  | removeVm =>
      obtain ⟨_, hreg, -⟩ := manageDisconnectedVms_spec h.wf (s.vm t)
      simp only [effect, hreg]
      exact ⟨_, rfl⟩
  -- the slot a new thread reads is still in use: its creator holds `mutex` for it
  | copyVm g k =>
      obtain ⟨n, rfl⟩ := ofComm_of_fits hfits List.mem_cons_self rfl
      have hlt : n < s.created := by
        by_contra hn
        rw [h.thread.code.notCreated n (not_lt.mp hn)] at hcode
        simp at hcode
      cases h.history.place n hlt with
      | starting g' k' hk hslot =>
          rw [hcode, communicationStart] at hk
          simp only [List.cons.injEq, copyVm.injEq] at hk
          obtain ⟨⟨rfl, rfl⟩, -⟩ := hk
          obtain ⟨vm, hvm, -⟩ := hslot
          simp only [effect, hvm]
          exact ⟨_, rfl⟩
      | active _ hcopy => exact absurd (hcode ▸ List.mem_cons_self) (hcopy g k)
      | passive _ hk => simp [hcode] at hk
  | storeFeatures =>
      obtain ⟨n, rfl⟩ := ofComm_of_fits hfits List.mem_cons_self rfl
      exact ⟨_, rfl⟩
  | halt => exact absurd rfl hhalt
  | _ => exact ⟨_, rfl⟩

/-- `balancer_thread` takes no lock. -/
theorem ne_balancer_of_lock {s : Server} (h : s.Inv) {t : Tid} {i : Instr} {c : List Instr}
    (hcode : s.code t = i :: c) (hi : i = lockMutex ∨ ∃ op, i = lockManageVm op) :
    t ≠ .balancer := by
  rintro rfl
  have hsuff : i :: c <:+ sendCode := hcode ▸ h.thread.code.fits .balancer
  have hmem : i ∈ sendCode := hsuff.subset List.mem_cons_self
  rcases hi with rfl | ⟨op, rfl⟩
  · simp [sendCode] at hmem
  · simp [sendCode] at hmem

/-! ### Freeing `manage_vm_mutex` -/

/-- How far `manage_vm_mutex` is from its release. -/
def manageVmWork (s : Server) : ℕ :=
  match s.manageVmMutex with
  | none => 0
  | some .balancer => if s.code .balancer = [] then 8 else (s.code .balancer).length
  | some t => 9 + (s.code t).length

/-- What freeing `manage_vm_mutex` leaves as it was in `s`. -/
structure Kept (s a : Server) : Prop where
  inv : a.Inv
  mutex : a.mutex = s.mutex
  code : ∀ u, u ≠ .balancer → owesManageVm (s.code u) = false → a.code u = s.code u

/-- An instruction of `balancer_thread`, or of the thread that posts. -/
theorem Kept.effect {s a a₁ : Server} (h : Kept s a) {t : Tid} {env : Env} {i : Instr}
    {c : List Instr} (hcode : a.code t = i :: c) (heff : a.effect t env i = some a₁)
    (hi : onMailbox i = true) (ht : t = .balancer ∨ owesManageVm (a.code t) = true) :
    Kept s { a₁ with code := a.nextCode t env i c } := by
  have hmutex : onMutex i = false := by
    revert hi
    cases i <;> simp [onMailbox, onMutex]
  refine ⟨inv_step h.inv (step_of_effect hcode heff),
    ((effect_frame heff).mutex hmutex).trans h.mutex, fun u hu howes => ?_⟩
  have hut : u ≠ t := by
    rintro rfl
    rcases ht with rfl | ht
    · exact hu rfl
    · rw [h.code u hu howes, howes] at ht
      cases ht
  show a.nextCode t env i c u = s.code u
  rw [nextCode_of_onMailbox hi, Function.update_of_ne hut]
  exact h.code u hu howes

theorem onMailbox_of_owesManageVm {i : Instr} {c : List Instr}
    (h : owesManageVm (i :: c) = true) :
    onMailbox i = true ∧ i ≠ halt ∧ i ≠ lockMutex ∧ ∀ op, i ≠ lockManageVm op := by
  cases i <;> simp_all [owesManageVm, onMailbox]

theorem manageVmWork_poster {a : Server} {t : Tid} (ht : t ≠ .balancer)
    (hheld : a.manageVmMutex = some t) : a.manageVmWork = 9 + (a.code t).length := by
  rw [manageVmWork, hheld]
  cases t with
  | balancer => exact absurd rfl ht
  | _ => rfl

theorem manageVmWork_balancer {a : Server} (hheld : a.manageVmMutex = some .balancer) :
    a.manageVmWork = if a.code .balancer = [] then 8 else (a.code .balancer).length := by
  rw [manageVmWork, hheld]

/-- A post goes on under the same holder until `balancer_thread` takes over. -/
theorem effect_post {a a₁ : Server} {t : Tid} {env : Env} {i : Instr} {c : List Instr}
    (heff : a.effect t env i = some a₁) (howes : owesManageVm (i :: c) = true)
    (hheld : a.manageVmMutex = some t) :
    a₁.manageVmMutex = some .balancer ∨ a₁.manageVmMutex = some t := by
  cases i with
  | setStateManVm =>
      obtain rfl := Option.some.inj heff
      exact .inl (by rw [hheld]; rfl)
  | setIp | setPort | setService | setOp =>
      obtain rfl := Option.some.inj heff
      exact .inr hheld
  | _ => cases howes

/-- The poster goes on: nothing in a post blocks. -/
theorem exists_post_step {s a : Server} (h : Kept s a) {t : Tid} (ht : t ≠ .balancer)
    (hheld : a.manageVmMutex = some t) (hbal : a.code .balancer = []) :
    ∃ b, StepPath step Label.ofThread a b ∧ Kept s b ∧ b.manageVmWork < a.manageVmWork := by
  have howes : owesManageVm (a.code t) = true := (h.inv.thread.manageVm t ht).mp hheld
  rcases hcode : a.code t with - | ⟨i, c⟩
  · simp [hcode, owesManageVm] at howes
  obtain ⟨hi, hhalt, hlock, hlockVm⟩ := onMailbox_of_owesManageVm (hcode ▸ howes)
  obtain ⟨a₁, heff⟩ := exists_effect h.inv ⟨true, fun _ => default⟩ hcode
    (fun e => absurd e hlock) (fun op e => absurd e (hlockVm op)) hhalt
  refine ⟨_, path_of_effect hcode heff, h.effect hcode heff hi (.inr howes), ?_⟩
  rw [manageVmWork_poster ht hheld, hcode, List.length_cons, nextCode_of_onMailbox hi]
  rcases effect_post heff (hcode ▸ howes) hheld with hbalancer | hsame
  · have hnext : manageVmMutex { a₁ with code := Function.update a.code t c } = some .balancer :=
      hbalancer
    rw [manageVmWork_balancer hnext]
    simp only [Function.update_of_ne ht.symm, hbal, if_true]
    omega
  · have hnext : manageVmMutex { a₁ with code := Function.update a.code t c } = some t := hsame
    rw [manageVmWork_poster ht hnext]
    simp only [Function.update_self]
    omega

/-- `balancer_thread` goes on: none of its instructions blocks. -/
theorem exists_balancer_step {s a : Server} (h : Kept s a)
    (hheld : a.manageVmMutex = some .balancer)
    (hflag : a.code .balancer = [] → a.stateManVm = true) :
    ∃ b, StepPath step Label.ofThread a b ∧ Kept s b ∧ b.manageVmWork < a.manageVmWork := by
  rcases hcode : a.code .balancer with - | ⟨i, c⟩
  -- it polls `state_man_vm`, and the flag is raised
  · have hstep : a.step (.run .balancer ⟨true, fun _ => default⟩) =
        some (a.goto .balancer sendCode) := by
      simp only [step, hcode, hflag hcode, if_true]
    refine ⟨_, StepPath.single (l := .run .balancer ⟨true, fun _ => default⟩) trivial hstep,
      ⟨inv_step h.inv hstep, h.mutex, fun u hu howes => ?_⟩, ?_⟩
    · rw [a.goto_other sendCode hu]
      exact h.code u hu howes
    · simp [manageVmWork, hheld, hcode, Server.goto, sendCode]
  -- it is on its way from there to the release
  · have hsuff : i :: c <:+ sendCode := hcode ▸ h.inv.thread.code.fits .balancer
    have hfits : Fits a.acceptState .balancer (i :: c) := hsuff
    have hi : ofBalancer i = true := (eq_balancer_iff hfits fun hb => absurd rfl hb).mp rfl
    have hmail : onMailbox i = true := by
      revert hi
      cases i <;> simp [ofBalancer, onMailbox]
    obtain ⟨a₁, heff, hlock⟩ : ∃ a₁, a.effect .balancer ⟨true, fun _ => default⟩ i = some a₁ ∧
        (a₁.manageVmMutex = none ∨ a₁.manageVmMutex = some .balancer ∧ c ≠ []) := by
      rcases sendCode_cases hsuff with ⟨hmem, hstep⟩ | ⟨rfl, rfl⟩ | ⟨rfl, rfl⟩ | ⟨rfl, rfl⟩
      · obtain ⟨out', -, heff⟩ := hstep a.virtMachine a.out
        exact ⟨_, heff a _ _ rfl rfl, .inr ⟨hheld, List.ne_nil_of_mem hmem⟩⟩
      · exact ⟨_, rfl, .inr ⟨hheld, by simp⟩⟩
      · exact ⟨_, rfl, .inr ⟨hheld, by simp⟩⟩
      · exact ⟨_, rfl, .inl rfl⟩
    refine ⟨_, path_of_effect hcode heff, h.effect hcode heff hmail (.inl rfl), ?_⟩
    rw [manageVmWork_balancer hheld, hcode, if_neg (List.cons_ne_nil i c), List.length_cons,
      nextCode_of_onMailbox hmail]
    rcases hlock with hfree | ⟨hsame, hc⟩
    · simp [manageVmWork, hfree]
    · have hnext : manageVmMutex { a₁ with code := Function.update a.code .balancer c } =
          some .balancer := hsame
      rw [manageVmWork_balancer hnext]
      simp only [Function.update_self, if_neg hc]
      omega

/-- **`manage_vm_mutex` can always be freed**, without a step of any thread
but `balancer_thread` and the one that is posting. -/
theorem exists_manageVm_free {s : Server} (h : s.Inv) :
    ∃ b, StepPath step Label.ofThread s b ∧ Kept s b ∧ b.manageVmMutex = none := by
  refine exists_path_of_measure manageVmWork (fun a ha hheld => ?_)
    (⟨h, rfl, fun _ _ _ => rfl⟩ : Kept s s)
  cases ha.inv.thread.phase with
  | idle hfree => exact absurd hfree hheld
  | posting t ht hlock _ hbal => exact exists_post_step ha ht hlock hbal
  | raised hlock hflag => exact exists_balancer_step ha hlock fun _ => hflag
  | delivered hlock hbal =>
      refine exists_balancer_step ha hlock fun hnil => ?_
      simp [hnil] at hbal

/-! ### Freeing `mutex` -/

/-- How far `mutex` is from its release, steps on `manage_vm_mutex` apart.
The accept thread hands it over to a thread that takes two steps. -/
def mutexWork (s : Server) : ℕ :=
  s.mutex.elim 0 fun t => (s.code t).length + if t = .accept then 3 else 0

/-- The thread that owes the release of `mutex` is at none of the points
where a thread waits for something other than `manage_vm_mutex`. -/
theorem of_owesMutex {i : Instr} {c : List Instr} (h : owesMutex (i :: c) = true) :
    i ≠ lockMutex ∧ i ≠ halt ∧ i ≠ sendRejuvenate ∧ i ≠ sendContinue := by
  cases i <;> simp_all [owesMutex]

/-- The holder of `mutex` takes its next step; if that is to lock
`manage_vm_mutex`, this is freed first. -/
theorem exists_holder_step {a : Server} (h : a.Inv) {t : Tid} {i : Instr} {c : List Instr}
    (hheld : a.mutex = some t) (hcode : a.code t = i :: c) :
    ∃ b b₁ env, StepPath step Label.ofThread a b ∧ Kept a b ∧ b.code t = i :: c ∧
      b.effect t env i = some b₁ := by
  have howes : owesMutex (i :: c) = true := hcode ▸ (h.thread.mutex t).mp hheld
  obtain ⟨hlock, hhalt, -, -⟩ := of_owesMutex howes
  have hself : Kept a a := ⟨h, rfl, fun _ _ _ => rfl⟩
  by_cases hi : ∃ op, i = lockManageVm op
  · obtain ⟨op, rfl⟩ := hi
    obtain ⟨b, hpath, hb, hfree⟩ := exists_manageVm_free h
    have ht : t ≠ .balancer := ne_balancer_of_lock h hcode (.inr ⟨op, rfl⟩)
    have hcode' : b.code t = lockManageVm op :: c := by
      rw [hb.code t ht (by rw [hcode]; rfl), hcode]
    obtain ⟨b₁, heff⟩ := exists_effect hb.inv ⟨true, fun _ => default⟩ hcode'
      (fun e => absurd e hlock) (fun _ _ => hfree) hhalt
    exact ⟨b, b₁, _, hpath, hb, hcode', heff⟩
  · obtain ⟨a₁, heff⟩ := exists_effect h ⟨true, fun _ => default⟩ hcode
      (fun e => absurd e hlock) (fun op e => absurd ⟨op, e⟩ hi) hhalt
    exact ⟨a, a₁, _, StepPath.refl a, hself, hcode, heff⟩

/-- That step brings the release of `mutex` closer. -/
theorem mutexWork_step {b b₁ : Server} (h : b.Inv) {t : Tid} {env : Env} {i : Instr}
    {c : List Instr} (hheld : b.mutex = some t) (hcode : b.code t = i :: c)
    (heff : b.effect t env i = some b₁) :
    mutexWork { b₁ with code := b.nextCode t env i c } < b.mutexWork := by
  have howes : owesMutex (i :: c) = true := hcode ▸ (h.thread.mutex t).mp hheld
  obtain ⟨-, -, hrej, hcont⟩ := of_owesMutex howes
  have hrest : b.rest t env i c = c := by
    rcases b.rest_cases t env i c with hr | ⟨hi, -⟩ | ⟨hi, -⟩
    · exact hr
    · exact absurd hi hrej
    · exact absurd hi hcont
  have hwork : b.mutexWork = c.length + 1 + if t = .accept then 3 else 0 := by
    rw [mutexWork, hheld, Option.elim_some, hcode, List.length_cons]
  rw [hwork]
  by_cases hi : onMutex i = true
  · cases i with
    | lockMutex => cases howes
    | unlockMutex =>
        -- the measure is 0 when the mutex is free
        obtain rfl := Option.some.inj heff
        exact Nat.lt_of_lt_of_le (Nat.succ_pos _) (Nat.le_add_right _ _)
    | createThread =>
        -- the new thread owes the release from here on
        obtain ⟨rfl, rfl⟩ := eq_accept_of_createThread (hcode ▸ h.thread.code.fits t)
        obtain rfl := Option.some.inj heff
        simp [mutexWork, hheld, nextCode_created, communicationStart]
    | _ => cases hi
  · have hmutex : mutex { b₁ with code := b.nextCode t env i c } = some t :=
      ((effect_frame heff).mutex (by simpa using hi)).trans hheld
    have hself : b.nextCode t env i c t = c := by
      rw [nextCode_self (.inl ?_), hrest]
      rintro rfl
      exact hi rfl
    rw [mutexWork, hmutex, Option.elim_some]
    show (b.nextCode t env i c t).length + _ < _
    rw [hself]
    omega

/-- **`mutex` can always be freed**, with a thread that waits for it left
where it is. -/
theorem exists_mutex_free {s : Server} (h : s.Inv) {w : Tid} {cw : List Instr}
    (hw : s.code w = lockMutex :: cw) :
    ∃ b, StepPath step Label.ofThread s b ∧ (b.Inv ∧ b.code w = s.code w) ∧
      b.mutex = none := by
  refine exists_path_of_measure (I := fun a => a.Inv ∧ a.code w = s.code w) mutexWork ?_
    ⟨h, rfl⟩
  rintro a ⟨ha, haw⟩ hlocked
  obtain ⟨t, hheld⟩ := Option.ne_none_iff_exists'.mp hlocked
  have howes : owesMutex (a.code t) = true := (ha.thread.mutex t).mp hheld
  -- the waiting thread is not the holder, so the holder's steps leave it alone
  have hwt : w ≠ t := by
    rintro rfl
    rw [haw, hw] at howes
    cases howes
  rcases hcode : a.code t with - | ⟨i, c⟩
  · simp [hcode, owesMutex] at howes
  obtain ⟨b, b₁, env, hpath, hb, hcode', heff⟩ := exists_holder_step ha hheld hcode
  have hbheld : b.mutex = some t := hb.mutex.trans hheld
  have hwbal : w ≠ .balancer := ne_balancer_of_lock ha (haw.trans hw) (.inl rfl)
  have hbw : b.code w = s.code w := by
    rw [hb.code w hwbal (by rw [haw, hw]; rfl), haw]
  refine ⟨_, hpath.trans (path_of_effect hcode' heff),
    ⟨inv_step hb.inv (step_of_effect hcode' heff), ?_⟩, ?_⟩
  · show b.nextCode t env i c w = s.code w
    rcases hb.inv.thread.code.nextCode_cases hcode' heff w with
      ⟨hwt', -⟩ | ⟨rfl, -⟩ | ⟨-, -, hsame⟩
    · exact absurd hwt' hwt
    · rw [hb.inv.thread.code.notCreated _ le_rfl, hw] at hbw
      simp at hbw
    · exact hsame.trans hbw
  · refine (mutexWork_step hb.inv hbheld hcode' heff).trans_eq ?_
    rw [mutexWork, hbheld, mutexWork, hheld, Option.elim_some, Option.elim_some, hcode', hcode]

/-- **No deadlock.**  If a thread waits for one of the mutexes, some steps of
the threads, without any new connection or message, lead to a state in which
that mutex is free and the thread can lock it. -/
theorem exists_path_unlocked (mem : Service → ℕ → VmData) (stack : Tid → VmData)
    (features : ℕ → SystemFeatures) {s : Server} {t : Tid} {m : Lock}
    (h : Reachable step (initial mem stack features) s) (hw : s.Waits t m) :
    ∃ s', StepPath step Label.ofThread s s' ∧ ¬ s'.Locked m ∧ s'.AboutToLock t m ∧
      ∀ env, ∃ s'', s'.step (.run t env) = some s'' ∧ s''.Locked m := by
  have hinv : s.Inv := inv_of_reachable h
  obtain ⟨hnext, -⟩ := hw
  cases m with
  | mutex =>
      obtain ⟨c, hcode⟩ := hnext
      obtain ⟨b, hpath, ⟨-, hsame⟩, hfree⟩ := exists_mutex_free hinv hcode
      have hcode' : b.code t = lockMutex :: c := hsame.trans hcode
      refine ⟨b, hpath, not_not_intro hfree, ⟨c, hcode'⟩, fun env => ?_⟩
      exact ⟨_, step_of_effect hcode' (if_pos hfree), Option.some_ne_none t⟩
  | manageVmMutex =>
      obtain ⟨op, c, hcode⟩ := hnext
      obtain ⟨b, hpath, hkept, hfree⟩ := exists_manageVm_free hinv
      have ht : t ≠ .balancer := ne_balancer_of_lock hinv hcode (.inr ⟨op, rfl⟩)
      have hcode' : b.code t = lockManageVm op :: c := by
        rw [hkept.code t ht (by rw [hcode]; rfl), hcode]
      refine ⟨b, hpath, not_not_intro hfree, ⟨op, c, hcode'⟩, fun env => ?_⟩
      exact ⟨_, step_of_effect hcode' (if_pos hfree), Option.some_ne_none t⟩

/-- A run that takes the locks in both orders: the accept thread, with
`mutex`, is about to lock `manage_vm_mutex`, and a thread on its way out has
posted `DELETE` and is about to lock `mutex`. -/
def crossedLocks : List Label :=
  let env : Env := ⟨true, fun _ => default⟩
  .newClient ⟨service1, .active, 8080⟩ "10.0.0.1" 4 40000 true ::
    (List.replicate 9 (.run .accept env) ++ List.replicate 2 (.run (.comm 0) env) ++
      List.replicate 8 (.run .balancer env) ++
      [.recvFail 0, .newClient ⟨service2, .active, 8080⟩ "10.0.0.2" 5 40001 true] ++
      List.replicate 2 (.run .accept env) ++ List.replicate 6 (.run (.comm 0) env))

theorem exists_path_unlocked_crossedLocks :
    ∃ s, run step (initial (fun _ _ => default) (fun _ => default) fun _ => default)
        crossedLocks = some s ∧
      s.Waits .accept .manageVmMutex ∧ s.Waits (.comm 0) .mutex ∧
      ∃ s', StepPath step Label.ofThread s s' ∧ ¬ s'.Locked .mutex := by
  have hrun : (run step (initial (fun _ _ => default) (fun _ => default) fun _ => default)
      crossedLocks).map (fun s => (s.mutex, s.manageVmMutex, s.code .accept, s.code (.comm 0))) =
      some (some .accept, some .balancer, notify .add ++ [createThread],
        manageDisconnectedVmsCode ++ [closeSocket, halt]) := by decide
  obtain ⟨s, hs, hstate⟩ := Option.map_eq_some_iff.mp hrun
  simp only [Prod.mk.injEq] at hstate
  obtain ⟨hmutex, hmanage, haccept, hcomm⟩ := hstate
  have hlocked : s.Locked .mutex ∧ s.Locked .manageVmMutex := by simp [Locked, hmutex, hmanage]
  have hwaits : s.Waits (.comm 0) .mutex := ⟨⟨_, hcomm⟩, hlocked.1⟩
  obtain ⟨s', hpath, hfree, -⟩ := exists_path_unlocked _ _ _ ⟨crossedLocks, hs⟩ hwaits
  exact ⟨s, hs, ⟨⟨_, _, haccept⟩, hlocked.2⟩, hwaits, s', hpath, hfree⟩

end Server

end A2PM.Controller
