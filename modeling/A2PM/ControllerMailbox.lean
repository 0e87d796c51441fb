/-
A2PM/ControllerMailbox.lean

The mailbox between the controller's threads and `balancer_thread`:
`manage_vm_mutex`, `state_man_vm` and `virt_machine`.

A post is taken through four stages (`Phase`): the mailbox is idle; a
thread holds `manage_vm_mutex` and fills in `virt_machine`; the record is
complete and `balancer_thread` owes the release; the record has been sent.
`ThreadInv` puts this together with the invariants of `ControllerLocks`.
-/
import A2PM.ControllerLocks

namespace A2PM.Controller

open Instr Transition

/-- Instructions that write a field of `virt_machine`. -/
def writesRecord : Instr → Bool
  | setIp | setPort | setService | setOp _ => true
  | _ => false

namespace Server

/-! ### Who holds `manage_vm_mutex`, and what is in the mailbox -/

/-- The records of all posts, in the order of the acquisitions. -/
def posts (s : Server) : List VirtualMachine := s.acquired.map Prod.snd

/-- The stages a post goes through. -/
inductive Phase (s : Server) : Prop
  /-- Everything posted has been sent. -/
  | idle (hlock : s.manageVmMutex = none) (hflag : s.stateManVm = false)
      (hbal : s.code .balancer = []) (hposts : s.posts = s.sent) (hraised : s.raised = s.sent)
  /-- Thread `t` is filling in `virt_machine`. -/
  | posting (t : Tid) (ht : t ≠ .balancer) (hlock : s.manageVmMutex = some t)
      (hflag : s.stateManVm = false) (hbal : s.code .balancer = [])
      (hposts : s.posts = s.sent ++ [finishPost (s.vm t) (s.code t) s.virtMachine])
      (hraised : s.raised = s.sent)
  /-- The post is complete, and `balancer_thread` is going to send it. -/
  | raised (hlock : s.manageVmMutex = some .balancer) (hflag : s.stateManVm = true)
      (hbal : s.code .balancer = [] ∨ sendRecord ∈ s.code .balancer ∧
        finishSend s.virtMachine (s.code .balancer) s.out = s.virtMachine)
      (hposts : s.posts = s.sent ++ [s.virtMachine]) (hraised : s.raised = s.posts)
  /-- `balancer_thread` has sent it, and is going to release the mutex. -/
  | delivered (hlock : s.manageVmMutex = some .balancer)
      (hbal : s.code .balancer = [clearStateManVm, unlockManageVm] ∧ s.stateManVm = true ∨
        s.code .balancer = [unlockManageVm] ∧ s.stateManVm = false)
      (hposts : s.posts = s.sent) (hraised : s.raised = s.posts)

/-- `manage_vm_mutex` is held by the thread that is filling in
`virt_machine`, if there is one. -/
def ManageVmInv (s : Server) : Prop :=
  ∀ t, t ≠ .balancer → (s.manageVmMutex = some t ↔ owesManageVm (s.code t) = true)

/-- A step that neither works on the mailbox nor moves `balancer_thread` or
the thread that is posting. -/
theorem Phase.of_mailbox_eq {s s' : Server} (h : s.Phase) (hm : s'.mailbox = s.mailbox)
    (hbal : s'.code .balancer = s.code .balancer)
    (hpost : ∀ t, t ≠ .balancer → s.manageVmMutex = some t →
      s'.code t = s.code t ∧ s'.vm t = s.vm t) : s'.Phase := by
  simp only [mailbox, Prod.mk.injEq] at hm
  obtain ⟨hlock', hflag', hvirt', hout', hsent', hacq', hraised'⟩ := hm
  have hposts' : s'.posts = s.posts := by rw [posts, hacq', posts]
  cases h with
  | idle hlock hflag hb hposts hraised =>
      exact .idle (hlock'.trans hlock) (hflag'.trans hflag) (hbal.trans hb)
        (by rw [hposts', hsent', hposts]) (by rw [hraised', hsent', hraised])
  | posting t ht hlock hflag hb hposts hraised =>
      obtain ⟨hcode, hvm⟩ := hpost t ht hlock
      exact .posting t ht (hlock'.trans hlock) (hflag'.trans hflag) (hbal.trans hb)
        (by rw [hposts', hsent', hposts, hcode, hvm, hvirt']) (by rw [hraised', hsent', hraised])
  | raised hlock hflag hb hposts hraised =>
      exact .raised (hlock'.trans hlock) (hflag'.trans hflag) (by rwa [hbal, hvirt', hout'])
        (by rw [hposts', hsent', hvirt', hposts]) (by rw [hraised', hposts', hraised])
  | delivered hlock hb hposts hraised =>
      exact .delivered (hlock'.trans hlock) (by rwa [hbal, hflag'])
        (by rw [hposts', hsent', hposts]) (by rw [hraised', hposts', hraised])

theorem nextCode_of_onMailbox {s : Server} {t : Tid} {env : Env} {i : Instr} {c : List Instr}
    (hi : onMailbox i = true) : s.nextCode t env i c = Function.update s.code t c := by
  cases i <;> first | rfl | cases hi

theorem ne_balancer_of_not_onMailbox {st : VmState} {t : Tid} {i : Instr} {c : List Instr}
    (h : Fits st t (i :: c)) (hi : onMailbox i = false) : t ≠ .balancer := by
  rintro rfl
  have := h.subset List.mem_cons_self
  revert this hi
  cases i <;> simp [sendCode, onMailbox]

/-- Instructions of `balancer_thread`. -/
def ofBalancer : Instr → Bool
  | copyIp | copyPort | copyService | copyOp | sendRecord | clearStateManVm | unlockManageVm =>
      true
  | _ => false

theorem eq_balancer_iff {st : VmState} {t : Tid} {i : Instr} {c : List Instr}
    (h : Fits st t (i :: c)) (hs : t ≠ .balancer → shaped (i :: c) = true) :
    t = .balancer ↔ ofBalancer i = true := by
  constructor
  · rintro rfl
    have := h.subset List.mem_cons_self
    revert this
    cases i <;> simp [sendCode, ofBalancer]
  · intro hi
    by_contra ht
    have := hs ht
    simp only [shaped, Bool.and_eq_true] at this
    revert this hi
    cases i <;> simp [ofBalancer, follows]

/-- Instructions off the mailbox. -/
theorem manageVm_effect_off {s s₁ : Server} {t : Tid} {env : Env} {i : Instr} {c : List Instr}
    (hc : s.CodeInv) (hm : s.ManageVmInv) (hp : s.Phase) (hcode : s.code t = i :: c)
    (heff : s.effect t env i = some s₁) (hi : onMailbox i = false) :
    ManageVmInv { s₁ with code := s.nextCode t env i c } ∧
    Phase { s₁ with code := s.nextCode t env i c } := by
  have hfits : Fits s.acceptState t (i :: c) := hcode ▸ hc.fits t
  have ht : t ≠ .balancer := ne_balancer_of_not_onMailbox hfits hi
  obtain ⟨howes, howes'⟩ :
      owesManageVm (s.rest t env i c) = false ∧ owesManageVm (i :: c) = false :=
    owesManageVm_rest (hcode ▸ hc.shaped ht) hi
  have hcases := hc.nextCode_cases hcode heff
  have hmail := (effect_frame heff).mailbox hi
  have hlock : s₁.manageVmMutex = s.manageVmMutex := congrArg Prod.fst hmail
  have hnot : ∀ u, u ≠ .balancer → s.manageVmMutex = some u → u ≠ t := by
    rintro u hu hheld rfl
    have := (hm u hu).mp hheld
    rw [hcode, howes'] at this
    cases this
  constructor
  · intro u hu
    dsimp only
    rw [hlock]
    rcases hcases u with ⟨rfl, hcu⟩ | ⟨rfl, -, -, hcu⟩ | ⟨-, -, hcu⟩
    · rw [hcu, howes, hm u hu, hcode, howes']
    · rw [hcu, hm _ hu, hc.notCreated _ le_rfl]
      rfl
    · rw [hcu]
      exact hm u hu
  · refine hp.of_mailbox_eq hmail ?_ fun u hu hheld => ?_
    · rcases hcases .balancer with ⟨rfl, -⟩ | ⟨hb, -⟩ | ⟨-, -, hcu⟩
      · exact absurd rfl ht
      · cases hb
      · exact hcu
    · have hut := hnot u hu hheld
      refine ⟨?_, (effect_frame heff).vm u (.inl hut)⟩
      rcases hcases u with ⟨rfl, -⟩ | ⟨rfl, -, -, -⟩ | ⟨-, -, hcu⟩
      · exact absurd rfl hut
      · have := (hm _ hu).mp hheld
        rw [hc.notCreated _ le_rfl] at this
        cases this
      · exact hcu

/-- An instruction of a post, and what stands behind it. -/
theorem post_cases {i : Instr} {c : List Instr} (hi : onMailbox i = true)
    (hb : ofBalancer i = false) (hs : follows i c = true) :
    (∃ op, i = lockManageVm op ∧ startsPost op c = true) ∨
      (writesRecord i = true ∧ owesManageVm c = true) ∨
      (i = setStateManVm ∧ owesManageVm c = false) := by
  cases i with
  | lockManageVm op => exact .inl ⟨op, rfl, hs⟩
  | setIp | setPort | setService | setOp => exact .inr (.inl ⟨rfl, hs⟩)
  | setStateManVm => exact .inr (.inr ⟨rfl, by simpa [follows] using hs⟩)
  | copyIp | copyPort | copyService | copyOp | sendRecord | clearStateManVm | unlockManageVm =>
      cases hb
  | _ => cases hi

/-- The thread that holds `manage_vm_mutex` is posting, unless it is
`balancer_thread`. -/
theorem Phase.of_holder {s : Server} (h : s.Phase) {t : Tid} (ht : t ≠ .balancer)
    (hheld : s.manageVmMutex = some t) :
    s.stateManVm = false ∧ s.code .balancer = [] ∧
      s.posts = s.sent ++ [finishPost (s.vm t) (s.code t) s.virtMachine] ∧ s.raised = s.sent := by
  cases h with
  | idle hfree => cases hheld.symm.trans hfree
  | posting u _ hheld' hflag hbal hposts hraised =>
      obtain rfl := Option.some.inj (hheld.symm.trans hheld')
      exact ⟨hflag, hbal, hposts, hraised⟩
  | raised hother => exact absurd (Option.some.inj (hheld.symm.trans hother)) ht
  | delivered hother => exact absurd (Option.some.inj (hheld.symm.trans hother)) ht

section

variable {s s₁ : Server} {t : Tid} {env : Env} {i : Instr} {c : List Instr}

/-- `manage_vm_mutex` was free; the post begins. -/
theorem manageVm_lock {op : Operations} (hm : s.ManageVmInv) (hp : s.Phase)
    (heff : s.effect t env (lockManageVm op) = some s₁) (ht : t ≠ .balancer)
    (hstarts : startsPost op c = true) :
    ManageVmInv { s₁ with code := Function.update s.code t c } ∧
      Phase { s₁ with code := Function.update s.code t c } := by
  simp only [effect, Option.ite_none_right_eq_some, Option.some.injEq] at heff
  obtain ⟨hfree, rfl⟩ := heff
  obtain ⟨howes, hfinish⟩ := finishPost_of_startsPost (s.vm t) hstarts s.virtMachine
  refine ⟨fun u hu => ?_, ?_⟩
  · dsimp only
    rcases eq_or_ne u t with rfl | hut
    · simp [howes]
    · rw [Function.update_of_ne hut, ← hm u hu, hfree]
      simp [hut.symm]
  · cases hp with
    | idle _ hflag hbal hposts hraised =>
        refine .posting t ht rfl hflag ?_ ?_ hraised
        · simpa [ht.symm] using hbal
        · simp only [posts, List.map_append, List.map_singleton, Function.update_self, hfinish]
          exact congrArg (· ++ _) hposts
    | posting u _ hheld => simp [hfree] at hheld
    | raised hheld => simp [hfree] at hheld
    | delivered hheld => simp [hfree] at hheld

/-- The post goes on. -/
theorem manageVm_writesRecord (hm : s.ManageVmInv) (hp : s.Phase) (hcode : s.code t = i :: c)
    (heff : s.effect t env i = some s₁) (ht : t ≠ .balancer)
    (hheld : s.manageVmMutex = some t) (hfield : writesRecord i = true)
    (howes : owesManageVm c = true) :
    ManageVmInv { s₁ with code := Function.update s.code t c } ∧
      Phase { s₁ with code := Function.update s.code t c } := by
  obtain ⟨hflag, hbal, hposts, hraised⟩ := hp.of_holder ht hheld
  have hbal' : Function.update s.code t c .balancer = [] := by
    rw [Function.update_of_ne ht.symm, hbal]
  have hinv : ∀ u, u ≠ .balancer →
      (s.manageVmMutex = some u ↔ owesManageVm (Function.update s.code t c u) = true) := by
    intro u hu
    rcases eq_or_ne u t with rfl | hut
    · simp [howes, hheld]
    · rw [Function.update_of_ne hut]
      exact hm u hu
  rw [hcode] at hposts
  cases i with
  | setIp | setPort | setService | setOp =>
      obtain rfl := Option.some.inj heff
      refine ⟨hinv, .posting t ht hheld hflag hbal' ?_ hraised⟩
      simp only [Function.update_self]
      exact hposts
  | _ => cases hfield

/-- The post is complete, and from here on `balancer_thread` owes the
release. -/
theorem manageVm_setStateManVm (hm : s.ManageVmInv) (hp : s.Phase)
    (hcode : s.code t = setStateManVm :: c) (heff : s.effect t env setStateManVm = some s₁)
    (ht : t ≠ .balancer) (hheld : s.manageVmMutex = some t) (hdone : owesManageVm c = false) :
    ManageVmInv { s₁ with code := Function.update s.code t c } ∧
      Phase { s₁ with code := Function.update s.code t c } := by
  obtain ⟨hflag, hbal, hposts, hraised⟩ := hp.of_holder ht hheld
  have hbal' : Function.update s.code t c .balancer = [] := by
    rw [Function.update_of_ne ht.symm, hbal]
  have hothers : ∀ u, u ≠ .balancer → u ≠ t → owesManageVm (s.code u) = false := by
    intro u hu hut
    rw [← Bool.not_eq_true, ← hm u hu, hheld]
    simpa using hut.symm
  rw [hcode] at hposts
  obtain rfl := Option.some.inj heff
  refine ⟨fun u hu => ?_, .raised (by simp [hheld]) rfl (.inl hbal') hposts ?_⟩
  · simp only [hheld, Option.map_some, Option.some.injEq]
    rcases eq_or_ne u t with rfl | hut
    · simpa [hdone] using ht.symm
    · rw [Function.update_of_ne hut, hothers u hu hut]
      simp [hu.symm]
  · show s.raised ++ [s.virtMachine] = s.posts
    rw [hposts, hraised]
    rfl

/-- Instructions of a post. -/
theorem manageVm_effect_post (hm : s.ManageVmInv) (hp : s.Phase) (hcode : s.code t = i :: c)
    (heff : s.effect t env i = some s₁) (hi : onMailbox i = true) (ht : t ≠ .balancer)
    (hs : shaped (i :: c) = true) (hb : ofBalancer i = false) :
    ManageVmInv { s₁ with code := s.nextCode t env i c } ∧
      Phase { s₁ with code := s.nextCode t env i c } := by
  simp only [Controller.shaped, Bool.and_eq_true] at hs
  rw [nextCode_of_onMailbox hi]
  have hself := hm t ht
  rw [hcode] at hself
  rcases post_cases hi hb hs.1 with ⟨op, rfl, hstarts⟩ | ⟨hfield, howes⟩ | ⟨rfl, hdone⟩
  · exact manageVm_lock hm hp heff ht hstarts
  · have hheld : s.manageVmMutex = some t := by
      rw [hself]
      cases i with
      | setIp | setPort | setService | setOp => exact howes
      | _ => cases hfield
    exact manageVm_writesRecord hm hp hcode heff ht hheld hfield howes
  · exact manageVm_setStateManVm hm hp hcode heff ht (hself.mpr rfl) hdone

end

/-- The last five places of `balancer_thread`'s code, with the first one. -/
theorem sendCode_cases {i : Instr} {c : List Instr} (h : i :: c <:+ sendCode) :
    (sendRecord ∈ c ∧ ∀ v out, ∃ out', finishSend v (i :: c) out = finishSend v c out' ∧
      ∀ s : Server, ∀ t env, s.virtMachine = v → s.out = out →
        s.effect t env i = some { s with out := out' }) ∨
    (i = sendRecord ∧ c = [clearStateManVm, unlockManageVm]) ∨
    (i = clearStateManVm ∧ c = [unlockManageVm]) ∨
    (i = unlockManageVm ∧ c = []) := by
  have := (List.mem_tails _ _).mpr h
  simp only [sendCode, List.tails, List.mem_cons, List.cons.injEq, List.not_mem_nil,
    or_false, reduceCtorEq] at this
  rcases this with ⟨rfl, rfl⟩ | ⟨rfl, rfl⟩ | ⟨rfl, rfl⟩ | ⟨rfl, rfl⟩ | ⟨rfl, rfl⟩ | ⟨rfl, rfl⟩ |
    ⟨rfl, rfl⟩
  · refine .inl ⟨by simp, fun v out => ⟨{ out with ip := v.ip }, rfl, ?_⟩⟩
    rintro s t env rfl rfl
    rfl
  · refine .inl ⟨by simp, fun v out => ⟨{ out with port := v.port }, rfl, ?_⟩⟩
    rintro s t env rfl rfl
    rfl
  · refine .inl ⟨by simp, fun v out => ⟨{ out with service := v.service }, rfl, ?_⟩⟩
    rintro s t env rfl rfl
    rfl
  · refine .inl ⟨by simp, fun v out => ⟨{ out with op := v.op }, rfl, ?_⟩⟩
    rintro s t env rfl rfl
    rfl
  · exact .inr (.inl ⟨rfl, rfl⟩)
  · exact .inr (.inr (.inl ⟨rfl, rfl⟩))
  · exact .inr (.inr (.inr ⟨rfl, rfl⟩))

/-- Instructions of `balancer_thread`. -/
theorem manageVm_effect_balancer {s s₁ : Server} {env : Env} {i : Instr} {c : List Instr}
    (hc : s.CodeInv) (hm : s.ManageVmInv) (hp : s.Phase) (hcode : s.code .balancer = i :: c)
    (heff : s.effect .balancer env i = some s₁) :
    ManageVmInv { s₁ with code := s.nextCode .balancer env i c } ∧
    Phase { s₁ with code := s.nextCode .balancer env i c } := by
  have hsuff : i :: c <:+ sendCode := hcode ▸ hc.fits .balancer
  have hi : onMailbox i = true := by
    have := hsuff.subset List.mem_cons_self
    revert this
    cases i <;> simp [sendCode, onMailbox]
  rw [nextCode_of_onMailbox hi]
  have hinv : s.manageVmMutex = some .balancer → ∀ u, u ≠ .balancer →
      (some .balancer = some u ↔
        owesManageVm (Function.update s.code .balancer c u) = true) := by
    intro hlock u hu
    rw [Function.update_of_ne hu, ← hm u hu, hlock]
  cases hp with
  | idle _ _ hbal => simp [hcode] at hbal
  | posting _ _ _ _ hbal => simp [hcode] at hbal
  | raised hlock hflag hbal hposts hraised =>
      rw [hcode] at hbal
      obtain ⟨hmem, hfinish⟩ := hbal.resolve_left (by simp)
      rcases sendCode_cases hsuff with ⟨hmem', hstep⟩ | ⟨rfl, rfl⟩ | ⟨rfl, rfl⟩ | ⟨rfl, rfl⟩
      · obtain ⟨out', hout, heffect⟩ := hstep s.virtMachine s.out
        rw [heffect s .balancer env rfl rfl] at heff
        obtain rfl := Option.some.inj heff
        refine ⟨by simpa only [ManageVmInv, hlock] using hinv hlock,
          .raised hlock hflag (.inr ?_) hposts hraised⟩
        simp only [Function.update_self]
        exact ⟨hmem', hout ▸ hfinish⟩
      · obtain rfl := Option.some.inj heff
        have hout : s.out = s.virtMachine := hfinish
        refine ⟨by simpa only [ManageVmInv, hlock] using hinv hlock,
          .delivered hlock (.inl ⟨by simp, hflag⟩) ?_ hraised⟩
        show s.posts = s.sent ++ [s.out]
        rw [hposts, hout]
      · simp at hmem
      · simp at hmem
  | delivered hlock hbal hposts hraised =>
      rw [hcode] at hbal
      simp only [List.cons.injEq] at hbal
      rcases hbal with ⟨⟨rfl, rfl⟩, hflag⟩ | ⟨⟨rfl, rfl⟩, hflag⟩
      · obtain rfl := Option.some.inj heff
        exact ⟨by simpa only [ManageVmInv, hlock] using hinv hlock,
          .delivered hlock (.inr ⟨by simp, rfl⟩) hposts hraised⟩
      · obtain rfl := Option.some.inj heff
        refine ⟨fun u hu => ?_, .idle rfl hflag (by simp) hposts (hraised.trans hposts)⟩
        dsimp only
        rw [← hinv hlock u hu]
        simp [hu.symm]

theorem ManageVmInv.goto {s : Server} (h : s.ManageVmInv) {t : Tid} {c : List Instr}
    (ht : s.code t = []) (hc : owesManageVm c = false) : (s.goto t c).ManageVmInv := by
  intro u hu
  show s.manageVmMutex = some u ↔ owesManageVm (Function.update s.code t c u) = true
  rcases eq_or_ne u t with rfl | hut
  · rw [h u hu, Function.update_self, ht, hc]
    rfl
  · rw [Function.update_of_ne hut]
    exact h u hu

/-- A thread at the head of its loop is not posting. -/
theorem Phase.goto {s : Server} (h : s.Phase) (hm : s.ManageVmInv) {t : Tid} {c : List Instr}
    (ht : s.code t = []) (htb : t ≠ .balancer) : (s.goto t c).Phase := by
  refine h.of_mailbox_eq rfl (Function.update_of_ne htb.symm _ _) fun u hu hheld => ⟨?_, rfl⟩
  refine Function.update_of_ne ?_ _ _
  rintro rfl
  have := (hm u hu).mp hheld
  rw [ht] at this
  cases this

/-- Everything known about who holds what. -/
structure ThreadInv (s : Server) : Prop where
  code : s.CodeInv
  mutex : s.MutexInv
  manageVm : s.ManageVmInv
  phase : s.Phase

theorem manageVm_effect {s s₁ : Server} {t : Tid} {env : Env} {i : Instr} {c : List Instr}
    (h : s.ThreadInv) (hcode : s.code t = i :: c) (heff : s.effect t env i = some s₁) :
    ManageVmInv { s₁ with code := s.nextCode t env i c } ∧
    Phase { s₁ with code := s.nextCode t env i c } := by
  have hfits : Fits s.acceptState t (i :: c) := hcode ▸ h.code.fits t
  have hs : t ≠ .balancer → Controller.shaped (i :: c) = true :=
    fun ht => hcode ▸ h.code.shaped ht
  by_cases hi : onMailbox i = true
  · by_cases ht : t = .balancer
    · subst ht
      exact manageVm_effect_balancer h.code h.manageVm h.phase hcode heff
    · have hb : ofBalancer i = false := by
        rw [← Bool.not_eq_true, ← eq_balancer_iff hfits hs]
        exact ht
      exact manageVm_effect_post h.manageVm h.phase hcode heff hi ht (hs ht) hb
  · exact manageVm_effect_off h.code h.manageVm h.phase hcode heff (by simpa using hi)

/-- A thread at the head of its loop (not `balancer_thread`) starts over. -/
theorem ThreadInv.goto {s : Server} (h : s.ThreadInv) {t : Tid} {c : List Instr}
    (ht : s.code t = []) (htb : t ≠ .balancer) (hfits : Fits s.acceptState t c)
    (hmutex : owesMutex c = false) (hmanage : owesManageVm c = false) :
    (s.goto t c).ThreadInv :=
  ⟨h.code.goto ht hfits, h.mutex.goto ht hmutex, h.manageVm.goto ht hmanage,
    h.phase.goto h.manageVm ht htb⟩

theorem threadInv_step {s s' : Server} {l : Label} (h : s.ThreadInv)
    (hstep : s.step l = some s') : s'.ThreadInv := by
  suffices hpost : s'.ManageVmInv ∧ s'.Phase from
    ⟨codeInv_step h.code hstep, mutexInv_step h.code h.mutex hstep, hpost.1, hpost.2⟩
  cases l with
  | run t env =>
      rcases step_run hstep with ⟨i, c, s₁, hcode, heff, rfl⟩ | ⟨rfl, hcode, rfl⟩
      · exact manageVm_effect h hcode heff
      · split
        · rename_i hflag
          refine ⟨h.manageVm.goto hcode rfl, ?_⟩
          cases h.phase with
          | idle _ hflag' => simp [hflag] at hflag'
          | posting _ _ _ hflag' => simp [hflag] at hflag'
          | raised hlock _ _ hposts hraised =>
              refine .raised hlock hflag (.inr ?_) hposts hraised
              simp [Server.goto, sendCode, finishSend]
          | delivered _ hbal => simp [hcode] at hbal
        · exact ⟨h.manageVm, h.phase⟩
  | newClient info ip socket port answered =>
      simp only [step, Option.ite_none_right_eq_some, Option.some.injEq] at hstep
      obtain ⟨⟨hcode, -⟩, rfl⟩ := hstep
      refine ⟨h.manageVm.goto hcode rfl, h.phase.of_mailbox_eq rfl (by simp [Server.goto]) ?_⟩
      intro u hu hheld
      have hne : u ≠ .accept := by
        rintro rfl
        have := (h.manageVm _ hu).mp hheld
        rw [hcode] at this
        cases this
      simp [Server.goto, hne]
  | recvFail n =>
      simp only [step, Option.ite_none_right_eq_some, Option.some.injEq] at hstep
      obtain ⟨⟨hcode, -⟩, rfl⟩ := hstep
      exact ⟨h.manageVm.goto hcode rfl, h.phase.goto h.manageVm hcode (by simp)⟩
  | recvFeatures n rejuvenate =>
      simp only [step, Option.ite_none_right_eq_some, Option.some.injEq] at hstep
      obtain ⟨⟨hcode, -⟩, rfl⟩ := hstep
      refine ⟨h.manageVm.goto hcode ?_, h.phase.goto h.manageVm hcode (by simp)⟩
      cases rejuvenate <;> rfl

theorem initial_threadInv (mem : Service → ℕ → VmData) (stack : Tid → VmData)
    (features : ℕ → SystemFeatures) : (initial mem stack features).ThreadInv where
  code := initial_codeInv mem stack features
  mutex t := by cases t <;> simp [initial, owesMutex]
  manageVm t _ := by cases t <;> simp [initial, owesManageVm]
  phase := .idle rfl rfl rfl rfl rfl

/-- The invariant of every reachable state. -/
theorem threadInv_of_reachable {mem : Service → ℕ → VmData} {stack : Tid → VmData}
    {features : ℕ → SystemFeatures} {s : Server}
    (h : Reachable step (initial mem stack features) s) : s.ThreadInv :=
  invariant_of_step (initial_threadInv mem stack features)
    (fun _ _ _ hs hstep => threadInv_step hs hstep) h

end Server

end A2PM.Controller
