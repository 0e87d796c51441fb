/-
A2PM/ControllerPosts.lean

What reaches the balancer: every record posted in `virt_machine`, once, in
the order in which `manage_vm_mutex` was acquired.

The stages of a post (`Phase`) say how the records sent, the records
completed (`raised`) and the posts begun stand to each other; the history
of a connection (`HistoryInv`) says which posts are about it.  A completed
record is sent after at most six steps of `balancer_thread`: one poll, four
fields, and the `send`.
-/
import A2PM.ControllerHistory

namespace A2PM.Controller

open Instr Transition

/-- Steps of `balancer_thread`. -/
def Label.ofBalancerThread : Label → Bool
  | .run .balancer _ => true
  | _ => false

namespace Server

/-- The records sent about connection `n`: the `k`-th record sent goes with
the `k`-th post. -/
def sentAbout (s : Server) (n : ℕ) : List VirtualMachine :=
  ((s.acquired.zip s.sent).filter fun p => p.1.1 == n).map Prod.snd

/-- What the mailbox promises. -/
structure MailboxOk (s : Server) : Prop where
  /-- Only complete records are sent, once each and in order. -/
  sent : s.sent <+: s.raised
  /-- A complete record is the one its thread meant to post, and the records
  are in the order of the acquisitions. -/
  complete : s.raised <+: s.posts
  /-- At most one post is under way. -/
  pending : s.posts.length ≤ s.sent.length + 1
  /-- When a thread is about to write `virt_machine`, no complete record is
  waiting to be sent. -/
  noOverwrite : ∀ t i c, s.code t = i :: c → writesRecord i = true → s.raised = s.sent
  /-- A complete record is sent, whatever the other threads do meanwhile. -/
  eventually : ∀ ls s', run step s ls = some s' →
    6 ≤ ls.countP Label.ofBalancerThread → s.raised <+: s'.sent
  /-- The records about a connection registered `ACTIVE`. -/
  active : ∀ n, s.registeredState n = .active →
    ∃ k, (s.sentAbout n).map (·.op) <+: .add :: List.replicate k .rej ++ [.delete]
  /-- They name the VM that was registered. -/
  about : ∀ n, ∀ r ∈ s.sentAbout n, r = notification (s.registered n) r.op
  /-- There are none about any other connection. -/
  passive : ∀ n, s.registeredState n ≠ .active → s.sentAbout n = []

/-! ### Sent, complete, begun -/

theorem sent_prefix {s : Server} (h : s.Phase) :
    s.sent <+: s.raised ∧ s.raised <+: s.posts ∧ s.posts.length ≤ s.sent.length + 1 := by
  cases h with
  | idle _ _ _ hposts hraised =>
      rw [hraised, hposts]
      exact ⟨List.prefix_refl _, List.prefix_refl _, Nat.le_succ _⟩
  | posting _ _ _ _ _ hposts hraised =>
      rw [hraised, hposts]
      exact ⟨List.prefix_refl _, List.prefix_append _ _, by simp⟩
  | raised _ _ _ hposts hraised =>
      rw [hraised, hposts]
      exact ⟨List.prefix_append _ _, List.prefix_refl _, by simp⟩
  | delivered _ _ hposts hraised =>
      rw [hraised, hposts]
      exact ⟨List.prefix_refl _, List.prefix_refl _, Nat.le_succ _⟩

/-- A thread that writes `virt_machine` holds `manage_vm_mutex`. -/
theorem raised_eq_sent_of_writes {s : Server} (h : s.ThreadInv) {t : Tid} {i : Instr}
    {c : List Instr} (hcode : s.code t = i :: c) (hi : writesRecord i = true) :
    s.raised = s.sent := by
  have hfits : Fits s.acceptState t (i :: c) := hcode ▸ h.code.fits t
  have hs : t ≠ .balancer → shaped (i :: c) = true := fun ht => hcode ▸ h.code.shaped ht
  have ht : t ≠ .balancer := by
    rw [ne_eq, eq_balancer_iff hfits hs]
    revert hi
    cases i <;> simp [writesRecord, ofBalancer]
  have howes : owesManageVm (s.code t) = true := by
    have hs' := hs ht
    rw [hcode]
    simp only [shaped, Bool.and_eq_true] at hs'
    revert hi hs'
    cases i <;> simp_all [writesRecord, follows, owesManageVm]
  have hheld : s.manageVmMutex = some t := (h.manageVm t ht).mpr howes
  exact (h.phase.of_holder ht hheld).2.2.2

/-! ### A complete record is sent -/

theorem effect_sent_raised {s s₁ : Server} {t : Tid} {env : Env} {i : Instr}
    (h : s.effect t env i = some s₁) : s.sent <+: s₁.sent ∧ s.raised <+: s₁.raised := by
  cases i with
  | lockManageVm =>
      simp only [effect, Option.ite_none_right_eq_some, Option.some.injEq] at h
      exact h.2 ▸ ⟨List.prefix_refl _, List.prefix_refl _⟩
  | setStateManVm =>
      obtain rfl := Option.some.inj h
      exact ⟨List.prefix_refl _, List.prefix_append _ _⟩
  | sendRecord =>
      obtain rfl := Option.some.inj h
      exact ⟨List.prefix_append _ _, List.prefix_refl _⟩
  | setIp | setPort | setService | setOp | copyIp | copyPort | copyService | copyOp
  | clearStateManVm | unlockManageVm =>
      exact Option.some.inj h ▸ ⟨List.prefix_refl _, List.prefix_refl _⟩
  | _ =>
      have hmail := (effect_frame h).mailbox rfl
      simp only [mailbox, Prod.mk.injEq] at hmail
      rw [hmail.2.2.2.2.1, hmail.2.2.2.2.2.2]
      exact ⟨List.prefix_refl _, List.prefix_refl _⟩

theorem step_sent_raised {s s' : Server} {l : Label} (h : s.step l = some s') :
    s.sent <+: s'.sent ∧ s.raised <+: s'.raised := by
  cases l with
  | run t env =>
      rcases step_run h with ⟨i, c, s₁, -, heff, rfl⟩ | ⟨rfl, -, rfl⟩
      · have hprefix := effect_sent_raised heff
        exact hprefix
      · split <;> exact ⟨List.prefix_refl _, List.prefix_refl _⟩
  | _ =>
      simp only [step, Option.ite_none_right_eq_some, Option.some.injEq] at h
      obtain ⟨-, rfl⟩ := h
      exact ⟨List.prefix_refl _, List.prefix_refl _⟩

/-- The number of steps `balancer_thread` takes before its `send`. -/
def sendWork (s : Server) : ℕ :=
  if s.code .balancer = [] then 5 else (s.code .balancer).length - 3

theorem three_le_of_sendRecord {c : List Instr} (h : c <:+ sendCode) (hmem : sendRecord ∈ c) :
    3 ≤ c.length := by
  have htails := (List.mem_tails _ _).mpr h
  simp only [sendCode, List.tails, List.mem_cons, List.not_mem_nil, or_false] at htails
  rcases htails with rfl | rfl | rfl | rfl | rfl | rfl | rfl | rfl <;> simp at hmem ⊢

/-- While a record waits, each step of `balancer_thread` brings its `send`
closer. -/
theorem sendWork_run {s s' : Server} (h : s.ThreadInv) (hwait : s.raised ≠ s.sent) {env : Env}
    (hstep : s.step (.run .balancer env) = some s') :
    s'.sent = s.raised ∨ s'.sendWork + 1 ≤ s.sendWork := by
  cases h.phase with
  | idle _ _ _ _ hraised => exact absurd hraised hwait
  | posting _ _ _ _ _ _ hraised => exact absurd hraised hwait
  | delivered _ _ hposts hraised => exact absurd (hraised.trans hposts) hwait
  | raised _ hflag hbal hposts hraised =>
      rcases step_run hstep with ⟨i, c, s₁, hcode, heff, rfl⟩ | ⟨-, hcode, rfl⟩
      · have hsuff : i :: c <:+ sendCode := hcode ▸ h.code.fits .balancer
        rw [hcode] at hbal
        obtain ⟨hmem, hfinish⟩ := hbal.resolve_left (by simp)
        rcases sendCode_cases hsuff with ⟨hmem', -⟩ | ⟨rfl, rfl⟩ | ⟨rfl, rfl⟩ | ⟨rfl, rfl⟩
        · refine .inr ?_
          have hi : onMailbox i = true := by
            have hfirst := hsuff.subset List.mem_cons_self
            revert hfirst
            cases i <;> simp [sendCode, onMailbox]
          have hc : 3 ≤ c.length := three_le_of_sendRecord ((List.suffix_cons i c).trans hsuff) hmem'
          have hne : c ≠ [] := List.ne_nil_of_mem hmem'
          have hnext : s.nextCode .balancer env i c .balancer = c := by
            rw [nextCode_of_onMailbox hi, Function.update_self]
          show (if s.nextCode .balancer env i c .balancer = [] then 5 else
            (s.nextCode .balancer env i c .balancer).length - 3) + 1 ≤ s.sendWork
          rw [hnext, if_neg hne, sendWork, hcode, if_neg (List.cons_ne_nil i c), List.length_cons]
          omega
        · obtain rfl := Option.some.inj heff
          refine .inl ?_
          have hout : s.out = s.virtMachine := hfinish
          show s.sent ++ [s.out] = s.raised
          rw [hraised, hposts, hout]
        · simp at hmem
        · simp at hmem
      · refine .inr ?_
        simp [hflag, sendWork, hcode, Server.goto, sendCode]

/-- Steps of the other threads, and messages, are nothing to it. -/
theorem sendWork_other {s s' : Server} (h : s.CodeInv) {l : Label}
    (hl : l.ofBalancerThread = false) (hstep : s.step l = some s') :
    s'.sendWork = s.sendWork := by
  suffices hsame : s'.code .balancer = s.code .balancer by rw [sendWork, hsame, sendWork]
  cases l with
  | run t env =>
      have ht : t ≠ .balancer := by
        rintro rfl
        cases hl
      rcases step_run hstep with ⟨i, c, s₁, hcode, heff, rfl⟩ | ⟨rfl, -⟩
      · rcases h.nextCode_cases hcode heff .balancer with ⟨hb, -⟩ | ⟨hb, -⟩ | ⟨-, -, hb⟩
        · exact absurd hb.symm ht
        · cases hb
        · exact hb
      · exact absurd rfl ht
  | newClient info =>
      simp only [step, Option.ite_none_right_eq_some, Option.some.injEq] at hstep
      obtain ⟨-, rfl⟩ := hstep
      exact s.goto_other (acceptCode info.state) (show Tid.balancer ≠ .accept by simp)
  | recvFail n | recvFeatures n =>
      simp only [step, Option.ite_none_right_eq_some, Option.some.injEq] at hstep
      obtain ⟨-, rfl⟩ := hstep
      exact s.goto_other _ (show Tid.balancer ≠ .comm n by simp)

theorem sendWork_le {s : Server} (h : s.CodeInv) : s.sendWork ≤ 5 := by
  have hlen : (s.code .balancer).length ≤ 7 := (h.fits .balancer).length_le
  rw [sendWork]
  split <;> omega

/-- **Every complete record is sent** within six steps of `balancer_thread`. -/
theorem raised_sent {s s' : Server} (h : s.ThreadInv) {ls : List Label}
    (hr : run step s ls = some s') (hcount : 6 ≤ ls.countP Label.ofBalancerThread) :
    s.raised <+: s'.sent := by
  refine goal_of_countP (I := fun a => a.ThreadInv ∧ s.raised <+: a.raised)
    (G := fun a => s.raised <+: a.sent) sendWork Label.ofBalancerThread
    ?_ ?_ ?_ ⟨h, List.prefix_refl _⟩ hr ((Nat.lt_succ_of_le (sendWork_le h.code)).trans_le hcount)
  · rintro a l b ⟨ha, hra⟩ hab
    exact ⟨threadInv_step ha hab, hra.trans (step_sent_raised hab).2⟩
  · rintro a l b - hga hab
    exact hga.trans (step_sent_raised hab).1
  · rintro a l b ⟨ha, hra⟩ hga hab
    have hwait : a.raised ≠ a.sent := fun heq => hga (heq ▸ hra)
    cases hl : l.ofBalancerThread with
    | true =>
        obtain ⟨env, rfl⟩ : ∃ env, l = .run .balancer env := by
          cases l with
          | run t env =>
              cases t with
              | balancer => exact ⟨env, rfl⟩
              | _ => cases hl
          | _ => cases hl
        rcases sendWork_run ha hwait hab with hsent | hle
        · exact .inl (hsent ▸ hra)
        · exact .inr hle
    | false => exact .inr (sendWork_other ha.code hl hab).le

/-! ### The records about one connection -/

theorem zip_of_prefix {α β : Type*} (f : α → β) {l : List α} {m : List β}
    (h : m <+: l.map f) : l.zip m = (l.take m.length).map fun a => (a, f a) := by
  induction l generalizing m with
  | nil => simp
  | cons a l ih =>
      cases m with
      | nil => rfl
      | cons b m =>
          rw [List.map_cons, List.cons_prefix_cons] at h
          obtain ⟨rfl, h⟩ := h
          rw [List.zip_cons_cons, ih h]
          rfl

/-- The records sent about a connection are those of its first posts. -/
theorem sentAbout_eq {s : Server} (h : s.Phase) (n : ℕ) :
    s.sentAbout n = ((s.acquired.take s.sent.length).filter fun p => p.1 == n).map Prod.snd := by
  obtain ⟨hsent, hraised, -⟩ := sent_prefix h
  have hzip := zip_of_prefix Prod.snd (hsent.trans hraised)
  rw [sentAbout, hzip, List.filter_map, List.map_map]
  rfl

theorem sentAbout_prefix {s : Server} (h : s.Phase) (n : ℕ) :
    (s.sentAbout n).map (·.op) <+: s.opsAbout n := by
  rw [sentAbout_eq h, List.map_map, opsAbout]
  exact ((List.take_prefix _ _).filter _).map _

theorem mem_sentAbout {s : Server} (h : s.Phase) {n : ℕ} {r : VirtualMachine}
    (hr : r ∈ s.sentAbout n) : ∃ p, (p ∈ s.acquired ∧ p.1 = n) ∧ p.2 = r := by
  rw [sentAbout_eq h] at hr
  obtain ⟨p, hp, rfl⟩ := List.mem_map.mp hr
  obtain ⟨hmem, hn⟩ := List.mem_filter.mp hp
  exact ⟨p, ⟨List.mem_of_mem_take hmem, by simpa using hn⟩, rfl⟩

/-- What has been posted about a connection, whether or not its thread has
been created. -/
theorem opsAbout_cases {s : Server} (h : s.Inv) (n : ℕ) :
    (s.registeredState n = .active ∧
      ∃ k, s.opsAbout n <+: .add :: List.replicate k .rej ++ [.delete]) ∨
    s.opsAbout n = [] := by
  rcases lt_trichotomy n s.created with hlt | rfl | hgt
  · by_cases hact : s.registeredState n = .active
    · obtain ⟨k, hk⟩ := h.history.active n hlt hact
      refine .inl ⟨hact, k, (List.prefix_append _ (postOps (s.code (.comm n)))).trans ?_⟩
      rw [hk]
      split
      · exact List.prefix_refl _
      · rw [List.append_nil]
        exact List.prefix_append _ _
    · exact .inr (h.history.passive n hlt hact)
  · have hreg := h.history.registering
    by_cases hne : s.code .accept = []
    · rw [if_pos hne] at hreg
      exact .inr (List.append_eq_nil_iff.mp hreg).1
    · rw [if_neg hne] at hreg
      by_cases hassign : assign ∈ s.code .accept
      · rw [postOps_of_assign (h.thread.code.fits .accept) hassign] at hreg
        exact .inr (List.append_left_eq_self.mp hreg)
      · have hstate : s.registeredState s.created = s.acceptState := by
          rw [registeredState, (h.history.assigned hne hassign).1, acceptState]
        by_cases hact : s.acceptState = .active
        · rw [registrationOps, if_pos hact] at hreg
          have hadd : s.opsAbout s.created <+: [.add] := hreg ▸ List.prefix_append _ _
          exact .inl ⟨hstate.trans hact, 0, hadd.trans (List.prefix_append _ _)⟩
        · rw [registrationOps, if_neg hact] at hreg
          exact .inr (List.append_eq_nil_iff.mp hreg).1
  · exact .inr (h.history.later n hgt)

/-- **The mailbox.**  Every record posted is sent exactly once, complete and
in the order of the acquisitions; the records about one connection form a
prefix of `ADD`, `REJ`*, `DELETE` if it was registered `ACTIVE`, and there
are none otherwise. -/
theorem mailboxOk_of_reachable (mem : Service → ℕ → VmData) (stack : Tid → VmData)
    (features : ℕ → SystemFeatures) {s : Server}
    (h : Reachable step (initial mem stack features) s) : s.MailboxOk := by
  have hinv : s.Inv := inv_of_reachable h
  obtain ⟨hsent, hraised, hpending⟩ := sent_prefix hinv.thread.phase
  refine ⟨hsent, hraised, hpending, fun t i c => raised_eq_sent_of_writes hinv.thread,
    fun ls s' hr => raised_sent hinv.thread hr, fun n _ => ?_, fun n r hr => ?_,
    fun n hpas => ?_⟩
  · have hprefix := sentAbout_prefix hinv.thread.phase n
    rcases opsAbout_cases hinv n with ⟨-, k, hk⟩ | hnil
    · exact ⟨k, hprefix.trans hk⟩
    · exact ⟨0, (hnil ▸ hprefix).trans List.nil_prefix⟩
  · obtain ⟨p, hp, rfl⟩ := mem_sentAbout hinv.thread.phase hr
    exact hp.2 ▸ hinv.history.about p hp.1
  · have hprefix := sentAbout_prefix hinv.thread.phase n
    rcases opsAbout_cases hinv n with ⟨hact, -⟩ | hnil
    · exact absurd hact hpas
    · rw [hnil, List.prefix_nil] at hprefix
      exact List.map_eq_nil_iff.mp hprefix

/-- A run in which the controller registers one `ACTIVE` VM and tells the
balancer. -/
def registerOne : List Label :=
  .newClient ⟨service1, .active, 8080⟩ "10.0.0.1" 4 40000 true ::
    (List.replicate 9 (.run .accept ⟨true, fun _ => default⟩) ++
      List.replicate 6 (.run .balancer ⟨true, fun _ => default⟩))

theorem mailboxOk_registerOne :
    ∃ s, run step (initial (fun _ _ => default) (fun _ => default) fun _ => default) registerOne =
        some s ∧
      s.sentAbout 0 = [⟨"10.0.0.1", htons 8080, 0, .add⟩] ∧ s.MailboxOk := by
  have hsome : (run step (initial (fun _ _ => default) (fun _ => default) fun _ => default)
      registerOne).isSome = true := by decide
  obtain ⟨s, hs⟩ := Option.isSome_iff_exists.mp hsome
  refine ⟨s, hs, ?_, mailboxOk_of_reachable _ _ _ ⟨registerOne, hs⟩⟩
  obtain rfl := Option.some.inj (hs.symm.trans rfl)
  decide

end Server

end A2PM.Controller
