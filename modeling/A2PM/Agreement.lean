/-
A2PM/Agreement.lean

Controller and balancer: do their two registries agree?

The system is the controller's threads, the records that `balancer_thread`
has sent, and `controller_thread` of the balancer, which applies them one
by one.  When nothing is under way, the balancer should list the `ACTIVE`
VMs of the controller's registry.

It does, as long as no rejuvenation is decided.  `switch_active_machine`
gets its VM by value and marks that copy `REJUVENATING`: the VM stays
`ACTIVE` in the registry although `REJ` removes it from the balancer, and
the stand-by VM that is made `ACTIVE` in its place is never announced.
-/
import A2PM.ControllerEntries
import A2PM.ControllerPosts

namespace A2PM.Controller

open Instr Transition Balancer

namespace Server

/-! ### The posts, replayed -/

/-- Replaying the posts lists the connections about which the last post is
`ADD`. -/
structure PostsInv (s : Server) : Prop where
  noRej : ∀ p ∈ s.acquired, p.2.op ≠ .rej
  nodup : ∀ g, (replay s.posts g).Nodup
  listed : ∀ g x, x ∈ replay s.posts g ↔
    ∃ n, s.opsAbout n = [.add] ∧ (s.registered n).serviceInfo.service = g ∧
      x = ((s.registered n).ipAddress, htons 8080)

theorem rej_notMem_postOps {c : List Instr} (h : Clean c) : .rej ∉ postOps c := by
  have hsub : ∀ {d : List Instr}, c <:+ d → .rej ∉ postOps d → .rej ∉ postOps c := by
    rintro _ ⟨b, rfl⟩ hd hmem
    rw [postOps_append] at hd
    exact hd (List.mem_append_right _ hmem)
  rcases h with h | h | ⟨g, i, h⟩
  · exact hsub h (by decide)
  · exact hsub h (by decide)
  · exact hsub h (by simp [communicationStart, postOps])

/-- Without a rejuvenation, a connection registered `ACTIVE` is added once,
and deleted by its thread on its way out. -/
theorem opsAbout_active {s : Server} (h : s.Inv) (he : s.EntriesInv) (hp : s.PostsInv) {n : ℕ}
    (hn : n < s.created) (hact : s.registeredState n = .active) :
    s.opsAbout n ++ postOps (s.code (.comm n)) =
      .add :: if halt ∈ s.code (.comm n) then [.delete] else [] := by
  obtain ⟨k, hk⟩ := h.history.active n hn hact
  cases k with
  | zero => exact hk
  | succ k =>
      have hmem : Operations.rej ∈ s.opsAbout n ++ postOps (s.code (.comm n)) := by
        rw [hk]
        simp
      rcases List.mem_append.mp hmem with hops | hpost
      · obtain ⟨p, hpmem, hop⟩ := List.mem_map.mp hops
        exact absurd hop (hp.noRej p (List.mem_filter.mp hpmem).1)
      · exact absurd hpost (rej_notMem_postOps (he.clean n hn))

/-- A connection that is added and not deleted is live. -/
theorem alive_of_added {s : Server} (h : s.Inv) (he : s.EntriesInv) (hp : s.PostsInv) {n : ℕ}
    (hn : n < s.created) (hadd : s.opsAbout n = [.add]) : s.Alive n := by
  refine ⟨hn, fun hhalt => ?_⟩
  have hact : s.registeredState n = .active := by
    by_contra hpas
    rw [h.history.passive n hn hpas] at hadd
    cases hadd
  have hstory := opsAbout_active h he hp hn hact
  rw [hadd, hhalt] at hstory
  simp [postOps] at hstory

/-- What has been posted about the connection that is being registered is
about the accept thread's VM. -/
theorem registered_of_posted {s : Server} (h : s.Inv) {m : ℕ} (hm : m = s.created)
    (hne : s.opsAbout m ≠ []) : s.code .accept ≠ [] ∧ s.registered m = s.vm .accept := by
  subst hm
  have hreg := h.history.registering
  have hcode : s.code .accept ≠ [] := by
    intro hnil
    rw [hnil, if_pos rfl] at hreg
    exact hne (List.append_eq_nil_iff.mp hreg).1
  refine ⟨hcode, (h.history.assigned hcode fun hassign => hne ?_).1⟩
  rw [if_neg hcode, postOps_of_assign (h.thread.code.fits .accept) hassign] at hreg
  exact List.append_left_eq_self.mp hreg

/-- Steps other than the beginning of a post. -/
theorem PostsInv.frame {s s' : Server} (hp : s.PostsInv) (hacq : s'.acquired = s.acquired)
    (hreg : ∀ n, s.opsAbout n ≠ [] → s'.registered n = s.registered n) : s'.PostsInv := by
  have hposts : s'.posts = s.posts := by rw [posts, hacq, posts]
  have hops : ∀ n, s'.opsAbout n = s.opsAbout n := fun n => by rw [opsAbout, hacq, opsAbout]
  refine ⟨hacq ▸ hp.noRej, hposts ▸ hp.nodup, fun g x => ?_⟩
  rw [hposts, hp.listed]
  refine exists_congr fun n => ?_
  rw [hops]
  refine and_congr_right fun hadd => ?_
  rw [hreg n (by simp [hadd])]

/-- The post that a thread begins goes to the end. -/
theorem posts_begin {s s' : Server} {n : ℕ} {r : VirtualMachine}
    (hacq : s'.acquired = s.acquired ++ [(n, r)]) :
    s'.posts = s.posts ++ [r] ∧
      ∀ m, s'.opsAbout m = s.opsAbout m ++ if m = n then [r.op] else [] := by
  refine ⟨by rw [posts, hacq, List.map_append, posts, List.map_singleton], fun m => ?_⟩
  rw [opsAbout, hacq, List.filter_append, List.map_append, opsAbout]
  rcases eq_or_ne m n with rfl | hm
  · simp
  · simp [hm, hm.symm]

theorem PostsInv.noRej_begin {s s' : Server} (hp : s.PostsInv) {n : ℕ} {r : VirtualMachine}
    (hacq : s'.acquired = s.acquired ++ [(n, r)]) (hr : r.op ≠ .rej) :
    ∀ p ∈ s'.acquired, p.2.op ≠ .rej := by
  rw [hacq]
  intro p hmem
  rcases List.mem_append.mp hmem with hold | hnew
  · exact hp.noRej p hold
  · rw [List.mem_singleton.mp hnew]
    exact hr

/-- The accept thread posts `ADD`. -/
theorem postsInv_add {s s' : Server} (h : s.Inv) (he : s.EntriesInv) (hp : s.PostsInv)
    {c : List Instr} {op : Operations} (hcode : s.code .accept = lockManageVm op :: c)
    (hacq : s'.acquired = s.acquired ++ [(s.created, notification (s.vm .accept) op)])
    (hregistered : s'.registered = s.registered) : s'.PostsInv := by
  have hfits : lockManageVm op :: c <:+ acceptCode s.acceptState := hcode ▸ h.thread.code.fits .accept
  have hself : s.registered s.created = s.vm .accept :=
    (h.history.assigned (by simp [hcode]) (hcode ▸ assign_notMem_of_lock hfits)).1
  have hreg := h.history.registering
  rw [hcode, if_neg (List.cons_ne_nil _ _), postOps, registrationOps] at hreg
  obtain ⟨hnil, rfl, -⟩ : s.opsAbout s.created = [] ∧ op = .add ∧ postOps c = [] := by
    split at hreg
    · rw [List.append_eq_singleton_iff] at hreg
      simpa using hreg
    · simp at hreg
  obtain ⟨hposts, hops⟩ := posts_begin hacq
  have hfresh : ∀ n, s.opsAbout n = [.add] → n ≠ s.created ∧
      ¬ Clash (s.registered n) (s.vm .accept) := by
    intro n hadd
    rcases lt_trichotomy n s.created with hlt | rfl | hgt
    · exact ⟨hlt.ne, he.newcomer (by simp [hcode]) n (alive_of_added h he hp hlt hadd)⟩
    · simp [hnil] at hadd
    · simp [h.history.later n hgt] at hadd
  have hop : (notification (s.vm .accept) .add).op = .add := rfl
  have hlist := request_add hop (replay s.posts)
  refine ⟨hp.noRej_begin hacq (by simp [notification]), fun g => ?_, fun g x => ?_⟩
  · rw [hposts, replay_append, hlist]
    refine List.Nodup.append (hp.nodup g) (by split <;> simp) ?_
    split
    · rename_i hg
      intro x hx hx'
      obtain ⟨n, hadd, hgn, rfl⟩ := (hp.listed g x).mp hx
      have hip := congrArg Prod.fst (List.mem_singleton.mp hx')
      exact (hfresh n hadd).2 ⟨hgn.trans hg, hip⟩
    · simp
  · rw [hposts, replay_append, hlist, List.mem_append, hp.listed, hregistered]
    constructor
    · rintro (⟨n, hadd, his⟩ | hx)
      · refine ⟨n, ?_, his⟩
        rw [hops, if_neg (hfresh n hadd).1, hadd]
        rfl
      · split at hx
        · rename_i hg
          refine ⟨s.created, ?_, ?_, ?_⟩
          · rw [hops, hnil, if_pos rfl]
            rfl
          · rw [hself, hg]
            rfl
          · rw [hself, List.mem_singleton.mp hx]
            rfl
        · simp at hx
    · rintro ⟨n, hadd, hg, hx⟩
      rcases eq_or_ne n s.created with rfl | hn
      · rw [hself] at hg hx
        have hgroup : g = (notification (s.vm .accept) .add).service := hg.symm
        right
        rw [if_pos hgroup]
        exact List.mem_singleton.mpr hx
      · rw [hops, if_neg hn, List.append_nil] at hadd
        exact .inl ⟨n, hadd, hg, hx⟩

/-- A thread on its way out posts `DELETE`. -/
theorem postsInv_delete {s s' : Server} (h : s.Inv) (he : s.EntriesInv) (hp : s.PostsInv)
    {n : ℕ} {c : List Instr} {op : Operations} (hn : n < s.created)
    (hcode : s.code (.comm n) = lockManageVm op :: c)
    (hacq : s'.acquired = s.acquired ++ [(n, notification (s.vm (.comm n)) op)])
    (hregistered : s'.registered = s.registered) : s'.PostsInv := by
  have hsame : (s.vm (.comm n)).SameVm (s.registered n) :=
    h.history.sameVm_of_lock h.thread.code hcode fun m hm => by
      obtain rfl := Tid.comm.inj hm
      exact hn
  obtain rfl : op = .delete := by
    rcases (hcode ▸ he.clean n hn : Clean (lockManageVm op :: c)).cases with ⟨hi, -⟩ | ⟨hi, -⟩ |
      ⟨hi, -⟩
    · exact lockManageVm.inj hi
    · cases hi
    · exact absurd rfl (hi op)
  have hact : s.registeredState n = .active := by
    cases h.history.place n hn with
    | starting g i hk => simp [hcode, communicationStart] at hk
    | active hact => exact hact
    | passive _ hk => simp [hcode] at hk
  have hadd : s.opsAbout n = [.add] := by
    have hstory := opsAbout_active h he hp hn hact
    rw [hcode, postOps] at hstory
    rcases hops : s.opsAbout n with - | ⟨a, - | ⟨b, l⟩⟩ <;> rw [hops] at hstory
    · simp at hstory
    · rw [List.singleton_append, List.cons.injEq] at hstory
      rw [hstory.1]
    · split at hstory <;> simp at hstory
  have hclash : ∀ m, s.opsAbout m = [.add] → Clash (s.registered m) (s.registered n) → m = n := by
    intro m hm hclash
    have halive := alive_of_added h he hp hn hadd
    rcases lt_trichotomy m s.created with hlt | rfl | hgt
    · exact he.distinct m n (alive_of_added h he hp hlt hm) halive hclash
    · obtain ⟨hne, hself⟩ := registered_of_posted h (m := s.created) rfl (by simp [hm])
      rw [hself] at hclash
      exact absurd ⟨hclash.1.symm, hclash.2.symm⟩ (he.newcomer hne n halive)
    · simp [h.history.later m hgt] at hm
  obtain ⟨hposts, hops⟩ := posts_begin hacq
  have hop : (notification (s.vm (.comm n)) .delete).op ≠ .add := by simp [notification]
  have hlist := request_remove hop (replay s.posts)
  rw [notification_congr hsame] at hlist hposts
  refine ⟨hp.noRej_begin hacq (by simp [notification]), fun g => ?_, fun g x => ?_⟩
  · rw [hposts, replay_append, hlist]
    split
    · exact (hp.nodup g).erase _
    · exact hp.nodup g
  · have hops' : ∀ m, s'.opsAbout m = [.add] ↔ s.opsAbout m = [.add] ∧ m ≠ n := by
      intro m
      rw [hops]
      rcases eq_or_ne m n with rfl | hm
      · simp [hadd]
      · simp [hm]
    have hgroup : (notification (s.registered n) .delete).service =
        (s.registered n).serviceInfo.service := rfl
    rw [hposts, replay_append, hlist, hregistered, hgroup]
    simp only [hops']
    constructor
    · intro hx
      obtain ⟨hx, hne⟩ : x ∈ replay s.posts g ∧
          (g = (s.registered n).serviceInfo.service →
            x ≠ ((s.registered n).ipAddress, htons 8080)) := by
        split at hx
        · obtain ⟨hne, hmem⟩ := (hp.nodup g).mem_erase_iff.mp hx
          exact ⟨hmem, fun _ => hne⟩
        · rename_i hg
          exact ⟨hx, fun hg' => absurd hg' hg⟩
      obtain ⟨m, hm, hg, hxm⟩ := (hp.listed g x).mp hx
      refine ⟨m, ⟨hm, ?_⟩, hg, hxm⟩
      rintro rfl
      exact hne hg.symm hxm
    · rintro ⟨m, ⟨hm, hmn⟩, hg, hxm⟩
      have hx : x ∈ replay s.posts g := (hp.listed g x).mpr ⟨m, hm, hg, hxm⟩
      split
      · rename_i hg'
        refine (hp.nodup g).mem_erase_iff.mpr ⟨fun heq => hmn (hclash m hm ⟨hg.trans hg', ?_⟩), hx⟩
        exact congrArg Prod.fst (hxm.symm.trans heq)
      · exact hx

theorem postsInv_run {s s' : Server} {t : Tid} {env : Env} (h : s.Inv) (he : s.EntriesInv)
    (hp : s.PostsInv) (hstep : s.step (.run t env) = some s') : s'.PostsInv := by
  rcases step_run hstep with ⟨i, c, s₁, hcode, heff, rfl⟩ | ⟨rfl, -, rfl⟩
  · have hfits : Fits s.acceptState t (i :: c) := hcode ▸ h.thread.code.fits t
    by_cases hlock : ∃ op, i = lockManageVm op
    · obtain ⟨op, rfl⟩ := hlock
      have hn : ∀ n, t = .comm n → n < s.created := by
        rintro n rfl
        exact h.thread.code.created_of_effect hcode heff
      simp only [effect, Option.ite_none_right_eq_some, Option.some.injEq] at heff
      obtain ⟨-, rfl⟩ := heff
      cases t with
      | accept => exact postsInv_add h he hp hcode rfl rfl
      | comm n => exact postsInv_delete h he hp (hn n rfl) hcode rfl rfl
      | balancer => simpa [sendCode] using hfits.subset List.mem_cons_self
    · have hacq : s₁.acquired = s.acquired := effect_acquired heff fun op hop => hlock ⟨op, hop⟩
      refine hp.frame hacq fun n hne => ?_
      by_cases hassign : i = assign
      · subst hassign
        apply (effect_frame heff).registered
        rintro rfl
        exact hne (h.history.opsAbout_of_assign hfits hcode)
      · show s₁.registered n = s.registered n
        rw [((effect_frame heff).assigned hassign).2]
  · split
    · exact hp.frame rfl fun _ _ => rfl
    · exact hp

theorem postsInv_step {s s' : Server} {l : Label} (h : s.Inv) (he : s.EntriesInv)
    (hp : s.PostsInv) (hstep : s.step l = some s') : s'.PostsInv := by
  cases l with
  | run t env => exact postsInv_run h he hp hstep
  | newClient | recvFail | recvFeatures =>
      simp only [step, Option.ite_none_right_eq_some, Option.some.injEq] at hstep
      obtain ⟨-, rfl⟩ := hstep
      exact hp.frame rfl fun _ _ => rfl

theorem initial_entriesInv (mem : Service → ℕ → VmData) (stack : Tid → VmData)
    (features : ℕ → SystemFeatures) : (initial mem stack features).EntriesInv where
  clean _ hn := absurd hn (Nat.not_lt_zero _)
  distinct _ _ hn := absurd hn.1 (Nat.not_lt_zero _)
  newcomer hne := absurd rfl hne
  unique g := by
    show ((initialRegistry mem g).live.map VmData.ipAddress).Nodup
    rw [initialRegistry_live]
    exact List.nodup_nil
  entries g ip st := by
    show (∃ e ∈ (initialRegistry mem g).live, _) ↔ _
    rw [initialRegistry_live]
    simp [Present, initial]

theorem initial_postsInv (mem : Service → ℕ → VmData) (stack : Tid → VmData)
    (features : ℕ → SystemFeatures) : (initial mem stack features).PostsInv where
  noRej _ hp := absurd hp List.not_mem_nil
  nodup _ := List.nodup_nil
  listed g x := by simp [initial, posts, replay, opsAbout]

end Server

end A2PM.Controller

namespace A2PM

open Controller Transition Balancer

/-! ### The system -/

/-- The controller with its balancer; the records between `applied` and the
end of `controller.sent` are in flight. -/
structure System where
  controller : Server
  balancer : Balancer.Registry
  /-- Number of records that `controller_thread` has applied. -/
  applied : ℕ

inductive SystemLabel
  | controller (l : Label)
  /-- `controller_thread` receives the next record and applies it. -/
  | apply (fresh : ℕ → Balancer.VmData)

namespace System

def initial (mem : Service → ℕ → Controller.VmData) (stack : Tid → Controller.VmData)
    (features : ℕ → SystemFeatures) (balancerMem : Service → ℕ → Balancer.VmData) : System where
  controller := Server.initial mem stack features
  balancer := createSystemImage balancerMem
  applied := 0

def step (s : System) : SystemLabel → Option System
  | .controller l => (s.controller.step l).map fun c => { s with controller := c }
  | .apply fresh =>
      (s.controller.sent[s.applied]?).bind fun r =>
        (applyRecord fresh r s.balancer).map fun reg =>
          { s with balancer := reg, applied := s.applied + 1 }

/-- Nothing is under way: each thread waits in its loop or has returned, no
notification is pending in `virt_machine`, and none is in flight. -/
structure Quiet (s : System) : Prop where
  threads : ∀ t, s.controller.code t = [] ∨ s.controller.code t = [.halt]
  mailbox : s.controller.manageVmMutex = none ∧ s.controller.stateManVm = false
  flight : s.applied = s.controller.sent.length

/-- For each group the balancer lists the addresses of the `ACTIVE` VMs. -/
def Agree (s : System) : Prop := ∀ g ip,
  (∃ e ∈ (s.balancer g).live, e.ipAddress = ip) ↔
    ∃ e ∈ (s.controller.registry g).live, e.ipAddress = ip ∧ e.serviceInfo.state = .active

/-- The live VMs of a group keep having distinct addresses. -/
def DistinctAddresses (s : System) : SystemLabel → Prop
  | .controller l => s.controller.NewAddress l
  | .apply _ => True

/-- No communication thread decides a rejuvenation. -/
def NoRejuvenation : SystemLabel → Prop
  | .controller l => l.NoRejuvenation
  | .apply _ => True

/-! ### What the balancer has applied -/

structure Inv (s : System) : Prop where
  server : s.controller.Inv
  entries : s.controller.EntriesInv
  posts : s.controller.PostsInv
  wf : s.balancer.Wf
  applied : s.applied ≤ s.controller.sent.length
  listed : ∀ g, (listed s.balancer g).Perm (replay (s.controller.sent.take s.applied) g)

theorem inv_step {s s' : System} {l : SystemLabel} (h : s.Inv) (hd : s.DistinctAddresses l)
    (hl : NoRejuvenation l) (hstep : s.step l = some s') : s'.Inv := by
  cases l with
  | controller l =>
      simp only [step, Option.map_eq_some_iff] at hstep
      obtain ⟨c, hc, rfl⟩ := hstep
      obtain ⟨rest, hsent⟩ := (Server.step_sent_raised hc).1
      refine ⟨Server.inv_step h.server hc, Server.entriesInv_step h.server h.entries hl hd hc,
        Server.postsInv_step h.server h.entries h.posts hc, h.wf, ?_, fun g => ?_⟩
      · show s.applied ≤ c.sent.length
        rw [← hsent, List.length_append]
        exact h.applied.trans (Nat.le_add_right _ _)
      · show (Balancer.listed s.balancer g).Perm (replay (c.sent.take s.applied) g)
        rw [← hsent, List.take_append_of_le_length h.applied]
        exact h.listed g
  | apply fresh =>
      simp only [step, Option.bind_eq_some_iff, Option.map_eq_some_iff] at hstep
      obtain ⟨r, hr, reg, hreg, rfl⟩ := hstep
      obtain ⟨hlt, rfl⟩ := List.getElem?_eq_some_iff.mp hr
      obtain ⟨reg', hreg', hwf, hperm⟩ := applyRecord_spec fresh s.controller.sent[s.applied] h.wf
      obtain rfl := Option.some.inj (hreg'.symm.trans hreg)
      refine ⟨h.server, h.entries, h.posts, hwf, hlt, fun g => ?_⟩
      show (Balancer.listed reg' g).Perm (replay (s.controller.sent.take (s.applied + 1)) g)
      rw [List.take_succ_eq_append_getElem hlt, replay_append]
      exact (hperm g).trans (request_perm h.listed g)

theorem initial_inv (mem : Service → ℕ → Controller.VmData) (stack : Tid → Controller.VmData)
    (features : ℕ → SystemFeatures) (balancerMem : Service → ℕ → Balancer.VmData) :
    (initial mem stack features balancerMem).Inv where
  server := Server.initial_inv mem stack features
  entries := Server.initial_entriesInv mem stack features
  posts := Server.initial_postsInv mem stack features
  wf := createSystemImage_wf balancerMem
  applied := Nat.le_refl _
  listed g := by
    rw [initial, listed_createSystemImage]
    exact List.Perm.refl _

/-! ### Agreement -/

/-- When nothing is under way, the connections about which the last post is
`ADD` are those that are in the registry as `ACTIVE`. -/
theorem added_iff_present {s : System} (h : s.Inv) (hq : s.Quiet) (n : ℕ) :
    s.controller.opsAbout n = [.add] ↔
      s.controller.Present n ∧ s.controller.registeredState n = .active := by
  have haccept : s.controller.code .accept = [] := by
    refine (hq.threads .accept).resolve_right fun hhalt => ?_
    have hmem := (h.server.thread.code.fits .accept).subset (hhalt ▸ List.mem_singleton_self _)
    revert hmem
    cases s.controller.acceptState <;> simp [acceptCode, notify]
  constructor
  · intro hadd
    have hn : n < s.controller.created := by
      rcases lt_trichotomy n s.controller.created with hlt | heq | hgt
      · exact hlt
      · exact absurd haccept (Server.registered_of_posted h.server heq (by simp [hadd])).1
      · simp [h.server.history.later n hgt] at hadd
    have hact : s.controller.registeredState n = .active := by
      by_contra hpas
      rw [h.server.history.passive n hn hpas] at hadd
      cases hadd
    have hcode : s.controller.code (.comm n) = [] := (hq.threads _).resolve_right
      (Server.alive_of_added h.server h.entries h.posts hn hadd).2
    exact ⟨.inl ⟨hn, by simp [hcode, HasLeft]⟩, hact⟩
  · rintro ⟨⟨hn, hleft⟩ | ⟨-, hne, -⟩, hact⟩
    · have hcode : s.controller.code (.comm n) = [] := by
        refine (hq.threads _).resolve_right fun hhalt => hleft ?_
        rw [hhalt]
        simp [HasLeft]
      have hstory := Server.opsAbout_active h.server h.entries h.posts hn hact
      simpa [hcode, postOps] using hstory
    · exact absurd haccept hne

/-- All posts have been applied. -/
theorem listed_of_quiet {s : System} (h : s.Inv) (hq : s.Quiet) (g : Service) :
    (listed s.balancer g).Perm (replay s.controller.posts g) := by
  have hposts : s.controller.posts = s.controller.sent := by
    cases h.server.thread.phase with
    | idle _ _ _ hposts => exact hposts
    | posting _ _ hlock => simp [hq.mailbox.1] at hlock
    | raised hlock => simp [hq.mailbox.1] at hlock
    | delivered hlock => simp [hq.mailbox.1] at hlock
  have hall := h.listed g
  rwa [hq.flight, List.take_length, ← hposts] at hall

theorem agree_of_quiet {s : System} (h : s.Inv) (hq : s.Quiet) : s.Agree := by
  intro g ip
  rw [h.entries.entries]
  calc (∃ e ∈ (s.balancer g).live, e.ipAddress = ip)
      ↔ ∃ x ∈ listed s.balancer g, x.1 = ip := by simp [listed]
    _ ↔ ∃ x ∈ replay s.controller.posts g, x.1 = ip := by
        simp only [(listed_of_quiet h hq g).mem_iff]
    _ ↔ ∃ n, s.controller.opsAbout n = [.add] ∧
          (s.controller.registered n).serviceInfo.service = g ∧
          (s.controller.registered n).ipAddress = ip := by
        simp only [h.posts.listed]
        constructor
        · rintro ⟨x, ⟨n, hadd, hg, rfl⟩, hip⟩
          exact ⟨n, hadd, hg, hip⟩
        · rintro ⟨n, hadd, hg, hip⟩
          exact ⟨_, ⟨n, hadd, hg, rfl⟩, hip⟩
    _ ↔ ∃ n, s.controller.Present n ∧ Server.Is (s.controller.registered n) g ip .active := by
        refine exists_congr fun n => ?_
        rw [added_iff_present h hq, Server.Is, Server.registeredState]
        tauto

/-- **Agreement without rejuvenation.**  In a run in which the live VMs of a
group keep distinct addresses and no rejuvenation is decided, controller and
balancer agree in every state in which nothing is under way. -/
theorem along_agree (mem : Service → ℕ → Controller.VmData) (stack : Tid → Controller.VmData)
    (features : ℕ → SystemFeatures) (balancerMem : Service → ℕ → Balancer.VmData)
    {ls : List SystemLabel}
    (hd : AllSteps step DistinctAddresses (initial mem stack features balancerMem) ls)
    (hl : ∀ l ∈ ls, NoRejuvenation l) :
    Along step (fun s => s.Quiet → s.Agree) (initial mem stack features balancerMem) ls := by
  have hinv : Along step Inv (initial mem stack features balancerMem) ls :=
    along_of_allSteps (fun s l t h hC hstep => inv_step h hC.1 hC.2 hstep)
      (initial_inv mem stack features balancerMem) (hd.and_forall hl)
  exact hinv.mono fun s h hq => agree_of_quiet h hq

/-! ### A rejuvenation -/

/-- `k` steps of thread `t`. -/
def runs (t : Tid) (k : ℕ) : List SystemLabel :=
  List.replicate k (.controller (.run t ⟨true, fun _ => default⟩))

/-- A VM connects. -/
def connect : SystemLabel := .controller (.newClient ⟨service1, .active, 8080⟩ "10.0.0.1" 4 40000 true)

/-- It is registered as `ACTIVE`, and the balancer is told. -/
def afterConnect : List SystemLabel :=
  runs .accept 9 ++ runs (.comm 0) 2 ++ runs .balancer 8 ++ [.apply fun _ => default]

/-- Its thread gets two messages; at the second one it decides to rejuvenate
the VM, and the balancer is told. -/
def rejuvenate : List SystemLabel :=
  [.controller (.recvFeatures 0 false)] ++ runs (.comm 0) 2 ++
    [.controller (.recvFeatures 0 true)] ++ runs (.comm 0) 10 ++ runs .balancer 8 ++
    [.apply fun _ => default]

/-- The empty system. -/
abbrev start : System :=
  initial (fun _ _ => default) (fun _ => default) (fun _ => default) fun _ _ => default

theorem distinctAddresses_connect {ls : List SystemLabel}
    (h : ∀ l ∈ ls, ∀ s, DistinctAddresses s l) :
    AllSteps step DistinctAddresses start (connect :: ls) := by
  refine fun s _ => ⟨?_, allSteps_of_forall h⟩
  -- there is no other connection yet
  rintro n ⟨hn, -⟩
  exact absurd hn (Nat.not_lt_zero n)

theorem distinctAddresses_runs (t : Tid) (k : ℕ) :
    ∀ l ∈ runs t k, ∀ s, DistinctAddresses s l := by
  intro l hl s
  rw [List.eq_of_mem_replicate hl]
  trivial

theorem along_agree_connect :
    Along step (fun s => s.Quiet → s.Agree) start (connect :: afterConnect) := by
  refine along_agree _ _ _ _ (distinctAddresses_connect ?_) ?_
  · simp only [afterConnect, List.forall_mem_append, List.forall_mem_singleton]
    exact ⟨⟨⟨distinctAddresses_runs _ _, distinctAddresses_runs _ _⟩,
      distinctAddresses_runs _ _⟩, fun _ => trivial⟩
  · simp [connect, afterConnect, runs, or_imp, forall_and, NoRejuvenation, Label.NoRejuvenation]

/-- The invariant of the controller's threads needs no condition. -/
theorem server_inv_of_run {s : System} {ls : List SystemLabel} (h : run step start ls = some s) :
    s.controller.Inv := by
  refine invariant_of_run (P := fun s : System => s.controller.Inv) (fun a l b ha hab => ?_)
    (Server.initial_inv _ _ _) h
  cases l with
  | controller l =>
      simp only [step, Option.map_eq_some_iff] at hab
      obtain ⟨c, hc, rfl⟩ := hab
      exact Server.inv_step ha hc
  | apply fresh =>
      simp only [step, Option.bind_eq_some_iff, Option.map_eq_some_iff] at hab
      obtain ⟨-, -, -, -, rfl⟩ := hab
      exact ha

/-- The VM that is to be rejuvenated stays `ACTIVE` at the controller, and is
removed at the balancer. -/
theorem rejuvenation_disagrees :
    ¬ ∀ ls, AllSteps step DistinctAddresses start ls →
      Along step (fun s => s.Quiet → s.Agree) start ls := by
  intro hall
  have hrun : (run step start (connect :: (afterConnect ++ rejuvenate))).map (fun s =>
      ((s.controller.code .accept, s.controller.code (.comm 0), s.controller.code .balancer,
        s.controller.created),
       (s.controller.manageVmMutex, s.controller.stateManVm, s.applied, s.controller.sent.length),
       (s.balancer 0).live.map Balancer.VmData.ipAddress,
       (s.controller.registry 0).live.map fun e => (e.ipAddress, e.serviceInfo.state))) =
      some (([], [], [], 1), (none, false, 2, 2), [], [("10.0.0.1", .active)]) := by
    rfl
  obtain ⟨s, hs, hfacts⟩ := Option.map_eq_some_iff.mp hrun
  simp only [Prod.mk.injEq] at hfacts
  obtain ⟨⟨haccept, hcomm, hbal, hcreated⟩, ⟨hlock, hflag, happlied, hsent⟩, hlisted, hentries⟩ :=
    hfacts
  have hquiet : s.Quiet := by
    refine ⟨fun t => ?_, ⟨hlock, hflag⟩, happlied.trans hsent.symm⟩
    cases t with
    | accept => exact .inl haccept
    | balancer => exact .inl hbal
    | comm n =>
        cases n with
        | zero => exact .inl hcomm
        | succ n => exact .inr ((server_inv_of_run hs).thread.code.notCreated _ (by omega))
  have hdistinct : AllSteps step DistinctAddresses start (connect :: (afterConnect ++ rejuvenate)) := by
    refine distinctAddresses_connect ?_
    simp only [afterConnect, rejuvenate, List.forall_mem_append, List.forall_mem_singleton]
    refine ⟨⟨⟨⟨?_, ?_⟩, ?_⟩, fun _ => trivial⟩, ⟨⟨⟨⟨fun _ => trivial, ?_⟩, fun _ => trivial⟩, ?_⟩, ?_⟩,
      fun _ => trivial⟩
    all_goals exact distinctAddresses_runs _ _
  have hagree : s.Agree := (hall _ hdistinct).last hs hquiet
  have hactive : ∃ e ∈ (s.controller.registry 0).live,
      e.ipAddress = "10.0.0.1" ∧ e.serviceInfo.state = .active := by
    have hmem : ("10.0.0.1", VmState.active) ∈
        (s.controller.registry 0).live.map fun e => (e.ipAddress, e.serviceInfo.state) := by
      rw [hentries]
      exact List.mem_singleton_self _
    obtain ⟨e, he, heq⟩ := List.mem_map.mp hmem
    exact ⟨e, he, (Prod.mk.inj heq).1, (Prod.mk.inj heq).2⟩
  obtain ⟨e, he, -⟩ := (hagree 0 "10.0.0.1").mpr hactive
  rw [List.map_eq_nil_iff.mp hlisted] at he
  cases he

end System

end A2PM
