/-
A2PM/ControllerStates.lean

The state of a VM, in the registry and in its communication thread.

`communication_thread` works on the copy of its entry that it makes at its
start, and nothing changes the state in that copy again.  In the registry
`switch_active_machine` promotes a `STAND_BY` entry; its own parameter, which
it marks as `REJUVENATING`, is a copy too.  So the two states agree as long
as no entry is promoted, and disagree from then on (`along_oneState_iff`).

Entries move when others are removed.  `Tracked` follows them: `owners` lists
for each group the connections whose entries the used slots hold.
-/
import A2PM.ControllerHistory

namespace A2PM.Controller

open Instr Transition SlotTable

namespace Server

/-! ### Which entry is whose -/

/-- The instruction that a step executes, and its thread. -/
def executes (s : Server) : Label → Option (Tid × Instr)
  | .run t _ => (s.code t).head?.map fun i => (t, i)
  | _ => none

/-- The group of the thread's `vm`. -/
def group (s : Server) (t : Tid) : Service := (s.vm t).serviceInfo.service

/-- `switch_active_machine` finds an entry to promote. -/
def Promotes (s : Server) (t : Tid) : Prop :=
  ∃ e ∈ (s.registry (s.group t)).live, e.serviceInfo.state = .standBy

instance (s : Server) (t : Tid) : Decidable (s.Promotes t) :=
  inferInstanceAs (Decidable (∃ e ∈ _, _))

/-- The owners of the used slots after an instruction. -/
def ownersAfter (s : Server) (t : Tid) (owners : Service → List ℕ) : Instr → Service → List ℕ
  | assign => Function.update owners (s.group t) (owners (s.group t) ++ [s.created])
  | removeVm =>
      match (s.registry (s.group t)).live.findIdx? fun e => e.ipAddress == (s.vm t).ipAddress with
      | none => owners
      | some i => Function.update owners (s.group t) (swapRemove (owners (s.group t)) i)
  | _ => owners

/-- Communication thread `n` has copied its entry, and has not returned. -/
def Serves (s : Server) (n : ℕ) : Prop :=
  s.code (.comm n) ≠ [halt] ∧ ∀ g i, copyVm g i ∉ s.code (.comm n)

end Server

structure Tracked where
  server : Server
  /-- The connections whose entries the used slots of each group hold. -/
  owners : Service → List ℕ
  /-- The connections whose threads have promoted an entry. -/
  replaced : List ℕ

namespace Tracked

open Server

def initial (mem : Service → ℕ → VmData) (stack : Tid → VmData)
    (features : ℕ → SystemFeatures) : Tracked where
  server := .initial mem stack features
  owners := fun _ => []
  replaced := []

/-- One step of the controller, and what becomes of the entries. -/
def step (t : Tracked) (l : Label) : Option Tracked :=
  (t.server.step l).map fun s =>
    match t.server.executes l with
    | none => { t with server := s }
    | some (u, i) =>
        { server := s
          owners := t.server.ownersAfter u t.owners i
          replaced :=
            if i = switchVm ∧ t.server.Promotes u then t.server.connection u :: t.replaced
            else t.replaced }

/-- The entries of a group, each with its owner. -/
def entries (t : Tracked) (g : Service) : List (VmData × ℕ) :=
  (t.server.registry g).live.zip (t.owners g)

/-- **One state per VM.**  A thread acts on the state that the registry has
recorded for its VM; and the thread of a VM that has been replaced no longer
acts on it as `ACTIVE`. -/
structure OneState (t : Tracked) : Prop where
  states : ∀ g, ∀ p ∈ t.entries g, t.server.Serves p.2 →
    (t.server.vm (.comm p.2)).serviceInfo.state = p.1.serviceInfo.state
  replaced : ∀ n ∈ t.replaced, (t.server.vm (.comm n)).serviceInfo.state ≠ .active

/-- `switch_active_machine` finds no `STAND_BY` entry in the group. -/
def NoPromotion (t : Tracked) (l : Label) : Prop :=
  ∀ u, t.server.executes l = some (u, switchVm) → ¬ t.server.Promotes u

/-! ### The invariant -/

/-- The entry is as its owner was registered; the owner may be the connection
that is being registered. -/
structure Owned (s : Server) (p : VmData × ℕ) : Prop where
  owner : p.2 < s.created ∨ p.2 = s.created ∧ s.code .accept ≠ [] ∧ assign ∉ s.code .accept
  info : p.1.serviceInfo = (s.registered p.2).serviceInfo

structure Inv (t : Tracked) : Prop where
  server : t.server.Inv
  length : ∀ g, (t.owners g).length = (t.server.registry g).live.length
  owned : ∀ g, ∀ p ∈ t.entries g, Owned t.server p
  replaced : t.replaced = []

/-- A thread that serves its VM has the state of the registration. -/
theorem state_of_serves {s : Server} (h : s.Inv) {n : ℕ} (hn : s.Serves n) :
    (s.vm (.comm n)).serviceInfo = (s.registered n).serviceInfo := by
  have hlt : n < s.created := by
    by_contra hle
    exact hn.1 (h.thread.code.notCreated n (not_lt.mp hle))
  cases h.history.place n hlt with
  | starting g i hcode =>
      exact absurd (hcode ▸ List.mem_cons_self) (hn.2 g i)
  | active _ _ hvm => exact hvm.1
  | passive _ _ hvm => exact hvm.1

theorem Inv.oneState {t : Tracked} (h : t.Inv) : t.OneState where
  states := by
    intro g p hp hserves
    rw [state_of_serves h.server hserves, (h.owned g p hp).info]
  replaced := by
    intro n hn
    rw [h.replaced] at hn
    cases hn

theorem assign_notMem_of_assign {st : VmState} {c : List Instr}
    (h : assign :: c <:+ acceptCode st) : assign ∉ c := by
  have hmem := (List.mem_tails _ _).mpr h
  revert hmem
  cases st <;> simp only [acceptCode, notify, reduceCtorEq, if_true, if_false, List.cons_append,
    List.nil_append, List.tails, List.mem_cons, List.not_mem_nil, or_false, List.cons.injEq,
    false_and, false_or, true_and]
  all_goals
    rintro rfl
    simp

/-- What has been registered stays so, and its connection's place too. -/
theorem Owned.effect {s s₁ : Server} (h : s.Inv) {u : Tid} {env : Env} {i : Instr}
    {c : List Instr} (hcode : s.code u = i :: c) (heff : s.effect u env i = some s₁)
    {p : VmData × ℕ} (hp : Owned s p) : Owned { s₁ with code := s.nextCode u env i c } p := by
  have hfits : Fits s.acceptState u (i :: c) := hcode ▸ h.thread.code.fits u
  have hcreated := (effect_frame heff).created
  constructor
  · show p.2 < s₁.created ∨ p.2 = s₁.created ∧ s.nextCode u env i c .accept ≠ [] ∧
      assign ∉ s.nextCode u env i c .accept
    rcases hp.owner with hlt | ⟨heq, hne, hassign⟩
    · refine .inl (lt_of_lt_of_le hlt ?_)
      rw [hcreated]
      split <;> omega
    · by_cases hi : i = createThread
      · rw [if_pos hi] at hcreated
        exact .inl (by omega)
      · rw [if_neg hi] at hcreated
        refine .inr ⟨heq.trans hcreated.symm, ?_⟩
        by_cases hu : u = .accept
        · subst hu
          obtain ⟨hrest, hc⟩ : s.rest .accept env i c = c ∧ c ≠ [] := accept_rest hfits hi
          rw [nextCode_self (.inl hi), hrest]
          exact ⟨hc, fun hmem => hassign (hcode ▸ List.mem_cons_of_mem i hmem)⟩
        · rw [nextCode_other (Ne.symm hu) (.inl hi)]
          exact ⟨hne, hassign⟩
  · show p.1.serviceInfo = (s₁.registered p.2).serviceInfo
    by_cases hi : i = assign
    · subst hi
      have hu : u = .accept := eq_accept_of_assign hfits
      have hne : p.2 ≠ s.created := by
        rintro heq
        rcases hp.owner with hlt | ⟨-, -, hassign⟩
        · omega
        · exact hassign ((hu ▸ hcode) ▸ List.mem_cons_self)
      simp only [Server.effect, Option.map_eq_some_iff] at heff
      obtain ⟨r, -, rfl⟩ := heff
      show p.1.serviceInfo = (Function.update s.registered s.created (s.vm u) p.2).serviceInfo
      rw [Function.update_of_ne hne]
      exact hp.info
    · rw [((effect_frame heff).assigned hi).2]
      exact hp.info

/-- The entries after an instruction that promotes none: those before it, and
the one that is registered. -/
theorem entries_effect {s s₁ : Server} (hwf : s.registry.Wf) {u : Tid} {env : Env} {i : Instr}
    (heff : s.effect u env i = some s₁) (hkeep : i = switchVm → ¬ s.Promotes u)
    {owners : Service → List ℕ} (hlen : ∀ g, (owners g).length = (s.registry g).live.length)
    (g : Service) :
    (s.ownersAfter u owners i g).length = (s₁.registry g).live.length ∧
      ∀ p ∈ (s₁.registry g).live.zip (s.ownersAfter u owners i g),
        p ∈ (s.registry g).live.zip (owners g) ∨
          i = assign ∧ p.2 = s.created ∧ p.1.serviceInfo = (s.vm u).serviceInfo := by
  cases i with
  | assign =>
      obtain ⟨reg', k, slot, hreg, -, -, hlive, -⟩ := register_spec hwf env.fresh
        (s.vm u).serviceInfo (s.vm u).ipAddress (s.vm u).socket (s.vm u).port
      simp only [Server.effect, hreg, Option.map_some, Option.some.injEq] at heff
      subst heff
      show (Function.update owners (s.group u) (owners (s.group u) ++ [s.created]) g).length =
          (reg' g).live.length ∧ ∀ p ∈ (reg' g).live.zip
            (Function.update owners (s.group u) (owners (s.group u) ++ [s.created]) g), _
      rw [hlive]
      rcases eq_or_ne g (s.group u) with rfl | hne
      · have hgroup : s.group u = (s.vm u).serviceInfo.service := rfl
        rw [Function.update_self, if_pos hgroup, List.length_append, List.length_append, hlen,
          List.zip_append (hlen _).symm]
        refine ⟨rfl, fun p hp => ?_⟩
        rcases List.mem_append.mp hp with hold | hnew
        · exact .inl hold
        · obtain rfl := List.mem_singleton.mp hnew
          exact .inr ⟨rfl, rfl, rfl⟩
      · have hgroup : g ≠ (s.vm u).serviceInfo.service := hne
        rw [Function.update_of_ne hne, if_neg hgroup, List.append_nil]
        exact ⟨hlen g, fun p hp => .inl hp⟩
  | removeVm =>
      simp only [Server.effect, manageDisconnectedVms, Option.map_eq_some_iff] at heff
      obtain ⟨_, ⟨table, htable, rfl⟩, rfl⟩ := heff
      have hlive := removeFirst_live _ (hwf (s.group u)) htable
      rcases eq_or_ne g (s.group u) with rfl | hne
      · show _ = (Function.update s.registry (s.group u) table (s.group u)).live.length ∧
          ∀ p ∈ (Function.update s.registry (s.group u) table (s.group u)).live.zip _, _
        rw [Function.update_self, hlive, ownersAfter]
        cases (s.registry (s.group u)).live.findIdx? fun e =>
            e.ipAddress == (s.vm u).ipAddress with
        | none => exact ⟨hlen _, fun p hp => .inl hp⟩
        | some k =>
            simp only [Function.update_self]
            rw [zip_swapRemove (hlen _).symm, length_swapRemove, length_swapRemove, hlen]
            exact ⟨rfl, fun p hp => .inl (mem_of_mem_swapRemove hp)⟩
      · have howners : s.ownersAfter u owners removeVm g = owners g := by
          rw [ownersAfter]
          cases (s.registry (s.group u)).live.findIdx? fun e =>
              e.ipAddress == (s.vm u).ipAddress with
          | none => rfl
          | some k => exact Function.update_of_ne hne _ _
        show _ = (Function.update s.registry (s.group u) table g).live.length ∧
          ∀ p ∈ (Function.update s.registry (s.group u) table g).live.zip _, _
        rw [howners, Function.update_of_ne hne]
        exact ⟨hlen g, fun p hp => .inl hp⟩
  | switchVm =>
      obtain ⟨copy, reg', hreg, -, -, hnone, -⟩ := switchActiveMachine_spec hwf (s.vm u)
      simp only [Server.effect, hreg, Option.map_some, Option.some.injEq] at heff
      subst heff
      have hno : reg' = s.registry := by
        apply hnone
        rw [List.findIdx?_eq_none_iff]
        intro e he
        rw [beq_eq_false_iff_ne]
        exact fun hstandBy => hkeep rfl ⟨e, he, hstandBy⟩
      show _ = (reg' g).live.length ∧ ∀ p ∈ (reg' g).live.zip _, _
      rw [hno]
      exact ⟨hlen g, fun p hp => .inl hp⟩
  | _ =>
      have hreg := (effect_frame heff).registry rfl
      rw [hreg]
      exact ⟨hlen g, fun p hp => .inl hp⟩

/-- A step that executes no instruction changes no entry. -/
theorem Inv.idle {t : Tracked} (h : t.Inv) {s : Server} (hs : s.Inv)
    (hreg : s.registry = t.server.registry) (hregistered : s.registered = t.server.registered)
    (hcreated : s.created = t.server.created)
    (haccept : s.code .accept = t.server.code .accept ∨ t.server.code .accept = []) :
    Inv { t with server := s } where
  server := hs
  length := by
    intro g
    show (t.owners g).length = (s.registry g).live.length
    rw [hreg]
    exact h.length g
  owned := by
    intro g p hp
    have hmem : p ∈ t.entries g := by
      rw [entries, ← hreg]
      exact hp
    obtain ⟨howner, hinfo⟩ := h.owned g p hmem
    constructor
    · show p.2 < s.created ∨ p.2 = s.created ∧ s.code .accept ≠ [] ∧ assign ∉ s.code .accept
      rw [hcreated]
      rcases haccept with hsame | hnil
      · rwa [hsame]
      · exact .inl (howner.resolve_right fun hbusy => hbusy.2.1 hnil)
    · show p.1.serviceInfo = (s.registered p.2).serviceInfo
      rw [hregistered]
      exact hinfo
  replaced := h.replaced

theorem inv_instr {t : Tracked} (h : t.Inv) {u : Tid} {env : Env} {i : Instr} {c : List Instr}
    {s₁ : Server} (hcode : t.server.code u = i :: c)
    (heff : t.server.effect u env i = some s₁) (hkeep : i = switchVm → ¬ t.server.Promotes u)
    (hs : Server.Inv { s₁ with code := t.server.nextCode u env i c }) :
    Inv {
      server := { s₁ with code := t.server.nextCode u env i c }
      owners := t.server.ownersAfter u t.owners i
      replaced := t.replaced } where
  server := hs
  length := fun g => (entries_effect h.server.wf heff hkeep h.length g).1
  owned := by
    intro g p hp
    rcases (entries_effect h.server.wf heff hkeep h.length g).2 p hp with hold | ⟨rfl, hn, hinfo⟩
    · exact (h.owned g p hold).effect h.server hcode heff
    · -- the entry that is being registered
      have hfits : Fits t.server.acceptState u (assign :: c) := hcode ▸ h.server.thread.code.fits u
      obtain rfl := eq_accept_of_assign hfits
      obtain ⟨hrest, hne⟩ : t.server.rest .accept env assign c = c ∧ c ≠ [] :=
        accept_rest hfits (by simp)
      obtain ⟨hregistered, -⟩ := assigned_assign h.server.wf rfl heff
      have hcreated : s₁.created = t.server.created := (effect_frame heff).created
      constructor
      · refine .inr ⟨hn.trans hcreated.symm, ?_⟩
        show t.server.nextCode .accept env assign c .accept ≠ [] ∧
          assign ∉ t.server.nextCode .accept env assign c .accept
        rw [nextCode_self (.inl (by simp)), hrest]
        exact ⟨hne, assign_notMem_of_assign hfits⟩
      · show p.1.serviceInfo = (s₁.registered p.2).serviceInfo
        rw [hn, hregistered]
        exact hinfo
  replaced := h.replaced

theorem inv_step {t t' : Tracked} {l : Label} (h : t.Inv) (hl : t.NoPromotion l)
    (hstep : t.step l = some t') : t'.Inv := by
  simp only [step, Option.map_eq_some_iff] at hstep
  obtain ⟨s, hs, rfl⟩ := hstep
  have hinv : s.Inv := Server.inv_step h.server hs
  cases l with
  | run u env =>
      rcases step_run hs with ⟨i, c, s₁, hcode, heff, rfl⟩ | ⟨rfl, hcode, rfl⟩
      · have hexecutes : t.server.executes (.run u env) = some (u, i) := by
          rw [executes, hcode]
          rfl
        have hkeep : i = switchVm → ¬ t.server.Promotes u := by
          rintro rfl
          exact hl u hexecutes
        have hnot : ¬ (i = switchVm ∧ t.server.Promotes u) := fun hp => hkeep hp.1 hp.2
        rw [hexecutes]
        simp only [if_neg hnot]
        exact inv_instr h hcode heff hkeep hinv
      · have hexecutes : t.server.executes (.run .balancer env) = none := by
          rw [executes, hcode]
          rfl
        rw [hexecutes]
        refine h.idle hinv ?_ ?_ ?_ (.inl ?_)
        all_goals split <;> rfl
  | newClient info ip socket port answered =>
      simp only [Server.step, Option.ite_none_right_eq_some, Option.some.injEq] at hs
      obtain ⟨⟨hcode, -⟩, rfl⟩ := hs
      exact h.idle hinv rfl rfl rfl (.inr hcode)
  | recvFail n =>
      simp only [Server.step, Option.ite_none_right_eq_some, Option.some.injEq] at hs
      obtain ⟨-, rfl⟩ := hs
      exact h.idle hinv rfl rfl rfl (.inl rfl)
  | recvFeatures n rejuvenate =>
      simp only [Server.step, Option.ite_none_right_eq_some, Option.some.injEq] at hs
      obtain ⟨-, rfl⟩ := hs
      exact h.idle hinv rfl rfl rfl (.inl rfl)

/-! ### Exactly when it holds -/

/-- While `switch_active_machine` holds `mutex`, the owner of a `STAND_BY` entry
serves its VM, and is another thread. -/
theorem serves_of_standBy {s : Server} (h : s.Inv) {u : Tid} {c : List Instr}
    (hcode : s.code u = switchVm :: c) {p : VmData × ℕ} (hp : Owned s p)
    (hstandBy : p.1.serviceInfo.state = .standBy) : Tid.comm p.2 ≠ u ∧ s.Serves p.2 := by
  have hfits : Fits s.acceptState u (switchVm :: c) := hcode ▸ h.thread.code.fits u
  obtain ⟨m, rfl⟩ := ofComm_of_fits hfits List.mem_cons_self rfl
  have howes : owesMutex (s.code (.comm m)) = true := by
    have hshaped := (h.thread.code.fits (.comm m)).1
    rw [hcode] at hshaped ⊢
    simp only [shaped, follows, Bool.and_eq_true] at hshaped
    exact hshaped.1.1
  have hholder : ∀ v, owesMutex (s.code v) = true → v = .comm m := by
    intro v hv
    exact Option.some.inj (((h.thread.mutex v).mpr hv).symm.trans ((h.thread.mutex _).mpr howes))
  have hlt : p.2 < s.created := by
    -- the accept thread would hold `mutex` while it registers the owner
    apply hp.owner.resolve_right
    rintro ⟨-, hne, hassign⟩
    have haccept := hholder .accept
      (owesMutex_of_assigned (h.thread.code.fits .accept) hne hassign)
    cases haccept
  have hplace : s.code (.comm p.2) = [unlockMutex] ∨ s.code (.comm p.2) = [] := by
    cases h.history.place p.2 hlt with
    | starting g i hstart =>
        have hself := hholder (.comm p.2) (by rw [hstart]; rfl)
        rw [hself, hcode] at hstart
        cases hstart
    | active hstate =>
        rw [Server.registeredState, ← hp.info, hstandBy] at hstate
        cases hstate
    | passive _ hpassive _ => exact hpassive
  constructor
  · intro hu
    rw [hu, hcode] at hplace
    rcases hplace with hnil | hnil <;> cases hnil
  · rw [Server.Serves]
    rcases hplace with hcomm | hcomm <;> rw [hcomm] <;> simp

/-- The `STAND_BY` entry that is found, with its owner. -/
theorem Inv.exists_standBy {t : Tracked} (h : t.Inv) {g : Service}
    (hstandBy : ∃ e ∈ (t.server.registry g).live, e.serviceInfo.state = .standBy) :
    ∃ (k : ℕ) (hlt : k < (t.server.registry g).live.length) (howners : k < (t.owners g).length),
      (t.server.registry g).live.findIdx? (fun e => e.serviceInfo.state == .standBy) = some k ∧
        (t.server.registry g).live[k].serviceInfo.state = .standBy ∧
        ((t.server.registry g).live[k], (t.owners g)[k]) ∈ t.entries g := by
  obtain ⟨e, he, hstate⟩ := hstandBy
  obtain ⟨k, hk⟩ : ∃ k, (t.server.registry g).live.findIdx?
      (fun e => e.serviceInfo.state == .standBy) = some k := by
    rw [← Option.isSome_iff_exists, List.findIdx?_isSome, List.any_eq_true]
    exact ⟨e, he, beq_iff_eq.mpr hstate⟩
  obtain ⟨hlt, hfound, -⟩ := List.findIdx?_eq_some_iff_getElem.mp hk
  have howners : k < (t.owners g).length := by
    rw [h.length]
    exact hlt
  refine ⟨k, hlt, howners, hk, beq_iff_eq.mp hfound, ?_⟩
  refine List.mem_iff_getElem.mpr ⟨k, ?_, List.getElem_zip⟩
  rw [entries, List.length_zip]
  exact lt_min hlt howners

/-- The thread of a promoted VM goes on with the state of the registration. -/
theorem noPromotion_of_oneState {t t' : Tracked} {l : Label} (h : t.Inv)
    (hstep : t.step l = some t') (hok : t'.OneState) : t.NoPromotion l := by
  intro u hexecutes hpromotes
  obtain ⟨env, rfl, c, hcode⟩ : ∃ env, l = .run u env ∧ ∃ c, t.server.code u = switchVm :: c := by
    cases l with
    | run v env =>
        simp only [executes, Option.map_eq_some_iff, Prod.mk.injEq] at hexecutes
        obtain ⟨_, hhead, rfl, rfl⟩ := hexecutes
        obtain ⟨c, hc⟩ := List.head?_eq_some_iff.mp hhead
        exact ⟨env, rfl, c, hc⟩
    | _ => cases hexecutes
  simp only [step, Option.map_eq_some_iff] at hstep
  obtain ⟨s, hs, rfl⟩ := hstep
  rcases step_run hs with ⟨i, c', s₁, hcode', heff, rfl⟩ | ⟨rfl, hnil, -⟩
  · obtain ⟨rfl, rfl⟩ := List.cons.inj (hcode.symm.trans hcode')
    rw [hexecutes] at hok
    obtain ⟨copy, reg', hreg, -, -, -, hsome⟩ :=
      switchActiveMachine_spec h.server.wf (t.server.vm u)
    simp only [Server.effect, hreg, Option.map_some, Option.some.injEq] at heff
    subst heff
    obtain ⟨k, hlt, howners, hk, hfound, hp⟩ := h.exists_standBy hpromotes
    obtain ⟨_, hlive⟩ := hsome k hk
    let p := ((t.server.registry (t.server.group u)).live[k], (t.owners (t.server.group u))[k])
    have howned : Owned t.server p := h.owned _ p hp
    obtain ⟨hne, hserves⟩ := serves_of_standBy h.server hcode howned hfound
    -- its thread's copy is still in the state of the registration
    have hcopy : (t.server.vm (.comm p.2)).serviceInfo.state = .standBy := by
      rw [state_of_serves h.server hserves, ← howned.info]
      exact hfound
    have hafter : (activate p.1, p.2) ∈
        (reg' (t.server.group u)).live.zip (t.owners (t.server.group u)) := by
      have hlive' : (reg' (t.server.group u)).live =
          (t.server.registry (t.server.group u)).live.set k (activate p.1) := hlive
      rw [hlive']
      refine List.mem_iff_getElem.mpr ⟨k, ?_, ?_⟩
      · rw [List.length_zip, List.length_set]
        exact lt_min hlt howners
      · rw [List.getElem_zip, List.getElem_set_self]
    have hactive : (t.server.vm (.comm p.2)).serviceInfo.state = .active := by
      apply hok.states (t.server.group u) _ hafter
      show t.server.nextCode u env switchVm c (.comm p.2) ≠ [halt] ∧
        ∀ g i, copyVm g i ∉ t.server.nextCode u env switchVm c (.comm p.2)
      rw [nextCode_other hne (.inl (by simp))]
      exact hserves
    rw [hcopy] at hactive
    cases hactive
  · rw [hcode] at hnil
    cases hnil

/-- **One state per VM.**  The states agree at every moment of the run iff no
`STAND_BY` entry is promoted in it. -/
theorem along_oneState_iff (mem : Service → ℕ → VmData) (stack : Tid → VmData)
    (features : ℕ → SystemFeatures) (ls : List Label) :
    Along step OneState (initial mem stack features) ls ↔
      AllSteps step NoPromotion (initial mem stack features) ls := by
  refine along_iff_allSteps (fun _ => Inv.oneState)
    (fun _ _ _ h hl hstep => inv_step h hl hstep)
    (fun _ _ _ h hstep hok => noPromotion_of_oneState h hstep hok) ?_
  constructor
  · exact Server.initial_inv mem stack features
  · intro g
    show 0 = ((initialRegistry mem g).live).length
    rw [initialRegistry_live]
    rfl
  · intro g p hp
    have hnil : (initial mem stack features).entries g = [] := List.zip_nil_right
    rw [hnil] at hp
    cases hp
  · rfl

/-! ### A VM that replaces another -/

/-- An `ACTIVE` and a `STAND_BY` VM register for `SERVICE_1`.  The first one
sends its features twice; the second time it is to be rejuvenated, and its
thread goes on to the end of `switch_active_machine`'s critical section. -/
def replacement : List Label :=
  let ok : Env := ⟨true, fun _ => default⟩
  .newClient ⟨service1, .active, 8080⟩ "10.0.0.1" 4 4000 true ::
      (List.replicate 9 (.run .accept ok) ++ List.replicate 2 (.run (.comm 0) ok)) ++
    .newClient ⟨service1, .standBy, 8080⟩ "10.0.0.2" 5 4000 true ::
      (List.replicate 3 (.run .accept ok) ++ List.replicate 2 (.run (.comm 1) ok)) ++
    .recvFeatures 0 false :: List.replicate 2 (.run (.comm 0) ok) ++
    .recvFeatures 0 true :: List.replicate 3 (.run (.comm 0) ok)

/-- Both entries are `ACTIVE` then.  The thread of the promoted VM still has
`STAND_BY`, and the thread of the VM that it replaces still has `ACTIVE`. -/
theorem promotion_not_seen :
    ((run step (initial (fun _ _ => default) (fun _ => default) fun _ => default)
        replacement).map fun t =>
      ((t.entries service1).map (fun p => (p.1.ipAddress, p.1.serviceInfo.state, p.2)),
        (t.server.code (.comm 1), (t.server.vm (.comm 1)).serviceInfo.state),
        t.replaced, (t.server.vm (.comm 0)).serviceInfo.state)) =
      some ([("10.0.0.1", .active, 0), ("10.0.0.2", .active, 1)], ([], .standBy), [0], .active) ∧
    ¬ Along step OneState (initial (fun _ _ => default) (fun _ => default) fun _ => default)
      replacement := by
  have hfinal : ((run step (initial (fun _ _ => default) (fun _ => default) fun _ => default)
        replacement).map fun t =>
      ((t.entries service1).map (fun p => (p.1.ipAddress, p.1.serviceInfo.state, p.2)),
        (t.server.code (.comm 1), (t.server.vm (.comm 1)).serviceInfo.state),
        t.replaced, (t.server.vm (.comm 0)).serviceInfo.state)) =
      some ([("10.0.0.1", .active, 0), ("10.0.0.2", .active, 1)], ([], .standBy), [0], .active) := by
    decide +kernel
  refine ⟨hfinal, fun hok => ?_⟩
  obtain ⟨t, ht, hvalues⟩ := Option.map_eq_some_iff.mp hfinal
  simp only [Prod.mk.injEq] at hvalues
  apply (hok.last ht).replaced 0 _ hvalues.2.2.2
  rw [hvalues.2.2.1]
  exact List.mem_singleton.mpr rfl

end Tracked

end A2PM.Controller
