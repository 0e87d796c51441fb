/-
A2PM/ControllerEntries.lean

The registry and the posts of the controller, in runs without a
rejuvenation.

In such runs the threads' code is simple (`Clean`), the entries of the
registry are those of the connections whose threads have not yet removed
them (`EntriesInv`), and the posts about a connection are `ADD` and then
`DELETE` (`PostsInv`).  Both rest on the addresses of the live connections
of a group being distinct, because entries are removed, here and at the
balancer, by address.
-/
import A2PM.ControllerHistory
import A2PM.BalancerRegistry
import Mathlib.Data.List.Nodup

namespace A2PM.Controller

open Instr Transition

/-! ### The code without rejuvenation -/

/-- What is left of a created thread's code, no rejuvenation having been
decided. -/
def Clean (c : List Instr) : Prop :=
  c <:+ exitCode ∨ c <:+ continueCode ∨ ∃ g i, c <:+ communicationStart g i

/-- The thread has removed its entry from the registry. -/
def HasLeft (c : List Instr) : Prop := halt ∈ c ∧ removeVm ∉ c

/-- No step of a run decides a rejuvenation. -/
def Label.NoRejuvenation : Label → Prop
  | .recvFeatures _ true => False
  | _ => True

theorem Clean.of_suffix {c d : List Instr} (h : Clean d) (hc : c <:+ d) : Clean c := by
  rcases h with h | h | ⟨g, i, h⟩
  · exact .inl (hc.trans h)
  · exact .inr (.inl (hc.trans h))
  · exact .inr (.inr ⟨g, i, hc.trans h⟩)

/-- The instructions of such code, with what they leave to do. -/
theorem Clean.cases {i : Instr} {c : List Instr} (h : Clean (i :: c)) :
    (i = lockManageVm .delete ∧ ¬ HasLeft c) ∨
    (i = removeVm ∧ c = [unlockMutex, closeSocket, halt]) ∨
    ((∀ op, i ≠ lockManageVm op) ∧ i ≠ removeVm ∧ i ≠ switchVm ∧ i ≠ sendRejuvenate ∧
      (i = sendContinue → c = []) ∧ (i ≠ halt → (HasLeft c ↔ HasLeft (i :: c)))) := by
  rcases h with h | h | ⟨g, k, h⟩
  all_goals
    have hmem := (List.mem_tails _ _).mpr h
    simp only [exitCode, notify, manageDisconnectedVmsCode, continueCode, communicationStart,
      List.cons_append, List.nil_append, List.tails, List.mem_cons, List.cons.injEq,
      List.not_mem_nil, or_false, reduceCtorEq] at hmem
  · rcases hmem with ⟨rfl, rfl⟩ | ⟨rfl, rfl⟩ | ⟨rfl, rfl⟩ | ⟨rfl, rfl⟩ | ⟨rfl, rfl⟩ | ⟨rfl, rfl⟩ |
      ⟨rfl, rfl⟩ | ⟨rfl, rfl⟩ | ⟨rfl, rfl⟩ | ⟨rfl, rfl⟩ | ⟨rfl, rfl⟩ <;> simp [HasLeft]
  · rcases hmem with ⟨rfl, rfl⟩ | ⟨rfl, rfl⟩ <;> simp [HasLeft]
  · rcases hmem with ⟨rfl, rfl⟩ | ⟨rfl, rfl⟩ <;> simp [HasLeft]

theorem not_hasLeft_exitCode : ¬ HasLeft exitCode := by
  simp [HasLeft, exitCode, manageDisconnectedVmsCode]

/-- An instruction other than the removal. -/
theorem clean_rest {s : Server} {t : Tid} {env : Env} {i : Instr} {c : List Instr}
    (h : Clean (i :: c)) (hi : i ≠ removeVm) (hhalt : i ≠ halt) :
    Clean (s.rest t env i c) ∧ (HasLeft (s.rest t env i c) ↔ HasLeft (i :: c)) := by
  have hc : Clean c := h.of_suffix (List.suffix_cons i c)
  rcases h.cases with ⟨rfl, hleft⟩ | ⟨rfl, -⟩ | ⟨-, -, -, hrej, hcont, hleft⟩
  · refine ⟨hc, ?_⟩
    show HasLeft c ↔ HasLeft (lockManageVm .delete :: c)
    simp [HasLeft]
  · exact absurd rfl hi
  · rcases s.rest_cases t env i c with hr | ⟨rfl, -⟩ | ⟨rfl, hr⟩
    · rw [hr]
      exact ⟨hc, hleft hhalt⟩
    · exact absurd rfl hrej
    · rw [hr, hcont rfl]
      exact ⟨.inl (List.suffix_refl _), by simp [HasLeft, exitCode, manageDisconnectedVmsCode]⟩

namespace Server

/-! ### Which connections are live -/

/-- The thread of connection `n` has not returned. -/
def Alive (s : Server) (n : ℕ) : Prop := n < s.created ∧ s.code (.comm n) ≠ [halt]

/-- Connection `n` has its entry in the registry. -/
def Present (s : Server) (n : ℕ) : Prop :=
  n < s.created ∧ ¬ HasLeft (s.code (.comm n)) ∨
    n = s.created ∧ s.code .accept ≠ [] ∧ assign ∉ s.code .accept

/-- A VM of group `g` with address `ip`, in state `st`. -/
def Is (vm : VmData) (g : Service) (ip : String) (st : VmState) : Prop :=
  vm.serviceInfo.service = g ∧ vm.ipAddress = ip ∧ vm.serviceInfo.state = st

/-- Same group, same address. -/
def Clash (a b : VmData) : Prop :=
  a.serviceInfo.service = b.serviceInfo.service ∧ a.ipAddress = b.ipAddress

structure EntriesInv (s : Server) : Prop where
  clean : ∀ n, n < s.created → Clean (s.code (.comm n))
  distinct : ∀ n m, s.Alive n → s.Alive m → Clash (s.registered n) (s.registered m) → n = m
  newcomer : s.code .accept ≠ [] → ∀ n, s.Alive n → ¬ Clash (s.registered n) (s.vm .accept)
  unique : ∀ g, ((s.registry g).live.map VmData.ipAddress).Nodup
  entries : ∀ g ip st,
    (∃ e ∈ (s.registry g).live, e.ipAddress = ip ∧ e.serviceInfo.state = st) ↔
      ∃ n, s.Present n ∧ Is (s.registered n) g ip st

theorem alive_of_not_hasLeft {s : Server} {n : ℕ} (hn : n < s.created)
    (h : ¬ HasLeft (s.code (.comm n))) : s.Alive n := by
  refine ⟨hn, fun hcode => h ?_⟩
  rw [hcode]
  simp [HasLeft]

/-- A step that leaves the registry alone. -/
theorem EntriesInv.frame {s s' : Server} (h : s.EntriesInv)
    (hclean : ∀ n, n < s'.created → Clean (s'.code (.comm n)))
    (hregistry : s'.registry = s.registry) (hregistered : s'.registered = s.registered)
    (halive : ∀ n, s'.Alive n → s.Alive n) (hpresent : ∀ n, s'.Present n ↔ s.Present n)
    (hnew : s'.code .accept ≠ [] → ∀ n, s.Alive n → ¬ Clash (s.registered n) (s'.vm .accept)) :
    s'.EntriesInv where
  clean := hclean
  distinct n m hn hm hclash := h.distinct n m (halive n hn) (halive m hm) (by rwa [hregistered] at hclash)
  newcomer hne n hn := by
    rw [hregistered]
    exact hnew hne n (halive n hn)
  unique g := by
    rw [hregistry]
    exact h.unique g
  entries g ip st := by
    rw [hregistry, hregistered, h.entries]
    simp only [hpresent]

/-! ### Registration, creation of the thread, removal -/

theorem notMem_of_assign {st : VmState} {c : List Instr} (h : assign :: c <:+ acceptCode st) :
    c ≠ [] ∧ assign ∉ c := by
  have hmem := (List.mem_tails _ _).mpr h
  revert hmem
  cases st <;> simp [acceptCode, notify, List.tails] <;> rintro rfl <;> simp

/-- The assignment phase adds the entry of the new connection. -/
theorem entriesInv_assign {s s' : Server} {fresh : ℕ → VmData} {c : List Instr} (h : s.Inv)
    (he : s.EntriesInv) (hcode : s.code .accept = assign :: c) {i : ℕ}
    (hreg : register fresh (s.vm .accept).serviceInfo (s.vm .accept).ipAddress
      (s.vm .accept).socket (s.vm .accept).port s.registry = some (s'.registry, i))
    (hregistered : s'.registered = Function.update s.registered s.created (s.vm .accept))
    (hcreated : s'.created = s.created) (hvm : s'.vm .accept = s.vm .accept)
    (haccept : s'.code .accept = c) (hcomm : ∀ n, s'.code (.comm n) = s.code (.comm n)) :
    s'.EntriesInv := by
  obtain ⟨hne, hassign⟩ := notMem_of_assign (hcode ▸ h.thread.code.fits .accept)
  obtain ⟨reg', k, slot, hreg', -, -, hlive, -⟩ := register_spec h.wf fresh
    (s.vm .accept).serviceInfo (s.vm .accept).ipAddress (s.vm .accept).socket (s.vm .accept).port
  obtain ⟨rfl, -⟩ := Prod.mk.inj (Option.some.inj (hreg'.symm.trans hreg))
  have hold : ∀ n, n < s.created → s'.registered n = s.registered n := fun n hn => by
    rw [hregistered, Function.update_of_ne hn.ne]
  have hself : s'.registered s.created = s.vm .accept := by
    rw [hregistered, Function.update_self]
  have halive : ∀ n, s'.Alive n ↔ s.Alive n := fun n => by
    rw [Alive, Alive, hcreated, hcomm]
  have hbefore : ∀ n, s.Present n ↔ n < s.created ∧ ¬ HasLeft (s.code (.comm n)) := by
    intro n
    simp [Present, hcode]
  have hafter : ∀ n, s'.Present n ↔ s.Present n ∨ n = s.created := by
    intro n
    rw [hbefore, Present, hcreated, hcomm, haccept]
    exact or_congr_right ⟨fun hn => hn.1, fun hn => ⟨hn, hne, hassign⟩⟩
  have hnew : ∀ e ∈ (s.registry (s.vm .accept).serviceInfo.service).live,
      e.ipAddress ≠ (s.vm .accept).ipAddress := by
    intro e hmem hip
    obtain ⟨n, hn, hg, hip', -⟩ := (he.entries _ _ _).mp ⟨e, hmem, hip, rfl⟩
    rw [hbefore] at hn
    exact he.newcomer (by simp [hcode]) n (alive_of_not_hasLeft hn.1 hn.2) ⟨hg, hip'⟩
  refine ⟨fun n hn => ?_, fun n m hn hm hclash => ?_, fun _ n hn => ?_, fun g => ?_,
    fun g ip st => ?_⟩
  · rw [hcomm]
    exact he.clean n (hcreated ▸ hn)
  · rw [halive] at hn hm
    rw [hold n hn.1, hold m hm.1] at hclash
    exact he.distinct n m hn hm hclash
  · rw [halive] at hn
    rw [hold n hn.1, hvm]
    exact he.newcomer (by simp [hcode]) n hn
  · rw [hlive g, List.map_append]
    refine List.Nodup.append (he.unique g) ?_ ?_
    · split <;> simp
    · split
      · rename_i hg
        subst hg
        intro ip hip hip'
        obtain ⟨e, hmem, rfl⟩ := List.mem_map.mp hip
        exact hnew e hmem (by simpa [fillSlot] using hip')
      · simp
  · have hsplit : (∃ e ∈ (s'.registry g).live, e.ipAddress = ip ∧ e.serviceInfo.state = st) ↔
        (∃ e ∈ (s.registry g).live, e.ipAddress = ip ∧ e.serviceInfo.state = st) ∨
          Is (s.vm .accept) g ip st := by
      rw [hlive g]
      by_cases hg : g = (s.vm .accept).serviceInfo.service
      · simp [hg, fillSlot, Is, or_and_right, exists_or]
      · simp [hg, Ne.symm hg, Is]
    rw [hsplit, he.entries]
    constructor
    · rintro (⟨n, hn, his⟩ | his)
      · refine ⟨n, (hafter n).mpr (.inl hn), ?_⟩
        rwa [hold n ((hbefore n).mp hn).1]
      · exact ⟨s.created, (hafter _).mpr (.inr rfl), hself ▸ his⟩
    · rintro ⟨n, hn, his⟩
      rcases (hafter n).mp hn with hn | rfl
      · rw [hold n ((hbefore n).mp hn).1] at his
        exact .inl ⟨n, hn, his⟩
      · exact .inr (hself ▸ his)

/-- The thread of the new connection is created: the entry is now its own. -/
theorem entriesInv_createThread {s s' : Server} (h : s.Inv) (he : s.EntriesInv)
    (hcode : s.code .accept = [createThread]) (hregistry : s'.registry = s.registry)
    (hregistered : s'.registered = s.registered) (hcreated : s'.created = s.created + 1)
    (haccept : s'.code .accept = [])
    (hnew : ∃ g i, s'.code (.comm s.created) = communicationStart g i)
    (hcomm : ∀ n, n < s.created → s'.code (.comm n) = s.code (.comm n)) : s'.EntriesInv := by
  obtain ⟨g₀, i₀, hnew⟩ := hnew
  have hself : s.registered s.created = s.vm .accept :=
    (h.history.assigned (by simp [hcode]) (by simp [hcode])).1
  have hclash : ∀ n, s.Alive n → ¬ Clash (s.registered n) (s.registered s.created) := by
    intro n hn
    rw [hself]
    exact he.newcomer (by simp [hcode]) n hn
  have halive : ∀ n, s'.Alive n → s.Alive n ∨ n = s.created := by
    rintro n ⟨hn, hne⟩
    rcases Nat.lt_succ_iff_lt_or_eq.mp (hcreated ▸ hn) with hlt | rfl
    · exact .inl ⟨hlt, hcomm n hlt ▸ hne⟩
    · exact .inr rfl
  refine ⟨fun n hn => ?_, fun n m hn hm hc => ?_, fun hne => absurd haccept hne, fun g => ?_,
    fun g ip st => ?_⟩
  · rcases Nat.lt_succ_iff_lt_or_eq.mp (hcreated ▸ hn) with hlt | rfl
    · rw [hcomm n hlt]
      exact he.clean n hlt
    · rw [hnew]
      exact .inr (.inr ⟨g₀, i₀, List.suffix_refl _⟩)
  · rw [hregistered] at hc
    rcases halive n hn with hn | rfl
    · rcases halive m hm with hm | rfl
      · exact he.distinct n m hn hm hc
      · exact absurd hc (hclash n hn)
    · rcases halive m hm with hm | rfl
      · exact absurd ⟨hc.1.symm, hc.2.symm⟩ (hclash m hm)
      · rfl
  · rw [hregistry]
    exact he.unique g
  · have hpresent : ∀ n, s'.Present n ↔ s.Present n := by
      intro n
      rw [Present, Present, hcreated, haccept, hcode]
      constructor
      · rintro (⟨hn, hleft⟩ | ⟨-, hne, -⟩)
        · rcases Nat.lt_succ_iff_lt_or_eq.mp hn with hlt | rfl
          · exact .inl ⟨hlt, hcomm n hlt ▸ hleft⟩
          · exact .inr ⟨rfl, by simp, by simp⟩
        · exact absurd rfl hne
      · rintro (⟨hn, hleft⟩ | ⟨rfl, -⟩)
        · exact .inl ⟨Nat.lt_succ_of_lt hn, (hcomm n hn).symm ▸ hleft⟩
        · exact .inl ⟨Nat.lt_succ_self _, by simp [hnew, HasLeft, communicationStart]⟩
    rw [hregistry, hregistered, he.entries]
    simp only [hpresent]

/-- `manage_disconnected_vms` removes the entry of the connection that ends. -/
theorem entriesInv_removeVm {s s' : Server} (h : s.Inv) (he : s.EntriesInv) {n : ℕ}
    (hn : n < s.created) (hcode : s.code (.comm n) = [removeVm, unlockMutex, closeSocket, halt])
    (hreg : manageDisconnectedVms (s.vm (.comm n)) s.registry = some s'.registry)
    (hregistered : s'.registered = s.registered) (hcreated : s'.created = s.created)
    (hvm : s'.vm .accept = s.vm .accept) (haccept : s'.code .accept = s.code .accept)
    (hself : s'.code (.comm n) = [unlockMutex, closeSocket, halt])
    (hcomm : ∀ m, m ≠ n → s'.code (.comm m) = s.code (.comm m)) : s'.EntriesInv := by
  have hsame : (s.vm (.comm n)).SameVm (s.registered n) := by
    cases h.history.place n hn with
    | starting g k hk => simp [hcode, communicationStart] at hk
    | active _ _ hs => exact hs
    | passive _ hk => simp [hcode] at hk
  obtain ⟨reg', hreg', -, hother, -, hsome⟩ := manageDisconnectedVms_spec h.wf (s.vm (.comm n))
  obtain rfl := Option.some.inj (hreg'.symm.trans hreg)
  rw [hsame.1, hsame.2] at hsome
  rw [hsame.1] at hother
  set g₀ := (s.registered n).serviceInfo.service with hg₀
  set ip₀ := (s.registered n).ipAddress with hip₀
  have hleft : ¬ HasLeft (s.code (.comm n)) := by simp [hcode, HasLeft]
  have hpresentN : s.Present n := .inl ⟨hn, hleft⟩
  have haliveN : s.Alive n := alive_of_not_hasLeft hn hleft
  have halive : ∀ m, s'.Alive m → s.Alive m := by
    rintro m ⟨hm, hne⟩
    rcases eq_or_ne m n with rfl | hmn
    · exact haliveN
    · exact ⟨hcreated ▸ hm, hcomm m hmn ▸ hne⟩
  have hpresent : ∀ m, s'.Present m ↔ s.Present m ∧ m ≠ n := by
    intro m
    rw [Present, Present, hcreated, haccept]
    rcases eq_or_ne m n with rfl | hmn
    · simp [hself, HasLeft, hn.ne]
    · simp [hcomm m hmn, hmn]
  -- the entry found is the connection's own: no other has its address
  obtain ⟨e, hfind, he₀⟩ : ∃ e, (s.registry g₀).live.find? (fun e => e.ipAddress == ip₀) = some e ∧
      e.ipAddress = ip₀ := by
    obtain ⟨e, hmem, hip, -⟩ := (he.entries g₀ ip₀ _).mpr ⟨n, hpresentN, rfl, rfl, rfl⟩
    cases hf : (s.registry g₀).live.find? fun e => e.ipAddress == ip₀ with
    | none => exact absurd (by simpa using hip) (List.find?_eq_none.mp hf e hmem)
    | some e' => exact ⟨e', rfl, by simpa using List.find?_some hf⟩
  have hperm := hsome e hfind
  have hnodup : (e.ipAddress :: (s'.registry g₀).live.map VmData.ipAddress).Nodup :=
    ((hperm.map VmData.ipAddress).nodup_iff).mp (he.unique g₀)
  have hrest : ∀ x, x ∈ (s'.registry g₀).live ↔ x ∈ (s.registry g₀).live ∧ x.ipAddress ≠ ip₀ := by
    intro x
    rw [hperm.mem_iff, List.mem_cons]
    constructor
    · intro hx
      refine ⟨.inr hx, fun hip => (List.nodup_cons.mp hnodup).1 ?_⟩
      rw [he₀, ← hip]
      exact List.mem_map_of_mem hx
    · rintro ⟨rfl | hx, hip⟩
      · exact absurd he₀ hip
      · exact hx
  refine ⟨fun m hm => ?_, fun m k hm hk hc => ?_, fun hne m hm => ?_, fun g => ?_,
    fun g ip st => ?_⟩
  · rcases eq_or_ne m n with rfl | hmn
    · rw [hself]
      exact .inl ⟨notify .delete ++ [lockMutex, removeVm], rfl⟩
    · rw [hcomm m hmn]
      exact he.clean m (hcreated ▸ hm)
  · rw [hregistered] at hc
    exact he.distinct m k (halive m hm) (halive k hk) hc
  · rw [hregistered, hvm]
    exact he.newcomer (haccept ▸ hne) m (halive m hm)
  · rcases eq_or_ne g g₀ with rfl | hg
    · exact (List.nodup_cons.mp hnodup).2
    · rw [hother g hg]
      exact he.unique g
  · have hbefore := he.entries g ip st
    rw [hregistered]
    simp only [hpresent]
    rcases eq_or_ne g g₀ with rfl | hg
    · constructor
      · rintro ⟨x, hx, hip, hst⟩
        obtain ⟨hx, hne⟩ := (hrest x).mp hx
        obtain ⟨m, hm, his⟩ := hbefore.mp ⟨x, hx, hip, hst⟩
        refine ⟨m, ⟨hm, ?_⟩, his⟩
        rintro rfl
        exact hne (hip.trans his.2.1.symm)
      · rintro ⟨m, ⟨hm, hmn⟩, his⟩
        obtain ⟨x, hx, hip, hst⟩ := hbefore.mpr ⟨m, hm, his⟩
        refine ⟨x, (hrest x).mpr ⟨hx, fun heq => ?_⟩, hip, hst⟩
        have hclash : Clash (s.registered n) (s.registered m) :=
          ⟨his.1.symm, heq.symm.trans (hip.trans his.2.1.symm)⟩
        rcases hm with ⟨hm, hml⟩ | ⟨rfl, hne, hassign⟩
        · exact hmn (he.distinct n m haliveN (alive_of_not_hasLeft hm hml) hclash).symm
        · rw [(h.history.assigned hne hassign).1] at hclash
          exact he.newcomer hne n haliveN hclash
    · rw [hother g hg, hbefore]
      refine exists_congr fun m => ?_
      constructor
      · rintro ⟨hm, his⟩
        refine ⟨⟨hm, ?_⟩, his⟩
        rintro rfl
        exact hg his.1.symm
      · rintro ⟨⟨hm, -⟩, his⟩
        exact ⟨hm, his⟩

/-! ### Every step -/

/-- A new client's address is not that of a live connection of its group. -/
def NewAddress (s : Server) : Label → Prop
  | .newClient info ip _ _ _ => ∀ n, s.Alive n →
      ¬ ((s.registered n).serviceInfo.service = info.service ∧ (s.registered n).ipAddress = ip)
  | _ => True

/-- An instruction that does not work on the registry. -/
theorem entriesInv_effect {s s₁ : Server} {t : Tid} {env : Env} {i : Instr} {c : List Instr}
    (h : s.Inv) (he : s.EntriesInv) (hcode : s.code t = i :: c)
    (heff : s.effect t env i = some s₁) (hassign : i ≠ assign) (hcreate : i ≠ createThread)
    (hremove : i ≠ removeVm) : EntriesInv { s₁ with code := s.nextCode t env i c } := by
  have hfits : Fits s.acceptState t (i :: c) := hcode ▸ h.thread.code.fits t
  have hself : s.nextCode t env i c t = s.rest t env i c := nextCode_self (.inl hcreate)
  have hother : ∀ u, u ≠ t → s.nextCode t env i c u = s.code u :=
    fun u hu => nextCode_other hu (.inl hcreate)
  have hcreated : s₁.created = s.created := by simpa [hcreate] using (effect_frame heff).created
  have hclean : ∀ n, t = .comm n → Clean (i :: c) := by
    rintro n rfl
    exact hcode ▸ he.clean n (h.thread.code.created_of_effect hcode heff)
  have hswitch : i ≠ switchVm := by
    rintro rfl
    obtain ⟨n, rfl⟩ := ofComm_of_fits hfits List.mem_cons_self rfl
    rcases (hclean n rfl).cases with ⟨hi, -⟩ | ⟨hi, -⟩ | ⟨-, -, hi, -⟩
    · cases hi
    · cases hi
    · exact hi rfl
  have hregistry : s₁.registry = s.registry := by
    apply (effect_frame heff).registry
    cases i <;> simp_all [writesRegistry]
  have hleft : ∀ n, n < s.created →
      (HasLeft (s.nextCode t env i c (.comm n)) ↔ HasLeft (s.code (.comm n))) ∧
        Clean (s.nextCode t env i c (.comm n)) := by
    intro n hn
    by_cases ht : t = .comm n
    · subst ht
      obtain ⟨hc, hl⟩ : Clean (s.rest (.comm n) env i c) ∧
          (HasLeft (s.rest (.comm n) env i c) ↔ HasLeft (i :: c)) :=
        clean_rest (hclean n rfl) hremove (ne_halt_of_effect heff)
      rw [hself, hcode]
      exact ⟨hl, hc⟩
    · rw [hother _ (Ne.symm ht)]
      exact ⟨Iff.rfl, he.clean n hn⟩
  have haccept : (s.nextCode t env i c .accept ≠ [] ↔ s.code .accept ≠ []) ∧
      (assign ∈ s.nextCode t env i c .accept ↔ assign ∈ s.code .accept) := by
    by_cases ht : t = .accept
    · subst ht
      obtain ⟨hr, hne⟩ : s.rest .accept env i c = c ∧ c ≠ [] := accept_rest hfits hcreate
      rw [hself, hr, hcode]
      simp [hne, Ne.symm hassign]
    · rw [hother _ (Ne.symm ht)]
      exact ⟨Iff.rfl, Iff.rfl⟩
  refine he.frame (fun n hn => (hleft n (hcreated ▸ hn)).2) hregistry
    ((effect_frame heff).assigned hassign).2 (fun n hn => ?_) (fun n => ?_) fun hne n hn => ?_
  · obtain ⟨hn, hne⟩ := hn
    change s.nextCode t env i c (.comm n) ≠ [halt] at hne
    refine ⟨hcreated ▸ hn, ?_⟩
    by_cases ht : t = .comm n
    · subst ht
      rw [hcode]
      rintro hhalt
      exact ne_halt_of_effect heff (List.cons.inj hhalt).1
    · rwa [hother _ (Ne.symm ht)] at hne
  · show n < s₁.created ∧ ¬ HasLeft (s.nextCode t env i c (.comm n)) ∨ n = s₁.created ∧
      s.nextCode t env i c .accept ≠ [] ∧ assign ∉ s.nextCode t env i c .accept ↔ _
    rw [hcreated, haccept.1, haccept.2, Present]
    exact or_congr_left (and_congr_right fun hn => not_congr (hleft n hn).1)
  · show ¬ Clash (s.registered n) (s₁.vm .accept)
    rw [effect_vm_accept hfits heff]
    exact he.newcomer (haccept.1.mp hne) n hn

/-- A thread at the head of its loop goes on its way out, or continues. -/
theorem EntriesInv.goto {s : Server} (he : s.EntriesInv) {t : Tid} {c : List Instr}
    (hcode : s.code t = []) (ht : t ≠ .accept) (hc : Clean c) (hleft : ¬ HasLeft c) :
    (s.goto t c).EntriesInv := by
  have haccept : (s.goto t c).code .accept = s.code .accept := s.goto_other c (Ne.symm ht)
  have hsame : ∀ n, (HasLeft ((s.goto t c).code (.comm n)) ↔ HasLeft (s.code (.comm n))) ∧
      (n < s.created → Clean ((s.goto t c).code (.comm n))) := by
    intro n
    by_cases hn : t = .comm n
    · subst hn
      have hself : (s.goto (.comm n) c).code (.comm n) = c := Function.update_self _ _ _
      rw [hself, hcode]
      exact ⟨iff_of_false hleft (by simp [HasLeft]), fun _ => hc⟩
    · rw [s.goto_other c (Ne.symm hn)]
      exact ⟨Iff.rfl, he.clean n⟩
  refine he.frame (fun n hn => (hsame n).2 hn) rfl rfl (fun n hn => ?_) (fun n => ?_) fun hne => ?_
  · obtain ⟨hn, hne⟩ := hn
    refine ⟨hn, ?_⟩
    by_cases hnt : t = .comm n
    · rw [← hnt, hcode]
      simp
    · rwa [s.goto_other c (Ne.symm hnt)] at hne
  · show n < s.created ∧ ¬ HasLeft ((s.goto t c).code (.comm n)) ∨ n = s.created ∧ _ ↔ _
    rw [haccept, Present, (hsame n).1]
  · exact he.newcomer (haccept ▸ hne)

theorem entriesInv_run {s s' : Server} {t : Tid} {env : Env} (h : s.Inv) (he : s.EntriesInv)
    (hstep : s.step (.run t env) = some s') : s'.EntriesInv := by
  rcases step_run hstep with ⟨i, c, s₁, hcode, heff, rfl⟩ | ⟨rfl, hcode, rfl⟩
  · have hfits : Fits s.acceptState t (i :: c) := hcode ▸ h.thread.code.fits t
    by_cases hassign : i = assign
    · subst hassign
      obtain rfl := eq_accept_of_assign hfits
      have hself : s.nextCode .accept env assign c .accept = c := nextCode_self (.inl (by simp))
      have hother : ∀ n, s.nextCode .accept env assign c (.comm n) = s.code (.comm n) :=
        fun n => nextCode_other (by simp) (.inl (by simp))
      simp only [effect, Option.map_eq_some_iff] at heff
      obtain ⟨r, hr, rfl⟩ := heff
      exact entriesInv_assign h he hcode hr rfl rfl rfl hself hother
    by_cases hcreate : i = createThread
    · subst hcreate
      obtain ⟨rfl, rfl⟩ := eq_accept_of_createThread hfits
      obtain rfl := Option.some.inj heff
      have hself : s.nextCode .accept env createThread [] .accept = [] :=
        nextCode_self (.inr (by simp))
      have hother : ∀ n, n < s.created →
          s.nextCode .accept env createThread [] (.comm n) = s.code (.comm n) :=
        fun n hn => nextCode_other (by simp) (.inr (by simp [hn.ne]))
      exact entriesInv_createThread h he hcode rfl rfl rfl hself ⟨_, _, nextCode_created⟩ hother
    by_cases hremove : i = removeVm
    · subst hremove
      obtain ⟨n, rfl⟩ := ofComm_of_fits hfits List.mem_cons_self rfl
      have hn : n < s.created := h.thread.code.created_of_effect hcode heff
      have hc : c = [unlockMutex, closeSocket, halt] := by
        rcases (hcode ▸ he.clean n hn : Clean (removeVm :: c)).cases with ⟨hi, -⟩ | ⟨-, hc⟩ |
          ⟨-, hi, -⟩
        · cases hi
        · exact hc
        · exact absurd rfl hi
      subst hc
      simp only [effect, Option.map_eq_some_iff] at heff
      obtain ⟨reg', hreg, rfl⟩ := heff
      have hself : s.nextCode (.comm n) env removeVm [unlockMutex, closeSocket, halt] (.comm n) =
          [unlockMutex, closeSocket, halt] := nextCode_self (.inl (by simp))
      have hother : ∀ u, u ≠ .comm n →
          s.nextCode (.comm n) env removeVm [unlockMutex, closeSocket, halt] u = s.code u :=
        fun u hu => nextCode_other hu (.inl (by simp))
      exact entriesInv_removeVm h he hn hcode hreg rfl rfl rfl (hother .accept (by simp)) hself
        fun m hm => hother (.comm m) (by simpa using hm)
    exact entriesInv_effect h he hcode heff hassign hcreate hremove
  · split
    · have haccept := s.goto_other sendCode (show Tid.accept ≠ .balancer by simp)
      have hcomm : ∀ n, (s.goto .balancer sendCode).code (.comm n) = s.code (.comm n) :=
        fun n => s.goto_other sendCode (show Tid.comm n ≠ .balancer by simp)
      refine he.frame (fun n hn => hcomm n ▸ he.clean n hn) rfl rfl (fun n hn => ?_) (fun n => ?_)
        fun hne => he.newcomer (haccept ▸ hne)
      · exact ⟨hn.1, hcomm n ▸ hn.2⟩
      · rw [Present, Present, haccept, hcomm]
        rfl
    · exact he

theorem entriesInv_newClient {s s' : Server} (h : s.EntriesInv) (hcode : s.code .accept = [])
    {st : VmState} (haccept : s'.code .accept = acceptCode st)
    (hcomm : ∀ n, s'.code (.comm n) = s.code (.comm n)) (hcreated : s'.created = s.created)
    (hregistry : s'.registry = s.registry) (hregistered : s'.registered = s.registered)
    (hnew : ∀ n, s.Alive n → ¬ Clash (s.registered n) (s'.vm .accept)) : s'.EntriesInv := by
  refine h.frame (fun n hn => ?_) hregistry hregistered (fun n hn => ?_) (fun n => ?_)
    fun _ => hnew
  · rw [hcomm]
    exact h.clean n (hcreated ▸ hn)
  · exact ⟨hcreated ▸ hn.1, hcomm n ▸ hn.2⟩
  · rw [Present, Present, hcreated, hcomm, haccept, hcode]
    simp [acceptCode]

/-- Without a rejuvenation, and with distinct addresses, the registry has the
entries of the connections that have not left. -/
theorem entriesInv_step {s s' : Server} {l : Label} (h : s.Inv) (he : s.EntriesInv)
    (hl : l.NoRejuvenation) (hnew : s.NewAddress l) (hstep : s.step l = some s') :
    s'.EntriesInv := by
  cases l with
  | run t env => exact entriesInv_run h he hstep
  | newClient info ip socket port answered =>
      simp only [step, Option.ite_none_right_eq_some, Option.some.injEq] at hstep
      obtain ⟨⟨hcode, -⟩, rfl⟩ := hstep
      have hself : (s.goto .accept (acceptCode info.state)).code .accept = acceptCode info.state := by
        simp [Server.goto]
      have hother : ∀ n, (s.goto .accept (acceptCode info.state)).code (.comm n) =
          s.code (.comm n) :=
        fun n => s.goto_other _ (show Tid.comm n ≠ .accept by simp)
      refine entriesInv_newClient he hcode hself hother rfl rfl rfl
        fun n hn hclash => hnew n hn ?_
      simpa [Clash, fillSlot] using hclash
  | recvFail n =>
      simp only [step, Option.ite_none_right_eq_some, Option.some.injEq] at hstep
      obtain ⟨⟨hcode, -⟩, rfl⟩ := hstep
      exact he.goto hcode (by simp) (.inl (List.suffix_refl _)) not_hasLeft_exitCode
  | recvFeatures n rejuvenate =>
      simp only [step, Option.ite_none_right_eq_some, Option.some.injEq] at hstep
      obtain ⟨⟨hcode, -⟩, rfl⟩ := hstep
      cases rejuvenate with
      | true => exact absurd hl id
      | false =>
          exact he.goto hcode (by simp) (.inr (.inl (List.suffix_refl _)))
            (by simp [HasLeft, continueCode])

end Server

end A2PM.Controller
