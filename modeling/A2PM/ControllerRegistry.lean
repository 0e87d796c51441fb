/-
A2PM/ControllerRegistry.lean

The controller's registry over whole histories: registrations by
`accept_new_client` and terminations of communication threads, each of
which calls `manage_disconnected_vms` on its own copy of the entry.

A connection is identified by its socket, but `manage_disconnected_vms`
looks for the IP address.  `OwnEntryFirst` says that the two agree for the
thread that terminates: the first entry with its address is its own.
Main result (`along_registryOk_iff`): the registry holds exactly the live
connections, all along a history, iff every termination in it meets
`OwnEntryFirst`.  Two live connections from one address are enough to break
it (`duplicate_ip_removes_wrong_entry`).
-/
import A2PM.ControllerData
import A2PM.Transition
import Mathlib.Data.List.Nodup
import Mathlib.Data.List.Perm.Basic

namespace A2PM.Controller

open Transition

/-- The registry, and the connections registered and not yet terminated,
each as its thread copied it from its slot. -/
structure Connections where
  registry : Registry
  connected : List VmData

/-- One whole step of the accept thread or of a terminating thread. -/
inductive RegistryOp
  | register (s : VmService) (ip : String) (socket : ℤ) (port : ℕ) (fresh : ℕ → VmData)
  | terminate (vm : VmData)

namespace Connections

/-- A new connection has a descriptor that no live one has; only a live
connection's thread can terminate. -/
def Enabled (c : Connections) : RegistryOp → Prop
  | .register _ _ socket _ _ => socket ∉ c.connected.map (·.socket)
  | .terminate vm => vm ∈ c.connected

instance (c : Connections) (op : RegistryOp) : Decidable (c.Enabled op) := by
  cases op <;> unfold Enabled <;> infer_instance

/-- The effect of an operation; `none` where it leaves the block of a
group. -/
def effect (c : Connections) : RegistryOp → Option Connections
  | .register s ip socket port fresh =>
      (Controller.register fresh s ip socket port c.registry).bind fun r =>
        -- the new thread starts with `vm = *(struct vm_data *)v`
        ((r.1 s.service).cells[r.2]?).map fun vm =>
          { registry := r.1, connected := c.connected ++ [vm] }
  | .terminate vm =>
      (manageDisconnectedVms vm c.registry).map fun reg =>
        { registry := reg, connected := c.connected.erase vm }

def step (c : Connections) (op : RegistryOp) : Option Connections :=
  if c.Enabled op then c.effect op else none

def initial (mem : Service → ℕ → VmData) : Connections :=
  { registry := initialRegistry mem, connected := [] }

/-- The entries of group `g`. -/
def entries (c : Connections) (g : Service) : List VmData := (c.registry g).live

/-- The live connections of group `g`. -/
def group (c : Connections) (g : Service) : List VmData :=
  c.connected.filter fun vm => vm.serviceInfo.service = g

/-- What the registry is for: the counters are right, the used slots of a
group hold its live connections, each once, and no operation accesses a
slot outside its block. -/
structure RegistryOk (c : Connections) : Prop where
  wf : c.registry.Wf
  holds : ∀ g, (c.entries g).Perm (c.group g)
  inBounds : ∀ op, c.Enabled op → (c.effect op).isSome

/-- The inductive form: the slots are right and sockets are identities. -/
structure Inv (c : Connections) : Prop where
  wf : c.registry.Wf
  holds : ∀ g, (c.entries g).Perm (c.group g)
  sockets : (c.connected.map (·.socket)).Nodup

/-- If `op` is a termination, the first entry of the group with the IP
address of the terminating connection is the connection's own. -/
def OwnEntryFirst (c : Connections) : RegistryOp → Prop
  | .register .. => True
  | .terminate vm => ∀ e,
      (c.entries vm.serviceInfo.service).find? (fun e => e.ipAddress == vm.ipAddress) = some e →
        e.socket = vm.socket

/-! ### The operations -/

theorem initial_inv (mem : Service → ℕ → VmData) : (initial mem).Inv :=
  ⟨initialRegistry_wf mem, fun g => by simp [entries, group, initial], by simp [initial]⟩

theorem effect_register {c : Connections} (h : c.registry.Wf) (s : VmService) (ip : String)
    (socket : ℤ) (port : ℕ) (fresh : ℕ → VmData) :
    ∃ c' vm, c.effect (.register s ip socket port fresh) = some c' ∧ c'.registry.Wf ∧
      vm.socket = socket ∧ c'.connected = c.connected ++ [vm] ∧
      ∀ g, c'.entries g = c.entries g ++ [vm].filter fun vm => vm.serviceInfo.service = g := by
  obtain ⟨reg', i, slot, hreg, hwf, hcell, hlive, -⟩ := register_spec h fresh s ip socket port
  refine ⟨⟨reg', c.connected ++ [fillSlot s ip socket port slot]⟩,
    fillSlot s ip socket port slot, ?_, hwf, rfl, rfl, fun g => ?_⟩
  · simp [effect, hreg, hcell]
  · show (reg' g).live = _
    rw [hlive g]
    rcases eq_or_ne g s.service with rfl | hne
    · simp [entries, fillSlot]
    · simp [entries, fillSlot, hne, hne.symm]

theorem effect_terminate {c : Connections} (h : c.registry.Wf) (vm : VmData) :
    ∃ c', c.effect (.terminate vm) = some c' ∧ c'.registry.Wf ∧
      c'.connected = c.connected.erase vm ∧
      (∀ g, g ≠ vm.serviceInfo.service → c'.entries g = c.entries g) ∧
      (∀ e, (c.entries vm.serviceInfo.service).find? (fun e => e.ipAddress == vm.ipAddress) =
          some e →
        (c.entries vm.serviceInfo.service).Perm (e :: c'.entries vm.serviceInfo.service)) := by
  obtain ⟨reg', hreg, hwf, hne, -, hsome⟩ := manageDisconnectedVms_spec h vm
  refine ⟨⟨reg', c.connected.erase vm⟩, ?_, hwf, rfl, fun g hg => ?_, hsome⟩
  · simp [effect, hreg]
  · show (reg' g).live = _
    rw [hne g hg, entries]

/-- No operation leaves the block it works on, whatever the addresses. -/
theorem effect_isSome {c : Connections} (h : c.registry.Wf) (op : RegistryOp) :
    (c.effect op).isSome := by
  cases op with
  | register s ip socket port fresh =>
      obtain ⟨c', -, hc', -⟩ := effect_register h s ip socket port fresh
      simp [hc']
  | terminate vm =>
      obtain ⟨c', hc', -⟩ := effect_terminate h vm
      simp [hc']

theorem Inv.registryOk {c : Connections} (h : c.Inv) : c.RegistryOk :=
  ⟨h.wf, h.holds, fun op _ => effect_isSome h.wf op⟩

/-- Taking a connection out takes it out of its own group only. -/
theorem filter_erase {c : Connections} {vm : VmData} (hvm : vm ∈ c.connected) (g : Service) :
    (c.group g).Perm ([vm].filter (fun vm => vm.serviceInfo.service = g) ++
      (c.connected.erase vm).filter fun vm => vm.serviceInfo.service = g) := by
  rw [← List.filter_append]
  exact (List.perm_cons_erase hvm).filter _

theorem step_register {c c' : Connections} {s : VmService} {ip : String} {socket : ℤ}
    {port : ℕ} {fresh : ℕ → VmData} (h : c.Inv)
    (hstep : c.step (.register s ip socket port fresh) = some c') : c'.Inv := by
  obtain ⟨d, vm, hd, hwf, hsock, hconn, hent⟩ := effect_register h.wf s ip socket port fresh
  unfold step at hstep
  split at hstep
  · rename_i hen
    obtain rfl := Option.some.inj (hd.symm.trans hstep)
    refine ⟨hwf, fun g => ?_, ?_⟩
    · rw [hent g, group, hconn, List.filter_append]
      exact (h.holds g).append_right _
    · rw [hconn, List.map_append, List.map_singleton, hsock]
      exact h.sockets.append (List.nodup_singleton socket) (List.disjoint_singleton.mpr hen)
  · cases hstep

theorem step_terminate {c c' : Connections} {vm : VmData} (h : c.Inv)
    (hown : c.OwnEntryFirst (.terminate vm)) (hstep : c.step (.terminate vm) = some c') :
    c'.Inv := by
  obtain ⟨d, hd, hwf, hconn, hother, hfirst⟩ := effect_terminate h.wf vm
  unfold step at hstep
  split at hstep
  · rename_i hvm
    obtain rfl := Option.some.inj (hd.symm.trans hstep)
    have hmem : vm ∈ c.entries vm.serviceInfo.service := by
      rw [(h.holds _).mem_iff]
      exact List.mem_filter.mpr ⟨hvm, by simp⟩
    obtain ⟨e, he⟩ := Option.isSome_iff_exists.mp
      (List.find?_isSome.mpr ⟨vm, hmem, by simp⟩ :
        ((c.entries vm.serviceInfo.service).find? fun e => e.ipAddress == vm.ipAddress).isSome)
    -- the entry found has the socket of `vm`, so it is `vm`
    have hec : e ∈ c.connected :=
      (List.mem_filter.mp ((h.holds _).mem_iff.mp (List.mem_of_find?_eq_some he))).1
    obtain rfl : e = vm := List.inj_on_of_nodup_map h.sockets hec hvm (hown e he)
    refine ⟨hwf, fun g => ?_, ?_⟩
    · rw [group, hconn]
      rcases eq_or_ne g e.serviceInfo.service with rfl | hne
      · have := ((hfirst e he).symm.trans (h.holds _)).trans (filter_erase hvm _)
        simpa using this
      · have := (h.holds g).trans (filter_erase hvm g)
        rw [hother g hne]
        simpa [hne.symm] using this
    · rw [hconn]
      exact h.sockets.sublist (List.erase_sublist.map _)
  · cases hstep

/-- A termination that removes another connection's entry leaves that
connection without one. -/
theorem ownEntryFirst_of_holds {c c' : Connections} {op : RegistryOp} (h : c.Inv)
    (hstep : c.step op = some c') (hok : c'.RegistryOk) : c.OwnEntryFirst op := by
  cases op with
  | register => trivial
  | terminate vm =>
      intro e he
      obtain ⟨d, hd, -, hconn, -, hfirst⟩ := effect_terminate h.wf vm
      unfold step at hstep
      split at hstep
      · rename_i hvm
        obtain rfl := Option.some.inj (hd.symm.trans hstep)
        have hbefore := ((hfirst e he).symm.trans (h.holds _)).trans (filter_erase hvm _)
        have hafter := hok.holds vm.serviceInfo.service
        rw [group, hconn] at hafter
        have : (e :: d.entries vm.serviceInfo.service).Perm
            (vm :: d.entries vm.serviceInfo.service) := by
          refine hbefore.trans ?_
          simpa using (hafter.cons vm).symm
        rw [List.singleton_perm_singleton.mp (List.perm_append_right_iff _ |>.mp
          (by simpa using this : ([e] ++ _).Perm ([vm] ++ _)))]
      · cases hstep

/-! ### Whole histories -/

/-- **The registry over a history.**  Whatever `malloc` and `realloc`
return: all along a history of registrations and terminations the used
slots of every group hold exactly its live connections, in bounds, iff at
each termination the first entry with the connection's IP address is the
connection's own. -/
theorem along_registryOk_iff (mem : Service → ℕ → VmData) (ops : List RegistryOp) :
    Along step RegistryOk (initial mem) ops ↔ AllSteps step OwnEntryFirst (initial mem) ops := by
  refine along_iff_allSteps (fun _ => Inv.registryOk) ?_ ?_ (initial_inv mem)
  · intro c op c' h hown hstep
    cases op with
    | register => exact step_register h hstep
    | terminate => exact step_terminate h hown hstep
  · intro c op c' h hstep hok
    exact ownEntryFirst_of_holds h hstep hok

/-! ### A VM that reconnects before its old connection is reaped -/

/-- Two connections from one address for `SERVICE_1`, on descriptors 4 and 5;
the thread of the second terminates. -/
def reconnection : List RegistryOp :=
  let s : VmService := ⟨service1, .active, 8080⟩
  let entry (socket : ℤ) : VmData := ⟨socket, "10.0.0.1", 4000, s, default, 0⟩
  [.register s "10.0.0.1" 4 4000 default, .register s "10.0.0.1" 5 4000 default,
    .terminate (entry 5)]

/-- The entry of connection 4 is removed: the registry then lists the
terminated connection 5, and the live connection 4 has no entry. -/
theorem duplicate_ip_removes_wrong_entry :
    ((run step (initial default) reconnection).map fun c =>
      ((c.entries service1).map (·.socket), c.connected.map (·.socket))) = some ([5], [4]) ∧
    ¬ Along step RegistryOk (initial default) reconnection := by
  have hfinal : ((run step (initial default) reconnection).map fun c =>
      ((c.entries service1).map (·.socket), c.connected.map (·.socket))) = some ([5], [4]) := by
    decide
  refine ⟨hfinal, fun hok => ?_⟩
  obtain ⟨c, hc, hsockets⟩ := Option.map_eq_some_iff.mp hfinal
  obtain ⟨hentries, hconnected⟩ := Prod.mk.inj hsockets
  have hsub : ((c.group service1).map (·.socket)).Sublist (c.connected.map (·.socket)) :=
    List.filter_sublist.map _
  have hmem : (5 : ℤ) ∈ (c.group service1).map (·.socket) := by
    rw [← (((hok.last hc).holds service1).map (·.socket)).mem_iff, hentries]
    exact List.mem_singleton.mpr rfl
  have := hsub.subset hmem
  rw [hconnected] at this
  simp at this

end Connections

end A2PM.Controller
