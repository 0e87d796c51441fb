/-
A2PM/ControllerData.lean

The data of `controller/server.c`: the records of the controller and its
registry `vm_data_set`, with the three functions that change the registry
(the registration part of `accept_new_client`, `manage_disconnected_vms`,
`switch_active_machine`).

`vm_data_set[g]`, `current_vms[g]` and `allocated_vms[g]` are one
`SlotTable`.  `int` counters are natural numbers: they count open
descriptors, of which there are fewer than `2 ^ 31`.
-/
import A2PM.SlotTable
import A2PM.SystemFeatures
import Mathlib.Logic.Function.Basic

namespace A2PM.Controller

/-! ### Records -/

/-- `NUMBER_GROUPS`: one group for each type of service. -/
abbrev numberGroups : ℕ := 3

/-- `NUMBER_VMs`: number of slots allocated initially for each group. -/
abbrev numberVMs : ℕ := 5

/-- A service below `NUMBER_GROUPS`, as the handshake of `accept_new_client`
lets it through. -/
abbrev Service := Fin numberGroups

/-- `SERVICE_1` of `enum services`. -/
def service1 : Service := 0

/-- `SERVICE_2` of `enum services`. -/
def service2 : Service := 1

/-- `enum vm_state`. -/
inductive VmState
  | standBy | active | rejuvenating
  deriving DecidableEq, Inhabited

/-- `enum operations`. -/
inductive Operations
  | add | delete | rej
  deriving DecidableEq, Inhabited

/-- `struct vm_service`. -/
structure VmService where
  service : Service
  state : VmState
  providedPort : ℤ
  deriving DecidableEq, Inhabited

/-- `struct vm_data`. -/
structure VmData where
  socket : ℤ
  ipAddress : String
  port : ℕ
  serviceInfo : VmService
  lastFeatures : SystemFeatures
  lastSystemFeaturesStored : ℤ
  deriving DecidableEq, Inhabited

/-- `struct virtual_machine`: the record sent to the balancer. -/
structure VirtualMachine where
  ip : String
  port : ℕ
  service : Service
  op : Operations
  deriving DecidableEq, Inhabited

/-- The two records agree on what a registration says about a VM. -/
def VmData.SameVm (a b : VmData) : Prop :=
  a.serviceInfo = b.serviceInfo ∧ a.ipAddress = b.ipAddress

/-- `htons`, on a little-endian machine. -/
def htons (n : ℕ) : ℕ := n % 256 * 256 + n / 256 % 256

/-- The record that `server.c` fills in for operation `op` about `vm`. -/
def notification (vm : VmData) (op : Operations) : VirtualMachine where
  ip := vm.ipAddress
  port := htons 8080
  service := vm.serviceInfo.service
  op := op

theorem notification_congr {a b : VmData} (h : a.SameVm b) (op : Operations) :
    notification a op = notification b op := by
  rw [notification, notification, h.1, h.2]

/-! ### The registry -/

/-- `vm_data_set` with its counters. -/
abbrev Registry := Service → SlotTable VmData

/-- The registry that `main` sets up; `mem` is what `malloc` returned. -/
def initialRegistry (mem : Service → ℕ → VmData) : Registry := fun g =>
  { cells := (List.range numberVMs).map (mem g), current := 0, allocated := numberVMs }

/-- The four fields of a slot that `accept_new_client` fills in; the last
features keep what the slot held before. -/
def fillSlot (s : VmService) (ip : String) (socket : ℤ) (port : ℕ) (slot : VmData) : VmData :=
  { slot with serviceInfo := s, ipAddress := ip, socket := socket, port := port }

/-- The registration in `accept_new_client`: make room, fill in the first
free slot, and return its index.  (`fresh`: the memory `realloc` adds.) -/
def register (fresh : ℕ → VmData) (s : VmService) (ip : String) (socket : ℤ) (port : ℕ)
    (reg : Registry) : Option (Registry × ℕ) :=
  ((reg s.service).push fresh (fillSlot s ip socket port)).map fun t =>
    (Function.update reg s.service t, (reg s.service).current)

/-- `manage_disconnected_vms`: remove the first entry of the group with the
IP address of `vm`. -/
def manageDisconnectedVms (vm : VmData) (reg : Registry) : Option Registry :=
  let group := vm.serviceInfo.service
  ((reg group).removeFirst fun e => e.ipAddress == vm.ipAddress).map fun t =>
    Function.update reg group t

/-- Mark an entry as `ACTIVE`. -/
def activate (e : VmData) : VmData := { e with serviceInfo.state := .active }

/-- `switch_active_machine` up to its `send`.  The parameter is passed by
value: the first component is the callee's copy of `vm`, which the caller
never sees. -/
def switchActiveMachine (vm : VmData) (reg : Registry) : Option (VmData × Registry) :=
  let vm := { vm with serviceInfo.state := .rejuvenating }
  let group := vm.serviceInfo.service
  ((reg group).modifyFirst (fun e => e.serviceInfo.state == .standBy) activate).map fun t =>
    ({ vm with lastSystemFeaturesStored := 0 }, Function.update reg group t)

/-! ### What the three functions do -/

/-- All groups of the registry are well formed. -/
def Registry.Wf (reg : Registry) : Prop := ∀ g, (reg g).Wf

theorem initialRegistry_wf (mem : Service → ℕ → VmData) : (initialRegistry mem).Wf := fun g =>
  ⟨by simp [initialRegistry], by simp [initialRegistry], by simp [initialRegistry]⟩

@[simp] theorem initialRegistry_live (mem : Service → ℕ → VmData) (g : Service) :
    (initialRegistry mem g).live = [] := by
  simp [initialRegistry, SlotTable.live]

theorem Registry.Wf.update {reg : Registry} (h : reg.Wf) {g : Service} {t : SlotTable VmData}
    (ht : t.Wf) : Registry.Wf (Function.update reg g t) := by
  intro g'
  rcases eq_or_ne g' g with rfl | hne
  · simpa using ht
  · simpa [hne] using h g'

/-- A registration stays in bounds; the new entry is behind the others of
its group, at the index returned, and has the four fields filled in. -/
theorem register_spec {reg : Registry} (h : reg.Wf) (fresh : ℕ → VmData) (s : VmService)
    (ip : String) (socket : ℤ) (port : ℕ) :
    ∃ reg' i slot, register fresh s ip socket port reg = some (reg', i) ∧ reg'.Wf ∧
      (reg' s.service).cells[i]? = some (fillSlot s ip socket port slot) ∧
      (∀ g, (reg' g).live =
        (reg g).live ++ if g = s.service then [fillSlot s ip socket port slot] else []) ∧
      (∀ g, g ≠ s.service → reg' g = reg g) := by
  obtain ⟨t, slot, ht, hwf, -, hcell, hlive⟩ :=
    SlotTable.push_spec fresh (fillSlot s ip socket port) (h s.service)
  refine ⟨Function.update reg s.service t, (reg s.service).current, slot, ?_, h.update hwf, ?_,
    fun g => ?_, fun g hg => by simp [hg]⟩
  · simp [register, ht]
  · simpa using hcell
  · rcases eq_or_ne g s.service with rfl | hne
    · simpa using hlive
    · simp [hne]

/-- `manage_disconnected_vms` stays in bounds and in its group. -/
theorem manageDisconnectedVms_spec {reg : Registry} (h : reg.Wf) (vm : VmData) :
    ∃ reg', manageDisconnectedVms vm reg = some reg' ∧ reg'.Wf ∧
      (∀ g, g ≠ vm.serviceInfo.service → reg' g = reg g) ∧
      ((reg vm.serviceInfo.service).live.find? (fun e => e.ipAddress == vm.ipAddress) = none →
        reg' = reg) ∧
      (∀ e, (reg vm.serviceInfo.service).live.find? (fun e => e.ipAddress == vm.ipAddress) =
          some e →
        (reg vm.serviceInfo.service).live.Perm (e :: (reg' vm.serviceInfo.service).live)) := by
  obtain ⟨t, ht, hwf, -, hnone, hsome⟩ :=
    SlotTable.removeFirst_spec (fun e => e.ipAddress == vm.ipAddress) (h vm.serviceInfo.service)
  refine ⟨Function.update reg vm.serviceInfo.service t, ?_, h.update hwf,
    fun g hg => by simp [hg], fun hn => ?_, fun e he => ?_⟩
  · simp [manageDisconnectedVms, ht]
  · rw [hnone hn, Function.update_eq_self]
  · simpa using hsome e he

/-- `switch_active_machine` stays in bounds and in its group, and changes
the first `STAND_BY` entry only. -/
theorem switchActiveMachine_spec {reg : Registry} (h : reg.Wf) (vm : VmData) :
    ∃ copy reg', switchActiveMachine vm reg = some (copy, reg') ∧ reg'.Wf ∧
      (∀ g, g ≠ vm.serviceInfo.service → reg' g = reg g) ∧
      ((reg vm.serviceInfo.service).live.findIdx? (fun e => e.serviceInfo.state == .standBy) =
        none → reg' = reg) ∧
      (∀ i, (reg vm.serviceInfo.service).live.findIdx?
          (fun e => e.serviceInfo.state == .standBy) = some i →
        ∃ hi : i < (reg vm.serviceInfo.service).live.length,
          (reg' vm.serviceInfo.service).live =
            (reg vm.serviceInfo.service).live.set i
              (activate (reg vm.serviceInfo.service).live[i])) := by
  obtain ⟨t, ht, hwf, -, -, hnone, hsome⟩ :=
    SlotTable.modifyFirst_spec (fun e => e.serviceInfo.state == .standBy) activate
      (h vm.serviceInfo.service)
  refine ⟨{ vm with serviceInfo.state := .rejuvenating, lastSystemFeaturesStored := 0 },
    Function.update reg vm.serviceInfo.service t, ?_, h.update hwf,
    fun g hg => by simp [hg], fun hn => ?_, fun i hi => ?_⟩
  · simp [switchActiveMachine, ht]
  · rw [hnone hn, Function.update_eq_self]
  · simpa using hsome i hi

end A2PM.Controller
