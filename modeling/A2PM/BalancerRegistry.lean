/-
A2PM/BalancerRegistry.lean

The registry of `controller/balancer.c`: `vm_data_set` as
`controller_thread` keeps it, one `SlotTable` for each group.

`listed` is the abstract view of it, the (address, port) pairs of each
group, and `request` what a record from the controller asks to be done to
them.  `applyRecord_spec` connects the two: the code, with its slots, its
growth and its removal by moving the last entry, does what `request` says,
up to the order of the entries.
-/
import A2PM.ControllerData

namespace A2PM.Balancer

open Controller

/-! ### Data -/

/-- `MAX_CONNECTED_CLIENTS`. -/
abbrev maxConnectedClients : ℕ := 5

/-- `struct vm_data` of the balancer. -/
structure VmData where
  ipAddress : String
  port : ℕ
  /-- The addresses of the clients sent to this VM; `"0.0.0.0"`: none. -/
  connectedClients : List String
  deriving DecidableEq, Inhabited

/-- `vm_data_set`, `current_vms` and `allocated_vms`. -/
abbrev Registry := Service → SlotTable VmData

/-- `create_system_image`; `mem` is what `malloc` returned. -/
def createSystemImage (mem : Service → ℕ → VmData) : Registry := fun g =>
  { cells := (List.range numberVMs).map (mem g), current := 0, allocated := numberVMs }

/-- `check_vm_data_set_size`. -/
def checkVmDataSetSize (fresh : ℕ → VmData) (t : SlotTable VmData) : SlotTable VmData :=
  t.ensure fresh

/-- `create_empty_list`. -/
def createEmptyList (e : VmData) : VmData :=
  { e with connectedClients := List.replicate maxConnectedClients "0.0.0.0" }

/-- `delete_vm`. -/
def deleteVm (ip : String) (port : ℕ) (t : SlotTable VmData) : Option (SlotTable VmData) :=
  t.removeFirst fun e => e.ipAddress == ip && e.port == port

/-- The body of `controller_thread`'s loop after its `recv`, on the fields of
`vm`; no operation: "operation not supported". -/
def applyFields (fresh : ℕ → VmData) (ip : String) (port : ℕ) (service : Service)
    (op : Option Operations) (reg : Registry) : Option Registry :=
  let t := checkVmDataSetSize fresh (reg service)
  (t.modify t.current createEmptyList).bind fun t =>
    Option.map (Function.update reg service) <|
      match op with
      | some .add =>
          (t.modify t.current fun e => { e with ipAddress := ip, port := port }).map
            SlotTable.bump
      | some .delete | some .rej => deleteVm ip port t
      | none => some t

/-- The body on a record as the controller sends them. -/
def applyRecord (fresh : ℕ → VmData) (vm : VirtualMachine) (reg : Registry) : Option Registry :=
  applyFields fresh vm.ip vm.port vm.service (some vm.op) reg

/-! ### What a record asks for -/

/-- The addresses and ports listed for group `g`. -/
def listed (reg : Registry) (g : Service) : List (String × ℕ) :=
  (reg g).live.map fun e => (e.ipAddress, e.port)

/-- The lists after a record. -/
def request (vm : VirtualMachine) (l : Service → List (String × ℕ)) :
    Service → List (String × ℕ) :=
  Function.update l vm.service <|
    match vm.op with
    | .add => l vm.service ++ [(vm.ip, vm.port)]
    | .delete | .rej => (l vm.service).erase (vm.ip, vm.port)

/-- The lists after a sequence of records, the first one first. -/
def replay (rs : List VirtualMachine) : Service → List (String × ℕ) :=
  rs.foldl (fun l vm => request vm l) fun _ => []

@[simp] theorem replay_append (rs : List VirtualMachine) (vm : VirtualMachine) :
    replay (rs ++ [vm]) = request vm (replay rs) := by
  rw [replay, List.foldl_append]
  rfl

theorem request_add {vm : VirtualMachine} (hop : vm.op = .add)
    (l : Service → List (String × ℕ)) (g : Service) :
    request vm l g = l g ++ if g = vm.service then [(vm.ip, vm.port)] else [] := by
  rw [request, hop]
  rcases eq_or_ne g vm.service with rfl | hne
  · rw [Function.update_self, if_pos rfl]
  · rw [Function.update_of_ne hne, if_neg hne, List.append_nil]

theorem request_remove {vm : VirtualMachine} (hop : vm.op ≠ .add)
    (l : Service → List (String × ℕ)) (g : Service) :
    request vm l g = if g = vm.service then (l g).erase (vm.ip, vm.port) else l g := by
  have hremove : request vm l = Function.update l vm.service
      ((l vm.service).erase (vm.ip, vm.port)) := by
    unfold request
    cases h : vm.op with
    | add => exact absurd h hop
    | delete | rej => rfl
  rw [hremove]
  rcases eq_or_ne g vm.service with rfl | hne
  · rw [Function.update_self, if_pos rfl]
  · rw [Function.update_of_ne hne, if_neg hne]

theorem request_perm {vm : VirtualMachine} {l m : Service → List (String × ℕ)}
    (h : ∀ g, (l g).Perm (m g)) (g : Service) : (request vm l g).Perm (request vm m g) := by
  unfold request
  rcases eq_or_ne g vm.service with rfl | hne
  · rw [Function.update_self, Function.update_self]
    cases vm.op with
    | add => exact (h _).append_right _
    | delete | rej => exact (h _).erase _
  · rw [Function.update_of_ne hne, Function.update_of_ne hne]
    exact h g

/-! ### What the code does -/

def Registry.Wf (reg : Registry) : Prop := ∀ g, (reg g).Wf

theorem createSystemImage_wf (mem : Service → ℕ → VmData) : (createSystemImage mem).Wf := fun g =>
  ⟨by simp [createSystemImage], by simp [createSystemImage], by simp [createSystemImage]⟩

theorem listed_createSystemImage (mem : Service → ℕ → VmData) (g : Service) :
    listed (createSystemImage mem) g = [] := by
  simp [listed, createSystemImage, SlotTable.live]

/-- `delete_vm` removes one entry with the address and port, if there is one. -/
theorem deleteVm_spec (ip : String) (port : ℕ) {t : SlotTable VmData} (h : t.Wf) :
    ∃ u, deleteVm ip port t = some u ∧ u.Wf ∧
      (u.live.map fun e => (e.ipAddress, e.port)).Perm
        ((t.live.map fun e => (e.ipAddress, e.port)).erase (ip, port)) := by
  obtain ⟨u, hu, hwf, -, hnone, hsome⟩ :=
    SlotTable.removeFirst_spec (fun e => e.ipAddress == ip && e.port == port) h
  refine ⟨u, hu, hwf, ?_⟩
  cases hf : t.live.find? fun e => e.ipAddress == ip && e.port == port with
  | none =>
      rw [hnone hf, List.erase_of_not_mem]
      intro hmem
      obtain ⟨e, he, heq⟩ := List.mem_map.mp hmem
      have := List.find?_eq_none.mp hf e he
      simp_all
  | some e =>
      have hperm := (hsome e hf).map fun e => (e.ipAddress, e.port)
      have he : (e.ipAddress, e.port) = (ip, port) := by
        simpa using List.find?_some hf
      rw [List.map_cons, he] at hperm
      simpa using (hperm.erase (ip, port)).symm

/-- **The code does what the record asks for.** -/
theorem applyRecord_spec (fresh : ℕ → VmData) (vm : VirtualMachine) {reg : Registry}
    (h : reg.Wf) :
    ∃ reg', applyRecord fresh vm reg = some reg' ∧ reg'.Wf ∧
      ∀ g, (listed reg' g).Perm (request vm (listed reg) g) := by
  -- the table with an empty list in its first unused slot
  obtain ⟨t, ht, hwf, hlive, hfill⟩ :=
    SlotTable.prepareNext_spec fresh createEmptyList (h vm.service)
  -- what remains is the operation
  suffices hop : ∃ u, (match some vm.op with
      | some .add => (t.modify t.current fun e => { e with ipAddress := vm.ip, port := vm.port }).map
            SlotTable.bump
      | some .delete | some .rej => deleteVm vm.ip vm.port t
      | none => some t) = some u ∧ u.Wf ∧
      (u.live.map fun e => (e.ipAddress, e.port)).Perm
        (match vm.op with
        | .add => listed reg vm.service ++ [(vm.ip, vm.port)]
        | .delete | .rej => (listed reg vm.service).erase (vm.ip, vm.port)) by
    obtain ⟨u, hu, huwf, hperm⟩ := hop
    refine ⟨Function.update reg vm.service u, ?_, fun g => ?_, fun g => ?_⟩
    · simp only [applyRecord, applyFields, checkVmDataSetSize, ht, Option.bind_some, hu,
        Option.map_some]
    · rcases eq_or_ne g vm.service with rfl | hne
      · rwa [Function.update_self]
      · rw [Function.update_of_ne hne]
        exact h g
    · unfold request
      rcases eq_or_ne g vm.service with rfl | hne
      · rw [listed, Function.update_self, Function.update_self]
        exact hperm
      · rw [listed, Function.update_of_ne hne, Function.update_of_ne hne, listed]
  have hsame : listed reg vm.service = t.live.map fun e => (e.ipAddress, e.port) := by
    rw [listed, hlive]
  rw [hsame]
  cases vm.op with
  | add =>
      obtain ⟨u, x, hu, huwf, hulive⟩ := hfill fun e => { e with ipAddress := vm.ip, port := vm.port }
      refine ⟨u, hu, huwf, ?_⟩
      rw [hulive, hlive, List.map_append]
      exact List.Perm.refl _
  | delete | rej => exact deleteVm_spec vm.ip vm.port hwf

end A2PM.Balancer
