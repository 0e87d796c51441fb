/-
A2PM/BalancerMemory.lean

The registry of `controller/balancer.c` with its pointers: each slot has five
buffers, allocated with `malloc`, for the addresses of its clients.

`controller_thread` gives new buffers to the first unused slot at every
record, and `delete_vm` copies a slot, pointers and all.  The slot that is
given up keeps the pointers of the entry that has moved away, and what a new
block of slots contains is anybody's guess.  Only the listed entries have
buffers of their own (`Sound`).

`read` forgets the pointers.  Main results: a record changes what is read as
the lists demand (`process_spec`), which is what `applyFields` does to the
registry without pointers (`process_refines`); and after any run of records
and client connections the registry is the fold of the records
(`registry_of_run`).
-/
import A2PM.BalancerRegistry
import A2PM.Transition
import Mathlib.Data.List.FinRange
import Mathlib.Data.List.Nodup

namespace A2PM.Balancer

open Controller Transition

/-! ### Data -/

/-- What an unused buffer contains. -/
def noClient : String := "0.0.0.0"

/-- `struct vm_data`, with its pointers. -/
structure VmSlot where
  ipAddress : String
  port : ℕ
  connectedClients : Fin maxConnectedClients → ℕ
  deriving Inhabited

/-- The buffers of a slot, in the order of the array. -/
def VmSlot.buffers (e : VmSlot) : List ℕ := List.ofFn e.connectedClients

/-- `struct virtual_machine`, as `controller_thread` receives it; no
operation: "operation not supported". -/
structure Record where
  ip : String
  port : ℕ
  service : Service
  op : Option Operations

/-- The record is about the VM with this address. -/
def Record.names (r : Record) (ip : String) (port : ℕ) : Bool := ip == r.ip && port == r.port

/-- The entries of its group after a record. -/
def Record.apply (r : Record) (l : List VmData) : List VmData :=
  match r.op with
  | some .add => l ++ [⟨r.ip, r.port, List.replicate maxConnectedClients noClient⟩]
  | some .delete | some .rej =>
      match l.findIdx? fun e => r.names e.ipAddress e.port with
      | none => l
      | some i => SlotTable.swapRemove l i
  | none => l

/-- What a record asks of the addresses and ports of its group. -/
def Record.request (r : Record) (l : List (String × ℕ)) : List (String × ℕ) :=
  match r.op with
  | some .add => l ++ [(r.ip, r.port)]
  | some .delete | some .rej => l.erase (r.ip, r.port)
  | none => l

/-- The fold of a sequence of records, for group `g`. -/
def replayRecords (rs : List Record) (g : Service) : List (String × ℕ) :=
  rs.foldl (fun l r => if r.service = g then r.request l else l) []

/-- The address of a client that has connected. -/
structure ClientIp where
  val : String
  property : val ≠ noClient

/-- The global variables of the balancer, and the buffers. -/
structure Memory where
  /-- `vm_data_set`, `current_vms` and `allocated_vms`. -/
  tables : Service → SlotTable VmSlot
  /-- The buffers that `malloc` has returned; a pointer is an index. -/
  heap : List String
  actualIndex : Service → ℕ

namespace Memory

/-- `create_system_image`; `mem` is what `malloc` returned. -/
def initial (mem : Service → ℕ → VmSlot) : Memory where
  tables := fun g =>
    { cells := (List.range numberVMs).map (mem g), current := 0, allocated := numberVMs }
  heap := []
  actualIndex := fun _ => 0

/-! ### The records -/

/-- `create_empty_list`: the slot; its buffers are the next five. -/
def createEmptyList (heap : List String) (e : VmSlot) : VmSlot :=
  { e with connectedClients := fun i => heap.length + i }

/-- `create_empty_list`: the buffers. -/
def emptyList (heap : List String) : List String :=
  heap ++ List.replicate maxConnectedClients noClient

/-- The body of `controller_thread`'s loop after its `recv`.  (`fresh`: the
memory `realloc` adds.) -/
def process (fresh : ℕ → VmSlot) (r : Record) (m : Memory) : Option Memory :=
  let t := (m.tables r.service).ensure fresh
  (t.modify t.current (createEmptyList m.heap)).bind fun t =>
    Option.map
      (fun t => { m with tables := Function.update m.tables r.service t, heap := emptyList m.heap }) <|
      match r.op with
      | some .add =>
          (t.modify t.current fun e => { e with ipAddress := r.ip, port := r.port }).map
            SlotTable.bump
      | some .delete | some .rej => t.removeFirst fun e => r.names e.ipAddress e.port
      | none => some t

/-! ### The clients -/

/-- `search_ip` from the buffer at `index` on; `none`: it reads a pointer that
`malloc` has not returned. -/
def searchFrom (heap : List String) (ip : String) : List ℕ → ℕ → Option ℕ
  | [], _ => some 0
  | p :: ps, index =>
      (heap[p]?).bind fun s => if s = ip then some (index + 1) else searchFrom heap ip ps (index + 1)

/-- `search_ip`: the number of the first buffer that contains `ip`, counted
from one; 0 if there is none. -/
def searchIp (m : Memory) (e : VmSlot) (ip : String) : Option ℕ :=
  searchFrom m.heap ip e.buffers 0

/-- The loop of `check_already_connected` over the entries from `index` on. -/
def connectedFrom (m : Memory) (ip : String) : List VmSlot → ℕ → Option (Option ℕ)
  | [], _ => some none
  | e :: es, index =>
      (m.searchIp e ip).bind fun k =>
        if 0 < k then some (some index) else m.connectedFrom ip es (index + 1)

/-- The entry of the first service that has the client already. -/
def connectedSlot (m : Memory) (ip : String) : Option (Option ℕ) :=
  m.connectedFrom ip (m.tables service1).live 0

/-- The first line of `get_current_socket`. -/
def wrapIndex (m : Memory) : Memory :=
  if m.actualIndex service1 = (m.tables service1).current then
    { m with actualIndex := Function.update m.actualIndex service1 0 }
  else m

/-- Give the client to slot `actual_index[0]`; `none` also if the slot has no
free buffer, so that the source writes through `connected_clients[-1]`. -/
def assignClient (m : Memory) (ip : String) : Option ((String × ℕ) × Memory) :=
  ((m.tables service1).cells[m.actualIndex service1]?).bind fun e =>
    (m.searchIp e noClient).bind fun k =>
      if k = 0 then none
      else
        (e.buffers[k - 1]?).map fun p =>
          ((e.ipAddress, e.port),
            { m with
              heap := m.heap.set p ip
              actualIndex :=
                Function.update m.actualIndex service1 (m.actualIndex service1 + 1) })

/-- `check_already_connected`: the address that is returned. -/
def checkAlreadyConnected (m : Memory) (ip : String) : Option ((String × ℕ) × Memory) :=
  (m.connectedSlot ip).bind fun found =>
    match found with
    | some i => ((m.tables service1).cells[i]?).map fun e => ((e.ipAddress, e.port), m)
    | none => m.assignClient ip

/-- `get_current_socket`, up to its `connect`. -/
def getCurrentSocket (m : Memory) (ip : ClientIp) : Option ((String × ℕ) × Memory) :=
  m.wrapIndex.checkAlreadyConnected ip.val

/-! ### Steps -/

inductive Label
  /-- `controller_thread` has received a record. -/
  | record (fresh : ℕ → VmSlot) (r : Record)
  /-- A client has connected. -/
  | connect (ip : ClientIp)

/-- One step of the balancer; `none` if it leaves its memory. -/
def step (m : Memory) : Label → Option Memory
  | .record fresh r => m.process fresh r
  | .connect ip => (m.getCurrentSocket ip).map (·.2)

/-- The records of a run. -/
def records : List Label → List Record
  | [] => []
  | .record _ r :: ls => r :: records ls
  | .connect _ :: ls => records ls

/-! ### What is listed -/

/-- What a buffer contains. -/
def content (heap : List String) (p : ℕ) : String := (heap[p]?).getD noClient

/-- An entry without its pointers. -/
def read (heap : List String) (e : VmSlot) : VmData where
  ipAddress := e.ipAddress
  port := e.port
  connectedClients := e.buffers.map (content heap)

/-- The listed entries of group `g`. -/
def view (m : Memory) (g : Service) : List VmData := (m.tables g).live.map (read m.heap)

/-- Their addresses and ports. -/
def listed (m : Memory) (g : Service) : List (String × ℕ) :=
  (m.view g).map fun e => (e.ipAddress, e.port)

/-- The buffers of the listed entries. -/
def buffers (m : Memory) (g : Service) : List ℕ := (m.tables g).live.flatMap VmSlot.buffers

/-- The counters are right, and the listed entries have buffers of their
own. -/
structure Sound (m : Memory) : Prop where
  wf : ∀ g, (m.tables g).Wf
  valid : ∀ g, ∀ p ∈ m.buffers g, p < m.heap.length
  nodup : ∀ g, (m.buffers g).Nodup
  disjoint : ∀ g g', g ≠ g' → (m.buffers g).Disjoint (m.buffers g')

theorem initial_sound (mem : Service → ℕ → VmSlot) : (initial mem).Sound := by
  have hbuffers : ∀ g, (initial mem).buffers g = [] := by
    intro g
    simp [buffers, initial, SlotTable.live]
  refine ⟨fun g => ⟨?_, ?_, ?_⟩, fun g p hp => ?_, fun g => ?_, fun g g' _ => ?_⟩
  · simp [initial]
  · simp [initial]
  · simp [initial]
  · rw [hbuffers] at hp
    cases hp
  · rw [hbuffers]
    exact List.nodup_nil
  · rw [hbuffers]
    exact List.disjoint_nil_left _

/-! ### New buffers -/

theorem length_emptyList (heap : List String) :
    (emptyList heap).length = heap.length + maxConnectedClients := by
  rw [emptyList, List.length_append, List.length_replicate]

/-- `create_empty_list` changes no buffer that is there already. -/
theorem read_emptyList {heap : List String} {e : VmSlot} (h : ∀ p ∈ e.buffers, p < heap.length) :
    read (emptyList heap) e = read heap e := by
  have hclients : e.buffers.map (content (emptyList heap)) = e.buffers.map (content heap) := by
    apply List.map_congr_left
    intro p hp
    rw [content, emptyList, List.getElem?_append_left (h p hp), content]
  rw [read, hclients, read]

theorem mem_buffers_createEmptyList {heap : List String} {e : VmSlot} {p : ℕ} :
    p ∈ (createEmptyList heap e).buffers ↔
      heap.length ≤ p ∧ p < heap.length + maxConnectedClients := by
  rw [VmSlot.buffers, List.mem_ofFn, createEmptyList]
  constructor
  · rintro ⟨i, rfl⟩
    exact ⟨Nat.le_add_right _ _, Nat.add_lt_add_left i.isLt _⟩
  · rintro ⟨hle, hlt⟩
    refine ⟨⟨p - heap.length, by omega⟩, ?_⟩
    show heap.length + (p - heap.length) = p
    omega

theorem nodup_createEmptyList (heap : List String) (e : VmSlot) :
    (createEmptyList heap e).buffers.Nodup := by
  rw [VmSlot.buffers, List.nodup_ofFn]
  intro i j h
  exact Fin.ext (Nat.add_left_cancel h)

/-- The new buffers are empty. -/
theorem read_createEmptyList (heap : List String) (e : VmSlot) :
    read (emptyList heap) (createEmptyList heap e) = Balancer.createEmptyList (read heap e) := by
  have hclients : (createEmptyList heap e).buffers.map (content (emptyList heap)) =
      List.replicate maxConnectedClients noClient := by
    rw [List.eq_replicate_iff]
    constructor
    · rw [List.length_map, VmSlot.buffers, List.length_ofFn]
    · intro s hs
      obtain ⟨p, hp, rfl⟩ := List.mem_map.mp hs
      obtain ⟨hle, hlt⟩ := mem_buffers_createEmptyList.mp hp
      rw [content, emptyList, List.getElem?_append_right hle,
        List.getElem?_replicate_of_lt (by omega)]
      rfl
  rw [read, hclients]
  rfl

/-! ### What a record does -/

/-- A table whose entries have old buffers of the group or new ones. -/
theorem Sound.set {m : Memory} (h : m.Sound) {g : Service} {t : SlotTable VmSlot} (ht : t.Wf)
    (hsub : ∀ p ∈ t.live.flatMap VmSlot.buffers, p ∈ m.buffers g ∨
      m.heap.length ≤ p ∧ p < m.heap.length + maxConnectedClients)
    (hnodup : (t.live.flatMap VmSlot.buffers).Nodup) :
    Sound { m with tables := Function.update m.tables g t, heap := emptyList m.heap } := by
  set m' : Memory :=
    { m with tables := Function.update m.tables g t, heap := emptyList m.heap } with hm'
  have hself : m'.tables g = t := Function.update_self _ _ _
  have hother : ∀ g', g' ≠ g → m'.tables g' = m.tables g' := fun g' hg' =>
    Function.update_of_ne hg' _ _
  have hbuffers : m'.buffers g = t.live.flatMap VmSlot.buffers := by rw [buffers, hself]
  have hbuffers' : ∀ g', g' ≠ g → m'.buffers g' = m.buffers g' := by
    intro g' hg'
    rw [buffers, hother g' hg', buffers]
  have hlen : m'.heap.length = m.heap.length + maxConnectedClients := length_emptyList m.heap
  -- a buffer of the group is in no other one
  have hdisjoint : ∀ g', g' ≠ g → (m'.buffers g).Disjoint (m'.buffers g') := by
    intro g' hg' p hp hp'
    rw [hbuffers] at hp
    rw [hbuffers' g' hg'] at hp'
    rcases hsub p hp with hold | ⟨hle, -⟩
    · exact h.disjoint g g' (Ne.symm hg') hold hp'
    · exact absurd (h.valid g' p hp') (Nat.not_lt.mpr hle)
  refine ⟨fun g' => ?_, fun g' p hp => ?_, fun g' => ?_, fun g₁ g₂ hne => ?_⟩
  · rcases eq_or_ne g' g with rfl | hg'
    · rwa [hself]
    · rw [hother g' hg']
      exact h.wf g'
  · rw [hlen]
    rcases eq_or_ne g' g with rfl | hg'
    · rw [hbuffers] at hp
      rcases hsub p hp with hold | ⟨-, hlt⟩
      · exact Nat.lt_add_right _ (h.valid g' p hold)
      · exact hlt
    · rw [hbuffers' g' hg'] at hp
      exact Nat.lt_add_right _ (h.valid g' p hp)
  · rcases eq_or_ne g' g with rfl | hg'
    · rwa [hbuffers]
    · rw [hbuffers' g' hg']
      exact h.nodup g'
  · rcases eq_or_ne g₁ g with rfl | hg₁
    · exact hdisjoint g₂ (Ne.symm hne)
    · rcases eq_or_ne g₂ g with rfl | hg₂
      · exact List.disjoint_symm (hdisjoint g₁ hg₁)
      · rw [hbuffers' g₁ hg₁, hbuffers' g₂ hg₂]
        exact h.disjoint g₁ g₂ hne

theorem buffers_of_mem {m : Memory} {g : Service} {e : VmSlot} (he : e ∈ (m.tables g).live)
    {p : ℕ} (hp : p ∈ e.buffers) : p ∈ m.buffers g :=
  List.mem_flatMap.mpr ⟨e, he, hp⟩

/-- Creating new buffers for another slot leaves the entries as they read. -/
theorem Sound.view_emptyList {m : Memory} (h : m.Sound) (g : Service) :
    (m.tables g).live.map (read (emptyList m.heap)) = m.view g := by
  apply List.map_congr_left
  intro e he
  exact read_emptyList fun p hp => h.valid g p (buffers_of_mem he hp)

/-- `delete_vm` on a table with the entries of the group. -/
theorem removeFirst_record {m : Memory} (h : m.Sound) (r : Record) {t : SlotTable VmSlot}
    (ht : t.Wf) (hlive : t.live = (m.tables r.service).live) :
    ∃ u, t.removeFirst (fun e => r.names e.ipAddress e.port) = some u ∧ u.Wf ∧
      (∀ p ∈ u.live.flatMap VmSlot.buffers, p ∈ m.buffers r.service) ∧
      (u.live.flatMap VmSlot.buffers).Nodup ∧
      u.live.map (read (emptyList m.heap)) =
        match (m.view r.service).findIdx? fun e => r.names e.ipAddress e.port with
        | none => m.view r.service
        | some i => SlotTable.swapRemove (m.view r.service) i := by
  obtain ⟨u, hu, hwf, -, -, -⟩ :=
    SlotTable.removeFirst_spec (fun e : VmSlot => r.names e.ipAddress e.port) ht
  have hafter := SlotTable.removeFirst_live _ ht hu
  rw [hlive] at hafter
  have hfind : (m.view r.service).findIdx? (fun e => r.names e.ipAddress e.port) =
      (m.tables r.service).live.findIdx? fun e => r.names e.ipAddress e.port := by
    rw [view, List.findIdx?_map]
    rfl
  rw [hfind]
  refine ⟨u, hu, hwf, ?_⟩
  cases hi : (m.tables r.service).live.findIdx? fun e => r.names e.ipAddress e.port with
  | none =>
      rw [hi] at hafter
      rw [hafter]
      exact ⟨fun _ hp => hp, h.nodup _, h.view_emptyList _⟩
  | some i =>
      rw [hi] at hafter
      obtain ⟨hlt, -, -⟩ := List.findIdx?_eq_some_iff_getElem.mp hi
      have hperm := (SlotTable.perm_swapRemove hlt).flatMap_right VmSlot.buffers
      rw [List.flatMap_cons] at hperm
      rw [hafter]
      refine ⟨fun p hp => hperm.mem_iff.mpr (List.mem_append_right _ hp), ?_, ?_⟩
      · exact (List.nodup_append.mp (hperm.nodup_iff.mp (h.nodup _))).2.1
      · rw [SlotTable.map_swapRemove, h.view_emptyList]

/-- **One record.**  The body stays in its memory, and does to the entries of
the record's group what `Record.apply` says. -/
theorem process_spec {m : Memory} (h : m.Sound) (fresh : ℕ → VmSlot) (r : Record) :
    ∃ m', m.process fresh r = some m' ∧ m'.Sound ∧ m'.actualIndex = m.actualIndex ∧
      (∀ g, g ≠ r.service → m'.tables g = m.tables g ∧ m'.view g = m.view g) ∧
      m'.view r.service = r.apply (m.view r.service) := by
  -- the table with new buffers in its first unused slot
  obtain ⟨u, hu, huwf, hulive, hfill⟩ :=
    SlotTable.prepareNext_spec fresh (createEmptyList m.heap) (h.wf r.service)
  -- what remains is the operation
  suffices hop : ∃ v, (match r.op with
      | some .add =>
          (u.modify u.current fun e => { e with ipAddress := r.ip, port := r.port }).map
            SlotTable.bump
      | some .delete | some .rej => u.removeFirst fun e => r.names e.ipAddress e.port
      | none => some u) = some v ∧ v.Wf ∧
      (∀ p ∈ v.live.flatMap VmSlot.buffers, p ∈ m.buffers r.service ∨
        m.heap.length ≤ p ∧ p < m.heap.length + maxConnectedClients) ∧
      (v.live.flatMap VmSlot.buffers).Nodup ∧
      v.live.map (read (emptyList m.heap)) = r.apply (m.view r.service) by
    obtain ⟨v, hv, hvwf, hsub, hnodup, hview⟩ := hop
    refine ⟨_, ?_, h.set hvwf hsub hnodup, rfl, fun g hg => ⟨?_, ?_⟩, ?_⟩
    · show (((m.tables r.service).ensure fresh).modify _ (createEmptyList m.heap)).bind _ = _
      rw [hu, Option.bind_some, hv]
      rfl
    · exact Function.update_of_ne hg _ _
    · rw [view, ← h.view_emptyList g]
      show (Function.update m.tables r.service v g).live.map _ = _
      rw [Function.update_of_ne hg]
    · show (Function.update m.tables r.service v r.service).live.map _ = _
      rw [Function.update_self]
      exact hview
  rw [Record.apply]
  cases r.op with
  | none =>
      refine ⟨u, rfl, huwf, ?_, ?_, ?_⟩
      · rw [hulive]
        exact fun p hp => .inl hp
      · rw [hulive]
        exact h.nodup _
      · rw [hulive]
        exact h.view_emptyList _
  | some op =>
      cases op with
      | add =>
          obtain ⟨v, x, hv, hvwf, hvlive⟩ :=
            hfill fun e => { e with ipAddress := r.ip, port := r.port }
          have hbuffers : v.live.flatMap VmSlot.buffers =
              m.buffers r.service ++ (createEmptyList m.heap x).buffers := by
            rw [hvlive, List.flatMap_append, List.flatMap_singleton]
            rfl
          refine ⟨v, hv, hvwf, ?_, ?_, ?_⟩
          · intro p hp
            rw [hbuffers] at hp
            exact (List.mem_append.mp hp).imp_right mem_buffers_createEmptyList.mp
          · rw [hbuffers, List.nodup_append]
            refine ⟨h.nodup _, nodup_createEmptyList m.heap x, ?_⟩
            rintro p hp q hq rfl
            exact absurd (h.valid _ p hp) (Nat.not_lt.mpr (mem_buffers_createEmptyList.mp hq).1)
          · have hx := congrArg VmData.connectedClients (read_createEmptyList m.heap x)
            rw [hvlive, List.map_append, h.view_emptyList, List.map_singleton]
            refine congrArg (m.view r.service ++ [·]) ?_
            exact congrArg (VmData.mk r.ip r.port) hx
      | delete | rej =>
          obtain ⟨v, hv, hvwf, hsub, hnodup, hview⟩ := removeFirst_record h r huwf hulive
          exact ⟨v, hv, hvwf, fun p hp => .inl (hsub p hp), hnodup, hview⟩

theorem listed_eq (m : Memory) (g : Service) :
    m.listed g = (m.tables g).live.map fun e => (e.ipAddress, e.port) := by
  rw [listed, view, List.map_map]
  rfl

/-- The addresses after a record are those that it asks for. -/
theorem apply_request (r : Record) (l : List VmData) :
    ((r.apply l).map fun e => (e.ipAddress, e.port)).Perm
      (r.request (l.map fun e => (e.ipAddress, e.port))) := by
  rw [Record.apply, Record.request]
  cases r.op with
  | none => exact List.Perm.refl _
  | some op =>
      cases op with
      | add =>
          rw [List.map_append]
          exact List.Perm.refl _
      | delete | rej =>
          dsimp only
          cases hi : l.findIdx? fun e => r.names e.ipAddress e.port with
          | none =>
              rw [List.erase_of_not_mem]
              intro hmem
              obtain ⟨e, he, heq⟩ := List.mem_map.mp hmem
              have hnot := List.findIdx?_eq_none_iff.mp hi e he
              obtain ⟨hip, hport⟩ := Prod.mk.inj heq
              simp [Record.names, hip, hport] at hnot
          | some i =>
              obtain ⟨hlt, hnames, -⟩ := List.findIdx?_eq_some_iff_getElem.mp hi
              have haddress : (l[i].ipAddress, l[i].port) = (r.ip, r.port) := by
                simpa [Record.names] using hnames
              have hperm := (SlotTable.perm_swapRemove hlt).map fun e => (e.ipAddress, e.port)
              rw [List.map_cons, haddress] at hperm
              simpa using (hperm.erase (r.ip, r.port)).symm

/-- The registry without pointers does the same. -/
theorem applyFields_spec (fresh : ℕ → VmData) (r : Record) {reg : Registry} (h : reg.Wf) :
    ∃ reg', applyFields fresh r.ip r.port r.service r.op reg = some reg' ∧ reg'.Wf ∧
      (∀ g, g ≠ r.service → reg' g = reg g) ∧
      (reg' r.service).live = r.apply (reg r.service).live := by
  obtain ⟨u, hu, huwf, hulive, hfill⟩ :=
    SlotTable.prepareNext_spec fresh Balancer.createEmptyList (h r.service)
  suffices hop : ∃ v, (match r.op with
      | some .add =>
          (u.modify u.current fun e => { e with ipAddress := r.ip, port := r.port }).map
            SlotTable.bump
      | some .delete | some .rej => deleteVm r.ip r.port u
      | none => some u) = some v ∧ v.Wf ∧ v.live = r.apply (reg r.service).live by
    obtain ⟨v, hv, hvwf, hvlive⟩ := hop
    refine ⟨Function.update reg r.service v, ?_, fun g => ?_, fun g hg => ?_, ?_⟩
    · show (((reg r.service).ensure fresh).modify ((reg r.service).ensure fresh).current
        Balancer.createEmptyList).bind _ = _
      rw [hu, Option.bind_some]
      exact congrArg (Option.map (Function.update reg r.service)) hv
    · rcases eq_or_ne g r.service with rfl | hne
      · rwa [Function.update_self]
      · rw [Function.update_of_ne hne]
        exact h g
    · exact Function.update_of_ne hg _ _
    · rw [Function.update_self]
      exact hvlive
  rw [Record.apply]
  cases r.op with
  | none => exact ⟨u, rfl, huwf, hulive⟩
  | some op =>
      cases op with
      | add =>
          obtain ⟨v, x, hv, hvwf, hvlive⟩ :=
            hfill fun e => { e with ipAddress := r.ip, port := r.port }
          exact ⟨v, hv, hvwf, hvlive⟩
      | delete | rej =>
          obtain ⟨v, hv, hvwf, -⟩ :=
            SlotTable.removeFirst_spec (fun e : VmData => r.names e.ipAddress e.port) huwf
          have hvlive := SlotTable.removeFirst_live _ huwf hv
          rw [hulive] at hvlive
          exact ⟨v, hv, hvwf, hvlive⟩

/-- **Refinement.**  If the registry without pointers holds what the entries
read, it still does after a record. -/
theorem process_refines {m : Memory} (h : m.Sound) {reg : Registry} (hreg : reg.Wf)
    (hview : ∀ g, m.view g = (reg g).live) (fresh : ℕ → VmSlot) (fresh' : ℕ → VmData)
    (r : Record) :
    ∃ m' reg', m.process fresh r = some m' ∧
      applyFields fresh' r.ip r.port r.service r.op reg = some reg' ∧
      ∀ g, m'.view g = (reg' g).live := by
  obtain ⟨m', hm', -, -, hothers, happly⟩ := process_spec h fresh r
  obtain ⟨reg', hreg', -, hothers', happly'⟩ := applyFields_spec fresh' r hreg
  refine ⟨m', reg', hm', hreg', fun g => ?_⟩
  rcases eq_or_ne g r.service with rfl | hg
  · rw [happly, happly', hview]
  · rw [(hothers g hg).2, hothers' g hg, hview]

/-! ### Client connections -/

/-- The client goes to the first free buffer of the slot at the index. -/
theorem assignClient_eq_some {m m' : Memory} {ip : String} {address : String × ℕ}
    (h : m.assignClient ip = some (address, m')) :
    ∃ e k p, (m.tables service1).cells[m.actualIndex service1]? = some e ∧
      m.searchIp e noClient = some (k + 1) ∧ e.buffers[k]? = some p ∧
      address = (e.ipAddress, e.port) ∧
      m' = { m with
        heap := m.heap.set p ip
        actualIndex := Function.update m.actualIndex service1 (m.actualIndex service1 + 1) } := by
  simp only [assignClient, Option.bind_eq_some_iff] at h
  obtain ⟨e, he, k, hk, h⟩ := h
  cases k with
  | zero => cases h
  | succ k =>
      rw [if_neg (Nat.succ_ne_zero k), Option.map_eq_some_iff] at h
      obtain ⟨p, hp, heq⟩ := h
      obtain ⟨rfl, rfl⟩ := Prod.mk.inj heq
      exact ⟨e, k, p, he, hk, hp, rfl, rfl⟩

theorem wrapIndex_frame (m : Memory) :
    m.wrapIndex.tables = m.tables ∧ m.wrapIndex.heap = m.heap := by
  unfold wrapIndex
  split <;> exact ⟨rfl, rfl⟩

/-- A connection: the client is found, or goes to the slot at the index. -/
theorem getCurrentSocket_cases {m m' : Memory} {ip : ClientIp} {address : String × ℕ}
    (h : m.getCurrentSocket ip = some (address, m')) :
    (∃ i e, m.wrapIndex.connectedSlot ip.val = some (some i) ∧
        (m.tables service1).cells[i]? = some e ∧ address = (e.ipAddress, e.port) ∧
        m' = m.wrapIndex) ∨
      (m.wrapIndex.connectedSlot ip.val = some none ∧
        m.wrapIndex.assignClient ip.val = some (address, m')) := by
  rw [getCurrentSocket, checkAlreadyConnected, Option.bind_eq_some_iff] at h
  obtain ⟨found, hfound, h⟩ := h
  cases found with
  | some i =>
      obtain ⟨e, he, heq⟩ := Option.map_eq_some_iff.mp h
      obtain ⟨rfl, rfl⟩ := Prod.mk.inj heq
      rw [m.wrapIndex_frame.1] at he
      exact .inl ⟨i, e, hfound, he, rfl, rfl⟩
  | none => exact .inr ⟨hfound, h⟩

/-- A connection writes to one buffer at most. -/
theorem getCurrentSocket_frame {m m' : Memory} {ip : ClientIp} {address : String × ℕ}
    (h : m.getCurrentSocket ip = some (address, m')) :
    m'.tables = m.tables ∧ m'.heap.length = m.heap.length := by
  obtain ⟨htables, hheap⟩ := m.wrapIndex_frame
  rcases getCurrentSocket_cases h with ⟨i, e, -, -, -, rfl⟩ | ⟨-, hassign⟩
  · exact ⟨htables, by rw [hheap]⟩
  · obtain ⟨e, k, p, -, -, -, -, rfl⟩ := assignClient_eq_some hassign
    exact ⟨htables, List.length_set.trans (congrArg List.length hheap)⟩

theorem Sound.congr {m m' : Memory} (h : m.Sound) (htables : m'.tables = m.tables)
    (hheap : m'.heap.length = m.heap.length) : m'.Sound := by
  have hbuffers : ∀ g, m'.buffers g = m.buffers g := by
    intro g
    rw [buffers, htables, buffers]
  refine ⟨fun g => htables ▸ h.wf g, fun g p hp => ?_, fun g => ?_, fun g g' hne => ?_⟩
  · rw [hbuffers] at hp
    rw [hheap]
    exact h.valid g p hp
  · rw [hbuffers]
    exact h.nodup g
  · rw [hbuffers, hbuffers]
    exact h.disjoint g g' hne

theorem step_connect {m m' : Memory} {ip : ClientIp} (h : m.step (.connect ip) = some m') :
    ∃ address, m.getCurrentSocket ip = some (address, m') := by
  obtain ⟨r, hr, rfl⟩ := Option.map_eq_some_iff.mp h
  exact ⟨r.1, hr⟩

theorem sound_step {m m' : Memory} {l : Label} (h : m.Sound) (hstep : m.step l = some m') :
    m'.Sound := by
  cases l with
  | record fresh r =>
      obtain ⟨u, hu, hsound, -⟩ := process_spec h fresh r
      obtain rfl := Option.some.inj (hu.symm.trans hstep)
      exact hsound
  | connect ip =>
      obtain ⟨address, hsocket⟩ := step_connect hstep
      obtain ⟨htables, hheap⟩ := getCurrentSocket_frame hsocket
      exact h.congr htables hheap

/-! ### Whole runs -/

/-- What a record does, entry by entry. -/
structure Processed (r : Record) (m m' : Memory) : Prop where
  others : ∀ g, g ≠ r.service → m'.tables g = m.tables g ∧ m'.view g = m.view g
  /-- The new entry has no clients, and the other ones keep theirs. -/
  add : r.op = some .add → m'.view r.service = m.view r.service ++
    [⟨r.ip, r.port, List.replicate maxConnectedClients noClient⟩]
  /-- One entry named is taken out, if there is one; the other ones keep
  their clients, wherever they are. -/
  remove : r.op = some .delete ∨ r.op = some .rej →
    m'.view r.service = m.view r.service ∧
        (∀ e ∈ m.view r.service, r.names e.ipAddress e.port = false) ∨
      ∃ e, r.names e.ipAddress e.port = true ∧
        (m.view r.service).Perm (e :: m'.view r.service)
  other : r.op = none → m'.view r.service = m.view r.service

/-- What `controller_thread` maintains, in a state to which the records `rs`
have led. -/
structure RegistryOk (rs : List Record) (m : Memory) : Prop where
  counters : ∀ g, (m.tables g).current ≤ (m.tables g).allocated ∧
    (m.tables g).cells.length = (m.tables g).allocated
  fold : ∀ g, (m.listed g).Perm (replayRecords rs g)
  unshared : (∀ g, (m.buffers g).Nodup) ∧
    ∀ g g', g ≠ g' → (m.buffers g).Disjoint (m.buffers g')
  next : ∀ fresh r, ∃ m', m.process fresh r = some m' ∧ Processed r m m'

theorem process_processed {m : Memory} (h : m.Sound) (fresh : ℕ → VmSlot) (r : Record) :
    ∃ m', m.process fresh r = some m' ∧ Processed r m m' := by
  obtain ⟨m', hm', -, -, hothers, hview⟩ := process_spec h fresh r
  refine ⟨m', hm', hothers, fun hop => ?_, fun hop => ?_, fun hop => ?_⟩
  · rw [hview, Record.apply, hop]
  · have happly : m'.view r.service =
        match (m.view r.service).findIdx? fun e => r.names e.ipAddress e.port with
        | none => m.view r.service
        | some i => SlotTable.swapRemove (m.view r.service) i := by
      rw [hview, Record.apply]
      rcases hop with hop | hop <;> rw [hop]
    rw [happly]
    cases hi : (m.view r.service).findIdx? fun e => r.names e.ipAddress e.port with
    | none => exact .inl ⟨rfl, List.findIdx?_eq_none_iff.mp hi⟩
    | some i =>
        obtain ⟨hlt, hnames, -⟩ := List.findIdx?_eq_some_iff_getElem.mp hi
        exact .inr ⟨_, hnames, SlotTable.perm_swapRemove hlt⟩
  · rw [hview, Record.apply, hop]

/-- A record changes the addresses as it asks. -/
theorem listed_process {m m' : Memory} (h : m.Sound) {fresh : ℕ → VmSlot} {r : Record}
    (hm' : m.process fresh r = some m') (g : Service) :
    (m'.listed g).Perm (if r.service = g then r.request (m.listed g) else m.listed g) := by
  obtain ⟨u, hu, -, -, hothers, hview⟩ := process_spec h fresh r
  obtain rfl := Option.some.inj (hu.symm.trans hm')
  by_cases hg : r.service = g
  · subst hg
    rw [if_pos rfl, listed, hview]
    exact apply_request r (m.view r.service)
  · rw [if_neg hg, listed, (hothers g (Ne.symm hg)).2, listed]

theorem request_perm_of_perm (r : Record) {l l' : List (String × ℕ)} (h : l.Perm l') :
    (r.request l).Perm (r.request l') := by
  rw [Record.request, Record.request]
  cases r.op with
  | none => exact h
  | some op =>
      cases op with
      | add => exact h.append_right _
      | delete | rej => exact h.erase _

/-- The records of a run, folded from the addresses that its first state
lists. -/
theorem listed_run {m m' : Memory} {ls : List Label} (h : m.Sound) {l : List (String × ℕ)}
    {g : Service} (hl : (m.listed g).Perm l) (hrun : run step m ls = some m') :
    (m'.listed g).Perm
      ((records ls).foldl (fun l r => if r.service = g then r.request l else l) l) := by
  induction ls generalizing m l with
  | nil =>
      obtain rfl := Option.some.inj hrun
      exact hl
  | cons a ls ih =>
      obtain ⟨u, hu, hrest⟩ := run_cons_eq_some.mp hrun
      have hsound := sound_step h hu
      cases a with
      | record fresh r =>
          refine ih hsound ?_ hrest
          refine (listed_process h hu g).trans ?_
          dsimp only
          split
          · exact request_perm_of_perm r hl
          · exact hl
      | connect ip =>
          obtain ⟨address, hsocket⟩ := step_connect hu
          refine ih hsound ?_ hrest
          rw [listed_eq, (getCurrentSocket_frame hsocket).1, ← listed_eq]
          exact hl

/-- **The balancer's registry.**  Every sequence of records is processed
inside the memory of the registry; and whatever clients connect in between,
the registry is the fold of the records, its entries share no buffer, and
the next record changes the entries that it names only. -/
theorem registry_of_run (mem : Service → ℕ → VmSlot) :
    (∀ rs : List ((ℕ → VmSlot) × Record), ∃ m,
      run step (initial mem) (rs.map fun p => .record p.1 p.2) = some m) ∧
    ∀ ls m, run step (initial mem) ls = some m → RegistryOk (records ls) m := by
  refine ⟨fun rs => ?_, fun ls m h => ?_⟩
  · suffices hall : ∀ m : Memory, m.Sound →
        ∃ m', run step m (rs.map fun p => .record p.1 p.2) = some m' from
      hall _ (initial_sound mem)
    induction rs with
    | nil => exact fun m _ => ⟨m, rfl⟩
    | cons p rs ih =>
        intro m h
        obtain ⟨u, hu, hsound, -⟩ := process_spec h p.1 p.2
        obtain ⟨m', hm'⟩ := ih u hsound
        exact ⟨m', run_cons_eq_some.mpr ⟨u, hu, hm'⟩⟩
  · have hsound : m.Sound :=
      invariant_of_run (fun _ _ _ hm hstep => sound_step hm hstep) (initial_sound mem) h
    refine ⟨fun g => ⟨(hsound.wf g).le, (hsound.wf g).len⟩, fun g => ?_,
      ⟨hsound.nodup, hsound.disjoint⟩, fun fresh r => process_processed hsound fresh r⟩
    refine listed_run (initial_sound mem) ?_ h
    rw [listed_eq]
    simp [initial, SlotTable.live]

/-- A VM is added and gets a client, a second one is added, and the first one
is removed. -/
def replacement : List Label :=
  [.record default ⟨"10.0.0.1", 8080, service1, some .add⟩,
    .connect ⟨"192.168.1.1", by decide⟩,
    .record default ⟨"10.0.0.2", 8080, service1, some .add⟩,
    .record default ⟨"10.0.0.1", 8080, service1, some .delete⟩]

theorem registry_of_replacement :
    ∃ m, run step (initial default) replacement = some m ∧
      m.listed service1 = [("10.0.0.2", 8080)] ∧ RegistryOk (records replacement) m := by
  have hsome : (run step (initial default) replacement).isSome = true := by decide
  obtain ⟨m, hm⟩ := Option.isSome_iff_exists.mp hsome
  refine ⟨m, hm, ?_, (registry_of_run default).2 replacement m hm⟩
  obtain rfl := Option.some.inj (hm.symm.trans rfl)
  decide

end Memory

end A2PM.Balancer
