/-
A2PM/BalancerRouting.lean

Where the balancer sends its clients: `check_already_connected` looks for the
client in the lists of the listed VMs, and takes the VM at `actual_index[0]`
if it finds none.

The search is right as long as the buffers are (`connectedSlot_eq`).  The
index is not: it is set back only where it equals `current_vms[0]`, which a
removal may lower below it.  It stays in range exactly as long as no removal
finds it at the end (`along_routesLive_iff`).  A client that has been
assigned to a listed VM goes back to it until that VM is removed
(`sticky_sessions`).
-/
import A2PM.BalancerMemory
import Mathlib.Data.Fintype.EquivFin

namespace A2PM.Balancer

open Controller Transition

namespace Memory

/-! ### The search -/

theorem Sound.getElem?_heap {m : Memory} (h : m.Sound) {g : Service} {p : ℕ}
    (hp : p ∈ m.buffers g) : m.heap[p]? = some (content m.heap p) := by
  rw [content, List.getElem?_eq_getElem (h.valid g p hp)]
  rfl

/-- `search_ip` on valid pointers. -/
theorem searchFrom_eq {heap : List String} {ps : List ℕ}
    (h : ∀ p ∈ ps, heap[p]? = some (content heap p)) (ip : String) (index : ℕ) :
    searchFrom heap ip ps index =
      some (match (ps.map (content heap)).findIdx? fun s => s == ip with
        | some j => index + j + 1
        | none => 0) := by
  induction ps generalizing index with
  | nil => rfl
  | cons p ps ih =>
      rw [searchFrom, h p List.mem_cons_self, Option.bind_some, List.map_cons, List.findIdx?_cons]
      by_cases hip : content heap p = ip
      · rw [if_pos hip, if_pos (beq_iff_eq.mpr hip)]
      · have hbeq : (content heap p == ip) = false := beq_eq_false_iff_ne.mpr hip
        rw [if_neg hip, ih (fun q hq => h q (List.mem_cons_of_mem p hq)), hbeq]
        cases (ps.map (content heap)).findIdx? fun s => s == ip with
        | none => rfl
        | some j =>
            simp only [Bool.false_eq_true, if_false, Option.map_some]
            rw [Nat.add_assoc index 1 j, Nat.add_comm 1 j]

theorem searchIp_eq {m : Memory} (h : m.Sound) {g : Service} {e : VmSlot}
    (he : e ∈ (m.tables g).live) (ip : String) :
    m.searchIp e ip =
      some (match (read m.heap e).connectedClients.findIdx? fun s => s == ip with
        | some j => j + 1
        | none => 0) := by
  have hvalid : ∀ p ∈ e.buffers, m.heap[p]? = some (content m.heap p) :=
    fun p hp => h.getElem?_heap (buffers_of_mem he hp)
  rw [searchIp, searchFrom_eq hvalid]
  simp only [Nat.zero_add]
  rfl

/-- The entry has the client. -/
def hasClient (ip : String) (e : VmData) : Bool := e.connectedClients.contains ip

theorem connectedFrom_eq {m : Memory} (h : m.Sound) (ip : String) {es : List VmSlot}
    (hes : ∀ e ∈ es, e ∈ (m.tables service1).live) (index : ℕ) :
    m.connectedFrom ip es index =
      some (((es.map (read m.heap)).findIdx? (hasClient ip)).map (index + ·)) := by
  induction es generalizing index with
  | nil => rfl
  | cons e es ih =>
      rw [connectedFrom, searchIp_eq h (hes e List.mem_cons_self), Option.bind_some, List.map_cons,
        List.findIdx?_cons]
      cases hfind : (read m.heap e).connectedClients.findIdx? fun s => s == ip with
      | some j =>
          have hhas : hasClient ip (read m.heap e) = true := by
            obtain ⟨hj, hip, -⟩ := List.findIdx?_eq_some_iff_getElem.mp hfind
            rw [hasClient, List.contains_iff_mem, ← beq_iff_eq.mp hip]
            exact List.getElem_mem hj
          rw [hhas]
          rfl
      | none =>
          have hhas : hasClient ip (read m.heap e) = false := by
            rw [hasClient, ← Bool.not_eq_true, List.contains_iff_mem]
            intro hmem
            have := List.findIdx?_eq_none_iff.mp hfind ip hmem
            rw [beq_self_eq_true] at this
            cases this
          rw [hhas, if_neg (lt_irrefl 0), ih fun e' he' => hes e' (List.mem_cons_of_mem e he')]
          simp only [Bool.false_eq_true, if_false, Option.map_map]
          congr 2
          funext j
          show index + 1 + j = index + (j + 1)
          omega

/-- **The loop of `check_already_connected`.**  It finds the first entry that
has the client. -/
theorem connectedSlot_eq {m : Memory} (h : m.Sound) (ip : String) :
    m.connectedSlot ip = some ((m.view service1).findIdx? (hasClient ip)) := by
  rw [connectedSlot, connectedFrom_eq h ip fun _ he => he]
  simp [view]

/-! ### The index -/

/-- The slot that `check_already_connected` selects. -/
def selectedSlot (m : Memory) (ip : String) : Option ℕ :=
  (m.connectedSlot ip).map fun found => found.getD (m.actualIndex service1)

/-- **Routing to a live VM.**  Whichever client connects, the slot selected is
a used one. -/
def RoutesLive (m : Memory) : Prop :=
  1 ≤ (m.tables service1).current → ∀ ip : ClientIp, ∃ i,
    m.wrapIndex.selectedSlot ip.val = some i ∧ i < (m.tables service1).current

/-- The index stays in range: a removal does not find it behind the last
entry, unless it removes that one entry; and an index that has moved while no
VM was listed has moved once. -/
def KeepsRange (m : Memory) : Label → Prop
  | .record _ r => r.service = service1 →
      match r.op with
      | some .add =>
          (m.tables service1).current = 0 → m.actualIndex service1 ≤ 1
      | some .delete | some .rej =>
          (∃ e ∈ m.view service1, r.names e.ipAddress e.port = true) →
            (m.tables service1).current = 1 ∨
              m.actualIndex service1 < (m.tables service1).current
      | none => True
  | .connect _ => True

/-- The index is in range, or no VM is listed. -/
structure Inv (m : Memory) : Prop where
  sound : m.Sound
  range : (m.tables service1).current = 0 ∨
    m.actualIndex service1 ≤ (m.tables service1).current

theorem wrapIndex_actualIndex (m : Memory) :
    m.wrapIndex.actualIndex service1 =
      if m.actualIndex service1 = (m.tables service1).current then 0
      else m.actualIndex service1 := by
  unfold wrapIndex
  split
  · show Function.update m.actualIndex service1 0 service1 = 0
    rw [Function.update_self]
  · rfl

theorem wrapIndex_view (m : Memory) (g : Service) : m.wrapIndex.view g = m.view g := by
  obtain ⟨htables, hheap⟩ := m.wrapIndex_frame
  rw [view, htables, hheap, view]

theorem Sound.wrapIndex {m : Memory} (h : m.Sound) : m.wrapIndex.Sound := by
  obtain ⟨htables, hheap⟩ := m.wrapIndex_frame
  exact h.congr htables (congrArg List.length hheap)

theorem length_view {m : Memory} (h : m.Sound) (g : Service) :
    (m.view g).length = (m.tables g).current := by
  rw [view, List.length_map, (h.wf g).length_live]

theorem selectedSlot_eq {m : Memory} (h : m.Sound) (ip : String) :
    m.wrapIndex.selectedSlot ip =
      some (((m.view service1).findIdx? (hasClient ip)).getD
        (m.wrapIndex.actualIndex service1)) := by
  rw [selectedSlot, connectedSlot_eq h.wrapIndex, wrapIndex_view]
  rfl

/-- `check_already_connected` returns the address in the slot selected. -/
theorem address_selectedSlot {m m' : Memory} {ip : ClientIp} {address : String × ℕ}
    (h : m.getCurrentSocket ip = some (address, m')) :
    ∃ i e, m.wrapIndex.selectedSlot ip.val = some i ∧
      (m.tables service1).cells[i]? = some e ∧ address = (e.ipAddress, e.port) := by
  rcases getCurrentSocket_cases h with ⟨i, e, hfound, he, rfl, -⟩ | ⟨hnew, hassign⟩
  · refine ⟨i, e, ?_, he, rfl⟩
    rw [selectedSlot, hfound]
    rfl
  · obtain ⟨e, k, p, he, -, -, rfl, -⟩ := assignClient_eq_some hassign
    rw [m.wrapIndex_frame.1] at he
    refine ⟨m.wrapIndex.actualIndex service1, e, ?_, he, rfl⟩
    rw [selectedSlot, hnew]
    rfl

/-- Some client is in no list. -/
theorem exists_newClient (l : List VmData) :
    ∃ ip : ClientIp, l.findIdx? (hasClient ip.val) = none := by
  obtain ⟨ip, hfinset⟩ := Infinite.exists_notMem_finset
    (noClient :: l.flatMap VmData.connectedClients).toFinset
  have hip : ip ∉ noClient :: l.flatMap VmData.connectedClients :=
    fun hmem => hfinset (List.mem_toFinset.mpr hmem)
  rw [List.mem_cons, not_or] at hip
  refine ⟨⟨ip, hip.1⟩, List.findIdx?_eq_none_iff.mpr fun e he => ?_⟩
  rw [hasClient, ← Bool.not_eq_true, List.contains_iff_mem]
  exact fun hmem => hip.2 (List.mem_flatMap.mpr ⟨e, he, hmem⟩)

/-- A client that is new goes to the index, one that is not to a used slot. -/
theorem routesLive_iff {m : Memory} (h : m.Sound) :
    m.RoutesLive ↔ (m.tables service1).current = 0 ∨
      m.actualIndex service1 ≤ (m.tables service1).current := by
  constructor
  · intro hlive
    by_cases hzero : (m.tables service1).current = 0
    · exact .inl hzero
    · obtain ⟨ip, hnew⟩ := exists_newClient (m.view service1)
      obtain ⟨i, hi, hlt⟩ := hlive (Nat.one_le_iff_ne_zero.mpr hzero) ip
      rw [selectedSlot_eq h, hnew, Option.getD_none, Option.some.injEq,
        wrapIndex_actualIndex] at hi
      right
      split at hi <;> omega
  · intro hrange hpos ip
    refine ⟨_, selectedSlot_eq h ip.val, ?_⟩
    cases hfind : (m.view service1).findIdx? (hasClient ip.val) with
    | some i =>
        obtain ⟨hi, -, -⟩ := List.findIdx?_eq_some_iff_getElem.mp hfind
        rwa [length_view h] at hi
    | none =>
        rw [Option.getD_none, wrapIndex_actualIndex]
        split <;> omega

/-! ### One step -/

/-- The number of entries after a record. -/
theorem length_apply (r : Record) (l : List VmData) :
    (r.apply l).length =
      match r.op with
      | some .add => l.length + 1
      | some .delete | some .rej =>
          if ∃ e ∈ l, r.names e.ipAddress e.port = true then l.length - 1 else l.length
      | none => l.length := by
  rw [Record.apply]
  cases r.op with
  | none => rfl
  | some op =>
      cases op with
      | add => rw [List.length_append, List.length_singleton]
      | delete | rej =>
          dsimp only
          cases hi : l.findIdx? fun e => r.names e.ipAddress e.port with
          | none =>
              rw [if_neg]
              rintro ⟨e, he, hnames⟩
              rw [List.findIdx?_eq_none_iff.mp hi e he] at hnames
              cases hnames
          | some i =>
              obtain ⟨hlt, hnames, -⟩ := List.findIdx?_eq_some_iff_getElem.mp hi
              rw [if_pos ⟨l[i], List.getElem_mem hlt, hnames⟩]
              exact SlotTable.length_swapRemove l i

theorem current_process {m m' : Memory} (h : m.Sound) {fresh : ℕ → VmSlot} {r : Record}
    (hm' : m.process fresh r = some m') :
    m'.Sound ∧ m'.actualIndex = m.actualIndex ∧
      (m'.tables service1).current =
        if r.service = service1 then (r.apply (m.view service1)).length
        else (m.tables service1).current := by
  obtain ⟨u, hu, hsound, hactual, hothers, hview⟩ := process_spec h fresh r
  obtain rfl := Option.some.inj (hu.symm.trans hm')
  refine ⟨hsound, hactual, ?_⟩
  by_cases hg : r.service = service1
  · rw [if_pos hg, ← length_view hsound, ← hg, hview]
  · rw [if_neg hg, (hothers service1 (Ne.symm hg)).1]

theorem actualIndex_connect {m m' : Memory} {ip : ClientIp} {address : String × ℕ}
    (h : m.getCurrentSocket ip = some (address, m')) :
    m'.actualIndex service1 ≤ m.wrapIndex.actualIndex service1 + 1 := by
  rcases getCurrentSocket_cases h with ⟨i, e, -, -, -, rfl⟩ | ⟨-, hassign⟩
  · exact Nat.le_succ _
  · obtain ⟨e, k, p, -, -, -, -, rfl⟩ := assignClient_eq_some hassign
    show Function.update m.wrapIndex.actualIndex service1
      (m.wrapIndex.actualIndex service1 + 1) service1 ≤ _
    rw [Function.update_self]

theorem inv_step {m m' : Memory} {l : Label} (h : m.Inv) (hl : m.KeepsRange l)
    (hstep : m.step l = some m') : m'.Inv := by
  have hrange := h.range
  cases l with
  | connect ip =>
      obtain ⟨address, hsocket⟩ := step_connect hstep
      obtain ⟨htables, -⟩ := getCurrentSocket_frame hsocket
      refine ⟨sound_step h.sound hstep, ?_⟩
      have hactual := actualIndex_connect hsocket
      rw [wrapIndex_actualIndex] at hactual
      rw [htables]
      split at hactual <;> omega
  | record fresh r =>
      obtain ⟨hsound, hactual, hcurrent⟩ := current_process h.sound hstep
      refine ⟨hsound, ?_⟩
      rw [hactual]
      by_cases hg : r.service = service1
      · have hl := hl hg
        rw [if_pos hg, length_apply, length_view h.sound] at hcurrent
        cases hop : r.op with
        | none =>
            rw [hop] at hcurrent
            rwa [hcurrent]
        | some op =>
            rw [hop] at hcurrent hl
            cases op with
            | add =>
                have hadd : (m.tables service1).current = 0 → m.actualIndex service1 ≤ 1 := hl
                have hnext : (m'.tables service1).current = (m.tables service1).current + 1 :=
                  hcurrent
                omega
            | delete | rej =>
                dsimp only at hcurrent hl
                split at hcurrent
                · rename_i hnamed
                  have := hl hnamed
                  omega
                · rwa [hcurrent]
      · rw [if_neg hg] at hcurrent
        rwa [hcurrent]

/-- A step to a state where clients are routed right has kept the index in
range. -/
theorem keepsRange_of_routesLive {m m' : Memory} {l : Label} (h : m.Inv)
    (hstep : m.step l = some m') (hlive : m'.RoutesLive) : m.KeepsRange l := by
  cases l with
  | connect ip => trivial
  | record fresh r =>
      intro hg
      obtain ⟨hsound, hactual, hcurrent⟩ := current_process h.sound hstep
      have hrange := (routesLive_iff hsound).mp hlive
      rw [if_pos hg, length_apply, length_view h.sound] at hcurrent
      rw [hactual] at hrange
      cases hop : r.op with
      | none => trivial
      | some op =>
          rw [hop] at hcurrent
          cases op with
          | add =>
              have hnext : (m'.tables service1).current = (m.tables service1).current + 1 :=
                hcurrent
              show (m.tables service1).current = 0 → m.actualIndex service1 ≤ 1
              omega
          | delete | rej =>
              rintro ⟨e, he, hnames⟩
              dsimp only at hcurrent
              rw [if_pos ⟨e, he, hnames⟩] at hcurrent
              have hpos : 0 < (m.tables service1).current := by
                rw [← length_view h.sound]
                exact List.length_pos_of_mem he
              omega

/-- **Routing to a live VM.**  All along a run the clients are routed to used
slots iff each record of the run keeps the index in range. -/
theorem along_routesLive_iff (mem : Service → ℕ → VmSlot) (ls : List Label) :
    Along step RoutesLive (initial mem) ls ↔ AllSteps step KeepsRange (initial mem) ls := by
  refine along_iff_allSteps (fun m h => (routesLive_iff h.sound).mpr h.range)
    (fun _ _ _ h hl hstep => inv_step h hl hstep)
    (fun _ _ _ h hstep hlive => keepsRange_of_routesLive h hstep hlive) ?_
  exact ⟨initial_sound mem, .inl rfl⟩

/-- Three VMs, one client each; then the second VM is removed. -/
def removalBehind : List Label :=
  let vm (ip : String) (op : Operations) : Label := .record default ⟨ip, 8080, service1, some op⟩
  [vm "10.0.0.1" .add, vm "10.0.0.2" .add, vm "10.0.0.3" .add,
    .connect ⟨"192.168.0.1", by decide⟩, .connect ⟨"192.168.0.2", by decide⟩,
    .connect ⟨"192.168.0.3", by decide⟩, vm "10.0.0.2" .delete]

/-- The next client is sent to slot 3, of which there are two in use. -/
theorem routes_behind_the_end :
    ((run step (initial default) removalBehind).map fun m =>
      ((m.tables service1).current, m.wrapIndex.selectedSlot "192.168.0.4")) =
      some (2, some 3) ∧
    ¬ Along step RoutesLive (initial default) removalBehind := by
  have hfinal : ((run step (initial default) removalBehind).map fun m =>
      ((m.tables service1).current, m.wrapIndex.selectedSlot "192.168.0.4")) =
      some (2, some 3) := by
    decide
  refine ⟨hfinal, fun hok => ?_⟩
  obtain ⟨m, hm, hvalues⟩ := Option.map_eq_some_iff.mp hfinal
  obtain ⟨hcurrent, hselected⟩ := Prod.mk.inj hvalues
  have hlive := hok.last hm
  rw [RoutesLive, hcurrent] at hlive
  obtain ⟨i, hi, hlt⟩ := hlive (by decide) ⟨"192.168.0.4", by decide⟩
  obtain rfl := Option.some.inj (hselected.symm.trans hi)
  exact absurd hlt (by decide)

/-! ### Sticky sessions -/

/-- The contents of the client lists of the listed VMs. -/
def clients (m : Memory) : List String := (m.view service1).flatMap (·.connectedClients)

/-- A new client is assigned to a listed VM that has a free buffer. -/
def HasRoom (m : Memory) : Label → Prop
  | .record _ _ => True
  | .connect ip => m.connectedSlot ip.val = some none →
      ∃ e, (m.view service1)[m.wrapIndex.actualIndex service1]? = some e ∧
        noClient ∈ e.connectedClients

instance (m : Memory) : ∀ l, Decidable (m.HasRoom l)
  | .record _ _ => .isTrue trivial
  | .connect ip =>
      match hslot : (m.view service1)[m.wrapIndex.actualIndex service1]? with
      | none =>
          decidable_of_iff (m.connectedSlot ip.val ≠ some none)
            ⟨fun hfound hnew => absurd hnew hfound, fun hroom hnew =>
              let ⟨_, he, _⟩ := hroom hnew
              Option.some_ne_none _ (he.symm.trans hslot)⟩
      | some d =>
          decidable_of_iff (m.connectedSlot ip.val = some none → noClient ∈ d.connectedClients)
            ⟨fun hfree hnew => ⟨d, hslot, hfree hnew⟩, fun hroom hnew =>
              let ⟨_, he, hfree⟩ := hroom hnew
              Option.some.inj (he.symm.trans hslot) ▸ hfree⟩

/-- The record removes the VM with this address. -/
def Removes (address : String × ℕ) : Label → Prop
  | .record _ r => r.service = service1 ∧ (r.op = some .delete ∨ r.op = some .rej) ∧
      (r.ip, r.port) = address
  | .connect _ => False

/-- The client is in the list of a listed VM with this address. -/
def Assigned (m : Memory) (ip : ClientIp) (address : String × ℕ) : Prop :=
  ∃ e ∈ m.view service1, (e.ipAddress, e.port) = address ∧ ip.val ∈ e.connectedClients

/-- Every client is in one list at most. -/
structure Unique (m : Memory) : Prop where
  sound : m.Sound
  once : ∀ ip : ClientIp, m.clients.count ip.val ≤ 1

theorem clients_eq (m : Memory) : m.clients = (m.buffers service1).map (content m.heap) := by
  rw [clients, view, List.flatMap_map, buffers, List.map_flatMap]
  rfl

/-- A client is found at the entry that it is assigned to. -/
theorem Unique.find {m : Memory} (h : m.Unique) {ip : ClientIp} {address : String × ℕ}
    (hassigned : m.Assigned ip address) :
    ∃ i e, (m.view service1).findIdx? (hasClient ip.val) = some i ∧
      (m.view service1)[i]? = some e ∧ (e.ipAddress, e.port) = address := by
  obtain ⟨e, he, haddress, hclient⟩ := hassigned
  obtain ⟨before, after, hsplit⟩ := List.append_of_mem he
  have honce := h.once ip
  rw [clients, hsplit, List.flatMap_append, List.flatMap_cons, List.count_append,
    List.count_append] at honce
  have hhere : 0 < e.connectedClients.count ip.val := List.count_pos_iff.mpr hclient
  -- no entry before has the client
  have hbefore : ∀ d ∈ before, hasClient ip.val d = false := by
    intro d hd
    rw [hasClient, ← Bool.not_eq_true, List.contains_iff_mem]
    intro hmem
    have : 0 < (before.flatMap (·.connectedClients)).count ip.val :=
      List.count_pos_iff.mpr (List.mem_flatMap.mpr ⟨d, hd, hmem⟩)
    omega
  refine ⟨before.length, e, ?_, ?_, haddress⟩
  · rw [hsplit, List.findIdx?_append, List.findIdx?_eq_none_iff.mpr hbefore, List.findIdx?_cons,
      hasClient, List.contains_iff_mem.mpr hclient]
    simp
  · rw [hsplit, List.getElem?_append_right (le_refl _), Nat.sub_self]
    rfl

/-- A client that has been assigned goes back to its VM. -/
theorem Unique.routed {m : Memory} (h : m.Unique) {ip : ClientIp} {address : String × ℕ}
    (hassigned : m.Assigned ip address) :
    m.getCurrentSocket ip = some (address, m.wrapIndex) := by
  obtain ⟨i, e, hfind, he, haddress⟩ := h.find hassigned
  obtain ⟨htables, -⟩ := m.wrapIndex_frame
  obtain ⟨slot, hslot, rfl⟩ : ∃ slot, (m.tables service1).live[i]? = some slot ∧
      read m.heap slot = e := by
    rw [view, List.getElem?_map, Option.map_eq_some_iff] at he
    exact he
  have hcell : (m.wrapIndex.tables service1).cells[i]? = some slot := by
    rw [htables]
    have hi : i < (m.tables service1).current := by
      rw [← (h.sound.wf service1).length_live]
      exact (List.getElem?_eq_some_iff.mp hslot).1
    rwa [SlotTable.live, List.getElem?_take_of_lt hi] at hslot
  rw [getCurrentSocket, checkAlreadyConnected, connectedSlot_eq h.sound.wrapIndex, wrapIndex_view,
    hfind, Option.bind_some]
  simp only [hcell, Option.map_some]
  rw [← haddress]
  rfl

/-- A connection: the client is found, or a free buffer of a listed VM is
taken for it. -/
theorem connect_cases {m m' : Memory} (h : m.Sound) {ip : ClientIp} {address : String × ℕ}
    (hroom : m.HasRoom (.connect ip)) (hsocket : m.getCurrentSocket ip = some (address, m')) :
    m'.tables = m.tables ∧
      ((∃ i e, (m.view service1).findIdx? (hasClient ip.val) = some i ∧
          (m.view service1)[i]? = some e ∧ (e.ipAddress, e.port) = address ∧ m'.heap = m.heap) ∨
        ∃ slot p, (m.view service1).findIdx? (hasClient ip.val) = none ∧
          slot ∈ (m.tables service1).live ∧ (slot.ipAddress, slot.port) = address ∧
          p ∈ slot.buffers ∧ content m.heap p = noClient ∧ m'.heap = m.heap.set p ip.val) := by
  obtain ⟨htables, hheap⟩ := m.wrapIndex_frame
  have hwrap := h.wrapIndex
  refine ⟨(getCurrentSocket_frame hsocket).1, ?_⟩
  rcases getCurrentSocket_cases hsocket with ⟨i, slot, hfound, hslot, rfl, rfl⟩ | ⟨hnew, hassign⟩
  · left
    rw [connectedSlot_eq hwrap, wrapIndex_view, Option.some.injEq] at hfound
    obtain ⟨hi, -, -⟩ := List.findIdx?_eq_some_iff_getElem.mp hfound
    have hcurrent : i < (m.tables service1).current := length_view h service1 ▸ hi
    refine ⟨i, read m.heap slot, hfound, ?_, rfl, hheap⟩
    rw [view, List.getElem?_map, SlotTable.live, List.getElem?_take_of_lt hcurrent, hslot]
    rfl
  · right
    rw [connectedSlot_eq hwrap, wrapIndex_view, Option.some.injEq] at hnew
    obtain ⟨slot, k, p, hslot, hk, hp, rfl, rfl⟩ := assignClient_eq_some hassign
    -- the slot at the index is a listed one
    obtain ⟨e, he, -⟩ := hroom (by
      rw [connectedSlot_eq h, hnew])
    have hlive : slot ∈ (m.tables service1).live := by
      rw [view, List.getElem?_map, Option.map_eq_some_iff] at he
      obtain ⟨slot', hslot', -⟩ := he
      have hcurrent : m.wrapIndex.actualIndex service1 < (m.tables service1).current := by
        rw [← (h.wf service1).length_live]
        exact (List.getElem?_eq_some_iff.mp hslot').1
      have hget := hslot'
      rw [SlotTable.live, List.getElem?_take_of_lt hcurrent, ← htables, hslot] at hget
      obtain rfl := Option.some.inj hget
      exact List.mem_of_getElem? hslot'
    refine ⟨slot, p, hnew, hlive, rfl, List.mem_of_getElem? hp, ?_, by rw [hheap]⟩
    have hlive' : slot ∈ (m.wrapIndex.tables service1).live := htables.symm ▸ hlive
    rw [searchIp_eq hwrap hlive', Option.some.injEq, hheap] at hk
    cases hfree : (read m.heap slot).connectedClients.findIdx? fun s => s == noClient with
    | none =>
        rw [hfree] at hk
        cases hk
    | some j =>
        rw [hfree] at hk
        obtain rfl := Nat.succ.inj hk
        obtain ⟨hj, hempty, -⟩ := List.findIdx?_eq_some_iff_getElem.mp hfree
        have hcontent : (read m.heap slot).connectedClients[j]? = some (content m.heap p) := by
          rw [read, List.getElem?_map, hp]
          rfl
        rw [List.getElem?_eq_getElem hj, Option.some.injEq] at hcontent
        rw [← hcontent]
        exact beq_iff_eq.mp hempty

/-- A record brings no client. -/
theorem count_apply (r : Record) (l : List VmData) (ip : ClientIp) :
    ((r.apply l).flatMap (·.connectedClients)).count ip.val ≤
      (l.flatMap (·.connectedClients)).count ip.val := by
  rw [Record.apply]
  cases r.op with
  | none => exact le_refl _
  | some op =>
      cases op with
      | add =>
          have hnew : (List.replicate maxConnectedClients noClient).count ip.val = 0 := by
            rw [List.count_eq_zero]
            exact fun hmem => ip.property (List.eq_of_mem_replicate hmem)
          rw [List.flatMap_append, List.count_append, List.flatMap_singleton, hnew]
          exact le_refl _
      | delete | rej =>
          dsimp only
          cases hi : l.findIdx? fun e => r.names e.ipAddress e.port with
          | none => exact le_refl _
          | some i =>
              obtain ⟨hlt, -, -⟩ := List.findIdx?_eq_some_iff_getElem.mp hi
              have hperm := (SlotTable.perm_swapRemove hlt).flatMap_right (·.connectedClients)
              rw [hperm.count_eq, List.flatMap_cons, List.count_append]
              exact Nat.le_add_left _ _

/-- A record that does not name an entry keeps it. -/
theorem mem_apply {r : Record} {l : List VmData} {e : VmData} (he : e ∈ l)
    (hr : r.op = some .delete ∨ r.op = some .rej → (r.ip, r.port) ≠ (e.ipAddress, e.port)) :
    e ∈ r.apply l := by
  rw [Record.apply]
  cases hop : r.op with
  | none => exact he
  | some op =>
      rw [hop] at hr
      cases op with
      | add => exact List.mem_append_left _ he
      | delete | rej =>
          dsimp only
          cases hi : l.findIdx? fun e => r.names e.ipAddress e.port with
          | none => exact he
          | some i =>
              obtain ⟨hlt, hnames, -⟩ := List.findIdx?_eq_some_iff_getElem.mp hi
              rcases List.mem_cons.mp ((SlotTable.perm_swapRemove hlt).mem_iff.mp he) with rfl | hmem
              · have hne := hr (by simp)
                simp only [Record.names, Bool.and_eq_true, beq_iff_eq] at hnames
                exact absurd (Prod.ext hnames.1.symm hnames.2.symm) hne
              · exact hmem

theorem view_record {m m' : Memory} (h : m.Sound) {fresh : ℕ → VmSlot} {r : Record}
    (hstep : m.step (.record fresh r) = some m') :
    m'.view service1 =
      if r.service = service1 then r.apply (m.view service1) else m.view service1 := by
  obtain ⟨u, hu, -, -, hothers, hview⟩ := process_spec h fresh r
  obtain rfl := Option.some.inj (hu.symm.trans hstep)
  by_cases hg : r.service = service1
  · rw [if_pos hg, ← hg, hview]
  · rw [if_neg hg, (hothers service1 (Ne.symm hg)).2]

/-- What the other buffers contain after a write. -/
theorem content_set {heap : List String} {p q : ℕ} (hne : p ≠ q) (s : String) :
    content (heap.set p s) q = content heap q := by
  rw [content, List.getElem?_set_ne hne, content]

theorem content_set_self {heap : List String} {p : ℕ} (hp : p < heap.length) (s : String) :
    content (heap.set p s) p = s := by
  rw [content, List.getElem?_set_self hp]
  rfl

/-- Writing to one of some distinct buffers exchanges what it contained. -/
theorem map_content_set {heap : List String} {ps : List ℕ} (hnodup : ps.Nodup) {p : ℕ}
    (hp : p ∈ ps) (hlt : p < heap.length) (s : String) :
    ∃ rest, (ps.map (content heap)).Perm (content heap p :: rest) ∧
      (ps.map (content (heap.set p s))).Perm (s :: rest) := by
  have hsplit : ps.Perm (p :: ps.erase p) := List.perm_cons_erase hp
  have hnotin : p ∉ ps.erase p := (List.nodup_cons.mp (hsplit.nodup_iff.mp hnodup)).1
  have hsame : (ps.erase p).map (content (heap.set p s)) = (ps.erase p).map (content heap) := by
    apply List.map_congr_left
    intro q hq
    apply content_set
    rintro rfl
    exact hnotin hq
  refine ⟨(ps.erase p).map (content heap), hsplit.map _, ?_⟩
  have hafter := hsplit.map (content (heap.set p s))
  rwa [List.map_cons, content_set_self hlt, hsame] at hafter

/-- Writing elsewhere changes nothing. -/
theorem map_content_set_of_notMem {heap : List String} {ps : List ℕ} {p : ℕ} (hp : p ∉ ps)
    (s : String) : ps.map (content (heap.set p s)) = ps.map (content heap) := by
  apply List.map_congr_left
  intro q hq
  apply content_set
  rintro rfl
  exact hp hq

/-- A connection writes the address of a client that is in no list, or
nothing. -/
theorem heap_connect {m m' : Memory} (h : m.Sound) {ip : ClientIp} {address : String × ℕ}
    (hsocket : m.getCurrentSocket ip = some (address, m')) :
    m'.heap = m.heap ∨
      ip.val ∉ m.clients ∧ ∃ p, m'.heap = m.heap.set p ip.val := by
  obtain ⟨-, hheap⟩ := m.wrapIndex_frame
  rw [getCurrentSocket, checkAlreadyConnected, connectedSlot_eq h.wrapIndex, wrapIndex_view,
    Option.bind_some] at hsocket
  cases hfind : (m.view service1).findIdx? (hasClient ip.val) with
  | some i =>
      left
      simp only [hfind, Option.map_eq_some_iff, Prod.mk.injEq] at hsocket
      obtain ⟨_, -, -, rfl⟩ := hsocket
      exact hheap
  | none =>
      right
      constructor
      · intro hmem
        obtain ⟨e, he, hclient⟩ := List.mem_flatMap.mp hmem
        have hnot := List.findIdx?_eq_none_iff.mp hfind e he
        rw [hasClient, List.contains_iff_mem.mpr hclient] at hnot
        cases hnot
      · simp only [hfind, assignClient, Option.bind_eq_some_iff] at hsocket
        obtain ⟨_, -, k, -, hsocket⟩ := hsocket
        split at hsocket
        · cases hsocket
        · simp only [Option.map_eq_some_iff, Prod.mk.injEq] at hsocket
          obtain ⟨p, -, -, rfl⟩ := hsocket
          exact ⟨p, by rw [hheap]⟩

/-- What the lists contain after a connection: one content may have been
exchanged for the client's address. -/
theorem clients_connect {m m' : Memory} (h : m.Sound) {ip : ClientIp} {address : String × ℕ}
    (hsocket : m.getCurrentSocket ip = some (address, m')) :
    m'.clients = m.clients ∨ ip.val ∉ m.clients ∧
      ∃ s rest, m.clients.Perm (s :: rest) ∧ m'.clients.Perm (ip.val :: rest) := by
  obtain ⟨htables, -⟩ := getCurrentSocket_frame hsocket
  have hafter : m'.clients = (m.buffers service1).map (content m'.heap) := by
    rw [clients_eq, buffers, htables, ← buffers]
  rw [hafter, clients_eq]
  rcases heap_connect h hsocket with hheap | ⟨hnew, p, hheap⟩
  · left
    rw [hheap]
  · rw [hheap]
    by_cases hp : p ∈ m.buffers service1
    · right
      rw [clients_eq] at hnew
      obtain ⟨rest, hbefore, hthen⟩ :=
        map_content_set (h.nodup service1) hp (h.valid service1 p hp) ip.val
      exact ⟨hnew, _, rest, hbefore, hthen⟩
    · left
      exact map_content_set_of_notMem hp ip.val

theorem unique_step {m m' : Memory} {l : Label} (h : m.Unique) (hstep : m.step l = some m') :
    m'.Unique := by
  refine ⟨sound_step h.sound hstep, fun ip => ?_⟩
  have honce := h.once ip
  cases l with
  | record fresh r =>
      rw [clients, view_record h.sound hstep]
      split
      · exact (count_apply r _ ip).trans honce
      · exact honce
  | connect c =>
      obtain ⟨address, hsocket⟩ := step_connect hstep
      rcases clients_connect h.sound hsocket with hsame | ⟨hnew, s, rest, hbefore, hafter⟩
      · rwa [hsame]
      · rw [hbefore.count_eq] at honce
        rw [hafter.count_eq]
        have hrest : rest.count ip.val ≤ (s :: rest).count ip.val :=
          (List.sublist_cons_self s rest).count_le ip.val
        by_cases hip : c.val = ip.val
        · -- the client was in no list
          have hzero : rest.count ip.val = 0 := by
            rw [List.count_eq_zero, ← hip]
            exact fun hmem => hnew (hbefore.mem_iff.mpr (List.mem_cons_of_mem s hmem))
          rw [hip, List.count_cons_self, hzero]
        · rw [List.count_cons_of_ne hip]
          exact hrest.trans honce

theorem initial_unique (mem : Service → ℕ → VmSlot) : (initial mem).Unique := by
  refine ⟨initial_sound mem, fun ip => ?_⟩
  have hnil : (initial mem).clients = [] := by simp [clients, view, initial, SlotTable.live]
  rw [hnil]
  exact Nat.zero_le _

theorem assigned_step {m m' : Memory} {l : Label} (h : m.Sound) (hroom : m.HasRoom l)
    {ip : ClientIp} {address : String × ℕ} (hkeep : ¬ Removes address l)
    (hassigned : m.Assigned ip address) (hstep : m.step l = some m') :
    m'.Assigned ip address := by
  obtain ⟨e, he, haddress, hclient⟩ := hassigned
  cases l with
  | record fresh r =>
      refine ⟨e, ?_, haddress, hclient⟩
      rw [view_record h hstep]
      split
      · rename_i hg
        apply mem_apply he
        rw [haddress]
        exact fun hop heq => hkeep ⟨hg, hop, heq⟩
      · exact he
  | connect c =>
      obtain ⟨a, hsocket⟩ := step_connect hstep
      obtain ⟨htables, ⟨i, d, -, -, -, hheap⟩ | ⟨slot, p, -, hslot, -, hp, hfree, hheap⟩⟩ :=
        connect_cases h hroom hsocket
      · refine ⟨e, ?_, haddress, hclient⟩
        rwa [view, htables, hheap]
      · obtain ⟨slot', hslot', rfl⟩ := List.mem_map.mp he
        refine ⟨read m'.heap slot', ?_, haddress, ?_⟩
        · rw [view, htables]
          exact List.mem_map_of_mem hslot'
        · obtain ⟨q, hq, hcontent⟩ := List.mem_map.mp hclient
          refine List.mem_map.mpr ⟨q, hq, ?_⟩
          have hne : p ≠ q := by
            rintro rfl
            exact ip.property (hcontent.symm.trans hfree)
          rw [hheap, content_set hne, hcontent]

/-- The client is assigned to the VM that it is sent to. -/
theorem assigned_connect {m m' : Memory} (h : m.Sound) {ip : ClientIp} {address : String × ℕ}
    (hroom : m.HasRoom (.connect ip)) (hsocket : m.getCurrentSocket ip = some (address, m')) :
    m'.Assigned ip address := by
  obtain ⟨htables, ⟨i, e, hfind, he, haddress, hheap⟩ |
    ⟨slot, p, -, hslot, haddress, hp, -, hheap⟩⟩ := connect_cases h hroom hsocket
  · obtain ⟨hi, hhas, -⟩ := List.findIdx?_eq_some_iff_getElem.mp hfind
    rw [List.getElem?_eq_getElem hi, Option.some.injEq] at he
    rw [he, hasClient, List.contains_iff_mem] at hhas
    refine ⟨e, ?_, haddress, hhas⟩
    rw [view, htables, hheap, ← view, ← he]
    exact List.getElem_mem hi
  · refine ⟨read m'.heap slot, ?_, haddress, ?_⟩
    · rw [view, htables]
      exact List.mem_map_of_mem hslot
    · refine List.mem_map.mpr ⟨p, hp, ?_⟩
      rw [hheap]
      exact content_set_self (h.valid _ p (buffers_of_mem hslot hp)) ip.val

/-- **Sticky sessions.**  In a history in which every new client is assigned
to a listed VM with room, a client is in one list at most; and it goes back
to the VM that it has been sent to until a record removes that VM. -/
theorem sticky_sessions {mem : Service → ℕ → VmSlot} {ls : List Label} {m : Memory}
    (hroom : AllSteps step HasRoom (initial mem) ls) (h : run step (initial mem) ls = some m) :
    (∀ ip : ClientIp, m.clients.count ip.val ≤ 1) ∧
    ∀ before ip after m₀ m₁ address, ls = before ++ .connect ip :: after →
      run step (initial mem) before = some m₀ →
      m₀.getCurrentSocket ip = some (address, m₁) →
      (∀ l ∈ after, ¬ Removes address l) →
      ∃ m', m.getCurrentSocket ip = some (address, m') := by
  have hunique : ∀ {ls m}, run step (initial mem) ls = some m → m.Unique :=
    invariant_of_run (fun _ _ _ hm hs => unique_step hm hs) (initial_unique mem)
  refine ⟨(hunique h).once, ?_⟩
  rintro before ip after m₀ m₁ address rfl hbefore hsocket hkeep
  have h₀ : m₀.Unique := hunique hbefore
  have hstep : m₀.step (.connect ip) = some m₁ := by
    rw [step, hsocket]
    rfl
  obtain ⟨hroom₀, hroom₁⟩ := hroom.of_append_right hbefore m₁ hstep
  have hrun : run step m₁ after = some m := by
    rw [run_append, hbefore, Option.bind_some, run_cons, hstep] at h
    exact h
  have h₁ : m₁.Unique ∧ m₁.Assigned ip address :=
    ⟨unique_step h₀ hstep, assigned_connect h₀.sound hroom₀ hsocket⟩
  have hall : m.Unique ∧ m.Assigned ip address := by
    refine (along_of_allSteps (P := fun u => u.Unique ∧ u.Assigned ip address) ?_ h₁
      (hroom₁.and_forall hkeep)).last hrun
    rintro u l v ⟨hu, hassigned⟩ ⟨hl, hnot⟩ hs
    exact ⟨unique_step hu hs, assigned_step hu.sound hl hnot hassigned hs⟩
  exact ⟨_, hall.1.routed hall.2⟩

/-- Two VMs; two clients; a third VM is added and the first one removed, so
that the third one takes its slot. -/
def churn : List Label :=
  let vm (ip : String) (op : Operations) : Label := .record default ⟨ip, 8080, service1, some op⟩
  [vm "10.0.0.1" .add, vm "10.0.0.2" .add, .connect ⟨"192.168.0.1", by decide⟩,
    .connect ⟨"192.168.0.2", by decide⟩, vm "10.0.0.3" .add, vm "10.0.0.1" .delete]

/-- The second client still goes to the second VM. -/
theorem sticky_sessions_churn :
    ∃ m, run step (initial default) churn = some m ∧
      m.listed service1 = [("10.0.0.3", 8080), ("10.0.0.2", 8080)] ∧
      m.clients.count "192.168.0.2" ≤ 1 ∧
      ∃ m', m.getCurrentSocket ⟨"192.168.0.2", by decide⟩ = some (("10.0.0.2", 8080), m') := by
  have hsome : (run step (initial default) churn).isSome = true := by decide
  obtain ⟨m, hm⟩ := Option.isSome_iff_exists.mp hsome
  have hroom : AllSteps step HasRoom (initial default) churn := by decide
  obtain ⟨honce, hsticky⟩ := sticky_sessions hroom hm
  refine ⟨m, hm, ?_, honce ⟨"192.168.0.2", by decide⟩, ?_⟩
  · obtain rfl := Option.some.inj (hm.symm.trans rfl)
    decide
  · refine hsticky (churn.take 3) ⟨"192.168.0.2", by decide⟩ (churn.drop 4) _ _ _ rfl rfl rfl ?_
    intro l hl
    simp only [churn, List.drop_succ_cons, List.drop_zero, List.mem_cons, List.not_mem_nil,
      or_false] at hl
    rcases hl with rfl | rfl
    · simp [Removes]
    · simp [Removes]

end Memory

end A2PM.Balancer
