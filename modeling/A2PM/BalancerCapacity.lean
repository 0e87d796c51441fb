/-
A2PM/BalancerCapacity.lean

How many clients the balancer can hold: a listed VM has five buffers, a new
client takes one of them for good, and the cursor goes round.

A client is in one list at most, so a VM has a free buffer exactly while
fewer than five clients are recorded at it (`free_iff`).  Nothing keeps the
cursor from a VM that is full: `search_ip` finds no free buffer and returns
0, and the caller writes through `connected_clients[-1]`
(`clientSlots_inRange_iff`, `six_clients`).  With a fixed set of `n` VMs the
clients are dealt out in turn, and the first `5 * n` find room
(`round_robin_balance`).
-/
import A2PM.BalancerRouting
import A2PM.RoundRobin
import Mathlib.Data.Finset.Card

namespace A2PM.Balancer

open Controller Transition RoundRobin

/-- The clients recorded at a VM. -/
def VmData.clientSet (e : VmData) : Finset String := e.connectedClients.toFinset.erase noClient

namespace Memory

/-! ### Free buffers -/

/-- The elements other than `a` of a list without repetitions but of `a`. -/
theorem card_erase_add_count {l : List String} {a : String}
    (h : ∀ s, s ≠ a → l.count s ≤ 1) : (l.toFinset.erase a).card + l.count a = l.length := by
  have hnodup : (l.filter fun s => !(s == a)).Nodup := by
    rw [List.nodup_iff_count_le_one]
    intro s
    by_cases hs : s = a
    · rw [List.count_eq_zero.mpr]
      · exact Nat.zero_le 1
      · simp [hs]
    · exact ((List.filter_sublist).count_le s).trans (h s hs)
  have hset : l.toFinset.erase a = (l.filter fun s => !(s == a)).toFinset := by
    ext s
    simp [and_comm]
  have hparts : l.length = l.countP (· == a) + l.countP fun s => !(s == a) := by
    rw [List.length_eq_countP_add_countP (· == a)]
    congr 1
    apply List.countP_congr
    simp
  rw [hset, List.toFinset_card_of_nodup hnodup, ← List.countP_eq_length_filter, Nat.add_comm,
    hparts, List.count]

theorem mem_clients {m : Memory} {e : VmData} (he : e ∈ m.view service1) {s : String}
    (hs : s ∈ e.connectedClients) : s ∈ m.clients := List.mem_flatMap.mpr ⟨e, he, hs⟩

theorem findIdx?_hasClient {m : Memory} {s : String} :
    (m.view service1).findIdx? (hasClient s) = none ↔ s ∉ m.clients := by
  rw [List.findIdx?_eq_none_iff]
  constructor
  · intro hnone hmem
    obtain ⟨e, he, hs⟩ := List.mem_flatMap.mp hmem
    have hnot := hnone e he
    rw [hasClient, List.contains_iff_mem.mpr hs] at hnot
    cases hnot
  · intro hnew e he
    rw [hasClient, ← Bool.not_eq_true, List.contains_iff_mem]
    exact fun hs => hnew (mem_clients he hs)

theorem length_connectedClients (heap : List String) (e : VmSlot) :
    (read heap e).connectedClients.length = maxConnectedClients := by
  rw [read, List.length_map, VmSlot.buffers, List.length_ofFn]

theorem exists_of_mem_view {m : Memory} {g : Service} {i : ℕ} {d : VmData}
    (h : (m.view g)[i]? = some d) :
    ∃ e, (m.tables g).live[i]? = some e ∧ read m.heap e = d := by
  rwa [view, List.getElem?_map, Option.map_eq_some_iff] at h

/-- The clients of a VM and its free buffers are five. -/
theorem Unique.card_add_count {m : Memory} (h : m.Unique) {d : VmData}
    (hd : d ∈ m.view service1) :
    d.clientSet.card + d.connectedClients.count noClient = maxConnectedClients := by
  obtain ⟨i, hi⟩ := List.mem_iff_getElem?.mp hd
  obtain ⟨e, -, rfl⟩ := exists_of_mem_view hi
  rw [VmData.clientSet, card_erase_add_count, length_connectedClients]
  intro s hs
  have honce := h.once ⟨s, hs⟩
  obtain ⟨before, after, hsplit⟩ := List.append_of_mem hd
  rw [clients, hsplit, List.flatMap_append, List.flatMap_cons, List.count_append,
    List.count_append] at honce
  have honce : (before.flatMap (·.connectedClients)).count s +
    ((read m.heap e).connectedClients.count s +
      (after.flatMap (·.connectedClients)).count s) ≤ 1 := honce
  omega

theorem Unique.free_iff {m : Memory} (h : m.Unique) {d : VmData} (hd : d ∈ m.view service1) :
    noClient ∈ d.connectedClients ↔ d.clientSet.card < maxConnectedClients := by
  have hsum := h.card_add_count hd
  rw [← List.count_pos_iff]
  omega

/-- `search_ip` for a free buffer. -/
theorem searchIp_free {m : Memory} (h : m.Sound) {g : Service} {e : VmSlot}
    (he : e ∈ (m.tables g).live) (hfree : noClient ∈ (read m.heap e).connectedClients) :
    ∃ j p, m.searchIp e noClient = some (j + 1) ∧ e.buffers[j]? = some p ∧
      content m.heap p = noClient := by
  rw [searchIp_eq h he]
  cases hfind : (read m.heap e).connectedClients.findIdx? fun s => s == noClient with
  | none =>
      have hnot := List.findIdx?_eq_none_iff.mp hfind noClient hfree
      rw [beq_self_eq_true] at hnot
      cases hnot
  | some j =>
      obtain ⟨hj, hempty, -⟩ := List.findIdx?_eq_some_iff_getElem.mp hfind
      have hbuffer : j < e.buffers.length := by rwa [read, List.length_map] at hj
      refine ⟨j, e.buffers[j], rfl, List.getElem?_eq_getElem hbuffer, ?_⟩
      simpa [read] using hempty

theorem searchIp_full {m : Memory} (h : m.Sound) {g : Service} {e : VmSlot}
    (he : e ∈ (m.tables g).live) (hfull : noClient ∉ (read m.heap e).connectedClients) :
    m.searchIp e noClient = some 0 := by
  rw [searchIp_eq h he, List.findIdx?_eq_none_iff.mpr]
  intro s hs
  exact beq_eq_false_iff_ne.mpr fun heq => hfull (heq ▸ hs)

/-! ### Client slots in range -/

/-- `search_ip(vm, "0.0.0.0") - 1`. -/
def clientIndex (m : Memory) (e : VmSlot) : Option ℤ :=
  (m.searchIp e noClient).map fun k => (k : ℤ) - 1

/-- **Client slots in range.**  If a new client is assigned to a listed VM,
then the index that `strcpy` writes to is that of one of its buffers. -/
def SlotInRange (m : Memory) : Label → Prop
  | .record _ _ => True
  | .connect ip => m.wrapIndex.connectedSlot ip.val = some none →
      ∀ e, (m.tables service1).live[m.wrapIndex.actualIndex service1]? = some e →
        ∃ j, m.wrapIndex.clientIndex e = some j ∧ 0 ≤ j ∧ j < maxConnectedClients

/-- Where a new client is assigned to a listed VM, fewer than five are
recorded there. -/
def BelowCapacity (m : Memory) : Label → Prop
  | .record _ _ => True
  | .connect ip => ip.val ∉ m.clients →
      ∀ d, (m.view service1)[m.wrapIndex.actualIndex service1]? = some d →
        d.clientSet.card < maxConnectedClients

theorem slotInRange_iff_belowCapacity {m : Memory} (h : m.Unique) (l : Label) :
    m.SlotInRange l ↔ m.BelowCapacity l := by
  cases l with
  | record fresh r => exact Iff.rfl
  | connect ip =>
      obtain ⟨htables, hheap⟩ := m.wrapIndex_frame
      have hnew : m.wrapIndex.connectedSlot ip.val = some none ↔ ip.val ∉ m.clients := by
        rw [connectedSlot_eq h.sound.wrapIndex, wrapIndex_view, Option.some.injEq,
          findIdx?_hasClient]
      refine imp_congr hnew ⟨fun hindex d hd => ?_, fun hcard e he => ?_⟩
      · obtain ⟨e, he, rfl⟩ := exists_of_mem_view hd
        obtain ⟨j, hj, hpos, -⟩ := hindex e he
        rw [← h.free_iff (List.mem_of_getElem? hd)]
        by_contra hfull
        have hlive : e ∈ (m.wrapIndex.tables service1).live :=
          htables.symm ▸ List.mem_of_getElem? he
        rw [← hheap] at hfull
        -- the search returns 0, and the index is -1
        rw [clientIndex, searchIp_full h.sound.wrapIndex hlive hfull] at hj
        obtain rfl := Option.some.inj hj
        exact absurd hpos (by decide)
      · have hd : (m.view service1)[m.wrapIndex.actualIndex service1]? = some (read m.heap e) := by
          rw [view, List.getElem?_map, he]
          rfl
        have hfree := (h.free_iff (List.mem_of_getElem? hd)).mpr (hcard _ hd)
        have hlive : e ∈ (m.wrapIndex.tables service1).live :=
          htables.symm ▸ List.mem_of_getElem? he
        rw [← hheap] at hfree
        obtain ⟨j, p, hsearch, hp, -⟩ := searchIp_free h.sound.wrapIndex hlive hfree
        have hj : j < e.buffers.length := (List.getElem?_eq_some_iff.mp hp).1
        rw [VmSlot.buffers, List.length_ofFn] at hj
        refine ⟨j, ?_, by omega, by exact_mod_cast hj⟩
        rw [clientIndex, hsearch]
        exact congrArg some (add_sub_cancel_right (j : ℤ) 1)

/-- **Client slots in range.**  At every connection of a run the index is in
range iff fewer than five clients are recorded at the VM that a new client
is assigned to. -/
theorem clientSlots_inRange_iff (mem : Service → ℕ → VmSlot) (ls : List Label) :
    Attempts step SlotInRange (initial mem) ls ↔ Attempts step BelowCapacity (initial mem) ls :=
  attempts_congr (fun _ _ _ h _ hs => unique_step h hs)
    (fun _ l h => slotInRange_iff_belowCapacity h l) (initial_unique mem)

/-- One VM, and six clients. -/
def sixClients : List Label :=
  [.record default ⟨"10.0.0.1", 8080, service1, some .add⟩,
    .connect ⟨"192.168.2.1", by decide⟩, .connect ⟨"192.168.2.2", by decide⟩,
    .connect ⟨"192.168.2.3", by decide⟩, .connect ⟨"192.168.2.4", by decide⟩,
    .connect ⟨"192.168.2.5", by decide⟩, .connect ⟨"192.168.2.6", by decide⟩]

/-- The sixth one is new, and is written to index -1. -/
theorem sixth_client :
    ((run step (initial default) (sixClients.take 6)).map fun m =>
      (m.wrapIndex.connectedSlot "192.168.2.6", m.wrapIndex.actualIndex service1,
        (m.tables service1).live.map m.wrapIndex.clientIndex)) =
      some (some none, 0, [some (-1)]) ∧
    ¬ Attempts step SlotInRange (initial default) sixClients := by
  have hfinal : ((run step (initial default) (sixClients.take 6)).map fun m =>
      (m.wrapIndex.connectedSlot "192.168.2.6", m.wrapIndex.actualIndex service1,
        (m.tables service1).live.map m.wrapIndex.clientIndex)) =
      some (some none, 0, [some (-1)]) := by
    decide
  refine ⟨hfinal, fun hok => ?_⟩
  obtain ⟨m, hm, hvalues⟩ := Option.map_eq_some_iff.mp hfinal
  obtain ⟨hnew, hrest⟩ := Prod.mk.inj hvalues
  obtain ⟨hcursor, hindex⟩ := Prod.mk.inj hrest
  obtain ⟨e, hlive, hfull⟩ := List.map_eq_singleton_iff.mp hindex
  have hok : Attempts step SlotInRange (initial default)
      (sixClients.take 6 ++ [.connect ⟨"192.168.2.6", by decide⟩]) := hok
  have hslot : (m.tables service1).live[m.wrapIndex.actualIndex service1]? = some e := by
    rw [hcursor, hlive]
    rfl
  obtain ⟨j, hj, hpos, -⟩ := hok.last hm hnew e hslot
  obtain rfl := Option.some.inj (hfull.symm.trans hj)
  exact absurd hpos (by decide)

/-- The addresses of the clients that connect in a run. -/
def connecting : List Label → List String
  | [] => []
  | .record _ _ :: ls => connecting ls
  | .connect ip :: ls => ip.val :: connecting ls

/-- A run with at most five clients writes in range. -/
theorem inRange_of_few_clients (mem : Service → ℕ → VmSlot) {ls : List Label}
    (h : (connecting ls).toFinset.card ≤ maxConnectedClients) :
    Attempts step SlotInRange (initial mem) ls := by
  set S := (connecting ls).toFinset with hS
  have hmem : ∀ ip, .connect ip ∈ ls → ip.val ∈ S := by
    intro ip hip
    rw [hS, List.mem_toFinset]
    clear hS S h
    induction ls with
    | nil => cases hip
    | cons l ls ih =>
        cases hip with
        | head => exact List.mem_cons_self
        | tail _ hip =>
            cases l with
            | record fresh r => exact ih hip
            | connect c => exact List.mem_cons_of_mem _ (ih hip)
  rw [clientSlots_inRange_iff]
  refine attempts_of_forall (I := fun m => m.Unique ∧ ∀ ip : ClientIp, ip.val ∈ m.clients → ip.val ∈ S)
    (D := (· ∈ ls)) ?_ ?_ ⟨initial_unique mem, ?_⟩ fun _ hl => hl
  · rintro m l m' ⟨hunique, hsub⟩ hl hstep
    refine ⟨unique_step hunique hstep, fun ip hip => ?_⟩
    cases l with
    | record fresh r =>
        rw [clients, view_record hunique.sound hstep] at hip
        split at hip
        · refine hsub ip (List.count_pos_iff.mp ?_)
          exact (List.count_pos_iff.mpr hip).trans_le (count_apply r _ ip)
        · exact hsub ip hip
    | connect c =>
        obtain ⟨address, hsocket⟩ := step_connect hstep
        rcases clients_connect hunique.sound hsocket with hsame | ⟨-, s, rest, hbefore, hafter⟩
        · exact hsub ip (hsame ▸ hip)
        · rcases List.mem_cons.mp (hafter.mem_iff.mp hip) with heq | hrest
          · exact heq ▸ hmem c hl
          · exact hsub ip (hbefore.mem_iff.mpr (List.mem_cons_of_mem s hrest))
  · rintro m l ⟨hunique, hsub⟩ hl
    cases l with
    | record fresh r => trivial
    | connect ip =>
        intro hnew d hd
        -- the clients of the VM are among the others
        have hothers : d.clientSet ⊆ S.erase ip.val := by
          intro s hs
          obtain ⟨hne, hs⟩ := Finset.mem_erase.mp hs
          have hclient := mem_clients (List.mem_of_getElem? hd) (List.mem_toFinset.mp hs)
          refine Finset.mem_erase.mpr ⟨?_, hsub ⟨s, hne⟩ hclient⟩
          rintro rfl
          exact hnew hclient
        calc d.clientSet.card ≤ (S.erase ip.val).card := Finset.card_le_card hothers
          _ < S.card := Finset.card_erase_lt_of_mem (hmem ip hl)
          _ ≤ maxConnectedClients := h
  · intro ip hip
    have hnil : (initial mem).clients = [] := by simp [clients, view, initial, SlotTable.live]
    rw [hnil] at hip
    cases hip

/-! ### Round-robin balance -/

/-- A new client takes a free buffer of the slot at the cursor, if that one
is listed. -/
theorem getCurrentSocket_new {m : Memory} (h : m.Sound) {ip : ClientIp}
    (hnew : ip.val ∉ m.clients) {slot : VmSlot}
    (hslot : (m.tables service1).live[m.wrapIndex.actualIndex service1]? = some slot)
    (hfree : noClient ∈ (read m.heap slot).connectedClients) :
    ∃ p ∈ slot.buffers, content m.heap p = noClient ∧
      m.getCurrentSocket ip = some ((slot.ipAddress, slot.port),
        { m.wrapIndex with
          heap := m.heap.set p ip.val
          actualIndex := Function.update m.wrapIndex.actualIndex service1
            (m.wrapIndex.actualIndex service1 + 1) }) := by
  obtain ⟨htables, hheap⟩ := m.wrapIndex_frame
  have hlive : slot ∈ (m.wrapIndex.tables service1).live := htables.symm ▸ List.mem_of_getElem? hslot
  obtain ⟨j, p, hsearch, hp, hempty⟩ := searchIp_free h.wrapIndex hlive (hheap.symm ▸ hfree)
  have hcell : (m.wrapIndex.tables service1).cells[m.wrapIndex.actualIndex service1]? =
      some slot := by
    have hlt : m.wrapIndex.actualIndex service1 < (m.tables service1).current := by
      rw [← (h.wf service1).length_live]
      exact (List.getElem?_eq_some_iff.mp hslot).1
    rw [htables]
    rwa [SlotTable.live, List.getElem?_take_of_lt hlt] at hslot
  refine ⟨p, List.mem_of_getElem? hp, hheap ▸ hempty, ?_⟩
  rw [getCurrentSocket, checkAlreadyConnected, connectedSlot_eq h.wrapIndex, wrapIndex_view,
    findIdx?_hasClient.mpr hnew, Option.bind_some]
  simp only [assignClient, hcell, hsearch, Option.bind_some, Nat.succ_ne_zero, if_false,
    Nat.add_sub_cancel, hp, Option.map_some, hheap]

/-- What occurs once is in one of the lists. -/
theorem eq_of_count_flatMap {α β : Type*} [DecidableEq β] {l : List α} {f : α → List β} {x : β}
    (h : (l.flatMap f).count x ≤ 1) {i j : ℕ} {a b : α} (hi : l[i]? = some a)
    (hj : l[j]? = some b) (ha : x ∈ f a) (hb : x ∈ f b) : i = j := by
  induction l generalizing i j with
  | nil => cases hi
  | cons c l ih =>
      rw [List.flatMap_cons, List.count_append] at h
      -- in the first list and in a later one
      have hnot : ∀ {k : ℕ} {d : α}, l[k]? = some d → x ∈ f c → x ∉ f d := by
        intro k d hk hc hd
        have hfirst : 0 < (f c).count x := List.count_pos_iff.mpr hc
        have hlater : 0 < (l.flatMap f).count x :=
          List.count_pos_iff.mpr (List.mem_flatMap.mpr ⟨d, List.mem_of_getElem? hk, hd⟩)
        omega
      cases i with
      | zero =>
          obtain rfl := Option.some.inj hi
          cases j with
          | zero => rfl
          | succ j => exact absurd hb (hnot hj ha)
      | succ i =>
          cases j with
          | zero =>
              obtain rfl := Option.some.inj hj
              exact absurd ha (hnot hi hb)
          | succ j => exact congrArg Nat.succ (ih (by omega) hi hj)

/-- The VM that gets a new client has one more. -/
theorem card_clientSet_set {m m' : Memory} (h : m.Unique) (h' : m'.Unique)
    (htables : m'.tables = m.tables) {slot : VmSlot}
    (hslot : slot ∈ (m.tables service1).live) {p : ℕ} (hp : p ∈ slot.buffers)
    (hempty : content m.heap p = noClient) {ip : ClientIp}
    (hheap : m'.heap = m.heap.set p ip.val) :
    (read m'.heap slot).clientSet.card = (read m.heap slot).clientSet.card + 1 := by
  have hnodup : slot.buffers.Nodup := (List.nodup_flatMap.mp (h.sound.nodup service1)).1 _ hslot
  have hvalid := h.sound.valid service1 p (buffers_of_mem hslot hp)
  obtain ⟨rest, hbefore, hafter⟩ := map_content_set hnodup hp hvalid ip.val
  rw [← hheap] at hafter
  have hcount : (read m.heap slot).connectedClients.count noClient = rest.count noClient + 1 := by
    rw [read, hbefore.count_eq, hempty, List.count_cons_self]
  have hcount' : (read m'.heap slot).connectedClients.count noClient = rest.count noClient := by
    rw [read, hafter.count_eq, List.count_cons_of_ne ip.property]
  have hsum := h.card_add_count (List.mem_map_of_mem hslot)
  have hsum' := h'.card_add_count (List.mem_map_of_mem (htables.symm ▸ hslot))
  omega

/-- The other ones keep theirs. -/
theorem read_set_of_ne {m : Memory} (h : m.Sound) {i j : ℕ} {slot e : VmSlot}
    (hi : (m.tables service1).live[i]? = some slot) (hj : (m.tables service1).live[j]? = some e)
    (hne : j ≠ i) {p : ℕ} (hp : p ∈ slot.buffers) (s : String) :
    read (m.heap.set p s) e = read m.heap e := by
  have hother : p ∉ e.buffers := by
    intro hmem
    have honce := List.nodup_iff_count_le_one.mp (h.nodup service1) p
    exact hne (eq_of_count_flatMap honce hj hi hmem hp)
  rw [read, map_content_set_of_notMem hother, read]

/-- The clients in `S` have been dealt out to `n` VMs in turn. -/
structure Dealt (m : Memory) (n : ℕ) (S : Finset String) : Prop where
  unique : m.Unique
  current : (m.tables service1).current = n
  cursor : wrap n (m.actualIndex service1) = S.card % n
  clients : ∀ ip : ClientIp, ip.val ∈ m.clients ↔ ip.val ∈ S
  shares : ∀ i d, (m.view service1)[i]? = some d → d.clientSet.card = share n S.card i

theorem Dealt.wrapIndex_eq {m : Memory} {n : ℕ} {S : Finset String} (h : m.Dealt n S) :
    m.wrapIndex.actualIndex service1 = S.card % n := by
  rw [wrapIndex_actualIndex, h.current]
  exact h.cursor

/-- A client that has connected before. -/
theorem Dealt.connect_known {m : Memory} {n : ℕ} {S : Finset String} (h : m.Dealt n S)
    (hn : 0 < n) {ip : ClientIp} (hip : ip.val ∈ S) :
    ∃ address m', m.getCurrentSocket ip = some (address, m') ∧ m'.Dealt n S ∧
      m'.Assigned ip address := by
  obtain ⟨htables, hheap⟩ := m.wrapIndex_frame
  obtain ⟨e, he, hclient⟩ := List.mem_flatMap.mp ((h.clients ip).mpr hip)
  have hrouted := h.unique.routed ⟨e, he, rfl, hclient⟩
  refine ⟨_, _, hrouted, ?_, e, ?_, rfl, hclient⟩
  · refine ⟨unique_step (l := .connect ip) h.unique ?_, by rw [htables, h.current], ?_,
      fun c => ?_, fun i d hd => ?_⟩
    · rw [step, hrouted]
      rfl
    · rw [h.wrapIndex_eq, wrap_mod hn]
    · rw [Memory.clients, wrapIndex_view]
      exact h.clients c
    · rw [wrapIndex_view] at hd
      exact h.shares i d hd
  · rwa [wrapIndex_view]

/-- While there is room, there is some at the cursor. -/
theorem Dealt.cursorSlot {m : Memory} {n : ℕ} {S : Finset String} (h : m.Dealt n S)
    (hn : 0 < n) (hroom : S.card < n * maxConnectedClients) :
    ∃ slot, (m.tables service1).live[S.card % n]? = some slot ∧
      noClient ∈ (read m.heap slot).connectedClients := by
  have hlt : S.card % n < (m.tables service1).live.length := by
    rw [(h.unique.sound.wf service1).length_live, h.current]
    exact Nat.mod_lt _ hn
  refine ⟨_, List.getElem?_eq_getElem hlt, ?_⟩
  have hview : (m.view service1)[S.card % n]? =
      some (read m.heap (m.tables service1).live[S.card % n]) := by
    rw [view, List.getElem?_map, List.getElem?_eq_getElem hlt]
    rfl
  rw [h.unique.free_iff (List.mem_of_getElem? hview), h.shares _ _ hview, share_next hn]
  exact (Nat.div_lt_iff_lt_mul hn).mpr (Nat.mul_comm n _ ▸ hroom)

/-- A client written to an empty place is one more client. -/
theorem mem_clients_set {m m' : Memory} (h : m.Sound) (htables : m'.tables = m.tables) {p : ℕ}
    (hp : p ∈ m.buffers service1) (hempty : content m.heap p = noClient) {ip : ClientIp}
    (hheap : m'.heap = m.heap.set p ip.val) (c : ClientIp) :
    c.val ∈ m'.clients ↔ c.val = ip.val ∨ c.val ∈ m.clients := by
  obtain ⟨rest, hbefore, hafter⟩ :=
    map_content_set (h.nodup service1) hp (h.valid service1 p hp) ip.val
  rw [← clients_eq, hempty] at hbefore
  rw [← hheap, buffers, ← htables, ← buffers, ← clients_eq] at hafter
  rw [hafter.mem_iff, List.mem_cons, hbefore.mem_iff, List.mem_cons, or_iff_right c.property]

/-- A new client, while there is room. -/
theorem Dealt.connect_new {m : Memory} {n : ℕ} {S : Finset String} (h : m.Dealt n S)
    (hn : 0 < n) {ip : ClientIp} (hip : ip.val ∉ S) (hroom : S.card < n * maxConnectedClients) :
    ∃ address m', m.getCurrentSocket ip = some (address, m') ∧ m'.Dealt n (insert ip.val S) ∧
      m'.Assigned ip address := by
  have hsound := h.unique.sound
  have hnew : ip.val ∉ m.clients := fun hmem => hip ((h.clients ip).mp hmem)
  obtain ⟨slot, hslot, hfree⟩ := h.cursorSlot hn hroom
  obtain ⟨p, hp, hempty, hsocket⟩ :=
    getCurrentSocket_new hsound hnew (h.wrapIndex_eq.symm ▸ hslot) hfree
  obtain ⟨htables, -⟩ := m.wrapIndex_frame
  obtain ⟨m', hsocket, htables', hheap', hcursor⟩ : ∃ m',
      m.getCurrentSocket ip = some ((slot.ipAddress, slot.port), m') ∧ m'.tables = m.tables ∧
        m'.heap = m.heap.set p ip.val ∧ m'.actualIndex service1 = S.card % n + 1 := by
    refine ⟨_, hsocket, htables, rfl, ?_⟩
    rw [← h.wrapIndex_eq]
    exact Function.update_self service1 _ m.wrapIndex.actualIndex
  have hunique : m'.Unique := by
    refine unique_step (l := .connect ip) h.unique ?_
    rw [step, hsocket]
    rfl
  have hview' : m'.view service1 =
      (m.tables service1).live.map (read (m.heap.set p ip.val)) := by
    rw [view, htables', hheap']
  have hbuffer : p ∈ m.buffers service1 := buffers_of_mem (List.mem_of_getElem? hslot) hp
  refine ⟨_, m', hsocket, ⟨hunique, ?_, ?_, fun c => ?_, fun i d hd => ?_⟩, ?_⟩
  · rw [htables', h.current]
  · rw [hcursor, wrap_succ hn, Finset.card_insert_of_notMem hip]
  · rw [mem_clients_set hsound htables' hbuffer hempty hheap', Finset.mem_insert, h.clients]
  · rw [hview', List.getElem?_map, Option.map_eq_some_iff] at hd
    obtain ⟨e, he, rfl⟩ := hd
    have hi : i < n := by
      rw [← h.current, ← (hsound.wf service1).length_live]
      exact (List.getElem?_eq_some_iff.mp he).1
    have hold : (m.view service1)[i]? = some (read m.heap e) := by
      rw [view, List.getElem?_map, he]
      rfl
    rw [Finset.card_insert_of_notMem hip, share_succ hi, ← h.shares i _ hold]
    -- the VM whose turn it is gets the client, the others keep what they have
    by_cases hturn : i = S.card % n
    · subst hturn
      obtain rfl := Option.some.inj (hslot.symm.trans he)
      rw [if_pos rfl, ← hheap']
      exact card_clientSet_set h.unique hunique htables' (List.mem_of_getElem? hslot) hp hempty
        hheap'
    · rw [if_neg hturn, read_set_of_ne hsound hslot he hturn hp]
      rfl
  · refine ⟨read (m.heap.set p ip.val) slot, ?_, rfl, ?_⟩
    · rw [hview']
      exact List.mem_map_of_mem (List.mem_of_getElem? hslot)
    · have hvalid := hsound.valid service1 p hbuffer
      exact List.mem_map.mpr ⟨p, hp, content_set_self hvalid ip.val⟩

/-- One more client, known or new. -/
theorem Dealt.connect {m : Memory} {n : ℕ} {S : Finset String} (h : m.Dealt n S) (hn : 0 < n)
    (ip : ClientIp) (hroom : (insert ip.val S).card ≤ n * maxConnectedClients) :
    ∃ address m', m.getCurrentSocket ip = some (address, m') ∧ m'.Dealt n (insert ip.val S) ∧
      m'.Assigned ip address := by
  by_cases hip : ip.val ∈ S
  · rw [Finset.insert_eq_of_mem hip]
    exact h.connect_known hn hip
  · rw [Finset.card_insert_of_notMem hip] at hroom
    exact h.connect_new hn hip hroom

theorem Dealt.run {m : Memory} {n : ℕ} {S : Finset String} (h : m.Dealt n S) (hn : 0 < n)
    (ips : List ClientIp)
    (hroom : (S ∪ (ips.map (·.val)).toFinset).card ≤ n * maxConnectedClients) :
    ∃ m', run step m (ips.map .connect) = some m' ∧ m'.tables = m.tables ∧
      m'.Dealt n (S ∪ (ips.map (·.val)).toFinset) := by
  induction ips generalizing m S with
  | nil => exact ⟨m, rfl, rfl, by simpa using h⟩
  | cons ip ips ih =>
      have hnext : S ∪ ((ip :: ips).map (·.val)).toFinset =
          insert ip.val S ∪ (ips.map (·.val)).toFinset := by
        rw [List.map_cons, List.toFinset_cons, Finset.union_insert, Finset.insert_union]
      rw [hnext] at hroom ⊢
      obtain ⟨address, m₁, hsocket, h₁, -⟩ := h.connect hn ip
        ((Finset.card_le_card Finset.subset_union_left).trans hroom)
      obtain ⟨m', hrun, htables, h'⟩ := ih h₁ hroom
      refine ⟨m', ?_, htables.trans (getCurrentSocket_frame hsocket).1, h'⟩
      rw [List.map_cons, run_cons, step, hsocket]
      exact hrun

/-- After a run of records no client is recorded, and the cursor is at the
first slot. -/
theorem dealt_records {mem : Service → ℕ → VmSlot} {rs : List ((ℕ → VmSlot) × Record)}
    {m : Memory} (h : run step (initial mem) (rs.map fun p => .record p.1 p.2) = some m)
    (hpos : 1 ≤ (m.tables service1).current) : m.Dealt (m.tables service1).current ∅ := by
  -- what the records keep
  have hinv : ∀ {m₀ : Memory}, m₀.Unique → m₀.actualIndex service1 = 0 →
      (∀ ip : ClientIp, ip.val ∉ m₀.clients) →
      run step m₀ (rs.map fun p => .record p.1 p.2) = some m →
      m.Unique ∧ m.actualIndex service1 = 0 ∧ ∀ ip : ClientIp, ip.val ∉ m.clients := by
    clear h hpos
    induction rs with
    | nil =>
        intro m₀ hunique hcursor hnone h
        obtain rfl := Option.some.inj h
        exact ⟨hunique, hcursor, hnone⟩
    | cons p rs ih =>
        intro m₀ hunique hcursor hnone h
        obtain ⟨u, hu, hrest⟩ := run_cons_eq_some.mp h
        obtain ⟨-, hactual, -⟩ := current_process hunique.sound hu
        refine ih (unique_step hunique hu) (hactual ▸ hcursor) (fun ip => ?_) hrest
        rw [clients, view_record hunique.sound hu]
        split
        · rw [← List.count_eq_zero]
          have hcount := count_apply p.2 (m₀.view service1) ip
          rw [← clients, List.count_eq_zero.mpr (hnone ip)] at hcount
          exact Nat.le_zero.mp hcount
        · exact hnone ip
  have hnil : (initial mem).clients = [] := by simp [clients, view, initial, SlotTable.live]
  obtain ⟨hunique, hcursor, hnone⟩ :=
    hinv (initial_unique mem) rfl (fun ip => hnil ▸ List.not_mem_nil) h
  refine ⟨hunique, rfl, ?_, fun ip => iff_of_false (hnone ip) (Finset.notMem_empty _),
    fun i d hd => ?_⟩
  · rw [hcursor, Finset.card_empty]
    exact wrap_mod hpos 0
  · rw [Finset.card_empty, share_zero, Finset.card_eq_zero, Finset.eq_empty_iff_forall_notMem]
    · intro s hs
      obtain ⟨hne, hs⟩ := Finset.mem_erase.mp hs
      exact hnone ⟨s, hne⟩ (mem_clients (List.mem_of_getElem? hd) (List.mem_toFinset.mp hs))
    · rw [← length_view hunique.sound]
      exact (List.getElem?_eq_some_iff.mp hd).1

/-- What a connection leads to, after those of the clients in `ips`. -/
structure Balanced (m : Memory) (ips : List ClientIp) : Prop where
  close : ∀ d ∈ m.view service1, ∀ e ∈ m.view service1, d.clientSet.card ≤ e.clientSet.card + 1
  capacity : ∀ d ∈ m.view service1, d.clientSet.card ≤ maxConnectedClients
  /-- Each client is recorded at exactly one VM. -/
  once : ∀ ip ∈ ips, ∃! i : ℕ, ∃ d : VmData,
    (m.view service1)[i]? = some d ∧ ip.val ∈ d.connectedClients

theorem Dealt.balanced {m : Memory} {n : ℕ} {ips : List ClientIp} (hn : 0 < n)
    (h : m.Dealt n (ips.map (·.val)).toFinset)
    (hroom : (ips.map (·.val)).toFinset.card ≤ n * maxConnectedClients) : m.Balanced ips := by
  refine ⟨fun d hd e he => ?_, fun d hd => ?_, fun ip hip => ?_⟩
  · obtain ⟨i, hi⟩ := List.mem_iff_getElem?.mp hd
    obtain ⟨j, hj⟩ := List.mem_iff_getElem?.mp he
    rw [h.shares i d hi, h.shares j e hj]
    exact share_le_succ hn _ i j
  · obtain ⟨i, hi⟩ := List.mem_iff_getElem?.mp hd
    rw [h.shares i d hi]
    exact share_le hn hroom i
  · have hclient : ip.val ∈ m.clients :=
      (h.clients ip).mpr (List.mem_toFinset.mpr (List.mem_map_of_mem hip))
    obtain ⟨d, hd, hlist⟩ := List.mem_flatMap.mp hclient
    obtain ⟨i, hi⟩ := List.mem_iff_getElem?.mp hd
    refine ⟨i, ⟨d, hi, hlist⟩, ?_⟩
    rintro j ⟨e, hj, hlist'⟩
    exact eq_of_count_flatMap (h.unique.once ip) hj hi hlist' hlist

/-- **Round-robin balance.**  Some records have listed VMs for the first
service.  As long as the clients that connect are no more than there are
buffers, each connection succeeds; it goes to one of these VMs, at which the
client is recorded, and leaves the VMs balanced. -/
theorem round_robin_balance {mem : Service → ℕ → VmSlot} {rs : List ((ℕ → VmSlot) × Record)}
    {m₀ : Memory} (h : run step (initial mem) (rs.map fun p => .record p.1 p.2) = some m₀)
    (hpos : 1 ≤ (m₀.tables service1).current) {ips : List ClientIp}
    (hroom : (ips.map (·.val)).toFinset.card ≤
      (m₀.tables service1).current * maxConnectedClients) :
    ∀ before ip after, ips = before ++ ip :: after →
      ∃ m address m', run step m₀ (before.map .connect) = some m ∧
        m.getCurrentSocket ip = some (address, m') ∧
        address ∈ m₀.listed service1 ∧ m'.Assigned ip address ∧
        m'.Balanced (before ++ [ip]) := by
  rintro before ip after rfl
  have hdealt := dealt_records h hpos
  -- the clients of the connections so far, and of this one
  have hsofar : ((before ++ [ip]).map (·.val)).toFinset =
      insert ip.val (∅ ∪ (before.map (·.val)).toFinset) := by
    rw [List.map_append, List.toFinset_append, Finset.empty_union, Finset.insert_eq,
      Finset.union_comm]
    rfl
  have hsub : ((before ++ [ip]).map (·.val)).toFinset ⊆
      ((before ++ ip :: after).map (·.val)).toFinset := by
    intro c hc
    rw [List.mem_toFinset] at hc ⊢
    rw [List.append_cons, List.map_append]
    exact List.mem_append_left _ hc
  have hroom' := (Finset.card_le_card hsub).trans hroom
  obtain ⟨m, hrun, htables, hm⟩ := hdealt.run hpos before
    ((Finset.card_le_card (hsofar ▸ Finset.subset_insert _ _)).trans hroom')
  obtain ⟨address, m', hsocket, hm', hassigned⟩ := hm.connect hpos ip (hsofar ▸ hroom')
  refine ⟨m, address, m', hrun, hsocket, ?_, hassigned, ?_⟩
  · obtain ⟨e, he, haddress, -⟩ := hassigned
    obtain ⟨slot, hslot, rfl⟩ := List.mem_map.mp he
    rw [(getCurrentSocket_frame hsocket).1, htables] at hslot
    rw [listed_eq]
    exact List.mem_map.mpr ⟨slot, hslot, haddress⟩
  · rw [← hsofar] at hm'
    exact hm'.balanced hpos hroom'

/-- Two VMs. -/
def twoVms : List ((ℕ → VmSlot) × Record) :=
  [(default, ⟨"10.0.0.1", 8080, service1, some .add⟩),
    (default, ⟨"10.0.0.2", 8080, service1, some .add⟩)]

/-- Three clients; the first one comes back. -/
def threeClients : List ClientIp :=
  [⟨"192.168.2.1", by decide⟩, ⟨"192.168.2.2", by decide⟩, ⟨"192.168.2.1", by decide⟩,
    ⟨"192.168.2.3", by decide⟩]

theorem round_robin_twoVms :
    ∃ m₀, run step (initial default) (twoVms.map fun p => .record p.1 p.2) = some m₀ ∧
      (m₀.tables service1).current = 2 ∧
      ∃ m address m', run step m₀ ((threeClients.take 3).map .connect) = some m ∧
        m.getCurrentSocket ⟨"192.168.2.3", by decide⟩ = some (address, m') ∧
        address ∈ m₀.listed service1 ∧
        m'.Assigned ⟨"192.168.2.3", by decide⟩ address ∧ m'.Balanced threeClients := by
  have hrun : ((run step (initial default) (twoVms.map fun p => .record p.1 p.2)).map fun m =>
      (m.tables service1).current) = some 2 := by
    decide
  obtain ⟨m₀, hm₀, hcurrent⟩ := Option.map_eq_some_iff.mp hrun
  have hroom : (threeClients.map (·.val)).toFinset.card ≤
      (m₀.tables service1).current * maxConnectedClients := by
    rw [hcurrent]
    decide
  refine ⟨m₀, hm₀, hcurrent, ?_⟩
  exact round_robin_balance hm₀ (by rw [hcurrent]; decide) hroom (threeClients.take 3) _ [] rfl

end Memory

end A2PM.Balancer
