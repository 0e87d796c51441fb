/-
A2PM/RateBuffer.lean

The size of `rej_rate` in `controller/server.c`, and the index at which the
communication threads append to it.

`main` allocates one `float` for each slot of `vm_data_set`.  A growing group
calls `realloc` with the initial size again and the number of its new slots,
in bytes; and nothing compares the index with the size.  The threads append
one rate a message, and the index goes back to 0 only when `mttf_thread`
drains the buffer.  So the stores are in bounds as long as few enough rates
come between two drains (`rates_inBounds_iff`).

No growth makes the block large enough for the slots that there are then
(`growsEnough_iff`).
-/
import A2PM.ControllerData
import A2PM.Transition
import Mathlib.Algebra.Group.Action.Defs
import Mathlib.Algebra.Order.BigOperators.Group.Finset

namespace A2PM.Controller

open Transition

/-- `sizeof(float)`. -/
abbrev sizeofFloat : ℕ := 4

/-- A communication thread: its copy of the entry, and has it not returned? -/
structure CommThread where
  vm : VmData
  running : Bool

structure RateBuffer where
  registry : Registry
  threads : List CommThread
  /-- The size of the block at `rej_rate`, in bytes. -/
  size : ℕ
  indexRejRate : ℕ

namespace RateBuffer

inductive Label
  /-- The registration in `accept_new_client`, and the start of the thread. -/
  | register (s : VmService) (ip : String) (socket : ℤ) (port : ℕ) (fresh : ℕ → VmData)
  /-- Thread `n` has received a features message.  (A prediction may change
  the states of entries, but neither their number nor the index.) -/
  | features (n : ℕ)
  /-- Thread `n` leaves its loop. -/
  | disconnect (n : ℕ)
  /-- `mttf_thread` has summed the rates up. -/
  | drain

/-- `main`; `mem` is what `malloc` returned. -/
def initial (mem : Service → ℕ → VmData) : RateBuffer where
  registry := initialRegistry mem
  threads := []
  size := sizeofFloat * numberGroups * numberVMs
  indexRejRate := 0

/-- The number of floats that are allocated. -/
def capacity (b : RateBuffer) : ℕ := b.size / sizeofFloat

/-- The registration has to make room. -/
def full (b : RateBuffer) (g : Service) : Bool :=
  (b.registry g).current == (b.registry g).allocated

/-- The message makes thread `n` append a rate. -/
def appends (b : RateBuffer) (n : ℕ) : Bool :=
  match b.threads[n]? with
  | some t =>
      t.running && t.vm.serviceInfo.state == .active && t.vm.lastSystemFeaturesStored != 0
  | none => false

def step (b : RateBuffer) : Label → Option RateBuffer
  | .register s ip socket port fresh =>
      (Controller.register fresh s ip socket port b.registry).bind fun (reg, i) =>
        ((reg s.service).cells[i]?).map fun vm =>
          { b with
            registry := reg
            threads := b.threads ++ [⟨vm, true⟩]
            size :=
              if b.full s.service then
                -- `allocated_vms[s.service] - previously_allocated` counts as bytes
                sizeofFloat * numberGroups * numberVMs +
                  (reg s.service).allocated - (b.registry s.service).allocated
              else b.size }
  | .features n =>
      (b.threads[n]?).bind fun t =>
        if t.running && t.vm.serviceInfo.state == .active then
          if b.appends n then
            if b.indexRejRate < b.capacity then
              some { b with indexRejRate := b.indexRejRate + 1 }
            else none
          else
            some { b with
              threads := b.threads.set n { t with vm.lastSystemFeaturesStored := 1 } }
        else none
  | .disconnect n =>
      (b.threads[n]?).bind fun t =>
        if t.running then
          (manageDisconnectedVms t.vm b.registry).map fun reg =>
            { b with registry := reg, threads := b.threads.set n { t with running := false } }
        else none
  | .drain => if b.indexRejRate = 0 then none else some { b with indexRejRate := 0 }

/-- **Rate buffer stays in bounds.**  The store finds its index below the
number of floats. -/
def InBounds (b : RateBuffer) : Label → Prop
  | .features n => b.appends n = true → b.indexRejRate < b.capacity
  | _ => True

/-- A registration in a full group doubles its slots. -/
theorem allocated_register {fresh : ℕ → VmData} {s : VmService} {ip : String} {socket : ℤ}
    {port : ℕ} {reg reg' : Registry} {i : ℕ}
    (h : register fresh s ip socket port reg = some (reg', i)) :
    (reg' s.service).allocated =
      if (reg s.service).current = (reg s.service).allocated then (reg s.service).allocated * 2
      else (reg s.service).allocated := by
  obtain ⟨t, ht, heq⟩ := Option.map_eq_some_iff.mp h
  obtain ⟨rfl, -⟩ := Prod.mk.inj heq
  obtain ⟨u, hu, rfl⟩ := Option.map_eq_some_iff.mp ht
  obtain ⟨x, -, rfl⟩ := Option.map_eq_some_iff.mp hu
  rw [Function.update_self]
  show ((reg s.service).ensure fresh).allocated = _
  unfold SlotTable.ensure
  split
  next => rfl
  next => rfl

/-- What a registration does to the slots and to the size. -/
theorem register_step {b : RateBuffer} (h : b.registry.Wf) (s : VmService) (ip : String)
    (socket : ℤ) (port : ℕ) (fresh : ℕ → VmData) :
    ∃ b', b.step (.register s ip socket port fresh) = some b' ∧ b'.registry.Wf ∧
      (b'.registry s.service).allocated =
        (if b.full s.service then (b.registry s.service).allocated * 2
        else (b.registry s.service).allocated) ∧
      (∀ g, g ≠ s.service → b'.registry g = b.registry g) ∧
      b'.indexRejRate = b.indexRejRate ∧
      b'.size = if b.full s.service then
          sizeofFloat * numberGroups * numberVMs + (b'.registry s.service).allocated -
            (b.registry s.service).allocated
        else b.size := by
  obtain ⟨reg, i, slot, hreg, hwf, hcell, -, hother⟩ := register_spec h fresh s ip socket port
  have hallocated := allocated_register hreg
  have hfull : b.full s.service = true ↔
      (b.registry s.service).current = (b.registry s.service).allocated := beq_iff_eq
  have hstep : b.step (.register s ip socket port fresh) = some { b with
      registry := reg
      threads := b.threads ++ [⟨fillSlot s ip socket port slot, true⟩]
      size := if b.full s.service then
          sizeofFloat * numberGroups * numberVMs + (reg s.service).allocated -
            (b.registry s.service).allocated
        else b.size } := by
    show (Controller.register fresh s ip socket port b.registry).bind _ = _
    rw [hreg]
    exact congrArg (Option.map _) hcell
  refine ⟨_, hstep, hwf, ?_, hother, rfl, rfl⟩
  show (reg s.service).allocated = _
  rw [hallocated]
  exact if_congr hfull.symm rfl rfl

/-- No step takes a slot away. -/
theorem registry_step {b b' : RateBuffer} {l : Label} (h : b.registry.Wf)
    (hstep : b.step l = some b') :
    b'.registry.Wf ∧ ∀ g, (b.registry g).allocated ≤ (b'.registry g).allocated := by
  cases l with
  | register s ip socket port fresh =>
      obtain ⟨b₁, hstep₁, hwf, hallocated, hother, -⟩ := register_step h s ip socket port fresh
      obtain rfl := Option.some.inj (hstep.symm.trans hstep₁)
      refine ⟨hwf, ?_⟩
      intro g
      rcases eq_or_ne g s.service with rfl | hne
      · rw [hallocated]
        split
        next => exact Nat.le_mul_of_pos_right _ Nat.two_pos
        next => exact Nat.le_refl _
      · rw [hother g hne]
  | features n =>
      obtain ⟨t, -, hstep⟩ := Option.bind_eq_some_iff.mp hstep
      obtain ⟨-, hstep⟩ := Option.ite_none_right_eq_some.mp hstep
      split at hstep
      next =>
          obtain ⟨-, hstep⟩ := Option.ite_none_right_eq_some.mp hstep
          obtain rfl := Option.some.inj hstep
          exact ⟨h, fun _ => Nat.le_refl _⟩
      next =>
          obtain rfl := Option.some.inj hstep
          exact ⟨h, fun _ => Nat.le_refl _⟩
  | disconnect n =>
      obtain ⟨t, -, hstep⟩ := Option.bind_eq_some_iff.mp hstep
      obtain ⟨-, hstep⟩ := Option.ite_none_right_eq_some.mp hstep
      obtain ⟨reg, hreg, rfl⟩ := Option.map_eq_some_iff.mp hstep
      obtain ⟨u, hu, hwf, hslots, -⟩ := SlotTable.removeFirst_spec
        (fun e => e.ipAddress == t.vm.ipAddress) (h t.vm.serviceInfo.service)
      obtain ⟨u', hu', rfl⟩ := Option.map_eq_some_iff.mp hreg
      obtain rfl := Option.some.inj (hu'.symm.trans hu)
      refine ⟨h.update hwf, ?_⟩
      intro g
      show _ ≤ (Function.update b.registry t.vm.serviceInfo.service u' g).allocated
      rcases eq_or_ne g t.vm.serviceInfo.service with rfl | hne
      · rw [Function.update_self, hslots]
      · rw [Function.update_of_ne hne]
  | drain =>
      obtain ⟨-, hstep⟩ := Option.ite_none_left_eq_some.mp hstep
      obtain rfl := Option.some.inj hstep
      exact ⟨h, fun _ => Nat.le_refl _⟩

end RateBuffer

/-! ### The history -/

/-- The buffer, and what has been done to it. -/
structure RateHistory where
  buffer : RateBuffer
  /-- The number of rates appended since the last drain. -/
  appended : ℕ
  /-- The number of slots that the latest growth has added to its group. -/
  added : ℕ

namespace RateHistory

open RateBuffer

def initial (mem : Service → ℕ → VmData) : RateHistory := ⟨.initial mem, 0, 0⟩

/-- The step with label `l` has led to `b`. -/
def record (h : RateHistory) (l : RateBuffer.Label) (b : RateBuffer) : RateHistory where
  buffer := b
  appended :=
    match l with
    | .features n => if h.buffer.appends n then h.appended + 1 else h.appended
    | .drain => 0
    | _ => h.appended
  added :=
    match l with
    | .register s _ _ _ _ =>
        if h.buffer.full s.service then
          (b.registry s.service).allocated - (h.buffer.registry s.service).allocated
        else h.added
    | _ => h.added

def step (h : RateHistory) (l : RateBuffer.Label) : Option RateHistory :=
  (h.buffer.step l).map (h.record l)

theorem step_buffer (h : RateHistory) (l : RateBuffer.Label) :
    (h.step l).map (·.buffer) = h.buffer.step l := by
  rw [step, Option.map_map]
  exact congrFun Option.map_id (h.buffer.step l)

/-- A rate is appended where fewer have been since the last drain than there
are slots at first, and a quarter (rounded down) of those that the latest growth
has added. -/
def FewRates (h : RateHistory) : RateBuffer.Label → Prop
  | .features n => h.buffer.appends n = true →
      h.appended < numberGroups * numberVMs + h.added / sizeofFloat
  | _ => True

/-- What the size and the index come from. -/
structure Inv (h : RateHistory) : Prop where
  wf : h.buffer.registry.Wf
  index : h.buffer.indexRejRate = h.appended
  size : h.buffer.size = sizeofFloat * numberGroups * numberVMs + h.added

theorem Inv.capacity_eq {h : RateHistory} (hi : h.Inv) :
    h.buffer.capacity = numberGroups * numberVMs + h.added / sizeofFloat := by
  rw [RateBuffer.capacity, hi.size, Nat.mul_assoc, Nat.mul_add_div (by decide)]

theorem inv_step {h h' : RateHistory} {l : RateBuffer.Label} (hi : h.Inv)
    (hstep : h.step l = some h') : h'.Inv := by
  obtain ⟨b, hb, rfl⟩ := Option.map_eq_some_iff.mp hstep
  obtain ⟨hwf, hslots⟩ := registry_step hi.wf hb
  cases l with
  | register s ip socket port fresh =>
      obtain ⟨b', hb', -, -, -, hindex, hsize⟩ := register_step hi.wf s ip socket port fresh
      obtain rfl := Option.some.inj (hb.symm.trans hb')
      -- `realloc` to the first size and the number of slots added, in bytes
      refine ⟨hwf, hindex.trans hi.index, ?_⟩
      show b.size = _ + (if h.buffer.full s.service then _ else _)
      rw [hsize]
      split
      · exact Nat.add_sub_assoc (hslots s.service) _
      · exact hi.size
  | features n =>
      obtain ⟨t, -, hb⟩ := Option.bind_eq_some_iff.mp hb
      obtain ⟨-, hb⟩ := Option.ite_none_right_eq_some.mp hb
      split at hb
      next happends =>
          obtain ⟨-, hb⟩ := Option.ite_none_right_eq_some.mp hb
          obtain rfl := Option.some.inj hb
          refine ⟨hwf, ?_, hi.size⟩
          show h.buffer.indexRejRate + 1 = if h.buffer.appends n then _ else _
          rw [if_pos happends, hi.index]
      next hnot =>
          obtain rfl := Option.some.inj hb
          refine ⟨hwf, ?_, hi.size⟩
          show h.buffer.indexRejRate = if h.buffer.appends n then _ else _
          rw [if_neg hnot, hi.index]
  | disconnect n =>
      obtain ⟨t, -, hb⟩ := Option.bind_eq_some_iff.mp hb
      obtain ⟨-, hb⟩ := Option.ite_none_right_eq_some.mp hb
      obtain ⟨reg, -, rfl⟩ := Option.map_eq_some_iff.mp hb
      exact ⟨hwf, hi.index, hi.size⟩
  | drain =>
      obtain ⟨-, hb⟩ := Option.ite_none_left_eq_some.mp hb
      obtain rfl := Option.some.inj hb
      exact ⟨hwf, rfl, hi.size⟩

/-- **Rate buffer stays in bounds.**  Every store of a run is in bounds iff
few enough rates are appended between the drains. -/
theorem rates_inBounds_iff (mem : Service → ℕ → VmData) (ls : List RateBuffer.Label) :
    Attempts RateBuffer.step InBounds (.initial mem) ls ↔
      Attempts step FewRates (initial mem) ls := by
  refine (attempts_map (·.buffer) step_buffer (initial mem) ls).trans ?_
  refine attempts_congr (fun _ _ _ hi _ hs => inv_step hi hs) (fun h l hi => ?_) ?_
  · cases l with
    | features n =>
        show (_ → h.buffer.indexRejRate < h.buffer.capacity) ↔ _
        rw [hi.capacity_eq, hi.index]
        exact Iff.rfl
    | _ => exact Iff.rfl
  · exact ⟨initialRegistry_wf mem, rfl, rfl⟩

/-- One `ACTIVE` VM, and sixteen messages from it without a drain.  (The
first one only sets the flag.) -/
def sixteenMessages : List RateBuffer.Label :=
  .register ⟨service1, .active, 8080⟩ "10.0.0.1" 4 40001 default :: List.replicate 16 (.features 0)

/-- The seventeenth message's rate is stored behind the fifteen floats. -/
theorem seventeenth_message :
    ((run RateBuffer.step (.initial default) sixteenMessages).map fun b =>
      (b.appends 0, b.indexRejRate, b.capacity)) = some (true, 15, 15) ∧
    ¬ Attempts RateBuffer.step InBounds (.initial default) (sixteenMessages ++ [.features 0]) := by
  have hfinal : ((run RateBuffer.step (.initial default) sixteenMessages).map fun b =>
      (b.appends 0, b.indexRejRate, b.capacity)) = some (true, 15, 15) := by
    decide
  refine ⟨hfinal, fun hok => ?_⟩
  obtain ⟨b, hb, hvalues⟩ := Option.map_eq_some_iff.mp hfinal
  obtain ⟨happends, hrest⟩ := Prod.mk.inj hvalues
  obtain ⟨hindex, hcapacity⟩ := Prod.mk.inj hrest
  have hlt : b.indexRejRate < b.capacity := hok.last hb happends
  rw [hindex, hcapacity] at hlt
  exact absurd hlt (by decide)

end RateHistory

/-! ### The growth -/

namespace RateBuffer

open scoped BigOperators

/-- The bytes of one float for each slot of each group. -/
def needed (b : RateBuffer) : ℕ := sizeofFloat * ∑ g, (b.registry g).allocated

/-- The registration is a growth. -/
def grows (b : RateBuffer) : Label → Bool
  | .register s _ _ _ _ => b.full s.service
  | _ => false

/-- **Rate buffer growth.**  A growth leaves room for all slots, and does not
make the block smaller. -/
def GrowsEnough (b : RateBuffer) (l : Label) : Prop :=
  b.grows l = true → ∀ b', b.step l = some b' → b'.needed ≤ b'.size ∧ b.size ≤ b'.size

/-- No group has fewer slots than at first. -/
structure Slots (b : RateBuffer) : Prop where
  wf : b.registry.Wf
  initially : ∀ g, numberVMs ≤ (b.registry g).allocated

/-- A group that grows from `a` slots leaves a block of `60 + a` bytes, and
`8 * a + 40` are needed at least. -/
theorem not_growsEnough {b : RateBuffer} (h : b.Slots) {l : Label} (hl : b.grows l = true) :
    ¬ b.GrowsEnough l := by
  cases l with
  | register s ip socket port fresh =>
      obtain ⟨b', hstep, -, hdouble, hother, -, hsize⟩ :=
        register_step h.wf s ip socket port fresh
      have hfull : b.full s.service = true := hl
      rw [if_pos hfull] at hdouble hsize
      intro hgrows
      have hroom : b'.needed ≤ b'.size := (hgrows hl b' hstep).1
      have hg := h.initially s.service
      have hrest : 2 * numberVMs ≤
          ∑ g ∈ Finset.univ.erase s.service, (b'.registry g).allocated := by
        have hcard : (Finset.univ.erase s.service).card = 2 := by
          rw [Finset.card_erase_of_mem (Finset.mem_univ _), Finset.card_univ, Fintype.card_fin]
          rfl
        rw [← hcard, ← smul_eq_mul]
        apply Finset.card_nsmul_le_sum
        intro g hg
        rw [hother g (Finset.ne_of_mem_erase hg)]
        exact h.initially g
      have hsum := Finset.add_sum_erase Finset.univ (fun g => (b'.registry g).allocated)
        (Finset.mem_univ s.service)
      rw [needed, ← hsum, hsize] at hroom
      simp only [sizeofFloat, numberGroups, numberVMs] at hroom hrest hg
      omega
  | features n => cases hl
  | disconnect n => cases hl
  | drain => cases hl

theorem slots_step {b b' : RateBuffer} {l : Label} (h : b.Slots) (hstep : b.step l = some b') :
    b'.Slots := by
  obtain ⟨hwf, hslots⟩ := registry_step h.wf hstep
  exact ⟨hwf, fun g => Nat.le_trans (h.initially g) (hslots g)⟩

/-- **Rate buffer growth.**  No growth leaves enough room, so that in a run they
all do iff there is none. -/
theorem growsEnough_iff (mem : Service → ℕ → VmData) (ls : List Label) :
    Attempts step GrowsEnough (.initial mem) ls ↔
      Attempts step (fun b l => b.grows l = false) (.initial mem) ls := by
  apply attempts_congr (fun _ _ _ h _ hs => slots_step h hs)
  · intro b l h
    cases hgrows : b.grows l with
    | true => exact iff_of_false (not_growsEnough h hgrows) Bool.true_eq_false_eq_False
    | false => exact iff_of_true (fun hgrows' => by rw [hgrows] at hgrows'; cases hgrows') rfl
  · exact ⟨initialRegistry_wf mem, fun _ => Nat.le_refl _⟩

/-- One more VM than the group has slots at first. -/
def sixth : Label := .register ⟨service1, .active, 8080⟩ "10.0.0.1" 4 40001 default

/-- The sixth VM of a group: 65 bytes, for twenty slots. -/
theorem sixth_registration :
    ((run step (.initial default) (List.replicate 5 sixth)).bind fun b =>
      (b.step sixth).map fun b' => (b.grows sixth, b'.size, b'.needed)) = some (true, 65, 80) ∧
    ¬ Attempts step GrowsEnough (.initial default) (List.replicate 5 sixth ++ [sixth]) := by
  have hfinal : ((run step (.initial default) (List.replicate 5 sixth)).bind fun b =>
      (b.step sixth).map fun b' => (b.grows sixth, b'.size, b'.needed)) =
        some (true, 65, 80) := by
    decide
  refine ⟨hfinal, fun hok => ?_⟩
  obtain ⟨b, hb, hvalues⟩ := Option.bind_eq_some_iff.mp hfinal
  obtain ⟨b', hb', heq⟩ := Option.map_eq_some_iff.mp hvalues
  obtain ⟨hgrows, heq⟩ := Prod.mk.inj heq
  obtain ⟨hsize, hneeded⟩ := Prod.mk.inj heq
  have hroom : b'.needed ≤ b'.size := (hok.last hb hgrows b' hb').1
  rw [hsize, hneeded] at hroom
  exact absurd hroom (by decide)

end RateBuffer

end A2PM.Controller
