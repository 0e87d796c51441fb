/-
A2PM/ForwardBuffer.lean

The two buffers of `deal_with_data` in the memory of the balancer, with
`append_buffer` as it gets them: by a pointer.

`append_buffer` stores what `realloc` returns in its parameter, so that the
thread goes on with the pointer that it has had before.  Where the block
stays in place that is the right one, and the block is large enough.  Where
it moves, the thread's pointer is to a block that has been freed
(`along_buffersKept_iff`).

Addresses are numbers; the two buffers have the first ones.
-/
import A2PM.Blocks
import A2PM.Relay

namespace A2PM.Balancer

open Transition Blocks

structure Buffers where
  heap : Heap UInt8
  /-- `buffer_to_client` and `buffer_from_client`. -/
  pointer : Side → ℕ
  /-- `bytes_ready_to_client` and `bytes_ready_from_client`. -/
  bytes : Side → ℕ
  times : ℕ
  /-- What has been appended since the last flush. -/
  pending : Side → List UInt8

namespace Buffers

inductive Label
  /-- A call of `append_buffer` for the buffer to side `x`.  If it calls
  `realloc`, that returns `address`. -/
  | append (x : Side) (aux : List UInt8) (address : ℕ) (fresh : ℕ → UInt8)
  /-- `sock_write` has written everything that is ready for side `x`. -/
  | flush (x : Side)

def address : Side → ℕ
  | .client => 0
  | .vm => 1

def initial : Buffers where
  heap := fun p => if p < 2 then some (List.replicate forwardBufferSize 0) else none
  pointer := address
  bytes := fun _ => 0
  times := 2
  pending := fun _ => []

/-- The first half of `append_buffer`: its parameter `original_buffer` after
it. -/
def grow (s : Buffers) (x : Side) (aux : List UInt8) (address : ℕ) (fresh : ℕ → UInt8) :
    Option (Buffers × ℕ) :=
  if forwardBufferSize ≤ s.bytes x + aux.length then
    -- the size is an `int`
    if s.times * forwardBufferSize < 2 ^ 31 then
      (realloc s.heap (s.pointer x) (s.times * forwardBufferSize) address fresh).map fun heap =>
        ({ s with heap := heap, times := s.times + 1 }, address)
    else none
  else some (s, s.pointer x)

/-- `append_buffer`. -/
def appendBuffer (s : Buffers) (x : Side) (aux : List UInt8) (address : ℕ)
    (fresh : ℕ → UInt8) : Option Buffers :=
  (s.grow x aux address fresh).bind fun (s, originalBuffer) =>
    (write s.heap originalBuffer (s.bytes x) aux).map fun heap =>
      { s with
        heap := heap
        bytes := Function.update s.bytes x (s.bytes x + aux.length)
        pending := Function.update s.pending x (s.pending x ++ aux) }

/-- What follows a complete `sock_write`. -/
def flush (s : Buffers) (x : Side) : Option Buffers :=
  (read s.heap (s.pointer x) (s.bytes x)).bind fun _ =>
    (write s.heap (s.pointer x) 0 (List.replicate forwardBufferSize 0)).map fun heap =>
      { s with
        heap := heap
        bytes := Function.update s.bytes x 0
        pending := Function.update s.pending x [] }

def step (s : Buffers) : Label → Option Buffers
  | .append x aux address fresh =>
      if aux.length ≤ forwardBufferSize then s.appendBuffer x aux address fresh else none
  | .flush x => s.flush x

/-! ### The property -/

/-- **Pending buffer.**  The thread's pointers are to live blocks with room
for what is ready, and these begin with it. -/
def Kept (s : Buffers) : Prop :=
  ∀ x, s.bytes x = (s.pending x).length ∧
    Holds s.heap (s.pointer x) (s.bytes x) (s.pending x)

/-- If `append_buffer` calls `realloc`, the block stays where it is. -/
def StaysInPlace (s : Buffers) : Label → Prop
  | .append x aux address _ =>
      forwardBufferSize ≤ s.bytes x + aux.length → address = s.pointer x
  | .flush _ => True

/-- The blocks have the size of a read at least, and the next size is enough
for one more read. -/
structure Inv (s : Buffers) : Prop where
  distinct : ∀ x y, x ≠ y → s.pointer x ≠ s.pointer y
  bytes : ∀ x, s.bytes x = (s.pending x).length
  holds : ∀ x, Holds s.heap (s.pointer x) forwardBufferSize (s.pending x)
  times : 2 ≤ s.times
  room : ∀ x, (s.pending x).length + forwardBufferSize ≤ s.times * forwardBufferSize

theorem Inv.kept {s : Buffers} (h : s.Inv) : s.Kept := by
  intro x
  refine ⟨h.bytes x, ?_⟩
  rw [h.bytes x]
  exact (h.holds x).full

theorem initial_inv : initial.Inv where
  distinct x y hne := by
    cases x <;> cases y
    · exact absurd rfl hne
    · exact Nat.zero_ne_one
    · exact Nat.one_ne_zero
    · exact absurd rfl hne
  bytes _ := rfl
  holds x := by
    have hlt : address x < 2 := by cases x <;> decide
    exact ⟨_, if_pos hlt, (List.length_replicate ..).ge, List.nil_prefix⟩
  times := Nat.le_refl 2
  room _ := (by decide : 0 + forwardBufferSize ≤ 2 * forwardBufferSize)

/-! ### One step -/

/-- A buffer in place has room for what is appended. -/
theorem Inv.grow {s s' : Buffers} (h : s.Inv) {x : Side} {aux : List UInt8} {address p : ℕ}
    {fresh : ℕ → UInt8} (haux : aux.length ≤ forwardBufferSize)
    (hplace : forwardBufferSize ≤ s.bytes x + aux.length → address = s.pointer x)
    (hgrow : s.grow x aux address fresh = some (s', p)) :
    p = s.pointer x ∧ s'.pointer = s.pointer ∧ s'.bytes = s.bytes ∧ s'.pending = s.pending ∧
      s.times ≤ s'.times ∧ (∀ y, y ≠ x → s'.heap (s.pointer y) = s.heap (s.pointer y)) ∧
      (∃ n, forwardBufferSize ≤ n ∧ (s.pending x).length + aux.length ≤ n ∧
        Holds s'.heap (s.pointer x) n (s.pending x)) ∧
      (s.pending x ++ aux).length + forwardBufferSize ≤ s'.times * forwardBufferSize := by
  have hbytes := h.bytes x
  have hroom := h.room x
  have htimes : 2 * forwardBufferSize ≤ s.times * forwardBufferSize :=
    Nat.mul_le_mul_right _ h.times
  rw [Buffers.grow.eq_def] at hgrow
  split at hgrow
  next hfull =>
      -- `realloc` returns the address that the caller has
      obtain rfl := hplace hfull
      obtain ⟨-, hgrow⟩ := Option.ite_none_right_eq_some.mp hgrow
      obtain ⟨heap, hrealloc, heq⟩ := Option.map_eq_some_iff.mp hgrow
      obtain ⟨rfl, rfl⟩ := Prod.mk.inj heq
      obtain ⟨heap', hrealloc', hholds, -, hframe⟩ :=
        realloc_spec fresh (h.holds x) (Or.inl rfl) (Nat.le_of_add_right_le hroom)
      obtain rfl := Option.some.inj (hrealloc.symm.trans hrealloc')
      refine ⟨rfl, rfl, rfl, rfl, Nat.le_succ _, fun y hy => ?_, ⟨_, ?_, ?_, hholds⟩, ?_⟩
      · exact hframe _ (h.distinct y x hy) (h.distinct y x hy)
      · omega
      · omega
      · show _ ≤ (s.times + 1) * forwardBufferSize
        rw [List.length_append, Nat.succ_mul]
        omega
  next hsmall =>
      obtain ⟨rfl, rfl⟩ := Prod.mk.inj (Option.some.inj hgrow)
      refine ⟨rfl, rfl, rfl, rfl, Nat.le_refl _, fun _ _ => rfl,
        ⟨_, Nat.le_refl _, ?_, h.holds x⟩, ?_⟩
      · omega
      · rw [List.length_append]
        omega

/-- A step that leaves the blocks where they are and changes one buffer. -/
theorem Inv.update {s s' : Buffers} (h : s.Inv) {x : Side} (bs : List UInt8)
    (hpointer : s'.pointer = s.pointer)
    (hbytes : s'.bytes = Function.update s.bytes x bs.length)
    (hpending : s'.pending = Function.update s.pending x bs) (htimes : s.times ≤ s'.times)
    (hother : ∀ y, y ≠ x → s'.heap (s.pointer y) = s.heap (s.pointer y))
    (hholds : Holds s'.heap (s.pointer x) forwardBufferSize bs)
    (hroom : bs.length + forwardBufferSize ≤ s'.times * forwardBufferSize) : s'.Inv := by
  refine ⟨hpointer ▸ h.distinct, fun y => ?_, fun y => ?_, Nat.le_trans h.times htimes,
    fun y => ?_⟩
  · rw [hbytes, hpending]
    rcases eq_or_ne y x with rfl | hne
    · rw [Function.update_self, Function.update_self]
    · rw [Function.update_of_ne hne, Function.update_of_ne hne, h.bytes y]
  · rw [hpointer, hpending]
    rcases eq_or_ne y x with rfl | hne
    · rw [Function.update_self]
      exact hholds
    · rw [Function.update_of_ne hne]
      exact (h.holds y).congr (hother y hne)
  · rw [hpending]
    rcases eq_or_ne y x with rfl | hne
    · rw [Function.update_self]
      exact hroom
    · rw [Function.update_of_ne hne]
      exact Nat.le_trans (h.room y) (Nat.mul_le_mul_right _ htimes)

theorem inv_append {s s' : Buffers} (h : s.Inv) {x : Side} {aux : List UInt8} {address : ℕ}
    {fresh : ℕ → UInt8} (haux : aux.length ≤ forwardBufferSize)
    (hplace : forwardBufferSize ≤ s.bytes x + aux.length → address = s.pointer x)
    (hstep : s.appendBuffer x aux address fresh = some s') : s'.Inv := by
  obtain ⟨⟨u, p⟩, hgrow, hstep⟩ := Option.bind_eq_some_iff.mp hstep
  obtain ⟨heap, hwrite, rfl⟩ := Option.map_eq_some_iff.mp hstep
  -- first make room, then copy behind the pending bytes
  obtain ⟨rfl, hpointer, hbytes, hpending, htimes, hother, ⟨n, hsize, hfits, hholds⟩, hroom⟩ :=
    h.grow haux hplace hgrow
  obtain ⟨heap', hwrite', hholds', hframe⟩ := write_spec aux hholds hfits
  rw [hbytes, h.bytes x] at hwrite
  obtain rfl := Option.some.inj (hwrite.symm.trans hwrite')
  refine h.update (s.pending x ++ aux) hpointer ?_ ?_ htimes (fun y hne => ?_)
    (hholds'.mono hsize) hroom
  · show Function.update u.bytes x (u.bytes x + aux.length) = _
    rw [hbytes, h.bytes x, List.length_append]
  · show Function.update u.pending x (u.pending x ++ aux) = _
    rw [hpending]
  · exact (hframe _ (h.distinct y x hne)).trans (hother y hne)

theorem inv_flush {s s' : Buffers} (h : s.Inv) {x : Side} (hstep : s.flush x = some s') :
    s'.Inv := by
  obtain ⟨sent, -, hstep⟩ := Option.bind_eq_some_iff.mp hstep
  obtain ⟨heap, hwrite, rfl⟩ := Option.map_eq_some_iff.mp hstep
  -- `bzero` of the first bytes of a block whose contents do not matter any more
  have hempty : Holds s.heap (s.pointer x) forwardBufferSize [] := by
    obtain ⟨block, hblock, hlen, -⟩ := h.holds x
    exact ⟨block, hblock, hlen, List.nil_prefix⟩
  obtain ⟨heap', hwrite', hholds, hframe⟩ :=
    write_spec (List.replicate forwardBufferSize 0) hempty
      (by rw [List.length_nil, List.length_replicate, Nat.zero_add])
  obtain rfl := Option.some.inj (hwrite.symm.trans hwrite')
  refine h.update [] rfl rfl rfl (Nat.le_refl _)
    (fun y hne => hframe _ (h.distinct y x hne)) ?_ ?_
  · obtain ⟨block, hblock, hlen, -⟩ := hholds
    exact ⟨block, hblock, hlen, List.nil_prefix⟩
  · exact Nat.le_trans (Nat.add_le_add_right (Nat.zero_le _) _) (h.room x)

theorem inv_step {s s' : Buffers} {l : Label} (h : s.Inv) (hl : s.StaysInPlace l)
    (hstep : s.step l = some s') : s'.Inv := by
  cases l with
  | append x aux address fresh =>
      obtain ⟨haux, hstep⟩ := Option.ite_none_right_eq_some.mp hstep
      exact inv_append h haux hl hstep
  | flush x => exact inv_flush h hstep

/-- A block that moves leaves the thread without its buffer. -/
theorem staysInPlace_of_kept {s s' : Buffers} {l : Label} (h : s.Inv)
    (hstep : s.step l = some s') (hkept : s'.Kept) : s.StaysInPlace l := by
  cases l with
  | flush x => trivial
  | append x aux address fresh =>
      intro hfull
      by_contra hmoved
      obtain ⟨-, hstep⟩ := Option.ite_none_right_eq_some.mp hstep
      obtain ⟨⟨u, p⟩, hgrow, hstep⟩ := Option.bind_eq_some_iff.mp hstep
      obtain ⟨heap, hwrite, rfl⟩ := Option.map_eq_some_iff.mp hstep
      rw [Buffers.grow.eq_def, if_pos hfull] at hgrow
      obtain ⟨-, hgrow⟩ := Option.ite_none_right_eq_some.mp hgrow
      obtain ⟨heap₁, hrealloc, heq⟩ := Option.map_eq_some_iff.mp hgrow
      obtain ⟨rfl, rfl⟩ := Prod.mk.inj heq
      obtain ⟨heap₂, hrealloc', -, hfreed, -⟩ := realloc_spec fresh (h.holds x)
        (realloc_eq_some hrealloc) (Nat.le_of_add_right_le (h.room x))
      obtain rfl := Option.some.inj (hrealloc.symm.trans hrealloc')
      -- the block at the thread's pointer is not live
      obtain ⟨-, block, hblock, -⟩ := hkept x
      have hnone : heap (s.pointer x) = none :=
        (write_frame hwrite (Ne.symm hmoved)).trans (hfreed hmoved)
      exact absurd (hblock.symm.trans hnone) (Option.some_ne_none block)

/-- **Pending buffer.**  The thread has its buffers all along a run iff no
`realloc` moves one. -/
theorem along_buffersKept_iff (ls : List Label) :
    Along step Kept initial ls ↔ AllSteps step StaysInPlace initial ls :=
  along_iff_allSteps (fun _ h => h.kept) (fun _ _ _ h hl hs => inv_step h hl hs)
    (fun _ _ _ h hs hk => staysInPlace_of_kept h hs hk) initial_inv

/-- In place, the buffers are those of the relay. -/
theorem appendBuffer_refines {s s' : Buffers} (h : s.Inv) {x : Side} {aux : List UInt8}
    {fresh : ℕ → UInt8} (hstep : s.appendBuffer x aux (s.pointer x) fresh = some s') :
    Balancer.appendBuffer (s.pending x) aux s.times .inPlace = some (s'.pending x, s'.times) := by
  obtain ⟨⟨u, p⟩, hgrow, hstep⟩ := Option.bind_eq_some_iff.mp hstep
  obtain ⟨heap, -, rfl⟩ := Option.map_eq_some_iff.mp hstep
  rw [Buffers.grow.eq_def, h.bytes x] at hgrow
  rw [Balancer.appendBuffer.eq_def]
  show _ = some (Function.update u.pending x (u.pending x ++ aux) x, u.times)
  rw [Function.update_self]
  split at hgrow
  next hfull =>
      obtain ⟨hint, hgrow⟩ := Option.ite_none_right_eq_some.mp hgrow
      obtain ⟨heap₁, -, heq⟩ := Option.map_eq_some_iff.mp hgrow
      obtain ⟨rfl, rfl⟩ := Prod.mk.inj heq
      rw [if_pos hfull]
      exact if_pos hint
  next hsmall =>
      obtain ⟨rfl, rfl⟩ := Prod.mk.inj (Option.some.inj hgrow)
      exact if_neg hsmall

/-- A first read that fills the buffer, whose block `realloc` moves to
address 2. -/
theorem step_moved {aux : List UInt8} (haux : aux.length = forwardBufferSize)
    (fresh : ℕ → UInt8) :
    ∃ s, initial.step (.append .vm aux 2 fresh) = some s ∧ s.bytes .vm = forwardBufferSize ∧
      s.heap (s.pointer .vm) = none := by
  have hfull : forwardBufferSize ≤ initial.bytes .vm + aux.length := by
    rw [haux]
    exact Nat.le_add_left _ _
  have hint : initial.times * forwardBufferSize < 2 ^ 31 := by decide
  obtain ⟨heap, hrealloc, hholds, hfreed, -⟩ :=
    realloc_spec fresh (initial_inv.holds .vm) (Or.inr rfl : 2 = 1 ∨ initial.heap 2 = none)
      (Nat.le_of_add_right_le (initial_inv.room .vm))
  obtain ⟨heap', hwrite, -, hframe⟩ := write_spec aux hholds (haux ▸ initial_inv.room .vm)
  have hgrow : initial.grow .vm aux 2 fresh =
      some ({ initial with heap := heap, times := initial.times + 1 }, 2) := by
    rw [Buffers.grow.eq_def, if_pos hfull, if_pos hint, hrealloc]
    rfl
  have hstep : initial.step (.append .vm aux 2 fresh) =
      some { initial with
        heap := heap'
        bytes := Function.update initial.bytes .vm (initial.bytes .vm + aux.length)
        times := initial.times + 1
        pending := Function.update initial.pending .vm (initial.pending .vm ++ aux) } := by
    rw [step, if_pos haux.le, appendBuffer, hgrow, Option.bind_some]
    exact congrArg (Option.map _) hwrite
  refine ⟨_, hstep, ?_, ?_⟩
  · show Function.update initial.bytes .vm (initial.bytes .vm + aux.length) .vm = _
    rw [Function.update_self, haux]
    exact Nat.zero_add _
  · show heap' (address .vm) = none
    rw [hframe _ (by decide)]
    exact hfreed (by decide)

/-- A read of 1 MiB, and `realloc` moves the block. -/
def fullRead : List Label := [.append .vm (List.replicate forwardBufferSize 7) 2 fun _ => 0]

theorem freed_buffer :
    ∃ s, run step initial fullRead = some s ∧ s.bytes .vm = forwardBufferSize ∧
      s.heap (s.pointer .vm) = none ∧ ¬ Along step Kept initial fullRead := by
  have hlen : (List.replicate forwardBufferSize (7 : UInt8)).length = forwardBufferSize :=
    List.length_replicate
  obtain ⟨s, hstep, hbytes, hnone⟩ := step_moved hlen fun _ => 0
  refine ⟨s, ?_, hbytes, hnone, fun hok => ?_⟩
  · rw [fullRead, run_cons, hstep, Option.bind_some, run_nil]
  · obtain ⟨-, block, hblock, -⟩ := (hok.2 s hstep).head .vm
    exact absurd (hblock.symm.trans hnone) (Option.some_ne_none block)

end Buffers

end A2PM.Balancer
