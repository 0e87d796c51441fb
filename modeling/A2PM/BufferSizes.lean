/-
A2PM/BufferSizes.lean

The sizes that `append_buffer` asks `realloc` for in the balancer, and the
counter `times` that the two buffers of a thread share.

Each read that fills a buffer raises the counter, and nothing ever lowers it:
so the size is always enough for both buffers (`Inv.room`), but it is an `int`,
and after 2046 such reads on a connection it is too large for one
(`sizesOk_iff`).
-/
import A2PM.ForwardBuffer

namespace A2PM.Balancer

open Transition

/-- The counters of `deal_with_data`. -/
structure Sizes where
  /-- `bytes_ready_to_client` and `bytes_ready_from_client`. -/
  bytes : Side → ℕ
  times : ℕ

namespace Sizes

inductive Label
  /-- A call of `append_buffer` for the buffer to side `x`, after a read of `n`
  bytes. -/
  | append (x : Side) (n : ℕ) (pos : 0 < n) (le : n ≤ forwardBufferSize)
  | flush (x : Side)

def initial : Sizes := ⟨fun _ => 0, 2⟩

/-- `append_buffer` calls `realloc`. -/
def fills (s : Sizes) : Label → Bool
  | .append x n _ _ => forwardBufferSize ≤ s.bytes x + n
  | .flush _ => false

/-- `none`: the size overflows. -/
def step (s : Sizes) : Label → Option Sizes
  | .append x n pos le =>
      if s.fills (.append x n pos le) then
        if s.times * forwardBufferSize < 2 ^ 31 then
          some ⟨Function.update s.bytes x (s.bytes x + n), s.times + 1⟩
        else none
      else some { s with bytes := Function.update s.bytes x (s.bytes x + n) }
  | .flush x => some { s with bytes := Function.update s.bytes x 0 }

/-- **Forward buffer size.**  A size that is computed is an `int`, and enough
for what is appended; without a `realloc` the first block is. -/
def SizeOk (s : Sizes) : Label → Prop
  | .append x n _ _ =>
      if forwardBufferSize ≤ s.bytes x + n then
        s.times * forwardBufferSize < 2 ^ 31 ∧ s.bytes x + n ≤ s.times * forwardBufferSize
      else s.bytes x + n ≤ forwardBufferSize
  | .flush _ => True

/-- There is room for one more read in each buffer. -/
structure Inv (s : Sizes) : Prop where
  times : 2 ≤ s.times
  room : ∀ x, s.bytes x + forwardBufferSize ≤ s.times * forwardBufferSize

theorem initial_inv : initial.Inv where
  times := Nat.le_refl 2
  room _ := (by decide : 0 + forwardBufferSize ≤ 2 * forwardBufferSize)

/-- A step that changes one buffer. -/
theorem Inv.update {s : Sizes} (h : s.Inv) (x : Side) {n times : ℕ} (htimes : s.times ≤ times)
    (hn : n + forwardBufferSize ≤ times * forwardBufferSize) :
    Inv ⟨Function.update s.bytes x n, times⟩ := by
  refine ⟨Nat.le_trans h.times htimes, ?_⟩
  intro y
  show Function.update s.bytes x n y + forwardBufferSize ≤ times * forwardBufferSize
  rcases eq_or_ne y x with rfl | hne
  · rw [Function.update_self]
    exact hn
  · rw [Function.update_of_ne hne]
    exact Nat.le_trans (h.room y) (Nat.mul_le_mul_right _ htimes)

theorem inv_step {s s' : Sizes} {l : Label} (h : s.Inv) (hstep : s.step l = some s') : s'.Inv := by
  cases l with
  | append x n pos le =>
      have hroom := h.room x
      rw [step] at hstep
      split at hstep
      next hfills =>
          obtain ⟨-, hstep⟩ := Option.ite_none_right_eq_some.mp hstep
          obtain rfl := Option.some.inj hstep
          apply h.update x (Nat.le_succ _)
          rw [Nat.succ_mul]
          omega
      next hfits =>
          obtain rfl := Option.some.inj hstep
          have hlt : s.bytes x + n < forwardBufferSize :=
            Nat.lt_of_not_le fun hle => hfits (decide_eq_true hle)
          have htimes : 2 * forwardBufferSize ≤ s.times * forwardBufferSize :=
            Nat.mul_le_mul_right _ h.times
          exact h.update x (Nat.le_refl _) (by omega)
  | flush x =>
      obtain rfl := Option.some.inj hstep
      have hroom := h.room x
      exact h.update x (Nat.le_refl _) (by omega)

/-! ### The buffers in memory -/

/-- The counters of the thread with its buffers. -/
def ofBuffers (s : Buffers) : Sizes := ⟨s.bytes, s.times⟩

theorem step_ofBuffers_append {s s' : Buffers} {x : Side} {aux : List UInt8} {address : ℕ}
    {fresh : ℕ → UInt8} (pos : 0 < aux.length) (le : aux.length ≤ forwardBufferSize)
    (hstep : s.appendBuffer x aux address fresh = some s') :
    (ofBuffers s).step (.append x aux.length pos le) = some (ofBuffers s') := by
  obtain ⟨⟨u, p⟩, hgrow, hstep⟩ := Option.bind_eq_some_iff.mp hstep
  obtain ⟨heap, -, rfl⟩ := Option.map_eq_some_iff.mp hstep
  rw [Buffers.grow.eq_def] at hgrow
  rw [step]
  split at hgrow
  next hfull =>
      obtain ⟨hint, hgrow⟩ := Option.ite_none_right_eq_some.mp hgrow
      obtain ⟨heap', -, heq⟩ := Option.map_eq_some_iff.mp hgrow
      obtain ⟨rfl, rfl⟩ := Prod.mk.inj heq
      have hfills : (ofBuffers s).fills (.append x aux.length pos le) = true :=
        decide_eq_true hfull
      rw [if_pos hfills]
      exact if_pos hint
  next hfits =>
      obtain ⟨rfl, rfl⟩ := Prod.mk.inj (Option.some.inj hgrow)
      exact if_neg fun hfills => hfits (of_decide_eq_true hfills)

/-- The counters of a run of the thread are those of a run here. -/
theorem exists_run_ofBuffers {s s' : Buffers} {ls : List Buffers.Label}
    (hread : ∀ x aux address fresh, .append x aux address fresh ∈ ls → 0 < aux.length)
    (h : run Buffers.step s ls = some s') :
    ∃ ks, run step (ofBuffers s) ks = some (ofBuffers s') := by
  induction ls generalizing s with
  | nil =>
      obtain rfl := Option.some.inj h
      exact ⟨[], rfl⟩
  | cons l ls ih =>
      obtain ⟨u, hu, hrest⟩ := run_cons_eq_some.mp h
      obtain ⟨ks, hks⟩ := ih (fun x aux address fresh hmem =>
        hread x aux address fresh (List.mem_cons_of_mem _ hmem)) hrest
      cases l with
      | append x aux address fresh =>
          obtain ⟨le, hu⟩ := Option.ite_none_right_eq_some.mp hu
          have pos := hread x aux address fresh List.mem_cons_self
          have hstep := step_ofBuffers_append pos le hu
          exact ⟨.append x aux.length pos le :: ks, run_cons_eq_some.mpr ⟨_, hstep, hks⟩⟩
      | flush x =>
          obtain ⟨sent, -, hu⟩ := Option.bind_eq_some_iff.mp hu
          obtain ⟨heap, -, rfl⟩ := Option.map_eq_some_iff.mp hu
          exact ⟨.flush x :: ks, run_cons_eq_some.mpr ⟨_, rfl, hks⟩⟩

end Sizes

/-! ### The history -/

/-- The counters, and the number of reads that have filled a buffer. -/
structure SizeHistory where
  sizes : Sizes
  filled : ℕ

namespace SizeHistory

open Sizes

def initial : SizeHistory := ⟨.initial, 0⟩

def step (h : SizeHistory) (l : Sizes.Label) : Option SizeHistory :=
  (h.sizes.step l).map fun s => ⟨s, if h.sizes.fills l then h.filled + 1 else h.filled⟩

theorem step_sizes (h : SizeHistory) (l : Sizes.Label) :
    (h.step l).map (·.sizes) = h.sizes.step l := by
  rw [step, Option.map_map]
  exact congrFun Option.map_id (h.sizes.step l)

/-- A read fills a buffer where fewer than 2046 have done so before. -/
def FewFilled (h : SizeHistory) (l : Sizes.Label) : Prop :=
  h.sizes.fills l = true → h.filled < 2046

structure Inv (h : SizeHistory) : Prop where
  sizes : h.sizes.Inv
  times : h.sizes.times = h.filled + 2

theorem inv_step {h h' : SizeHistory} {l : Sizes.Label} (hi : h.Inv) (hstep : h.step l = some h') :
    h'.Inv := by
  obtain ⟨s, hs, rfl⟩ := Option.map_eq_some_iff.mp hstep
  refine ⟨Sizes.inv_step hi.sizes hs, ?_⟩
  show s.times = (if h.sizes.fills l then _ else _) + 2
  cases l with
  | append x n pos le =>
      rw [Sizes.step] at hs
      split at hs
      next hfills =>
          obtain ⟨-, hs⟩ := Option.ite_none_right_eq_some.mp hs
          obtain rfl := Option.some.inj hs
          rw [if_pos hfills, Nat.add_right_comm, ← hi.times]
      next hfits =>
          obtain rfl := Option.some.inj hs
          rw [if_neg hfits]
          exact hi.times
  | flush x =>
      obtain rfl := Option.some.inj hs
      exact hi.times

/-- With the counter at `filled + 2`, only the `int` can be too small. -/
theorem sizeOk_iff {h : SizeHistory} (hi : h.Inv) (l : Sizes.Label) :
    h.sizes.SizeOk l ↔ h.FewFilled l := by
  cases l with
  | append x n pos le =>
      have hroom := hi.sizes.room x
      have htimes := hi.times
      show (if forwardBufferSize ≤ h.sizes.bytes x + n then _ else _) ↔
        (decide (forwardBufferSize ≤ h.sizes.bytes x + n) = true → _)
      rw [decide_eq_true_eq]
      split
      next hfills =>
          rw [forall_prop_of_true hfills]
          simp only [forwardBufferSize] at hroom le ⊢
          omega
      next hfits =>
          exact iff_of_true (Nat.le_of_lt (Nat.lt_of_not_le hfits)) fun h => absurd h hfits
  | flush x => exact iff_of_true trivial fun h => absurd h Bool.false_ne_true

/-- **Forward buffer size.**  The sizes of a run are right iff no read fills a
buffer after 2046 others have. -/
theorem sizesOk_iff (ls : List Sizes.Label) :
    Attempts Sizes.step SizeOk .initial ls ↔ Attempts step FewFilled initial ls := by
  apply (attempts_map (·.sizes) step_sizes initial ls).trans
  apply attempts_congr (fun _ _ _ hi _ hs => inv_step hi hs) fun h l hi => sizeOk_iff hi l
  exact ⟨initial_inv, rfl⟩

end SizeHistory

/-! ### A long connection -/

namespace Sizes

section Reads

variable {n : ℕ} (pos : 0 < n) (le : n ≤ forwardBufferSize) {s : Sizes} {x : Side}

/-- Reads of `n` bytes for the client, each passed on before the next one. -/
def reads : ℕ → List Label
  | 0 => []
  | k + 1 => .append .client n pos le :: .flush .client :: reads k

variable {pos le}

theorem step_fills (hfills : forwardBufferSize ≤ s.bytes x + n)
    (hint : s.times * forwardBufferSize < 2 ^ 31) :
    s.step (.append x n pos le) =
      some ⟨Function.update s.bytes x (s.bytes x + n), s.times + 1⟩ := by
  rw [step, fills, if_pos (decide_eq_true hfills), if_pos hint]

theorem run_reads (hn : n = forwardBufferSize) {k : ℕ} (hbytes : s.bytes = fun _ => 0)
    (h : s.times + k ≤ 2048) :
    run step s (reads pos le k) = some ⟨fun _ => 0, s.times + k⟩ := by
  induction k generalizing s with
  | zero =>
      rw [← hbytes]
      rfl
  | succ k ih =>
      have hfills : forwardBufferSize ≤ s.bytes .client + n := hn ▸ Nat.le_add_left _ _
      have hint : s.times * forwardBufferSize < 2 ^ 31 := by
        simp only [forwardBufferSize]
        omega
      have hflush : Function.update (Function.update s.bytes .client (s.bytes .client + n))
          .client 0 = fun _ => 0 := by
        rw [Function.update_idem, hbytes]
        exact Function.update_eq_self Side.client fun _ => 0
      have hrest := ih (s := ⟨_, s.times + 1⟩) hflush (Nat.succ_add_eq_add_succ s.times k ▸ h)
      rw [reads, run_cons, step_fills hfills hint, Option.bind_some, run_cons]
      exact hrest.trans (by rw [Nat.succ_add_eq_add_succ])

theorem int_of_sizeOk (hfills : forwardBufferSize ≤ s.bytes x + n)
    (h : s.SizeOk (.append x n pos le)) : s.times * forwardBufferSize < 2 ^ 31 := by
  rw [SizeOk, if_pos hfills] at h
  exact h.1

/-- The 2047th of them asks for 2048 MiB. -/
theorem not_sizeOk_read (hn : n = forwardBufferSize) :
    ¬ Attempts step SizeOk initial (reads pos le 2046 ++ [.append .client n pos le]) := by
  intro hok
  have hrun : run step initial (reads pos le 2046) = some ⟨fun _ => 0, 2048⟩ :=
    run_reads hn rfl (by decide)
  have hfills : forwardBufferSize ≤ 0 + n := hn ▸ Nat.le_add_left _ _
  have hlast : SizeOk ⟨fun _ => 0, 2048⟩ (.append .client n pos le) := hok.last hrun
  have hsize := int_of_sizeOk hfills hlast
  exact absurd hsize (by decide)

end Reads

/-- 2047 reads of 1 MiB. -/
def fullReads : List Label :=
  reads (n := forwardBufferSize) (by decide) (Nat.le_refl _) 2046 ++
    [.append .client forwardBufferSize (by decide) (Nat.le_refl _)]

theorem not_sizeOk_fullReads : ¬ Attempts step SizeOk initial fullReads := not_sizeOk_read rfl

end Sizes

end A2PM.Balancer
