/-
A2PM/RateAverages.lean

`mttf_thread` of `controller/server.c`, which averages the rates that the
communication threads append to `rej_rate`, statement by statement.

The thread looks at `index_rej_rate` before it takes `mttf_mutex`, and
divides after it has given it back.  Between the look and the lock the index
can only grow, because no other thread sets it back; so there is a rate to
average.  `batches` lists what has been drained: `rates_eachOnce` says that
the averages printed are the means of these, and that the batches and the
buffer together are what has been appended.

`float` is exact, and `rej_rate` a function: the index is assumed to stay
within the buffer.
-/
import A2PM.Transition
import Mathlib.Algebra.BigOperators.Group.List.Basic
import Mathlib.Algebra.Order.Field.Rat
import Mathlib.Logic.Function.Basic

namespace A2PM.Controller

open Transition

/-- A communication thread at `rej_rate[index_rej_rate++] = ...`. -/
inductive AppendPc
  | outside
  /-- It has locked `mttf_mutex`. -/
  | locked
  | stored
  deriving DecidableEq

/-- The statement of `mttf_thread` that comes next. -/
inductive MttfPc
  | test | zero | lock | load | start | sum | reset | unlock | divide | print | sleep
  deriving DecidableEq

/-- Who holds `mttf_mutex`. -/
inductive MttfHolder
  | mttf
  | comm (n : ℕ)
  deriving DecidableEq

structure Averages where
  indexRejRate : ℕ
  rejRate : ℕ → ℚ
  holder : Option MttfHolder
  append : ℕ → AppendPc
  pc : MttfPc
  /-- The variables of `mttf_thread`. -/
  index : ℕ
  avgRejRate : ℚ
  threadIndexRejRate : ℕ
  printed : List ℚ
  /-- All rates appended. -/
  appended : List ℚ
  /-- What the buffer held at each reset of the index. -/
  batches : List (List ℚ)

namespace Averages

inductive Label
  | lock (n : ℕ)
  | store (n : ℕ) (rate : ℚ)
  | unlock (n : ℕ)
  /-- The next statement of `mttf_thread`. -/
  | mttf

/-- The start; `mem` is what the buffer contains, and the others are the
uninitialised variables of `mttf_thread`. -/
def initial (mem : ℕ → ℚ) (index : ℕ) (avg : ℚ) (threadIndex : ℕ) : Averages where
  indexRejRate := 0
  rejRate := mem
  holder := none
  append := fun _ => .outside
  pc := .test
  index := index
  avgRejRate := avg
  threadIndexRejRate := threadIndex
  printed := []
  appended := []
  batches := []

/-- `rej_rate[0..n-1]`. -/
def firstRates (s : Averages) (n : ℕ) : List ℚ := (List.range n).map s.rejRate

/-- `rej_rate[0..index_rej_rate-1]`. -/
def contents (s : Averages) : List ℚ := s.firstRates s.indexRejRate

/-- One statement of `mttf_thread`. -/
def mttfStep (s : Averages) : Option Averages :=
  match s.pc with
  | .test => some { s with pc := if s.indexRejRate = 0 then .test else .zero }
  | .zero => some { s with avgRejRate := 0, pc := .lock }
  | .lock => if s.holder = none then some { s with holder := some .mttf, pc := .load } else none
  | .load => some { s with threadIndexRejRate := s.indexRejRate, pc := .start }
  | .start => some { s with index := 0, pc := .sum }
  | .sum =>
      if s.index < s.threadIndexRejRate then
        some { s with avgRejRate := s.avgRejRate + s.rejRate s.index, index := s.index + 1 }
      else some { s with pc := .reset }
  | .reset =>
      some { s with indexRejRate := 0, batches := s.batches ++ [s.contents], pc := .unlock }
  | .unlock => some { s with holder := none, pc := .divide }
  | .divide => some { s with avgRejRate := s.avgRejRate / s.threadIndexRejRate, pc := .print }
  | .print => some { s with printed := s.printed ++ [s.avgRejRate], pc := .sleep }
  | .sleep => some { s with pc := .test }

def step (s : Averages) : Label → Option Averages
  | .lock n =>
      if s.holder = none ∧ s.append n = .outside then
        some { s with
          holder := some (.comm n)
          append := Function.update s.append n .locked }
      else none
  | .store n rate =>
      if s.append n = .locked then
        some { s with
          rejRate := Function.update s.rejRate s.indexRejRate rate
          indexRejRate := s.indexRejRate + 1
          append := Function.update s.append n .stored
          appended := s.appended ++ [rate] }
      else none
  | .unlock n =>
      if s.append n = .stored then
        some { s with holder := none, append := Function.update s.append n .outside }
      else none
  | .mttf => s.mttfStep

/-! ### The property -/

def mean (batch : List ℚ) : ℚ := batch.sum / batch.length

/-- The batches whose averages have been printed: the last one may have been
drained only. -/
def finished (s : Averages) : List (List ℚ) :=
  match s.pc with
  | .unlock | .divide | .print => s.batches.dropLast
  | _ => s.batches

/-- **Every rate counts once.** -/
structure EachOnce (s : Averages) : Prop where
  averages : s.printed = s.finished.map mean
  nonempty : ∀ b ∈ s.batches, b ≠ []
  divisor : s.pc = .divide → s.threadIndexRejRate ≠ 0
  segments : s.appended = s.batches.flatten ++ s.contents

/-! ### The invariant -/

/-- `mttf_thread` is between its lock and its unlock. -/
def Critical : MttfPc → Prop
  | .load | .start | .sum | .reset | .unlock => True
  | _ => False

/-- What `mttf_thread` knows.  From the test on there is a rate; from the
reset on there is a last batch, which has not been printed. -/
def Knows (s : Averages) : Prop :=
  match s.pc with
  | .test | .sleep => s.printed = s.batches.map mean
  | .zero => s.printed = s.batches.map mean ∧ 0 < s.indexRejRate
  | .lock | .load => s.printed = s.batches.map mean ∧ 0 < s.indexRejRate ∧ s.avgRejRate = 0
  | .start => s.printed = s.batches.map mean ∧ 0 < s.indexRejRate ∧ s.avgRejRate = 0 ∧
      s.threadIndexRejRate = s.indexRejRate
  | .sum => s.printed = s.batches.map mean ∧ 0 < s.indexRejRate ∧
      s.threadIndexRejRate = s.indexRejRate ∧ s.index ≤ s.indexRejRate ∧
      s.avgRejRate = (s.firstRates s.index).sum
  | .reset => s.printed = s.batches.map mean ∧ 0 < s.indexRejRate ∧
      s.threadIndexRejRate = s.indexRejRate ∧ s.avgRejRate = s.contents.sum
  | .unlock | .divide => ∃ before b, s.batches = before ++ [b] ∧ s.printed = before.map mean ∧
      s.threadIndexRejRate = b.length ∧ s.avgRejRate = b.sum
  | .print => ∃ before b, s.batches = before ++ [b] ∧ s.printed = before.map mean ∧
      s.avgRejRate = mean b

structure Inv (s : Averages) : Prop where
  mttf : s.holder = some .mttf ↔ Critical s.pc
  comm : ∀ n, s.holder = some (.comm n) ↔ s.append n ≠ .outside
  knows : s.Knows
  nonempty : ∀ b ∈ s.batches, b ≠ []
  segments : s.appended = s.batches.flatten ++ s.contents

theorem Inv.eachOnce {s : Averages} (h : s.Inv) : s.EachOnce where
  nonempty := h.nonempty
  segments := h.segments
  averages := by
    have hknows := h.knows
    unfold Knows at hknows
    unfold finished
    cases hpc : s.pc with
    | test | sleep =>
        simp only [hpc] at hknows
        exact hknows
    | zero | lock | load | start | sum | reset =>
        simp only [hpc] at hknows
        exact hknows.1
    | unlock | divide | print =>
        simp only [hpc] at hknows
        obtain ⟨before, b, hbatches, hprinted, -⟩ := hknows
        dsimp only
        rw [hbatches, List.dropLast_concat, hprinted]
  divisor := by
    intro hpc
    have hknows := h.knows
    unfold Knows at hknows
    simp only [hpc] at hknows
    obtain ⟨before, b, hbatches, -, hlength, -⟩ := hknows
    rw [hlength]
    have hb : b ∈ s.batches := hbatches ▸ List.mem_append_right _ List.mem_cons_self
    exact fun hzero => h.nonempty b hb (List.length_eq_zero_iff.mp hzero)

theorem initial_inv (mem : ℕ → ℚ) (index : ℕ) (avg : ℚ) (threadIndex : ℕ) :
    (initial mem index avg threadIndex).Inv where
  mttf := ⟨fun h => Option.some_ne_none _ h.symm, False.elim⟩
  comm _ := ⟨fun h => absurd h.symm (Option.some_ne_none _), fun h => absurd rfl h⟩
  knows := rfl
  nonempty b hb := by cases hb
  segments := rfl

/-! ### The communication threads -/

theorem firstRates_succ (s : Averages) (n : ℕ) :
    s.firstRates (n + 1) = s.firstRates n ++ [s.rejRate n] := by
  rw [firstRates, List.range_succ, List.map_append, firstRates]
  rfl

/-- A store behind the contents adds one rate to them. -/
theorem map_update_range (f : ℕ → ℚ) (n : ℕ) (rate : ℚ) :
    (List.range (n + 1)).map (Function.update f n rate) = (List.range n).map f ++ [rate] := by
  have hsame : (List.range n).map (Function.update f n rate) = (List.range n).map f := by
    apply List.map_congr_left
    intro i hi
    exact Function.update_of_ne (List.mem_range.mp hi).ne rate f
  rw [List.range_succ, List.map_append, hsame, List.map_singleton, Function.update_self]

/-- While the mutex is free no thread is in its critical section. -/
theorem Inv.free {s : Averages} (h : s.Inv) (hfree : s.holder = none) :
    ¬ Critical s.pc ∧ ∀ n, s.append n = .outside := by
  refine ⟨fun hcritical => ?_, fun n => ?_⟩
  · exact Option.some_ne_none _ ((h.mttf.mpr hcritical).symm.trans hfree)
  · by_contra hinside
    exact Option.some_ne_none _ (((h.comm n).mpr hinside).symm.trans hfree)

/-- While a communication thread holds it, no other thread is. -/
theorem Inv.held {s : Averages} (h : s.Inv) {n : ℕ} (hn : s.append n ≠ .outside) :
    s.holder = some (.comm n) ∧ ¬ Critical s.pc ∧ ∀ m, m ≠ n → s.append m = .outside := by
  have hholder := (h.comm n).mpr hn
  refine ⟨hholder, fun hcritical => ?_, fun m hm => ?_⟩
  · cases hholder.symm.trans (h.mttf.mpr hcritical)
  · by_contra hinside
    have heq := Option.some.inj (hholder.symm.trans ((h.comm m).mpr hinside))
    exact hm (MttfHolder.comm.inj heq).symm

theorem inv_lock {s : Averages} (h : s.Inv) {n : ℕ} (hfree : s.holder = none) :
    Inv { s with holder := some (.comm n), append := Function.update s.append n .locked } := by
  obtain ⟨hpc, hothers⟩ := h.free hfree
  refine ⟨iff_of_false nofun hpc, fun m => ?_, h.knows, h.nonempty, h.segments⟩
  show some (MttfHolder.comm n) = some (.comm m) ↔ Function.update s.append n .locked m ≠ _
  rcases eq_or_ne m n with rfl | hm
  · rw [Function.update_self]
    exact iff_of_true rfl nofun
  · rw [Function.update_of_ne hm, hothers m]
    refine iff_of_false (fun heq => ?_) (fun hne => hne rfl)
    exact hm (MttfHolder.comm.inj (Option.some.inj heq)).symm

theorem inv_store {s : Averages} (h : s.Inv) {n : ℕ} (hn : s.append n = .locked) (rate : ℚ) :
    Inv { s with
      rejRate := Function.update s.rejRate s.indexRejRate rate
      indexRejRate := s.indexRejRate + 1
      append := Function.update s.append n .stored
      appended := s.appended ++ [rate] } := by
  obtain ⟨hholder, hpc, hothers⟩ := h.held (hn ▸ nofun : s.append n ≠ .outside)
  refine ⟨h.mttf, fun m => ?_, ?_, h.nonempty, ?_⟩
  · show s.holder = some (.comm m) ↔ Function.update s.append n .stored m ≠ _
    rcases eq_or_ne m n with rfl | hm
    · rw [Function.update_self]
      exact iff_of_true hholder nofun
    · rw [Function.update_of_ne hm]
      exact h.comm m
  · have hknows := h.knows
    unfold Knows at hknows ⊢
    cases hs : s.pc with
    | test | sleep | divide | print =>
        simp only [hs] at hknows ⊢
        exact hknows
    | zero =>
        simp only [hs] at hknows ⊢
        exact ⟨hknows.1, Nat.succ_pos _⟩
    | lock =>
        simp only [hs] at hknows ⊢
        exact ⟨hknows.1, Nat.succ_pos _, hknows.2.2⟩
    | load | start | sum | reset | unlock => exact absurd (hs ▸ trivial) hpc
  · show s.appended ++ [rate] = s.batches.flatten ++
      (List.range (s.indexRejRate + 1)).map (Function.update s.rejRate s.indexRejRate rate)
    rw [map_update_range, h.segments, List.append_assoc]
    rfl

theorem inv_unlock {s : Averages} (h : s.Inv) {n : ℕ} (hn : s.append n = .stored) :
    Inv { s with holder := none, append := Function.update s.append n .outside } := by
  obtain ⟨-, hpc, hothers⟩ := h.held (hn ▸ nofun : s.append n ≠ .outside)
  refine ⟨iff_of_false nofun hpc, fun m => ?_, h.knows, h.nonempty, h.segments⟩
  have hout : Function.update s.append n .outside m = .outside := by
    rcases eq_or_ne m n with rfl | hm
    · exact Function.update_self _ _ _
    · rw [Function.update_of_ne hm, hothers m hm]
  exact iff_of_false nofun (fun hne => hne hout)

/-! ### `mttf_thread` -/

/-- A statement that leaves the mutex alone. -/
theorem Inv.goto {s s' : Averages} (h : s.Inv) (hholder : s'.holder = s.holder)
    (happend : s'.append = s.append) (hcritical : Critical s'.pc ↔ Critical s.pc)
    (hknows : s'.Knows) (hbatches : s'.batches = s.batches) (happended : s'.appended = s.appended)
    (hcontents : s'.contents = s.contents) : s'.Inv where
  mttf := by rw [hholder, hcritical, h.mttf]
  comm n := by rw [hholder, happend, h.comm]
  knows := hknows
  nonempty := hbatches ▸ h.nonempty
  segments := by rw [happended, hbatches, hcontents, h.segments]

/-- The loop adds one rate, or has gone through the whole buffer. -/
theorem inv_sum {s s' : Averages} (h : s.Inv) (hpc : s.pc = .sum) (hstep : s.mttfStep = some s') :
    s'.Inv := by
  have hknows := h.knows
  unfold Knows at hknows
  simp only [hpc] at hknows
  simp only [mttfStep, hpc] at hstep
  obtain ⟨hprinted, hpos, hindex, hle, havg⟩ := hknows
  split at hstep
  next hlt =>
      obtain rfl := Option.some.inj hstep
      refine h.goto rfl rfl (hpc ▸ Iff.rfl) ?_ rfl rfl rfl
      unfold Knows
      simp only
      refine ⟨hprinted, hpos, hindex, hindex ▸ hlt, ?_⟩
      show s.avgRejRate + s.rejRate s.index = (s.firstRates (s.index + 1)).sum
      rw [firstRates_succ, List.sum_append, List.sum_singleton, havg]
  next hge =>
      obtain rfl := Option.some.inj hstep
      have hall : s.index = s.indexRejRate := by omega
      refine h.goto rfl rfl (hpc ▸ Iff.rfl) ?_ rfl rfl rfl
      exact ⟨hprinted, hpos, hindex, by rw [havg, hall]; rfl⟩

/-- The contents of the buffer become a batch. -/
theorem inv_reset {s s' : Averages} (h : s.Inv) (hpc : s.pc = .reset)
    (hstep : s.mttfStep = some s') : s'.Inv := by
  have hknows := h.knows
  unfold Knows at hknows
  simp only [hpc] at hknows
  simp only [mttfStep, hpc] at hstep
  obtain rfl := Option.some.inj hstep
  obtain ⟨hprinted, hpos, hindex, havg⟩ := hknows
  have hlength : s.contents.length = s.indexRejRate := by
    rw [contents, firstRates, List.length_map, List.length_range]
  refine ⟨?_, h.comm, ⟨s.batches, s.contents, rfl, hprinted, ?_, havg⟩, fun b hb => ?_, ?_⟩
  · rw [h.mttf, hpc]
    exact Iff.rfl
  · rw [hlength]
    exact hindex
  -- `test` has seen a rate, and nobody else drains
  · rcases List.mem_append.mp hb with hold | hnew
    · exact h.nonempty b hold
    · obtain rfl := List.mem_singleton.mp hnew
      exact fun hnil => hpos.ne' (hlength.symm.trans (List.length_eq_zero_iff.mpr hnil))
  · show s.appended = (s.batches ++ [s.contents]).flatten ++ []
    rw [h.segments, List.flatten_append, List.flatten_singleton, List.append_nil]

theorem inv_mttfStep {s s' : Averages} (h : s.Inv) (hstep : s.mttfStep = some s') : s'.Inv := by
  have hknows := h.knows
  unfold Knows at hknows
  cases hpc : s.pc with
  | test =>
      simp only [hpc] at hknows
      simp only [mttfStep, hpc] at hstep
      obtain rfl := Option.some.inj hstep
      by_cases hzero : s.indexRejRate = 0
      · rw [if_pos hzero, ← hpc]
        exact h
      · rw [if_neg hzero]
        refine h.goto rfl rfl (hpc ▸ Iff.rfl) ?_ rfl rfl rfl
        exact ⟨hknows, Nat.pos_of_ne_zero hzero⟩
  | zero =>
      simp only [hpc] at hknows
      simp only [mttfStep, hpc] at hstep
      obtain rfl := Option.some.inj hstep
      exact h.goto rfl rfl (hpc ▸ Iff.rfl) ⟨hknows.1, hknows.2, rfl⟩ rfl rfl rfl
  | lock =>
      simp only [hpc] at hknows
      simp only [mttfStep, hpc] at hstep
      -- no thread is inside while the mutex is free
      obtain ⟨hfree, heq⟩ := Option.ite_none_right_eq_some.mp hstep
      obtain rfl := Option.some.inj heq
      obtain ⟨-, hothers⟩ := h.free hfree
      refine ⟨iff_of_true rfl trivial, fun n => ?_, hknows, h.nonempty, h.segments⟩
      exact iff_of_false nofun (fun hne => hne (hothers n))
  | load =>
      simp only [hpc] at hknows
      simp only [mttfStep, hpc] at hstep
      obtain rfl := Option.some.inj hstep
      exact h.goto rfl rfl (hpc ▸ Iff.rfl) ⟨hknows.1, hknows.2.1, hknows.2.2, rfl⟩ rfl rfl rfl
  | start =>
      simp only [hpc] at hknows
      simp only [mttfStep, hpc] at hstep
      obtain rfl := Option.some.inj hstep
      obtain ⟨hprinted, hpos, havg, hindex⟩ := hknows
      exact h.goto rfl rfl (hpc ▸ Iff.rfl) ⟨hprinted, hpos, hindex, Nat.zero_le _, havg⟩ rfl rfl rfl
  | sum => exact inv_sum h hpc hstep
  | reset => exact inv_reset h hpc hstep
  | unlock =>
      simp only [hpc] at hknows
      simp only [mttfStep, hpc] at hstep
      obtain rfl := Option.some.inj hstep
      have hheld : s.holder = some .mttf := h.mttf.mpr (hpc ▸ trivial)
      refine ⟨iff_of_false nofun id, fun n => ?_, hknows, h.nonempty, h.segments⟩
      have hout := (h.comm n).not.mp (fun heq => by cases hheld.symm.trans heq)
      exact iff_of_false nofun hout
  | divide =>
      simp only [hpc] at hknows
      simp only [mttfStep, hpc] at hstep
      obtain rfl := Option.some.inj hstep
      obtain ⟨before, b, hbatches, hprinted, hindex, havg⟩ := hknows
      refine h.goto rfl rfl (hpc ▸ Iff.rfl) ⟨before, b, hbatches, hprinted, ?_⟩ rfl rfl rfl
      show s.avgRejRate / s.threadIndexRejRate = mean b
      rw [havg, hindex, mean]
  | print =>
      simp only [hpc] at hknows
      simp only [mttfStep, hpc] at hstep
      obtain rfl := Option.some.inj hstep
      obtain ⟨before, b, hbatches, hprinted, havg⟩ := hknows
      refine h.goto rfl rfl (hpc ▸ Iff.rfl) ?_ rfl rfl rfl
      show s.printed ++ [s.avgRejRate] = s.batches.map mean
      rw [hbatches, hprinted, havg, List.map_append]
      rfl
  | sleep =>
      simp only [hpc] at hknows
      simp only [mttfStep, hpc] at hstep
      obtain rfl := Option.some.inj hstep
      exact h.goto rfl rfl (hpc ▸ Iff.rfl) hknows rfl rfl rfl

theorem inv_step {s s' : Averages} {l : Label} (h : s.Inv) (hstep : s.step l = some s') :
    s'.Inv := by
  cases l with
  | lock n =>
      obtain ⟨⟨hfree, -⟩, heq⟩ := Option.ite_none_right_eq_some.mp hstep
      obtain rfl := Option.some.inj heq
      exact inv_lock h hfree
  | store n rate =>
      obtain ⟨hn, heq⟩ := Option.ite_none_right_eq_some.mp hstep
      obtain rfl := Option.some.inj heq
      exact inv_store h hn rate
  | unlock n =>
      obtain ⟨hn, heq⟩ := Option.ite_none_right_eq_some.mp hstep
      obtain rfl := Option.some.inj heq
      exact inv_unlock h hn
  | mttf => exact inv_mttfStep h hstep

/-- **Every rate counts once.**  In every interleaving the averages printed
are the means of non-empty batches, and the batches and the buffer are what
has been appended, in order. -/
theorem rates_eachOnce {mem : ℕ → ℚ} {index : ℕ} {avg : ℚ} {threadIndex : ℕ} {s : Averages}
    (h : Reachable step (initial mem index avg threadIndex) s) : s.EachOnce :=
  (invariant_of_step (initial_inv mem index avg threadIndex)
    (fun _ _ _ hs hstep => inv_step hs hstep) h).eachOnce

/-- Two threads append a rate each, and a third one after the drain. -/
def twoAndOne : List Label :=
  [.lock 0, .store 0 1, .unlock 0, .mttf, .lock 1, .store 1 3, .unlock 1] ++
    List.replicate 9 .mttf ++ [.lock 2, .store 2 5, .unlock 2, .mttf, .mttf]

theorem rates_eachOnce_twoAndOne :
    ∃ s, run step (initial (fun _ => 0) 0 0 0) twoAndOne = some s ∧ s.printed = [2] ∧
      s.contents = [5] ∧ s.EachOnce := by
  have hsome : ((run step (initial (fun _ => 0) 0 0 0) twoAndOne).map fun s =>
      (s.printed, s.contents)) = some ([2], [5]) := by
    decide +kernel
  obtain ⟨s, hs, hvalues⟩ := Option.map_eq_some_iff.mp hsome
  obtain ⟨hprinted, hcontents⟩ := Prod.mk.inj hvalues
  exact ⟨s, hs, hprinted, hcontents, rates_eachOnce ⟨twoAndOne, hs⟩⟩

end Averages

end A2PM.Controller
