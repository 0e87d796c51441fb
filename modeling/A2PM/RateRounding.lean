/-
A2PM/RateRounding.lean

`mttf_thread` of `controller/server.c` with the `float` arithmetic of the source.

Control does not depend on the averages, so the thread can be followed step by step
by the one that computes exactly (`floatStep_follows`).  What it prints then stands
for the means of the same batches: after `n` additions and a division, a factor of
`1 + 1 / 2 ^ 24` for each of them and two more for the `int` that becomes a `float`
(`averages_rounded`).

This is so as long as the rates are stored in the buffer that `main` allocates, and are
numbers, not infinities, like their sums and averages: there is no other step.
-/
import A2PM.ControllerData
import A2PM.RateAverages
import A2PM.RoundingError
import Mathlib.Data.List.Forall2
import Mathlib.Data.Rat.Floor

namespace A2PM.Controller

open Transition FloatRounding

namespace Averages

/-- One statement of `mttf_thread`, with `float`s in the two that compute; `none` also where
one becomes infinite. -/
def floatMttfStep (s : Averages) : Option Averages :=
  match s.pc with
  | .sum =>
      if s.index < s.threadIndexRejRate then
        (toFloat (s.avgRejRate + s.rejRate s.index)).map fun avg =>
          { s with avgRejRate := avg, index := s.index + 1 }
      else some { s with pc := .reset }
  | .divide =>
      (toFloat (s.avgRejRate / binary32 (s.threadIndexRejRate : ℚ))).map fun avg =>
        { s with avgRejRate := avg, pc := .print }
  | _ => s.mttfStep

/-- A step; `none` also where a rate would be stored behind the block that `main` has
allocated. -/
def floatStep (s : Averages) : Label → Option Averages
  | .store n rate =>
      if s.indexRejRate < numberGroups * numberVMs then s.step (.store n rate) else none
  | .mttf => s.floatMttfStep
  | l => s.step l

/-! ### Sums and means -/

/-- `a` is a sum of the rates, rounded at each step. -/
def SumNear (rates : List ℚ) (a : ℚ) : Prop :=
  Near ((1 + 1 / 2 ^ 24) ^ rates.length)
    ((rates.length : ℚ) * (1 + 1 / 2 ^ 24) ^ rates.length / 2 ^ 150) (rates.map abs).sum rates.sum a

/-- The error of an average of `n` rates, relative to the mean of their absolute values, and
where these are next to 0. -/
def MeanNear (rates : List ℚ) (a : ℚ) : Prop :=
  |a - mean rates| ≤ ((1 + 1 / 2 ^ 24) ^ (rates.length + 3) - 1) * mean (rates.map abs) +
    (1 + 1 / 2 ^ 24) ^ (rates.length + 3) / 2 ^ 149

theorem sumNear_nil : SumNear [] 0 where
  abs_le := by decide +kernel
  error := by decide +kernel

/-- One more rate. -/
theorem SumNear.concat {rates : List ℚ} {a : ℚ} (h : SumNear rates a) (rate : ℚ) :
    SumNear (rates ++ [rate]) (binary32 (a + rate)) := by
  have hone : (1 : ℚ) ≤ (1 + 1 / 2 ^ 24) ^ rates.length := one_le_pow₀ (by norm_num)
  have hrate : Near ((1 + 1 / 2 ^ 24) ^ rates.length) 0 |rate| rate rate :=
    (near_self rate).mono hone le_rfl
  have hsum := (Near.add h hrate).binary32
  rw [SumNear, List.length_append, List.length_singleton, List.map_append, List.map_singleton,
    List.sum_append, List.sum_singleton, List.sum_append, List.sum_singleton, pow_succ]
  refine Near.mono hsum le_rfl ?_
  push_cast
  generalize ((1 + 1 / 2 ^ 24) ^ rates.length : ℚ) = c at hone ⊢
  calc (rates.length * c / 2 ^ 150 + 0) * (1 + 1 / 2 ^ 24) + 1 / 2 ^ 150
      ≤ (rates.length * c / 2 ^ 150 + 0) * (1 + 1 / 2 ^ 24) + c * (1 + 1 / 2 ^ 24) / 2 ^ 150 := by
        linarith
    _ = (rates.length + 1) * (c * (1 + 1 / 2 ^ 24)) / 2 ^ 150 := by ring

/-- Dividing by a number of rates, which is not exact beyond `2 ^ 24`. -/
theorem near_inverse {n : ℕ} (hn : n ≠ 0) :
    Near ((1 + 1 / 2 ^ 24) ^ 2) 0 |(1 / n : ℚ)| (1 / n) (1 / binary32 (n : ℚ)) := by
  have hone : (1 : ℚ) ≤ n := by exact_mod_cast Nat.one_le_iff_ne_zero.mpr hn
  have hpos : (0 : ℚ) < n := zero_lt_one.trans_le hone
  have herror := (near_self (n : ℚ)).binary32.error
  rw [Nat.abs_cast] at herror
  generalize binary32 (n : ℚ) = d at herror ⊢
  obtain ⟨hlow, hhigh⟩ := abs_le.mp herror
  have hd : 0 < d := by linarith
  refine ⟨le_rfl, ?_⟩
  have hsplit : 1 / d - 1 / n = (n - d) / (d * n) := by
    rw [div_sub_div _ _ hd.ne' hpos.ne', one_mul, mul_one]
  have hdistance : |(n : ℚ) - d| ≤ ((1 + 1 / 2 ^ 24) ^ 2 - 1) * d := by
    rw [abs_le]
    constructor <;> linarith
  rw [hsplit, abs_div, abs_of_pos (mul_pos hd hpos), abs_of_pos (one_div_pos.mpr hpos), add_zero,
    div_le_iff₀ (mul_pos hd hpos)]
  calc |(n : ℚ) - d| ≤ ((1 + 1 / 2 ^ 24) ^ 2 - 1) * d := hdistance
    _ = ((1 + 1 / 2 ^ 24) ^ 2 - 1) * (1 / n) * (d * n) := by
      field_simp

theorem SumNear.mean {rates : List ℚ} {a : ℚ} (hrates : rates ≠ []) (h : SumNear rates a) :
    MeanNear rates (binary32 (a / binary32 (rates.length : ℚ))) := by
  have hlength : rates.length ≠ 0 := mt List.length_eq_zero_iff.mp hrates
  have hpos : (0 : ℚ) < rates.length := Nat.cast_pos.mpr (Nat.pos_of_ne_zero hlength)
  have hone : (1 : ℚ) ≤ (1 + 1 / 2 ^ 24) ^ (rates.length + 3) := one_le_pow₀ (by norm_num)
  have hmean := ((near_inverse hlength).mul h).binary32.error
  rw [abs_of_pos (one_div_pos.mpr hpos), one_div_mul_eq_div, one_div_mul_eq_div,
    one_div_mul_eq_div] at hmean
  have hfactor : (1 + 1 / 2 ^ 24) ^ 2 * (1 + 1 / 2 ^ 24) ^ rates.length * (1 + 1 / 2 ^ 24) =
      ((1 + 1 / 2 ^ 24) ^ (rates.length + 3) : ℚ) := by ring
  have hoffset : (1 + 1 / 2 ^ 24) ^ 2 * (1 / rates.length) *
      (rates.length * (1 + 1 / 2 ^ 24) ^ rates.length / 2 ^ 150) * (1 + 1 / 2 ^ 24) =
        ((1 + 1 / 2 ^ 24) ^ (rates.length + 3) / 2 ^ 150 : ℚ) := by
    field_simp
    ring
  rw [hfactor, hoffset] at hmean
  rw [MeanNear, Averages.mean, Averages.mean, List.length_map]
  refine hmean.trans (add_le_add_right ?_ _)
  linarith

/-! ### The exact thread follows -/

/-- The state with another average, and with other averages printed. -/
def rounded (e : Averages) (a : ℚ) (printed : List ℚ) : Averages :=
  { e with avgRejRate := a, printed := printed }

/-- What the average stands for. -/
def AverageNear (e : Averages) (a : ℚ) : Prop :=
  match e.pc with
  | .lock | .load | .start => a = 0
  | .sum => SumNear (e.firstRates e.index) a
  | .reset => SumNear e.contents a
  | .unlock | .divide => ∃ before b, e.batches = before ++ [b] ∧ SumNear b a
  | .print => ∃ before b, e.batches = before ++ [b] ∧ MeanNear b a
  | _ => True

/-- `s` differs from `e`, which computes exactly, by its averages only. -/
structure Follows (s e : Averages) : Prop where
  inv : e.Inv
  same : ∃ a printed, s = e.rounded a printed ∧ e.AverageNear a ∧
    List.Forall₂ MeanNear e.finished printed

/-- The communication threads do not see the averages. -/
theorem follows_comm {s e s' : Averages} {l : Label} (h : Follows s e) (hl : l ≠ .mttf)
    (hstep : s.floatStep l = some s') : ∃ e', e.step l = some e' ∧ Follows s' e' := by
  obtain ⟨a, printed, rfl, haverage, hprinted⟩ := h.same
  cases l with
  | lock n =>
      obtain ⟨henabled, heq⟩ := Option.ite_none_right_eq_some.mp hstep
      obtain rfl := Option.some.inj heq
      have hexact : e.step (.lock n) = some _ := if_pos henabled
      exact ⟨_, hexact, inv_step h.inv hexact, a, printed, rfl, haverage, hprinted⟩
  | store n rate =>
      obtain ⟨-, hstore⟩ := Option.ite_none_right_eq_some.mp hstep
      obtain ⟨hn, heq⟩ := Option.ite_none_right_eq_some.mp hstore
      obtain rfl := Option.some.inj heq
      have hexact : e.step (.store n rate) = some _ := if_pos hn
      obtain ⟨-, hpc, -⟩ := h.inv.held (hn ▸ nofun : e.append n ≠ .outside)
      refine ⟨_, hexact, inv_step h.inv hexact, a, printed, rfl, ?_, hprinted⟩
      -- the rates of a sum under way are those of the critical section
      unfold AverageNear at haverage ⊢
      cases hs : e.pc with
      | load | start | sum | reset | unlock => exact absurd (hs ▸ trivial) hpc
      | test | zero | sleep => trivial
      | lock | divide | print =>
          simp only [hs] at haverage ⊢
          exact haverage
  | unlock n =>
      obtain ⟨henabled, heq⟩ := Option.ite_none_right_eq_some.mp hstep
      obtain rfl := Option.some.inj heq
      have hexact : e.step (.unlock n) = some _ := if_pos henabled
      exact ⟨_, hexact, inv_step h.inv hexact, a, printed, rfl, haverage, hprinted⟩
  | mttf => exact absurd rfl hl

/-- One statement of `mttf_thread`. -/
theorem follows_mttf {s e s' : Averages} (h : Follows s e) (hstep : s.floatStep .mttf = some s') :
    ∃ e', e.step .mttf = some e' ∧ Follows s' e' := by
  obtain ⟨a, printed, rfl, haverage, hprinted⟩ := h.same
  have hknows := h.inv.knows
  unfold AverageNear at haverage
  unfold Knows at hknows
  unfold finished at hprinted
  suffices ∃ e', e.step .mttf = some e' ∧ ∃ a printed, s' = e'.rounded a printed ∧
      e'.AverageNear a ∧ List.Forall₂ MeanNear e'.finished printed by
    obtain ⟨e', he', hsame⟩ := this
    exact ⟨e', he', inv_step h.inv he', hsame⟩
  simp only [floatStep, floatMttfStep, rounded] at hstep
  simp only [step, mttfStep]
  cases hpc : e.pc with
  | test =>
      simp only [hpc, mttfStep, Option.some.injEq] at haverage hknows hprinted hstep ⊢
      subst hstep
      by_cases hzero : e.indexRejRate = 0
      · rw [if_pos hzero]
        exact ⟨_, rfl, a, printed, rfl, trivial, hprinted⟩
      · rw [if_neg hzero]
        exact ⟨_, rfl, a, printed, rfl, trivial, hprinted⟩
  | zero =>
      simp only [hpc, mttfStep, Option.some.injEq] at haverage hknows hprinted hstep ⊢
      subst hstep
      exact ⟨_, rfl, 0, printed, rfl, rfl, hprinted⟩
  | lock =>
      simp only [hpc, mttfStep] at haverage hknows hprinted hstep ⊢
      obtain ⟨hfree, heq⟩ := Option.ite_none_right_eq_some.mp hstep
      obtain rfl := Option.some.inj heq
      exact ⟨_, if_pos hfree, a, printed, rfl, haverage, hprinted⟩
  | load =>
      simp only [hpc, mttfStep, Option.some.injEq] at haverage hknows hprinted hstep ⊢
      subst hstep
      exact ⟨_, rfl, a, printed, rfl, haverage, hprinted⟩
  | start =>
      simp only [hpc, mttfStep, Option.some.injEq] at haverage hknows hprinted hstep ⊢
      subst hstep
      refine ⟨_, rfl, a, printed, rfl, ?_, hprinted⟩
      subst haverage
      exact sumNear_nil
  | sum =>
      simp only [hpc] at haverage hknows hprinted hstep ⊢
      obtain ⟨-, -, hindex, hle, -⟩ := hknows
      split at hstep
      next hlt =>
          obtain ⟨sum, hsum, rfl⟩ := Option.map_eq_some_iff.mp hstep
          obtain rfl := toFloat_eq_some hsum
          refine ⟨_, if_pos hlt, _, printed, rfl, ?_, hprinted⟩
          show SumNear (e.firstRates (e.index + 1)) (binary32 (a + e.rejRate e.index))
          rw [firstRates_succ]
          exact haverage.concat _
      next hge =>
          obtain rfl := Option.some.inj hstep
          have hall : e.index = e.indexRejRate := by omega
          refine ⟨_, if_neg hge, a, printed, rfl, ?_, hprinted⟩
          show SumNear e.contents a
          rw [contents, ← hall]
          exact haverage
  | reset =>
      simp only [hpc, mttfStep, Option.some.injEq] at haverage hknows hprinted hstep ⊢
      subst hstep
      refine ⟨_, rfl, a, printed, rfl, ⟨_, _, rfl, haverage⟩, ?_⟩
      show List.Forall₂ MeanNear (e.batches ++ [e.contents]).dropLast printed
      rw [List.dropLast_concat]
      exact hprinted
  | unlock =>
      simp only [hpc, mttfStep, Option.some.injEq] at haverage hknows hprinted hstep ⊢
      subst hstep
      exact ⟨_, rfl, a, printed, rfl, haverage, hprinted⟩
  | divide =>
      simp only [hpc, Option.some.injEq] at haverage hknows hprinted hstep ⊢
      obtain ⟨average, haverage', rfl⟩ := Option.map_eq_some_iff.mp hstep
      obtain rfl := toFloat_eq_some haverage'
      obtain ⟨before, b, hbatches, hsum⟩ := haverage
      obtain ⟨before', b', hbatches', -, hlength, -⟩ := hknows
      obtain ⟨-, hlast⟩ := List.append_inj' (hbatches.symm.trans hbatches') rfl
      obtain rfl := List.singleton_inj.mp hlast
      have hb : b ∈ e.batches := hbatches ▸ List.mem_append_right _ List.mem_cons_self
      refine ⟨_, rfl, _, printed, rfl, ⟨before, b, hbatches, ?_⟩, hprinted⟩
      rw [hlength]
      exact hsum.mean (h.inv.nonempty b hb)
  | print =>
      simp only [hpc, mttfStep, Option.some.injEq] at haverage hknows hprinted hstep ⊢
      subst hstep
      obtain ⟨before, b, hbatches, hmean⟩ := haverage
      rw [hbatches, List.dropLast_concat] at hprinted
      refine ⟨_, rfl, a, printed ++ [a], rfl, trivial, ?_⟩
      show List.Forall₂ MeanNear e.batches (printed ++ [a])
      rw [hbatches]
      exact List.rel_append hprinted (.cons hmean .nil)
  | sleep =>
      simp only [hpc, mttfStep, Option.some.injEq] at haverage hknows hprinted hstep ⊢
      subst hstep
      exact ⟨_, rfl, a, printed, rfl, trivial, hprinted⟩

theorem floatStep_follows (s e : Averages) (l : Label) (s' : Averages) (h : Follows s e)
    (hstep : s.floatStep l = some s') : ∃ e', e.step l = some e' ∧ Follows s' e' := by
  by_cases hl : l = .mttf
  · subst hl
    exact follows_mttf h hstep
  · exact follows_comm h hl hstep

theorem initial_follows (mem : ℕ → ℚ) (index : ℕ) (avg : ℚ) (threadIndex : ℕ) :
    Follows (initial mem index avg threadIndex) (initial mem index avg threadIndex) where
  inv := initial_inv mem index avg threadIndex
  same := ⟨avg, [], rfl, trivial, .nil⟩

/-- **The averages printed.**  In every interleaving that stays in the buffer, and whose numbers
stay finite, each of them is near the mean of its batch, and the batches and the buffer are what
has been appended, in order. -/
theorem averages_rounded {mem : ℕ → ℚ} {index : ℕ} {avg : ℚ} {threadIndex : ℕ} {s : Averages}
    (h : Reachable floatStep (initial mem index avg threadIndex) s) :
    List.Forall₂ MeanNear s.finished s.printed ∧ (∀ b ∈ s.batches, b ≠ []) ∧
      s.appended = s.batches.flatten ++ s.contents := by
  obtain ⟨ls, hls⟩ := h
  obtain ⟨e, -, hfollows⟩ :=
    simulation_of_run floatStep_follows (initial_follows mem index avg threadIndex) hls
  obtain ⟨a, printed, rfl, -, hprinted⟩ := hfollows.same
  exact ⟨hprinted, hfollows.inv.nonempty, hfollows.inv.segments⟩

theorem averages_rounded_twoAndOne :
    ∃ s, run floatStep (initial (fun _ => 0) 0 0 0) twoAndOne = some s ∧ s.printed = [2] ∧
      List.Forall₂ MeanNear s.finished s.printed ∧ (∀ b ∈ s.batches, b ≠ []) ∧
        s.appended = s.batches.flatten ++ s.contents := by
  have hsome : ((run floatStep (initial (fun _ => 0) 0 0 0) twoAndOne).map fun s => s.printed) =
      some [2] := by
    decide +kernel
  obtain ⟨s, hs, hprinted⟩ := Option.map_eq_some_iff.mp hsome
  exact ⟨s, hs, hprinted, averages_rounded ⟨twoAndOne, hs⟩⟩

end Averages

end A2PM.Controller
