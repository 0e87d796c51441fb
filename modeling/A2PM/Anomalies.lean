/-
A2PM/Anomalies.lean

The loops of `main` in leak.c and thread.c, which differ in their bounds and
in that thread.c draws no leak.  A step is a call of `random()` with what
follows it up to the next one, and a run is given by what the calls return.

`usleep` and `malloc` are given values within the bounds exactly if no draw
that sets the mean, the leak or the wait is one of the two greatest; those that
decide how often to wait do not matter (`kept_iff`, `attempts_kept_iff`).  The
threads that thread.c starts never sleep (`stealMyCpu_eq`).
-/
import A2PM.RandomRange
import A2PM.Transition
import Mathlib.Data.Option.NAry

namespace A2PM.Utilities

open Transition

/-- The bounds of one of the programs. -/
structure Program where
  mean : Bounds
  /-- thread.c has none. -/
  leak : Option Bounds
  mean_nonneg : 0 ≤ mean.min
  /-- So that `MIN_MEAN + MAX_MEAN` is an `int`. -/
  mean_lt : mean.max < 2 ^ 30

/-- `MIN_LEAK` and `MAX_LEAK`. -/
def leakBounds : Bounds where
  min := 1024 * 1024
  max := 1024 * 1024 * 1024
  le := by decide
  min_int := by decide
  max_int := by decide
  width_int := by decide

/-- leak.c. -/
def leaks : Program where
  mean := ⟨500, 1000000, by decide, by decide, by decide, by decide⟩
  leak := some leakBounds
  mean_nonneg := by decide
  mean_lt := by decide

/-- thread.c. -/
def threads : Program where
  mean := ⟨50000000, 200000000, by decide, by decide, by decide, by decide⟩
  leak := none
  mean_nonneg := by decide
  mean_lt := by decide

/-- The variables of one iteration of `while(1)`. -/
structure Cycle (K : Type*) where
  currentMean : ℤ
  leak : Option ℤ
  oneWaitTime : Option K
  waitingTime : Option K

/-- The next call of `random()`. -/
inductive Point (K : Type*)
  | mean
  | leak (currentMean : ℤ)
  | wait (currentMean : ℤ) (leak : Option ℤ)
  /-- The test before `goto rewait`. -/
  | again (c : Cycle K)
  | long (c : Cycle K)

/-- The draw sets a variable. -/
def Point.sets {K : Type*} : Point K → Bool
  | .mean | .leak _ | .wait _ _ => true
  | .again _ | .long _ => false

structure State (K : Type*) where
  point : Point K
  /-- The iterations that have come to `usleep`. -/
  done : List (Cycle K)

def State.initial {K : Type*} : State K := ⟨.mean, []⟩

section Main

variable {K : Type*} [Field K]

/-- `waiting_time += one_wait_time`. -/
def Cycle.rewait (c : Cycle K) : Cycle K :=
  { c with waitingTime := Option.map₂ (· + ·) c.waitingTime c.oneWaitTime }

/-- `waiting_time *= 40`. -/
def Cycle.lengthen (c : Cycle K) : Cycle K :=
  { c with waitingTime := c.waitingTime.map (· * 40) }

/-- `none`: a result that is not an `int`, or `abort`. -/
def main (log : ℚ → Option K) (p : Program) : State K → Draw → Option (State K)
  | ⟨.mean, done⟩, r =>
      (randomRange p.mean.min p.mean.max r).map fun m =>
        ⟨if p.leak.isSome then .leak m else .wait m none, done⟩
  | ⟨.leak m, done⟩, r =>
      p.leak.bind fun b => (randomRange b.min b.max r).map fun n => ⟨.wait m (some n), done⟩
  | ⟨.wait m n, done⟩, r =>
      (expent log m r).map fun w => ⟨.again (Cycle.rewait ⟨m, n, w, some 0⟩), done⟩
  | ⟨.again c, done⟩, r =>
      (randomRange p.mean.min p.mean.max r).map fun v : ℤ =>
        ⟨if (v : ℚ) < (p.mean.min + p.mean.max : ℤ) / 5 then .again c.rewait else .long c, done⟩
  | ⟨.long c, done⟩, r =>
      (randomRange p.mean.min p.mean.max r).map fun v : ℤ =>
        ⟨.mean, done ++
          [if (v : ℚ) < (p.mean.min + p.mean.max : ℤ) / 50 then c.lengthen else c]⟩

end Main

/-! ### Within the bounds -/

/-- The leak of a program that has one. -/
def LeakWithin (p : Program) (leak : Option ℤ) : Prop :=
  ∀ b ∈ p.leak, ∃ n, leak = some n ∧ n ∈ Set.Icc b.min b.max

/-- One wait is a number that its mean bounds, and the waiting time is a
positive number of waits. -/
structure Cycle.WithinBounds (p : Program) (c : Cycle ℝ) : Prop where
  mean : c.currentMean ∈ Set.Icc p.mean.min p.mean.max
  leak : LeakWithin p c.leak
  wait : ∃ w ∈ Set.Icc 0 (c.currentMean * maxWait), c.oneWaitTime = some w ∧
    ∃ k : ℕ, 0 < k ∧ c.waitingTime = some (k * w)

def Point.WithinBounds (p : Program) : Point ℝ → Prop
  | .mean => True
  | .leak m => m ∈ Set.Icc p.mean.min p.mean.max ∧ p.leak.isSome
  | .wait m n => m ∈ Set.Icc p.mean.min p.mean.max ∧ LeakWithin p n
  | .again c => c.WithinBounds p
  | .long c => c.WithinBounds p

/-- What has been drawn is within the bounds. -/
structure State.WithinBounds (p : Program) (s : State ℝ) : Prop where
  point : s.point.WithinBounds p
  done : ∀ c ∈ s.done, c.WithinBounds p

theorem initial_withinBounds (p : Program) : State.initial.WithinBounds p where
  point := trivial
  done c hc := by cases hc

theorem Cycle.WithinBounds.rewait {p : Program} {c : Cycle ℝ} (h : c.WithinBounds p) :
    c.rewait.WithinBounds p := by
  refine ⟨h.mean, h.leak, ?_⟩
  obtain ⟨w, hw, hone, k, hk, hwaiting⟩ := h.wait
  refine ⟨w, hw, hone, k + 1, Nat.succ_pos k, ?_⟩
  rw [Cycle.rewait, hone, hwaiting, Option.map₂_some_some, Nat.cast_succ, add_one_mul]

theorem Cycle.WithinBounds.lengthen {p : Program} {c : Cycle ℝ} (h : c.WithinBounds p) :
    c.lengthen.WithinBounds p := by
  refine ⟨h.mean, h.leak, ?_⟩
  obtain ⟨w, hw, hone, k, hk, hwaiting⟩ := h.wait
  refine ⟨w, hw, hone, k * 40, Nat.mul_pos hk (by decide), ?_⟩
  rw [Cycle.lengthen, hwaiting, Option.map_some, Nat.cast_mul, mul_right_comm]
  rfl

theorem exists_map_eq_some_iff {α β : Type*} {o : Option α} {f : α → β} {Q : β → Prop} :
    (∃ t, o.map f = some t ∧ Q t) ↔ ∃ v, o = some v ∧ Q (f v) := by
  constructor
  · rintro ⟨t, ht, hQ⟩
    obtain ⟨v, hv, rfl⟩ := Option.map_eq_some_iff.mp ht
    exact ⟨v, hv, hQ⟩
  · rintro ⟨v, rfl, hQ⟩
    exact ⟨f v, rfl, hQ⟩

namespace Program

theorem mean_width_lt (p : Program) : p.mean.width < (randMax - 1 : ℕ) := by
  have hlow := p.mean_nonneg
  have hhigh := p.mean_lt
  have hmax : ((randMax - 1 : ℕ) : ℤ) = 2147483646 := rfl
  rw [hmax, Bounds.width]
  omega

/-- The draws that are only compared. -/
theorem exists_mean (p : Program) (r : Draw) :
    ∃ v, randomRange p.mean.min p.mean.max r = some v := by
  have hhigh := p.mean_lt
  exact exists_randomRange_eq p.mean_width_lt (by omega) r

end Program

/-- Whether the next state is within the bounds is up to its point. -/
theorem State.WithinBounds.move {p : Program} {s : State ℝ} (h : s.WithinBounds p)
    (point : Point ℝ) :
    State.WithinBounds p { s with point := point } ↔ point.WithinBounds p :=
  ⟨fun ht => ht.point, fun hpoint => ⟨hpoint, h.done⟩⟩

theorem expent_within_iff {p : Program} {m : ℤ} {leak : Option ℤ}
    (hm : m ∈ Set.Icc p.mean.min p.mean.max) (hleak : LeakWithin p leak) (r : Draw) :
    (∃ w, expent mathLog m r = some w ∧
      (Cycle.rewait ⟨m, leak, w, some 0⟩).WithinBounds p) ↔ r.value < randMax - 1 := by
  have hmean : (0 : ℚ) ≤ m := Int.cast_nonneg (p.mean_nonneg.trans hm.1)
  constructor
  · rintro ⟨w, hw, hcycle⟩
    obtain ⟨x, -, rfl, -⟩ := hcycle.wait
    exact (expent_eq_some_iff hmean r).mp ⟨x, hw⟩
  · intro hr
    obtain ⟨w, hw, hexpent⟩ := expent_of_lt hmean hr
    refine ⟨some w, hexpent, hm, hleak, w, ?_, rfl, 1, Nat.one_pos, ?_⟩
    · rw [Rat.cast_intCast] at hw
      exact hw
    · show some (0 + w) = some ((1 : ℕ) * w)
      rw [zero_add, Nat.cast_one, one_mul]

/-- The step is possible and leads to a state within the bounds. -/
def Kept (p : Program) (s : State ℝ) (r : Draw) : Prop :=
  ∃ t, main mathLog p s r = some t ∧ t.WithinBounds p

/-- A variable is not set by one of the two greatest draws. -/
def SetBelow (s : State ℝ) (r : Draw) : Prop := s.point.sets = true → r.value < randMax - 1

/-- **One step.** -/
theorem kept_iff {p : Program} {s : State ℝ} (h : s.WithinBounds p) (r : Draw) :
    Kept p s r ↔ SetBelow s r := by
  obtain ⟨point, done⟩ := s
  have hpoint := h.point
  cases point with
  | mean =>
      refine exists_map_eq_some_iff.trans (Iff.trans ?_ (imp_iff_right rfl).symm)
      rw [← randomRange_mem_iff p.mean]
      refine exists_congr fun m => and_congr_right fun _ => (h.move _).trans ?_
      cases hleak : p.leak with
      | none =>
          refine and_iff_left fun b hb => ?_
          rw [hleak] at hb
          cases hb
      | some b => exact and_iff_left (Option.isSome_of_eq_some hleak)
  | leak m =>
      obtain ⟨hm, hsome⟩ := hpoint
      obtain ⟨b, hb⟩ := Option.isSome_iff_exists.mp hsome
      rw [Kept, main, hb, Option.bind_some]
      refine exists_map_eq_some_iff.trans (Iff.trans ?_ (imp_iff_right rfl).symm)
      rw [← randomRange_mem_iff b]
      refine exists_congr fun n => and_congr_right fun _ => (h.move _).trans ?_
      refine (and_iff_right hm).trans ⟨fun hn => ?_, fun hn c hc => ?_⟩
      · obtain ⟨n', hn', hmem⟩ := hn b hb
        rw [Option.some.inj hn']
        exact hmem
      · rw [Option.mem_def, hb] at hc
        exact ⟨n, rfl, Option.some.inj hc ▸ hn⟩
  | wait m n =>
      obtain ⟨hm, hn⟩ := hpoint
      refine exists_map_eq_some_iff.trans (Iff.trans ?_ (imp_iff_right rfl).symm)
      rw [← expent_within_iff hm hn]
      exact exists_congr fun w => and_congr_right fun _ => h.move _
  | again c =>
      obtain ⟨v, hv⟩ := p.exists_mean r
      refine iff_of_true (exists_map_eq_some_iff.mpr ⟨v, hv, (h.move _).mpr ?_⟩) nofun
      split
      · exact hpoint.rewait
      · exact hpoint
  | long c =>
      obtain ⟨v, hv⟩ := p.exists_mean r
      refine iff_of_true (exists_map_eq_some_iff.mpr ⟨v, hv, trivial, fun d hd => ?_⟩) nofun
      rcases List.mem_append.mp hd with hold | hnew
      · exact h.done d hold
      · obtain rfl := List.mem_singleton.mp hnew
        split
        · exact hpoint.lengthen
        · exact hpoint

theorem attempts_kept_iff {p : Program} {s : State ℝ} (h : s.WithinBounds p)
    (draws : List Draw) :
    Attempts (main mathLog p) (Kept p) s draws ↔ Attempts (main mathLog p) SetBelow s draws := by
  refine attempts_congr (fun s r t _ hkept hstep => ?_) (fun s r hs => kept_iff hs r) h
  obtain ⟨t', ht', hwithin⟩ := hkept
  rw [hstep] at ht'
  exact Option.some.inj ht' ▸ hwithin

/-- Runs without the two greatest draws go on, and stay within the bounds. -/
theorem exists_run_main (p : Program) {draws : List Draw}
    (h : ∀ r ∈ draws, r.value < randMax - 1) :
    ∃ s, run (main mathLog p) State.initial draws = some s ∧ s.WithinBounds p := by
  apply exists_run_of_attempts (initial_withinBounds p)
  refine (attempts_kept_iff (initial_withinBounds p) draws).mpr ?_
  have hbelow : ∀ (s : State ℝ) (r : Draw), r.value < randMax - 1 → SetBelow s r :=
    fun _ _ hr _ => hr
  exact attempts_of_forall (I := fun _ => True) (fun _ _ _ _ _ _ => trivial)
    (fun s r _ hr => hbelow s r hr) trivial h

/-- What leak.c gives to `malloc` is between `MIN_LEAK` and `MAX_LEAK` then. -/
theorem leaks_leak_mem {draws : List Draw} (h : ∀ r ∈ draws, r.value < randMax - 1)
    {s : State ℝ} (hrun : run (main mathLog leaks) State.initial draws = some s) :
    ∀ c ∈ s.done, ∃ n, c.leak = some n ∧ n ∈ Set.Icc (1024 * 1024) (1024 * 1024 * 1024) := by
  obtain ⟨t, ht, hwithin⟩ := exists_run_main leaks h
  obtain rfl := Option.some.inj (hrun.symm.trans ht)
  intro c hc
  exact (hwithin.done c hc).leak leakBounds rfl

/-! ### Random range -/

/-- **Random range.**  A call of `RandomRange` is in its range and the argument
of `log` positive, and a run of `main` within its bounds, exactly without the two
greatest draws; in a run these are the draws that set a variable. -/
theorem random_range_iff (b : Bounds) (r : Draw) (p : Program) (draws : List Draw) :
    ((∃ v, randomRange b.min b.max r = some v ∧ v ∈ Set.Icc b.min b.max) ∧ 0 < 1 - random r ↔
      r.value < randMax - 1) ∧
    (Attempts (main mathLog p) (Kept p) State.initial draws ↔
      Attempts (main mathLog p) SetBelow State.initial draws) := by
  refine ⟨?_, attempts_kept_iff (initial_withinBounds p) draws⟩
  rw [randomRange_mem_iff, one_sub_random_pos_iff]
  exact and_self_iff

/-- `RAND_MAX - 1`. -/
def nextToGreatest : Draw := ⟨randMax - 1, Nat.sub_le _ _⟩

/-- A leak above `MAX_LEAK`, and the logarithm of 0. -/
theorem random_range_nextToGreatest :
    randomRange leakBounds.min leakBounds.max nextToGreatest = some (leakBounds.max + 1) ∧
      random nextToGreatest = 1 ∧
      ¬ ((∃ v, randomRange leakBounds.min leakBounds.max nextToGreatest = some v ∧
        v ∈ Set.Icc leakBounds.min leakBounds.max) ∧ 0 < 1 - random nextToGreatest) := by
  have hrandom : random nextToGreatest = 1 := div_self denominator_pos.ne'
  refine ⟨randomRange_of_le (by decide) (by decide) (Nat.le_refl _), hrandom, ?_⟩
  rintro ⟨-, hpos⟩
  rw [hrandom, sub_self] at hpos
  exact lt_irrefl 0 hpos

/-! ### `steal_my_cpu` -/

/-- The bounds 1 and 10. -/
def stealBounds : Bounds := ⟨1, 10, by decide, by decide, by decide, by decide⟩

/-- The test before the `usleep` of a thread. -/
def stealMyCpu (r : Draw) : Option Bool :=
  (randomRange stealBounds.min stealBounds.max r).map fun v : ℤ => decide ((v : ℚ) < 1 / 100)

/-- A thread never sleeps. -/
theorem stealMyCpu_eq (r : Draw) : stealMyCpu r = some false := by
  obtain ⟨v, hv⟩ := exists_randomRange_eq (b := stealBounds) (by decide) (by decide) r
  have hone : (1 : ℚ) ≤ v := Int.cast_one_le_of_pos (min_le_randomRange hv)
  have htest : ¬ (v : ℚ) < 1 / 100 := not_lt.mpr (le_trans (by norm_num) hone)
  rw [stealMyCpu, hv, Option.map_some, decide_eq_false htest]

end A2PM.Utilities
