/-
A2PM/RandomRange.lean

`Random`, `Expent` and `RandomRange` of leak.c and thread.c, in exact
arithmetic.

`Random` divides what `random()` returns by `RAND_MAX - 1`.  So it is less than
1 unless `random()` returns one of its two greatest values (`random_lt_one_iff`);
for these `RandomRange` is not in its range, whatever the bounds are
(`randomRange_mem_iff`), and `Expent` takes the logarithm of 0 or of a negative
number (`expent_eq_some_iff`).  The lower bound is never missed
(`min_le_randomRange`), and in a range that is not too wide every value is drawn
(`exists_randomRange`).
-/
import A2PM.MachineInt
import A2PM.Scaling
import Mathlib.Analysis.SpecialFunctions.Log.Basic
import Mathlib.Data.Rat.Floor

namespace A2PM.Utilities

open MachineInt Scaling

/-- `RAND_MAX`. -/
def randMax : ℕ := 2147483647

/-- What a call of `random()` returns. -/
structure Draw where
  value : ℕ
  le : value ≤ randMax

/-- `Random()`. -/
def random (r : Draw) : ℚ := r.value / (randMax - 1 : ℕ)

/-- `none`: the result, or an intermediate one, is not an `int`. -/
def randomRange (min max : ℤ) (r : Draw) : Option ℤ := do
  let difference ← exactInt (max - min)
  let width ← exactInt (difference + 1)
  let scaled ← exactInt ⌊random r * width⌋
  exactInt (scaled + min)

/-- The arguments of `RandomRange`, and `max - min + 1`, are of type `int`. -/
structure Bounds where
  min : ℤ
  max : ℤ
  le : min ≤ max
  min_int : -2 ^ 31 ≤ min
  max_int : max < 2 ^ 31
  width_int : max - min + 1 < 2 ^ 31

namespace Bounds

/-- How many values there are. -/
def width (b : Bounds) : ℤ := b.max - b.min + 1

theorem width_pos (b : Bounds) : 0 < b.width := Int.lt_add_one_iff.mpr (Int.sub_nonneg.mpr b.le)

theorem add_min_mem_iff (b : Bounds) {k : ℤ} :
    k + b.min ∈ Set.Icc b.min b.max ↔ k ∈ Set.Ico 0 b.width := by
  rw [Set.mem_Icc, Set.mem_Ico, width]
  omega

end Bounds

/-! ### `Random` -/

theorem denominator_pos : (0 : ℚ) < (randMax - 1 : ℕ) := Nat.cast_pos.mpr (by decide)

theorem random_nonneg (r : Draw) : 0 ≤ random r :=
  div_nonneg (Nat.cast_nonneg _) denominator_pos.le

theorem random_lt_one_iff (r : Draw) : random r < 1 ↔ r.value < randMax - 1 := by
  rw [random, div_lt_one denominator_pos]
  exact Nat.cast_lt

/-- The argument of `log` in `Expent`. -/
theorem one_sub_random_pos_iff (r : Draw) : 0 < 1 - random r ↔ r.value < randMax - 1 :=
  sub_pos.trans (random_lt_one_iff r)

/-- Below 1, `Random` keeps a distance of one step. -/
theorem one_div_le_one_sub_random {r : Draw} (hr : r.value < randMax - 1) :
    1 / ((randMax - 1 : ℕ) : ℚ) ≤ 1 - random r := by
  have hden : (0 : ℚ) < (randMax - 1 : ℕ) := denominator_pos
  rw [random, div_le_iff₀ hden, sub_mul, div_mul_cancel₀ _ hden.ne', one_mul, le_sub_iff_add_le]
  have hsucc : 1 + r.value ≤ randMax - 1 := by omega
  exact_mod_cast hsucc

theorem random_le (r : Draw) : random r ≤ 1 + 1 / (randMax - 1 : ℕ) := by
  have hsum : (1 : ℚ) + 1 / (randMax - 1 : ℕ) = randMax / (randMax - 1 : ℕ) := by
    rw [eq_div_iff denominator_pos.ne', add_mul, one_div_mul_cancel denominator_pos.ne', one_mul]
    exact_mod_cast (by decide : randMax - 1 + 1 = randMax)
  rw [hsum, random]
  exact div_le_div_of_nonneg_right (Nat.cast_le.mpr r.le) denominator_pos.le

/-! ### `RandomRange` -/

theorem randomRange_eq (b : Bounds) (r : Draw) :
    randomRange b.min b.max r =
      (exactInt (scale (random r) b.width)).bind fun k => exactInt (k + b.min) := by
  have hle := b.le
  have hwidth := b.width_int
  have hdifference : exactInt (b.max - b.min) = some (b.max - b.min) :=
    exactInt_of_mem (by omega) (by omega)
  have hsum : exactInt (b.max - b.min + 1) = some b.width :=
    exactInt_of_mem (by omega) (by omega)
  rw [randomRange, hdifference, Option.bind_eq_bind, Option.bind_some, hsum]
  rfl

theorem randomRange_eq_some {b : Bounds} {r : Draw} {v : ℤ}
    (h : randomRange b.min b.max r = some v) : v = scale (random r) b.width + b.min := by
  rw [randomRange_eq] at h
  obtain ⟨k, hk, hv⟩ := Option.bind_eq_some_iff.mp h
  rw [exactInt_eq_some hv, exactInt_eq_some hk]

theorem randomRange_of_mem {b : Bounds} {r : Draw} {k : ℤ} (hk : scale (random r) b.width = k)
    (h₀ : 0 ≤ k) (h : k < 2 ^ 31) (hmax : k + b.min < 2 ^ 31) :
    randomRange b.min b.max r = some (k + b.min) := by
  have hmin := b.min_int
  rw [randomRange_eq, hk, exactInt_of_mem (by omega) h]
  exact exactInt_of_mem (by omega) hmax

/-- No draw is below the lower bound. -/
theorem min_le_randomRange {b : Bounds} {r : Draw} {v : ℤ}
    (h : randomRange b.min b.max r = some v) : b.min ≤ v := by
  have hscale := scale_nonneg (random_nonneg r) b.width_pos.le
  have hsum := randomRange_eq_some h
  omega

/-- A draw is in the range exactly if it is not one of the two greatest. -/
theorem randomRange_mem_iff (b : Bounds) (r : Draw) :
    (∃ v, randomRange b.min b.max r = some v ∧ v ∈ Set.Icc b.min b.max) ↔
      r.value < randMax - 1 := by
  rw [← random_lt_one_iff, ← scale_mem_iff (random_nonneg r) b.width_pos, ← b.add_min_mem_iff]
  constructor
  · rintro ⟨v, hv, hmem⟩
    rw [← randomRange_eq_some hv]
    exact hmem
  · intro hmem
    obtain ⟨h₀, hlt⟩ := b.add_min_mem_iff.mp hmem
    refine ⟨_, randomRange_of_mem rfl h₀ (hlt.trans b.width_int) ?_, hmem⟩
    exact hmem.2.trans_lt b.max_int

/-- Every value of a range that is not wider than `RAND_MAX - 1` is drawn. -/
theorem exists_randomRange (b : Bounds) (hb : b.width ≤ (randMax - 1 : ℕ)) {v : ℤ}
    (hv : v ∈ Set.Icc b.min b.max) :
    ∃ r : Draw, r.value < randMax - 1 ∧ randomRange b.min b.max r = some v := by
  have hk : v - b.min ∈ Set.Ico 0 b.width := by
    rw [← b.add_min_mem_iff, Int.sub_add_cancel]
    exact hv
  obtain ⟨i, ⟨hi₀, hi⟩, hscale⟩ := exists_scale (K := ℚ) hk hb
  obtain ⟨i, rfl⟩ := Int.eq_ofNat_of_zero_le hi₀
  have hi : i < randMax - 1 := Int.ofNat_lt.mp hi
  obtain ⟨r, hr⟩ : ∃ r : Draw, r.value = i :=
    ⟨⟨i, hi.le.trans (Nat.sub_le _ _)⟩, rfl⟩
  refine ⟨r, hr ▸ hi, ?_⟩
  rw [Int.cast_natCast, Int.cast_natCast, ← hr] at hscale
  have hrange := randomRange_of_mem hscale hk.1 (hk.2.trans b.width_int)
  rw [Int.sub_add_cancel] at hrange
  exact hrange (hv.2.trans_lt b.max_int)

/-- The two greatest draws are one above the range, if it is not too wide. -/
theorem randomRange_of_le {b : Bounds} (hb : b.width < (randMax - 1 : ℕ))
    (hmax : b.max + 1 < 2 ^ 31) {r : Draw} (hr : randMax - 1 ≤ r.value) :
    randomRange b.min b.max r = some (b.max + 1) := by
  have hwidth : (0 : ℚ) < b.width := Int.cast_pos.mpr b.width_pos
  have hge : b.width ≤ scale (random r) b.width := by
    rw [← not_lt, scale_lt_iff b.width_pos, random_lt_one_iff]
    exact Nat.not_lt.mpr hr
  have hle : scale (random r) b.width ≤ b.width := by
    apply scale_le
    have hlt : (b.width : ℚ) / (randMax - 1 : ℕ) < 1 := by
      rw [div_lt_one denominator_pos]
      exact_mod_cast hb
    calc random r * b.width ≤ (1 + 1 / (randMax - 1 : ℕ)) * b.width :=
          mul_le_mul_of_nonneg_right (random_le r) hwidth.le
      _ = b.width + b.width / (randMax - 1 : ℕ) := by rw [add_mul, one_mul, one_div_mul_eq_div]
      _ < b.width + 1 := (add_lt_add_iff_left _).mpr hlt
  have hsum : b.width + b.min = b.max + 1 := by
    rw [Bounds.width]
    omega
  rw [← hsum] at hmax ⊢
  exact randomRange_of_mem (Int.le_antisymm hle hge) b.width_pos.le b.width_int hmax

theorem exists_randomRange_eq {b : Bounds} (hb : b.width < (randMax - 1 : ℕ))
    (hmax : b.max + 1 < 2 ^ 31) (r : Draw) : ∃ v, randomRange b.min b.max r = some v := by
  rcases Nat.lt_or_ge r.value (randMax - 1) with hr | hr
  · obtain ⟨v, hv, -⟩ := (randomRange_mem_iff b r).mpr hr
    exact ⟨v, hv⟩
  · exact ⟨_, randomRange_of_le hb hmax hr⟩

/-! ### `Expent` -/

section Expent

variable {K : Type*} [Field K]

/-- A value of type `double` is `none` if it is infinite or not a number; the
whole result is `none` after `abort`. -/
def expent (log : ℚ → Option K) (mean : ℚ) (r : Draw) : Option (Option K) :=
  if mean < 0 then none else some ((log (1 - random r)).map fun x => -mean * x)

end Expent

/-- `log` of math.h. -/
noncomputable def mathLog (x : ℚ) : Option ℝ := if 0 < x then some (Real.log x) else none

/-- The greatest wait for a mean of 1. -/
noncomputable def maxWait : ℝ := Real.log (randMax - 1 : ℕ)

/-- The wait is a number unless the draw is one of the two greatest. -/
theorem expent_eq_some_iff {mean : ℚ} (hmean : 0 ≤ mean) (r : Draw) :
    (∃ w, expent mathLog mean r = some (some w)) ↔ r.value < randMax - 1 := by
  rw [← one_sub_random_pos_iff, expent, if_neg hmean.not_gt, mathLog]
  split
  next hpos => exact iff_of_true ⟨_, rfl⟩ hpos
  next hneg =>
    refine iff_of_false ?_ hneg
    rintro ⟨w, hw⟩
    cases hw

theorem log_one_sub_random_mem {r : Draw} (hr : r.value < randMax - 1) :
    Real.log (1 - random r : ℚ) ∈ Set.Icc (-maxWait) 0 := by
  have hpos : (0 : ℝ) < (1 - random r : ℚ) := Rat.cast_pos.mpr ((one_sub_random_pos_iff r).mpr hr)
  have hge : ((1 / (randMax - 1 : ℕ) : ℚ) : ℝ) ≤ (1 - random r : ℚ) :=
    Rat.cast_le.mpr (one_div_le_one_sub_random hr)
  rw [Rat.cast_div, Rat.cast_one, Rat.cast_natCast, one_div] at hge
  constructor
  · rw [maxWait, ← Real.log_inv]
    apply Real.log_le_log (inv_pos.mpr (Nat.cast_pos.mpr (by decide)))
    exact hge
  · apply Real.log_nonpos hpos.le
    exact_mod_cast sub_le_self 1 (random_nonneg r)

theorem expent_of_lt {mean : ℚ} (hmean : 0 ≤ mean) {r : Draw} (hr : r.value < randMax - 1) :
    ∃ w ∈ Set.Icc 0 (mean * maxWait), expent mathLog mean r = some (some w) := by
  obtain ⟨hlow, hhigh⟩ := log_one_sub_random_mem hr
  have hmean' : (0 : ℝ) ≤ mean := Rat.cast_nonneg.mpr hmean
  refine ⟨-mean * Real.log (1 - random r : ℚ), ⟨?_, ?_⟩, ?_⟩
  · exact mul_nonneg_of_nonpos_of_nonpos (neg_nonpos.mpr hmean') hhigh
  · rw [neg_mul_comm]
    exact mul_le_mul_of_nonneg_left (neg_le.mp hlow) hmean'
  · rw [expent, if_neg hmean.not_gt, mathLog, if_pos ((one_sub_random_pos_iff r).mpr hr)]
    rfl

end A2PM.Utilities
