/-
A2PM/Scaling.lean

`⌊x * n⌋`: how a fraction `x` is turned into one of the `n` values
`0, …, n - 1`.  It is one of them exactly for the fractions of `[0, 1)`
(`scale_mem_iff`), a fraction that is too large by less than `1 / n` gives
`n` at the most (`scale_le`), and the fractions of denominator `d` give all
of them if `n ≤ d` (`exists_scale`).
-/
import Mathlib.Algebra.Order.Floor.Ring
import Mathlib.Data.Int.ConditionallyCompleteOrder
import Mathlib.Order.Interval.Set.Defs
import Mathlib.Tactic.Linarith

namespace Scaling

variable {K : Type*} [Field K] [LinearOrder K] [IsStrictOrderedRing K] [FloorRing K]

/-- The fraction `x` scaled to `n` values. -/
def scale (x : K) (n : ℤ) : ℤ := ⌊x * n⌋

variable {x : K} {n d k : ℤ}

theorem scale_nonneg (hx : 0 ≤ x) (hn : 0 ≤ n) : 0 ≤ scale x n :=
  Int.floor_nonneg.mpr (mul_nonneg hx (Int.cast_nonneg hn))

theorem scale_lt_iff (hn : 0 < n) : scale x n < n ↔ x < 1 := by
  have hpos : (0 : K) < n := Int.cast_pos.mpr hn
  rw [scale, Int.floor_lt]
  exact mul_lt_iff_lt_one_left hpos

theorem scale_mem_iff (hx : 0 ≤ x) (hn : 0 < n) : scale x n ∈ Set.Ico 0 n ↔ x < 1 := by
  rw [Set.mem_Ico, and_iff_right (scale_nonneg hx hn.le)]
  exact scale_lt_iff hn

omit [IsStrictOrderedRing K] in
theorem scale_le (h : x * n < n + 1) : scale x n ≤ n := by
  refine Int.lt_add_one_iff.mp (Int.floor_lt.mpr ?_)
  rw [Int.cast_add, Int.cast_one]
  exact h

/-- Each of the `n` values is drawn, if there are fractions enough. -/
theorem exists_scale (hk : k ∈ Set.Ico 0 n) (hnd : n ≤ d) :
    ∃ i ∈ Set.Ico 0 d, scale ((i : K) / d) n = k := by
  obtain ⟨hk₀, hkn⟩ := hk
  have hn : 0 < n := by omega
  have hd : (0 : K) < d := Int.cast_pos.mpr (by omega)
  -- the least numerator that is scaled to `k` or more
  obtain ⟨i, hi⟩ : ∃ i, i = (k * d + (n - 1)) / n := ⟨_, rfl⟩
  have hrem : n * i + (k * d + (n - 1)) % n = k * d + (n - 1) := hi ▸ Int.mul_ediv_add_emod _ _
  have hlow : k * d ≤ n * i := by
    have hlt := Int.emod_lt_of_pos (k * d + (n - 1)) hn
    omega
  have hhigh : n * i < (k + 1) * d := by
    have hnonneg := Int.emod_nonneg (k * d + (n - 1)) hn.ne'
    rw [Int.add_mul, Int.one_mul]
    omega
  have hi₀ : 0 ≤ i := by
    by_contra hneg
    have hproduct : n * i < 0 := Int.mul_neg_of_pos_of_neg hn (by omega)
    have hnumerator : 0 ≤ k * d := Int.mul_nonneg hk₀ (by omega)
    omega
  have hid : i < d := by
    refine lt_of_mul_lt_mul_left ?_ hn.le
    calc n * i < (k + 1) * d := hhigh
      _ ≤ n * d := Int.mul_le_mul_of_nonneg_right (by omega) (by omega)
  refine ⟨i, ⟨hi₀, hid⟩, Int.floor_eq_iff.mpr ?_⟩
  rw [div_mul_eq_mul_div, le_div_iff₀ hd, div_lt_iff₀ hd, mul_comm (i : K)]
  constructor
  · exact_mod_cast hlow
  · exact_mod_cast hhigh

end Scaling
