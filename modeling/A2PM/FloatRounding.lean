/-
A2PM/FloatRounding.lean

Rounding to the nearest binary floating-point number with `p` significant bits,
ties to even, over any ordered field with a floor.  The exponents have no bounds,
so nothing overflows or underflows.

A rounding changes a number by a `2 ^ p`-th of it at the most
(`abs_rnd_sub_le`), leaves a number with `p` bits as it is (`Representable.rnd_eq`),
and does not pass one (`Representable.rnd_le`).
-/
import Mathlib.Algebra.Group.Int.Even
import Mathlib.Algebra.Order.Floor.Ring
import Mathlib.Data.Int.Log
import Mathlib.Tactic.Linarith
import Mathlib.Tactic.Ring

namespace FloatRounding

variable {K : Type*} [Field K] [LinearOrder K] [FloorRing K]

/-! ### To an integer -/

/-- The nearest integer, the even one of two. -/
def nearestEven (x : K) : ℤ :=
  if (2 : ℕ) * (x - ⌊x⌋) < 1 then ⌊x⌋
  else if 1 < (2 : ℕ) * (x - ⌊x⌋) then ⌊x⌋ + 1
  else if Even ⌊x⌋ then ⌊x⌋
  else ⌊x⌋ + 1

variable {x y : K}

theorem floor_le_nearestEven (x : K) : ⌊x⌋ ≤ nearestEven x := by
  rw [nearestEven]
  split_ifs <;> omega

theorem nearestEven_le_floor (x : K) : nearestEven x ≤ ⌊x⌋ + 1 := by
  rw [nearestEven]
  split_ifs <;> omega

variable [IsStrictOrderedRing K]

theorem abs_nearestEven_sub_le (x : K) : 2 * |nearestEven x - x| ≤ 1 := by
  have hle := Int.floor_le x
  have hlt := Int.lt_floor_add_one x
  rw [nearestEven, Nat.cast_ofNat]
  split_ifs with hlow hhigh
  · rw [abs_sub_comm, abs_of_nonneg (by linarith)]
    exact hlow.le
  · push_cast
    rw [abs_of_nonneg (by linarith)]
    linarith
  · rw [abs_sub_comm, abs_of_nonneg (by linarith)]
    exact not_lt.mp hhigh
  · push_cast
    rw [abs_of_nonneg (by linarith)]
    linarith

theorem nearestEven_mono (h : x ≤ y) : nearestEven x ≤ nearestEven y := by
  rcases (Int.floor_le_floor h).lt_or_eq with hlt | heq
  · calc nearestEven x ≤ ⌊x⌋ + 1 := nearestEven_le_floor x
      _ ≤ ⌊y⌋ := hlt
      _ ≤ nearestEven y := floor_le_nearestEven y
  · -- with one floor, the fractions decide
    have hfract : (2 : ℕ) * (x - ⌊y⌋) ≤ (2 : ℕ) * (y - ⌊y⌋) :=
      mul_le_mul_of_nonneg_left (sub_le_sub_right h _) (Nat.cast_nonneg 2)
    rw [nearestEven, nearestEven, heq]
    split_ifs
    all_goals first | omega | linarith

/-- Numbers that are less than 1 apart. -/
theorem nearestEven_lt_add_two (h : y < x + 1) : nearestEven y < nearestEven x + 2 := by
  have hx := neg_abs_le (nearestEven x - x)
  have hy := le_abs_self (nearestEven y - y)
  have hx' := abs_nearestEven_sub_le x
  have hy' := abs_nearestEven_sub_le y
  have hlt : (nearestEven y : K) < nearestEven x + 2 := by linarith
  exact_mod_cast hlt

theorem nearestEven_intCast (z : ℤ) : nearestEven (z : K) = z := by
  rw [nearestEven, Int.floor_intCast, sub_self, mul_zero, if_pos one_pos]

/-! ### To `p` bits -/

/-- The distance of the numbers with `p` bits about `x`. -/
def quantum (p : ℕ) (x : K) : K := ((2 : ℕ) : K) ^ (Int.log 2 |x| - p + 1)

/-- `x` with `p` bits. -/
def rnd (p : ℕ) (x : K) : K := nearestEven (x / quantum p x) * quantum p x

/-- A number with `p` bits. -/
def Representable (p : ℕ) (x : K) : Prop :=
  ∃ z e : ℤ, |z| ≤ 2 ^ p ∧ x = z * ((2 : ℕ) : K) ^ e

theorem quantum_pos (p : ℕ) (x : K) : 0 < quantum p x := zpow_pos (Nat.cast_pos.mpr two_pos) _

theorem quantum_mul_pow_le (p : ℕ) (hx : x ≠ 0) : quantum p x * 2 ^ p ≤ |x| * 2 := by
  have hlog : quantum p x * 2 ^ p = 2 ^ Int.log 2 |x| * 2 := by
    rw [quantum, Nat.cast_ofNat, ← zpow_natCast, ← zpow_add₀ two_ne_zero,
      ← zpow_add_one₀ two_ne_zero]
    congr 1
    omega
  have hle : (2 : K) ^ Int.log 2 |x| ≤ |x| := by
    have h := Int.zpow_log_le_self (b := 2) one_lt_two (abs_pos.mpr hx)
    rwa [Nat.cast_ofNat] at h
  rw [hlog]
  exact mul_le_mul_of_nonneg_right hle zero_le_two

/-- A number is rounded to a multiple of the distance `q`. -/
theorem abs_nearestEven_mul_sub_le {q : K} (hq : 0 < q) :
    2 * |nearestEven (x / q) * q - x| ≤ q := by
  have herror : nearestEven (x / q) * q - x = (nearestEven (x / q) - x / q) * q := by
    rw [sub_mul, div_mul_cancel₀ _ hq.ne']
  rw [herror, abs_mul, abs_of_pos hq, ← mul_assoc]
  exact mul_le_of_le_one_left hq.le (abs_nearestEven_sub_le _)

theorem nearestEven_zero : nearestEven (0 : K) = 0 := by
  have h := nearestEven_intCast (K := K) 0
  rwa [Int.cast_zero] at h

/-- **The error** of a rounding. -/
theorem abs_rnd_sub_le (p : ℕ) (x : K) : |rnd p x - x| * 2 ^ p ≤ |x| := by
  rcases eq_or_ne x 0 with rfl | hx
  · rw [rnd, zero_div, nearestEven_zero, Int.cast_zero, zero_mul, sub_zero, abs_zero, zero_mul]
  · have herror : 2 * |rnd p x - x| ≤ quantum p x := abs_nearestEven_mul_sub_le (quantum_pos p x)
    have hquantum := quantum_mul_pow_le p hx
    have hscaled : 2 * |rnd p x - x| * 2 ^ p ≤ quantum p x * 2 ^ p :=
      mul_le_mul_of_nonneg_right herror (by positivity)
    linarith

/-- The distance divides greater numbers with `p` bits. -/
theorem Representable.exists_mul_quantum {p : ℕ} (hp : 1 ≤ p) (h : Representable p y) (hx : x ≠ 0)
    (hle : |x| ≤ |y|) : ∃ z : ℤ, y = z * quantum p x := by
  have htwo : ((2 : ℕ) : K) ≠ 0 := Nat.cast_ne_zero.mpr two_ne_zero
  have hone : (1 : K) < (2 : ℕ) := Nat.one_lt_cast.mpr one_lt_two
  obtain ⟨m, e, hm, rfl⟩ := h
  by_cases he : Int.log 2 |x| - p + 1 ≤ e
  · obtain ⟨j, hj⟩ := Int.eq_ofNat_of_zero_le (sub_nonneg.mpr he)
    refine ⟨m * 2 ^ j, ?_⟩
    have hexponent : e = j + (Int.log 2 |x| - p + 1) := by omega
    rw [quantum, hexponent, zpow_add₀ htwo, zpow_natCast]
    push_cast
    ring
  · -- then `y` has to be the power of two that is next to `x`
    have hpower : ((2 : ℕ) : K) ^ Int.log 2 |x| ≤ |(m : K) * ((2 : ℕ) : K) ^ e| :=
      (Int.zpow_log_le_self one_lt_two (abs_pos.mpr hx)).trans hle
    have hm' : |(m : K)| ≤ ((2 : ℕ) : K) ^ (p : ℤ) := by
      rw [zpow_natCast, ← Int.cast_abs]
      exact_mod_cast hm
    have hbound : |(m : K) * ((2 : ℕ) : K) ^ e| ≤ ((2 : ℕ) : K) ^ Int.log 2 |x| := by
      have hpos : (0 : K) < ((2 : ℕ) : K) ^ e := zpow_pos (Nat.cast_pos.mpr two_pos) e
      rw [abs_mul, abs_of_pos hpos]
      calc |(m : K)| * ((2 : ℕ) : K) ^ e ≤ ((2 : ℕ) : K) ^ (p : ℤ) * ((2 : ℕ) : K) ^ e :=
            mul_le_mul_of_nonneg_right hm' hpos.le
        _ = ((2 : ℕ) : K) ^ (p + e) := (zpow_add₀ htwo _ _).symm
        _ ≤ ((2 : ℕ) : K) ^ Int.log 2 |x| := zpow_le_zpow_right₀ hone.le (by omega)
    have hquantum : ((2 : ℕ) : K) ^ Int.log 2 |x| = ((2 ^ (p - 1) : ℕ) : K) * quantum p x := by
      rw [quantum, Nat.cast_pow, ← zpow_natCast, ← zpow_add₀ htwo]
      congr 1
      omega
    rcases eq_or_eq_neg_of_abs_eq (le_antisymm hbound hpower) with heq | heq
    · exact ⟨(2 ^ (p - 1) : ℕ), by rw [heq, hquantum, Int.cast_natCast]⟩
    · exact ⟨-(2 ^ (p - 1) : ℕ), by rw [heq, hquantum, Int.cast_neg, Int.cast_natCast, neg_mul]⟩

theorem rnd_intCast_mul_quantum {p : ℕ} {z : ℤ} (h : x = z * quantum p x) : rnd p x = x := by
  have hdiv : x / quantum p x = z := (div_eq_iff (quantum_pos p x).ne').mpr h
  rw [rnd, hdiv, nearestEven_intCast, ← h]

theorem Representable.rnd_eq {p : ℕ} (hp : 1 ≤ p) (h : Representable p x) : rnd p x = x := by
  rcases eq_or_ne x 0 with rfl | hx
  · exact rnd_intCast_mul_quantum (z := 0) (by rw [Int.cast_zero, zero_mul])
  · obtain ⟨z, hz⟩ := h.exists_mul_quantum hp hx le_rfl
    exact rnd_intCast_mul_quantum hz

theorem rnd_nonneg {p : ℕ} (hx : 0 ≤ x) : 0 ≤ rnd p x := by
  have hfloor : 0 ≤ ⌊x / quantum p x⌋ := Int.floor_nonneg.mpr (div_nonneg hx (quantum_pos p x).le)
  exact mul_nonneg (Int.cast_nonneg (hfloor.trans (floor_le_nearestEven _))) (quantum_pos p x).le

/-- A rounding does not lose half of a number. -/
theorem half_le_rnd {p : ℕ} (hp : 1 ≤ p) (hx : 0 ≤ x) : x / 2 ≤ rnd p x := by
  have herror := abs_rnd_sub_le p x
  rw [abs_of_nonneg hx] at herror
  have htwo : (2 : K) ≤ 2 ^ p := by
    calc (2 : K) = 2 ^ 1 := (pow_one 2).symm
      _ ≤ 2 ^ p := pow_le_pow_right₀ one_le_two hp
  have hless : |rnd p x - x| * 2 ≤ x :=
    (mul_le_mul_of_nonneg_left htwo (abs_nonneg _)).trans herror
  linarith [neg_abs_le (rnd p x - x)]

/-- A number with `p` bits is not passed. -/
theorem Representable.rnd_le {p : ℕ} (hp : 1 ≤ p) (h : Representable p y) (hx : 0 ≤ x)
    (hle : x ≤ y) : rnd p x ≤ y := by
  rcases hx.eq_or_lt with rfl | hpos
  · rw [rnd_intCast_mul_quantum (z := 0) (by rw [Int.cast_zero, zero_mul])]
    exact hle
  · have habs : |x| ≤ |y| := by rwa [abs_of_pos hpos, abs_of_pos (hpos.trans_le hle)]
    obtain ⟨z, hz⟩ := h.exists_mul_quantum hp hpos.ne' habs
    have hdiv : x / quantum p x ≤ z := by
      rw [div_le_iff₀ (quantum_pos p x), ← hz]
      exact hle
    have hround := nearestEven_mono hdiv
    rw [nearestEven_intCast] at hround
    rw [rnd]
    calc (nearestEven (x / quantum p x) : K) * quantum p x ≤ z * quantum p x :=
          mul_le_mul_of_nonneg_right (Int.cast_le.mpr hround) (quantum_pos p x).le
      _ = y := hz.symm

omit [LinearOrder K] [FloorRing K] [IsStrictOrderedRing K] in
theorem representable_intCast {p : ℕ} {z : ℤ} (h : |z| ≤ 2 ^ p) : Representable p (z : K) :=
  ⟨z, 0, h, by rw [zpow_zero, mul_one]⟩

end FloatRounding
