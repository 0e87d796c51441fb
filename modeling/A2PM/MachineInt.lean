/-
A2PM/MachineInt.lean

`int` and `unsigned int` of 32 bits, and `long` of 64.
-/
import Mathlib.Algebra.Group.Int.Defs
import Mathlib.Algebra.Group.Nat.Defs
import Mathlib.Data.Int.Order.Basic

namespace MachineInt

/-- Conversion to `int`. -/
def toInt (z : ℤ) : ℤ := Int.bmod z (2 ^ 32)

/-- Conversion to `long`. -/
def toLong (z : ℤ) : ℤ := Int.bmod z (2 ^ 64)

/-- Conversion to `unsigned int`. -/
def toUnsigned (z : ℤ) : ℤ := z % 2 ^ 32

/-- An `int` divided by an `unsigned int`: both are converted to `unsigned
int`, and the result back to `int`. -/
def divUnsigned (x : ℤ) (n : ℕ) : ℤ := toInt (toUnsigned x / n)

/-- What is computed as an `int`; `none`: it does not fit, and is undefined. -/
def exactInt (z : ℤ) : Option ℤ := if -2 ^ 31 ≤ z ∧ z < 2 ^ 31 then some z else none

theorem exactInt_of_mem {z : ℤ} (hlow : -2 ^ 31 ≤ z) (hhigh : z < 2 ^ 31) :
    exactInt z = some z :=
  if_pos ⟨hlow, hhigh⟩

theorem exactInt_eq_some {z v : ℤ} (h : exactInt z = some v) : v = z :=
  (Option.some.inj (Option.ite_none_right_eq_some.mp h).2).symm

theorem toInt_of_mem {z : ℤ} (hlow : -2 ^ 31 ≤ z) (hhigh : z < 2 ^ 31) : toInt z = z :=
  Int.bmod_eq_of_le (by omega) (by omega)

theorem toInt_toInt_add (x y : ℤ) : toInt (toInt x + y) = toInt (x + y) :=
  Int.bmod_add_bmod

theorem toInt_toInt_sub (x y : ℤ) : toInt (toInt x - y) = toInt (x - y) :=
  Int.bmod_sub_bmod

theorem toInt_sub_toInt (x y : ℤ) : toInt (x - toInt y) = toInt (x - y) :=
  Int.sub_bmod_bmod

/-- What a `long` has lost is not in an `int`. -/
theorem toInt_toLong (z : ℤ) : toInt (toLong z) = toInt z :=
  Int.bmod_bmod_of_dvd (by decide)

theorem toInt_toLong_add (x y : ℤ) : toInt (toLong x + y) = toInt (x + y) := by
  rw [← toInt_toInt_add, toInt_toLong, toInt_toInt_add]

/-- A number that is not negative does not become greater. -/
theorem toInt_le {z : ℤ} (h : 0 ≤ z) : toInt z ≤ z := by
  have hmod : z % (2 ^ 32 : ℕ) ≤ z := by omega
  rw [toInt, Int.bmod_def]
  split
  · exact hmod
  · omega

/-- An `int` above a number that is not negative. -/
theorem lt_toInt_iff {k z : ℤ} (hk : 0 ≤ k) :
    k < toInt z ↔ k < z % 2 ^ 32 ∧ z % 2 ^ 32 < 2 ^ 31 := by
  rw [toInt, Int.bmod_def]
  split <;> omega

theorem divUnsigned_of_nonneg {x : ℤ} (hlow : 0 ≤ x) (hhigh : x < 2 ^ 31) (n : ℕ) :
    divUnsigned x n = x.tdiv n := by
  have hunsigned : toUnsigned x = x := Int.emod_eq_of_lt hlow (by omega)
  have hquotient : x / n ≤ x := Int.ediv_le_self _ hlow
  have hnonneg : 0 ≤ x / n := Int.ediv_nonneg hlow (Int.natCast_nonneg n)
  rw [divUnsigned, hunsigned, toInt_of_mem (by omega) (by omega),
    Int.tdiv_eq_ediv_of_nonneg hlow]

/-- Division by 1 also keeps a negative number. -/
theorem divUnsigned_one {x : ℤ} (hlow : -2 ^ 31 ≤ x) (hhigh : x < 2 ^ 31) :
    divUnsigned x 1 = x := by
  have hmod : Int.bmod (x % 2 ^ 32) (2 ^ 32) = Int.bmod x (2 ^ 32) := Int.emod_bmod x (2 ^ 32)
  have hone : toUnsigned x / ((1 : ℕ) : ℤ) = x % 2 ^ 32 := Int.ediv_one _
  rw [divUnsigned, hone]
  exact hmod.trans (toInt_of_mem hlow hhigh)

/-- What has become of `x` in 32 bits, divided by `n`, is in a range of `int`s
that are not negative. -/
theorem divUnsigned_toInt_mem_iff {x lo hi : ℤ} {n : ℕ} (hn : 0 < n) (hlo : 0 ≤ lo)
    (hhi : hi < 2 ^ 31) :
    lo ≤ divUnsigned (toInt x) n ∧ divUnsigned (toInt x) n ≤ hi ↔
      n * lo ≤ x % 2 ^ 32 ∧ x % 2 ^ 32 < n * (hi + 1) := by
  have hunsigned : toUnsigned (toInt x) = x % 2 ^ 32 := Int.bmod_emod
  have hpos : (0 : ℤ) < n := Int.natCast_pos.mpr hn
  have hnonneg : 0 ≤ x % 2 ^ 32 := Int.emod_nonneg x (by decide)
  have hlt : x % 2 ^ 32 < 2 ^ 32 := Int.emod_lt_of_pos x (by decide)
  have hlow : lo ≤ x % 2 ^ 32 / n ↔ n * lo ≤ x % 2 ^ 32 := by
    rw [Int.le_ediv_iff_mul_le hpos, mul_comm]
  have hhigh : x % 2 ^ 32 / n ≤ hi ↔ x % 2 ^ 32 < n * (hi + 1) := by
    rw [← Int.lt_add_one_iff, Int.ediv_lt_iff_lt_mul hpos, mul_comm]
  rw [divUnsigned, hunsigned, ← hlow, ← hhigh]
  have hquotient : x % 2 ^ 32 / n ≤ x % 2 ^ 32 := Int.ediv_le_self _ hnonneg
  have hquotient' : 0 ≤ x % 2 ^ 32 / n := Int.ediv_nonneg hnonneg (Int.natCast_nonneg n)
  generalize x % 2 ^ 32 / n = q at *
  -- a quotient that is no `int` is out of range, and turns negative
  rcases lt_or_ge q (2 ^ 31) with hq | hq
  · rw [toInt_of_mem (by omega) hq]
  · have hnegative : toInt q < 0 := by
      rw [toInt, Int.bmod_def]
      omega
    omega

end MachineInt
