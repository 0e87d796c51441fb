/-
A2PM/QuasiNewton.lean

The quasi-Newton method with the update of Broyden, Fletcher, Goldfarb and
Shanno of the inverse of the Hessian, over any field.

The lengths of the steps are given, and whether the matrix is replaced by a
multiple of the unit matrix before it is updated; what a line search does to
choose them does not matter here.  A coordinate that is 0, and whose derivative
is 0 wherever it is, is 0 after any number of steps (`run_apply_eq_zero`).
-/
import Mathlib.Algebra.Field.Basic
import Mathlib.Data.Matrix.Mul

namespace QuasiNewton

open Matrix

variable {K n : Type*} [Field K] [Fintype n] [DecidableEq n]

/-- The update, from the change `s` of the point and the change `y` of the
gradient. -/
def update (H : Matrix n n K) (s y : n → K) : Matrix n n K :=
  (1 - (y ⬝ᵥ s)⁻¹ • vecMulVec s y) * H * (1 - (y ⬝ᵥ s)⁻¹ • vecMulVec y s) +
    (y ⬝ᵥ s)⁻¹ • vecMulVec s s

/-- A point, and the matrix for the inverse of the Hessian. -/
structure Iterate (K n : Type*) where
  x : n → K
  H : Matrix n n K

/-- A step of length `t.1`; the matrix may be replaced by a multiple of the unit matrix before it
is updated. -/
def step (gradient : (n → K) → n → K) (it : Iterate K n) (t : K × Option K) : Iterate K n :=
  let x := it.x - t.1 • (it.H *ᵥ gradient it.x)
  let H := match t.2 with
    | some c => c • 1
    | none => it.H
  ⟨x, update H (x - it.x) (gradient x - gradient it.x)⟩

/-- Steps from a point, with the unit matrix at first. -/
def run (gradient : (n → K) → n → K) (x : n → K) (steps : List (K × Option K)) : n → K :=
  (steps.foldl (step gradient) ⟨x, 1⟩).x

variable {H : Matrix n n K} {s y : n → K} {i : n}

/-- Row `i` of the matrix is a multiple of that of the unit matrix. -/
def Apart (H : Matrix n n K) (i : n) : Prop := ∃ c : K, Pi.single i 1 ᵥ* H = c • Pi.single i 1

theorem apart_smul_one (c : K) (i : n) : Apart (c • (1 : Matrix n n K)) i :=
  ⟨c, by rw [vecMul_smul, vecMul_one]⟩

theorem Apart.mulVec_eq_zero (h : Apart H i) {g : n → K} (hg : g i = 0) : (H *ᵥ g) i = 0 := by
  obtain ⟨c, hc⟩ := h
  calc (H *ᵥ g) i = Pi.single i 1 ⬝ᵥ (H *ᵥ g) := by rw [single_dotProduct, one_mul]
    _ = (c • Pi.single i (1 : K)) ⬝ᵥ g := by rw [dotProduct_mulVec, hc]
    _ = 0 := by rw [smul_dotProduct, single_dotProduct, hg, mul_zero, smul_zero]

/-- A coordinate that does not change, nor its derivative. -/
theorem Apart.update (h : Apart H i) (hs : s i = 0) (hy : y i = 0) : Apart (update H s y) i := by
  obtain ⟨c, hc⟩ := h
  have hleft : Pi.single i 1 ᵥ* (1 - (y ⬝ᵥ s)⁻¹ • vecMulVec s y) = Pi.single i 1 := by
    rw [vecMul_sub, vecMul_one, vecMul_smul, vecMul_vecMulVec, single_dotProduct, hs, mul_zero,
      zero_smul, smul_zero, sub_zero]
  have hright : Pi.single i 1 ᵥ* (1 - (y ⬝ᵥ s)⁻¹ • vecMulVec y s) = Pi.single i 1 := by
    rw [vecMul_sub, vecMul_one, vecMul_smul, vecMul_vecMulVec, single_dotProduct, hy, mul_zero,
      zero_smul, smul_zero, sub_zero]
  have hlast : Pi.single i 1 ᵥ* ((y ⬝ᵥ s)⁻¹ • vecMulVec s s) = 0 := by
    rw [vecMul_smul, vecMul_vecMulVec, single_dotProduct, hs, mul_zero, zero_smul, smul_zero]
  refine ⟨c, ?_⟩
  rw [QuasiNewton.update, vecMul_add, hlast, add_zero, ← vecMul_vecMul, ← vecMul_vecMul, hleft, hc,
    smul_vecMul, hright]

variable {gradient : (n → K) → n → K}

/-- A step leaves the coordinate where it is. -/
theorem step_apart (hg : ∀ x, x i = 0 → gradient x i = 0) {it : Iterate K n} (hx : it.x i = 0)
    (hH : Apart it.H i) (t : K × Option K) :
    (step gradient it t).x i = 0 ∧ Apart (step gradient it t).H i := by
  have hmove : (it.x - t.1 • (it.H *ᵥ gradient it.x)) i = 0 := by
    rw [Pi.sub_apply, Pi.smul_apply, hH.mulVec_eq_zero (hg _ hx), hx, smul_zero, sub_zero]
  refine ⟨hmove, ?_⟩
  have hs : (it.x - t.1 • (it.H *ᵥ gradient it.x) - it.x) i = 0 := by
    rw [Pi.sub_apply, hmove, hx, sub_zero]
  have hy : (gradient (it.x - t.1 • (it.H *ᵥ gradient it.x)) - gradient it.x) i = 0 := by
    rw [Pi.sub_apply, hg _ hmove, hg _ hx, sub_zero]
  obtain ⟨t, scale⟩ := t
  cases scale with
  | some c => exact (apart_smul_one c i).update hs hy
  | none => exact hH.update hs hy

/-- **A coordinate at rest** stays there. -/
theorem run_apply_eq_zero (hg : ∀ x, x i = 0 → gradient x i = 0) {x : n → K} (hx : x i = 0)
    (steps : List (K × Option K)) : run gradient x steps i = 0 := by
  have hsteps (it : Iterate K n) (hit : it.x i = 0 ∧ Apart it.H i) :
      (steps.foldl (step gradient) it).x i = 0 := by
    induction steps generalizing it with
    | nil => exact hit.1
    | cons t steps ih => exact ih _ (step_apart hg hit.1 hit.2 t)
  refine hsteps ⟨x, 1⟩ ⟨hx, ?_⟩
  have hone := apart_smul_one (1 : K) i
  rwa [one_smul] at hone

end QuasiNewton
