/-
A2PM/LinearSolve.lean

The solution of a square system of linear equations over a field, by Cramer's
rule, so that it can be computed.

A system has one solution if its determinant is not zero (`solve_eq_iff`), which
is so if its quadratic form is positive (`det_ne_zero_of_pos`): in particular for
`Xᵀ * X` with something positive on its diagonal (`det_gram_add_diagonal`).
-/
import Mathlib.Algebra.Order.Field.Basic
import Mathlib.LinearAlgebra.Matrix.Adjugate
import Mathlib.LinearAlgebra.Matrix.ToLinearEquiv

namespace LinearSolve

open Matrix

variable {K m n : Type*} [Field K] [Fintype n] [DecidableEq n] {A B : Matrix n n K} {b x : n → K}

/-- The solution of `A x = b`.  Where `A` is singular it is 0, which other ways to solve a system
do not return there; whatever is proved with `A.det ≠ 0` does not depend on it. -/
def solve (A : Matrix n n K) (b : n → K) : n → K := A.det⁻¹ • A.cramer b

theorem mulVec_solve (h : A.det ≠ 0) (b : n → K) : A *ᵥ solve A b = b := by
  rw [solve, mulVec_smul, mulVec_cramer, smul_smul, inv_mul_cancel₀ h, one_smul]

theorem eq_of_mulVec_eq (h : A.det ≠ 0) {x y : n → K} (hxy : A *ᵥ x = A *ᵥ y) : x = y := by
  by_contra hne
  have hzero : A *ᵥ (x - y) = 0 := by rw [mulVec_sub, hxy, sub_self]
  exact h (exists_mulVec_eq_zero_iff.mp ⟨x - y, sub_ne_zero.mpr hne, hzero⟩)

/-- `solve` gives the solution. -/
theorem solve_eq_iff (h : A.det ≠ 0) : solve A b = x ↔ A *ᵥ x = b := by
  constructor
  · rintro rfl
    exact mulVec_solve h b
  · intro hx
    apply eq_of_mulVec_eq h
    rw [mulVec_solve h, hx]

/-! ### Positive forms -/

variable [LinearOrder K] [IsStrictOrderedRing K]

omit [IsStrictOrderedRing K] in
theorem det_ne_zero_of_pos (h : ∀ v, v ≠ 0 → 0 < v ⬝ᵥ (A *ᵥ v)) : A.det ≠ 0 := by
  intro hdet
  obtain ⟨v, hv, hzero⟩ := exists_mulVec_eq_zero_iff.mpr hdet
  have hpos := h v hv
  rw [hzero, dotProduct_zero] at hpos
  exact lt_irrefl 0 hpos

omit [LinearOrder K] [IsStrictOrderedRing K] in
theorem dotProduct_gram_add_diagonal [Fintype m] (X : Matrix m n K) (d v : n → K) :
    v ⬝ᵥ ((Xᵀ * X + diagonal d) *ᵥ v) = (X *ᵥ v) ⬝ᵥ (X *ᵥ v) + ∑ j, d j * (v j * v j) := by
  have hgram : v ⬝ᵥ ((Xᵀ * X) *ᵥ v) = (X *ᵥ v) ⬝ᵥ (X *ᵥ v) := by
    rw [← mulVec_mulVec, dotProduct_mulVec, vecMul_transpose]
  rw [add_mulVec, dotProduct_add, hgram]
  congr 1
  refine Finset.sum_congr rfl fun j _ => ?_
  rw [mulVec_diagonal]
  ring

theorem det_gram_add_diagonal [Fintype m] (X : Matrix m n K) {d : n → K} (hd : ∀ j, 0 < d j) :
    (Xᵀ * X + diagonal d).det ≠ 0 := by
  refine det_ne_zero_of_pos fun v hv => ?_
  rw [dotProduct_gram_add_diagonal]
  obtain ⟨j, hj⟩ := Function.ne_iff.mp hv
  refine add_pos_of_nonneg_of_pos (Finset.sum_nonneg fun i _ => mul_self_nonneg _) ?_
  refine Finset.sum_pos' (fun i _ => mul_nonneg (hd i).le (mul_self_nonneg _)) ?_
  exact ⟨j, Finset.mem_univ j, mul_pos (hd j) (mul_self_pos.mpr hj)⟩

end LinearSolve
