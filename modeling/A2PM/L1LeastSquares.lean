/-
A2PM/L1LeastSquares.lean

Least squares with a penalty on the absolute values of the weights, over any
ordered field.

`squares_add` expands the squares around a point.  From it come

* the convexity bound `objective_ge`, by which weights that are `Stationary`
  are a minimum, and weights that are so up to an error in each slope are near
  one (`objective_sub_le`);
* the exact minimum in one coordinate (`coordinateMin`), with what any other
  value costs (`objective_update_coordinateMin`), so that the minima are the
  weights that no coordinate step changes (`isMin_iff_coordinateMin`).
-/
import Mathlib.Algebra.Order.Field.Basic
import Mathlib.Data.Matrix.Mul
import Mathlib.Tactic.Linarith
import Mathlib.Tactic.Ring

namespace L1LeastSquares

open Matrix

variable {K m n : Type*} [Field K] [Fintype m]

/-! ### The squares -/

section Squares

variable [Fintype n]

/-- The sum of the squares of the residuals. -/
def squares (X : Matrix m n K) (y : m → K) (w : n → K) : K := ∑ i, ((X *ᵥ w) i - y i) ^ 2

/-- The gradient of the squares. -/
def slope (X : Matrix m n K) (y : m → K) (w : n → K) (j : n) : K :=
  2 * (Xᵀ *ᵥ (X *ᵥ w - y)) j

theorem squares_eq (X : Matrix m n K) (y : m → K) (w : n → K) :
    squares X y w = (X *ᵥ w - y) ⬝ᵥ (X *ᵥ w - y) := by
  refine Finset.sum_congr rfl fun i _ => ?_
  rw [sq]
  rfl

theorem slope_dotProduct (X : Matrix m n K) (y : m → K) (w d : n → K) :
    slope X y w ⬝ᵥ d = 2 * ((X *ᵥ w - y) ⬝ᵥ (X *ᵥ d)) := by
  have hslope : slope X y w = (2 : K) • (Xᵀ *ᵥ (X *ᵥ w - y)) := rfl
  rw [hslope, smul_dotProduct, mulVec_transpose, ← dotProduct_mulVec, smul_eq_mul]

/-- The squares around `w`. -/
theorem squares_add (X : Matrix m n K) (y : m → K) (w d : n → K) :
    squares X y (w + d) = squares X y w + slope X y w ⬝ᵥ d + (X *ᵥ d) ⬝ᵥ (X *ᵥ d) := by
  have hresidual : X *ᵥ (w + d) - y = (X *ᵥ w - y) + X *ᵥ d := by
    rw [mulVec_add, add_sub_right_comm]
  rw [squares_eq, squares_eq, hresidual, slope_dotProduct, add_dotProduct, dotProduct_add,
    dotProduct_add, dotProduct_comm (X *ᵥ d) (X *ᵥ w - y)]
  ring

end Squares

/-- The second derivatives of the squares. -/
def hessian (X : Matrix m n K) : Matrix n n K := (2 : K) • (Xᵀ * X)

theorem hessian_apply (X : Matrix m n K) (j k : n) : hessian X j k = 2 * ∑ i, X i j * X i k := rfl

section Slope

variable [Fintype n]

theorem slope_eq (X : Matrix m n K) (y : m → K) (w : n → K) :
    slope X y w = hessian X *ᵥ w - (2 : K) • (Xᵀ *ᵥ y) := by
  have hslope : slope X y w = (2 : K) • (Xᵀ *ᵥ (X *ᵥ w - y)) := rfl
  rw [hslope, hessian, mulVec_sub, smul_sub, smul_mulVec, mulVec_mulVec]

theorem slope_add (X : Matrix m n K) (y : m → K) (w d : n → K) :
    slope X y (w + d) = slope X y w + hessian X *ᵥ d := by
  rw [slope_eq, slope_eq, mulVec_add, add_sub_right_comm]

end Slope

variable [LinearOrder K]

/-! ### The penalty -/

section Objective

variable [Fintype n]

/-- The sum of the absolute values. -/
def norm1 (w : n → K) : K := ∑ j, |w j|

def objective (X : Matrix m n K) (y : m → K) (lambda : K) (w : n → K) : K :=
  squares X y w + lambda * norm1 w

/-- Weights that no other ones are better than. -/
def IsMin (X : Matrix m n K) (y : m → K) (lambda : K) (w : n → K) : Prop :=
  ∀ v, objective X y lambda w ≤ objective X y lambda v

end Objective

/-- The slope `g` leaves the weight `t` where it is. -/
def Balanced (lambda g t : K) : Prop := |g| ≤ lambda ∧ g * t = -(lambda * |t|)

/-- No slope asks for a change. -/
def Stationary [Fintype n] (X : Matrix m n K) (y : m → K) (lambda : K) (w : n → K) : Prop :=
  ∀ j, Balanced lambda (slope X y w j) (w j)

/-- The minimum of `h / 2 * t ^ 2 + s * t + lambda * |t|`. -/
def threshold (lambda s h : K) : K :=
  if lambda < s then (lambda - s) / h else if s < -lambda then (-lambda - s) / h else 0

variable [IsStrictOrderedRing K]
variable {X : Matrix m n K} {y : m → K} {lambda : K}

theorem dotProduct_self_nonneg (e : m → K) : 0 ≤ e ⬝ᵥ e :=
  Finset.sum_nonneg fun _ _ => mul_self_nonneg _

theorem hessian_self_nonneg (X : Matrix m n K) (j : n) : 0 ≤ hessian X j j := by
  rw [hessian_apply]
  exact mul_nonneg zero_le_two (Finset.sum_nonneg fun i _ => mul_self_nonneg _)

/-- A column without curvature is zero. -/
theorem column_eq_zero {j : n} (h : hessian X j j = 0) (i : m) : X i j = 0 := by
  rw [hessian_apply] at h
  have hsum : ∑ i, X i j * X i j = 0 := (mul_eq_zero.mp h).resolve_left two_ne_zero
  have hterm := (Finset.sum_eq_zero_iff_of_nonneg fun i _ => mul_self_nonneg (X i j)).mp hsum
  exact mul_self_eq_zero.mp (hterm i (Finset.mem_univ i))

variable [Fintype n] {v w d : n → K}

theorem slope_eq_zero {j : n} (h : hessian X j j = 0) : slope X y w j = 0 := by
  have hcolumn : (Xᵀ *ᵥ (X *ᵥ w - y)) j = 0 := by
    refine Finset.sum_eq_zero fun i _ => ?_
    show X i j * _ = 0
    rw [column_eq_zero h i, zero_mul]
  rw [slope, hcolumn, mul_zero]

theorem squares_nonneg (X : Matrix m n K) (y : m → K) (w : n → K) : 0 ≤ squares X y w :=
  Finset.sum_nonneg fun _ _ => sq_nonneg _

theorem norm1_nonneg (w : n → K) : 0 ≤ norm1 w := Finset.sum_nonneg fun _ _ => abs_nonneg _

theorem abs_le_norm1 (w : n → K) (j : n) : |w j| ≤ norm1 w :=
  Finset.single_le_sum (fun i _ => abs_nonneg (w i)) (Finset.mem_univ j)

theorem norm1_sub_le (v w : n → K) : norm1 (v - w) ≤ norm1 v + norm1 w := by
  rw [norm1, norm1, norm1, ← Finset.sum_add_distrib]
  exact Finset.sum_le_sum fun j _ => abs_sub _ _

theorem mul_norm1_le_objective (X : Matrix m n K) (y : m → K) (lambda : K) (w : n → K) :
    lambda * norm1 w ≤ objective X y lambda w :=
  le_add_of_nonneg_left (squares_nonneg X y w)

/-- What a matrix makes of small changes. -/
theorem abs_mulVec_le {A : Matrix n n K} {M : K} {j : n} (hM : ∀ k, |A j k| ≤ M) (d : n → K) :
    |(A *ᵥ d) j| ≤ M * norm1 d := by
  rw [norm1, Finset.mul_sum]
  calc |(A *ᵥ d) j| ≤ ∑ k, |A j k * d k| := Finset.abs_sum_le_sum_abs _ _
    _ ≤ ∑ k, M * |d k| := Finset.sum_le_sum fun k _ => by
        rw [abs_mul]
        exact mul_le_mul_of_nonneg_right (hM k) (abs_nonneg _)

theorem objective_nonneg (hlambda : 0 ≤ lambda) (w : n → K) : 0 ≤ objective X y lambda w :=
  add_nonneg (squares_nonneg X y w) (mul_nonneg hlambda (norm1_nonneg w))

/-! ### The convexity bound -/

theorem objective_ge (X : Matrix m n K) (y : m → K) (lambda : K) (w v : n → K) :
    objective X y lambda w +
        ∑ j, (slope X y w j * (v j - w j) + lambda * (|v j| - |w j|)) ≤
      objective X y lambda v := by
  have hv : v = w + (v - w) := (add_sub_cancel w v).symm
  have hsquares : squares X y w + slope X y w ⬝ᵥ (v - w) ≤ squares X y v := by
    calc squares X y w + slope X y w ⬝ᵥ (v - w)
        ≤ squares X y w + slope X y w ⬝ᵥ (v - w) + (X *ᵥ (v - w)) ⬝ᵥ (X *ᵥ (v - w)) :=
          le_add_of_nonneg_right (dotProduct_self_nonneg _)
      _ = squares X y (w + (v - w)) := (squares_add X y w (v - w)).symm
      _ = squares X y v := by rw [← hv]
  have hnorm : ∑ j, lambda * (|v j| - |w j|) = lambda * norm1 v - lambda * norm1 w := by
    rw [← Finset.mul_sum, Finset.sum_sub_distrib, mul_sub]
    rfl
  rw [Finset.sum_add_distrib, hnorm, objective, objective]
  have hdot : ∑ j, slope X y w j * (v j - w j) = slope X y w ⬝ᵥ (v - w) := rfl
  rw [hdot]
  linarith

theorem Balanced.nonneg {g t : K} (h : Balanced lambda g t) (u : K) :
    0 ≤ g * (u - t) + lambda * (|u| - |t|) := by
  have hu : -(lambda * |u|) ≤ g * u := by
    calc -(lambda * |u|) ≤ -(|g| * |u|) :=
          neg_le_neg (mul_le_mul_of_nonneg_right h.1 (abs_nonneg u))
      _ = -|g * u| := by rw [abs_mul]
      _ ≤ g * u := neg_abs_le _
  have ht := h.2
  linarith [mul_sub g u t, mul_sub lambda |u| |t|]

/-- A slope that is off by `e` at the most. -/
theorem Balanced.ge {g g' t e : K} (h : Balanced lambda g t) (he : |g' - g| ≤ e) (u : K) :
    -(e * |u - t|) ≤ g' * (u - t) + lambda * (|u| - |t|) := by
  have hoff : -(e * |u - t|) ≤ (g' - g) * (u - t) := by
    calc -(e * |u - t|) ≤ -(|g' - g| * |u - t|) :=
          neg_le_neg (mul_le_mul_of_nonneg_right he (abs_nonneg _))
      _ = -|(g' - g) * (u - t)| := by rw [abs_mul]
      _ ≤ (g' - g) * (u - t) := neg_abs_le _
  linarith [h.nonneg u, sub_mul g' g (u - t)]

/-- **Near a minimum.**  Weights whose slopes are off by `e` at the most, where
the others differ from them. -/
theorem objective_sub_le {e : K}
    (h : ∀ j, v j ≠ w j → ∃ g, Balanced lambda g (w j) ∧ |slope X y w j - g| ≤ e) :
    objective X y lambda w - objective X y lambda v ≤ e * norm1 (v - w) := by
  have hsum : -(e * norm1 (v - w)) ≤
      ∑ j, (slope X y w j * (v j - w j) + lambda * (|v j| - |w j|)) := by
    rw [norm1, Finset.mul_sum, ← Finset.sum_neg_distrib]
    refine Finset.sum_le_sum fun j _ => ?_
    rcases eq_or_ne (v j) (w j) with heq | hne
    · rw [Pi.sub_apply, heq, sub_self, sub_self, abs_zero, mul_zero, mul_zero, mul_zero, add_zero,
        neg_zero]
    · obtain ⟨g, hg, he⟩ := h j hne
      exact hg.ge he (v j)
  linarith [objective_ge X y lambda w v]

/-- No weights are better that differ from `w` only where it is balanced. -/
theorem objective_le_of_balanced (h : ∀ j, v j ≠ w j → Balanced lambda (slope X y w j) (w j)) :
    objective X y lambda w ≤ objective X y lambda v := by
  have hle := objective_sub_le (e := 0) fun j hj =>
    ⟨_, h j hj, by rw [sub_self, abs_zero]⟩
  rw [zero_mul] at hle
  exact sub_nonpos.mp hle

/-- A stationary point is a minimum. -/
theorem Stationary.isMin (h : Stationary X y lambda w) : IsMin X y lambda w := fun _ =>
  objective_le_of_balanced fun j _ => h j

/-! ### One coordinate -/

omit [Fintype n] in
/-- The slope at the threshold is balanced. -/
theorem balanced_threshold {s h : K} (hlambda : 0 ≤ lambda) (hh : 0 ≤ h)
    (hzero : h = 0 → |s| ≤ lambda) :
    Balanced lambda (h * threshold lambda s h + s) (threshold lambda s h) := by
  have hpos (hs : lambda < |s|) : 0 < h :=
    lt_of_le_of_ne hh fun heq => absurd (hzero heq.symm) hs.not_ge
  rw [threshold]
  split
  next hs =>
    have h0 : 0 < h := hpos (hs.trans_le (le_abs_self s))
    have ht : (lambda - s) / h ≤ 0 := div_nonpos_of_nonpos_of_nonneg (by linarith) hh
    rw [mul_div_cancel₀ _ h0.ne', sub_add_cancel]
    refine ⟨(abs_of_nonneg hlambda).le, ?_⟩
    rw [abs_of_nonpos ht, mul_neg, neg_neg]
  next hs =>
    split
    next hs' =>
      have h0 : 0 < h := hpos (lt_abs.mpr (.inr (by linarith)))
      have ht : 0 ≤ (-lambda - s) / h := div_nonneg (by linarith) hh
      rw [mul_div_cancel₀ _ h0.ne', sub_add_cancel]
      refine ⟨by rw [abs_neg, abs_of_nonneg hlambda], ?_⟩
      rw [abs_of_nonneg ht, neg_mul]
    next hs' =>
      refine ⟨?_, by rw [mul_zero, abs_zero, mul_zero, neg_zero]⟩
      rw [mul_zero, zero_add]
      exact abs_le.mpr ⟨not_lt.mp hs', not_lt.mp hs⟩

variable [DecidableEq n]

omit [IsStrictOrderedRing K] [LinearOrder K] [Fintype n] in
theorem update_eq_add (w : n → K) (j : n) (t : K) :
    Function.update w j t = w + Pi.single j (t - w j) := by
  funext k
  rcases eq_or_ne k j with rfl | hk
  · rw [Function.update_self, Pi.add_apply, Pi.single_eq_same, add_sub_cancel]
  · rw [Function.update_of_ne hk, Pi.add_apply, Pi.single_eq_of_ne hk, add_zero]

/-- The objective where one weight is set to `t`. -/
theorem objective_update (X : Matrix m n K) (y : m → K) (lambda : K) (w : n → K) (j : n) (t : K) :
    objective X y lambda (Function.update w j t) =
      objective X y lambda w + slope X y w j * (t - w j) + hessian X j j / 2 * (t - w j) ^ 2 +
        lambda * (|t| - |w j|) := by
  have hentry (i : m) : (X *ᵥ Pi.single j (t - w j)) i = X i j * (t - w j) := by
    rw [mulVec_single]
    rfl
  have hsquares : squares X y (Function.update w j t) =
      squares X y w + slope X y w j * (t - w j) + hessian X j j / 2 * (t - w j) ^ 2 := by
    have hcolumn : (X *ᵥ Pi.single j (t - w j)) ⬝ᵥ (X *ᵥ Pi.single j (t - w j)) =
        hessian X j j / 2 * (t - w j) ^ 2 := by
      rw [hessian_apply, mul_div_cancel_left₀ _ two_ne_zero, Finset.sum_mul]
      refine Finset.sum_congr rfl fun i _ => ?_
      rw [hentry]
      ring
    rw [update_eq_add, squares_add, dotProduct_single, hcolumn]
  have hnorm : norm1 (Function.update w j t) = norm1 w + (|t| - |w j|) := by
    have hrest : ∑ k ∈ Finset.univ.erase j, |Function.update w j t k| =
        ∑ k ∈ Finset.univ.erase j, |w k| :=
      Finset.sum_congr rfl fun k hk => by
        rw [Function.update_of_ne (Finset.ne_of_mem_erase hk)]
    rw [norm1, norm1, ← Finset.add_sum_erase _ _ (Finset.mem_univ j),
      ← Finset.add_sum_erase _ _ (Finset.mem_univ j), hrest, Function.update_self]
    ring
  rw [objective, objective, hsquares, hnorm]
  ring

/-- The weight `j` that the other ones call for. -/
def coordinateMin (X : Matrix m n K) (y : m → K) (lambda : K) (w : n → K) (j : n) : K :=
  threshold lambda (slope X y w j - hessian X j j * w j) (hessian X j j)

omit [IsStrictOrderedRing K] [LinearOrder K] in
theorem slope_update (X : Matrix m n K) (y : m → K) (w : n → K) (j k : n) (t : K) :
    slope X y (Function.update w j t) k = slope X y w k + hessian X k j * (t - w j) := by
  rw [update_eq_add, slope_add, Pi.add_apply, mulVec_single]
  rfl

/-- **A coordinate step.**  The slope of the new weight is balanced. -/
theorem balanced_coordinateMin (hlambda : 0 ≤ lambda) (w : n → K) (j : n) :
    Balanced lambda (slope X y (Function.update w j (coordinateMin X y lambda w j)) j)
      (coordinateMin X y lambda w j) := by
  have hslope : slope X y (Function.update w j (coordinateMin X y lambda w j)) j =
      hessian X j j * coordinateMin X y lambda w j + (slope X y w j - hessian X j j * w j) := by
    rw [slope_update]
    ring
  rw [hslope]
  refine balanced_threshold hlambda (hessian_self_nonneg X j) fun hzero => ?_
  rw [slope_eq_zero hzero, hzero, zero_mul, sub_zero, abs_zero]
  exact hlambda

/-- What any other value of the weight costs. -/
theorem objective_update_coordinateMin (hlambda : 0 ≤ lambda) (w : n → K) (j : n) (u : K) :
    objective X y lambda (Function.update w j (coordinateMin X y lambda w j)) +
        hessian X j j / 2 * (u - coordinateMin X y lambda w j) ^ 2 ≤
      objective X y lambda (Function.update w j u) := by
  have hnonneg := (balanced_coordinateMin (y := y) (X := X) hlambda w j).nonneg u
  have hu : Function.update w j u =
      Function.update (Function.update w j (coordinateMin X y lambda w j)) j u :=
    (Function.update_idem _ _ _).symm
  rw [hu, objective_update X y lambda (Function.update w j _) j u, Function.update_self]
  linarith

omit [DecidableEq n] in
theorem coordinateMin_of_hessian_eq_zero {j : n} (hlambda : 0 ≤ lambda)
    (h : hessian X j j = 0) : coordinateMin X y lambda w j = 0 := by
  rw [coordinateMin, slope_eq_zero h, h, zero_mul, sub_zero, threshold, if_neg hlambda.not_gt,
    if_neg (neg_nonpos.mpr hlambda).not_gt]

/-- A coordinate step that does not make the weights better leaves them as they
are; a column of zeros needs a penalty for that. -/
theorem coordinateMin_eq_of_le {j : n} (hlambda : 0 ≤ lambda)
    (hzero : hessian X j j = 0 → 0 < lambda)
    (hle : objective X y lambda w ≤
      objective X y lambda (Function.update w j (coordinateMin X y lambda w j))) :
    coordinateMin X y lambda w j = w j := by
  have hcost := objective_update_coordinateMin (X := X) (y := y) hlambda w j (w j)
  rw [Function.update_eq_self] at hcost
  rcases (hessian_self_nonneg X j).eq_or_lt with hj | hj
  · -- the penalty alone decides
    have ht : coordinateMin X y lambda w j = 0 := coordinateMin_of_hessian_eq_zero hlambda hj.symm
    rw [objective_update, slope_eq_zero hj.symm, ← hj, ht, abs_zero] at hle
    have hpenalty : lambda * |w j| ≤ 0 := by linarith
    have habs : |w j| ≤ 0 := nonpos_of_mul_nonpos_right hpenalty (hzero hj.symm)
    rw [ht]
    exact (abs_nonpos_iff.mp habs).symm
  · have hcurve : hessian X j j / 2 * (w j - coordinateMin X y lambda w j) ^ 2 ≤ 0 := by linarith
    have hsq := nonpos_of_mul_nonpos_right hcurve (half_pos hj)
    exact (sub_eq_zero.mp (pow_eq_zero_iff two_ne_zero |>.mp
      (le_antisymm hsq (sq_nonneg _)))).symm

theorem balanced_of_coordinateMin_eq {j : n} (hlambda : 0 ≤ lambda)
    (h : coordinateMin X y lambda w j = w j) : Balanced lambda (slope X y w j) (w j) := by
  have hbalanced := balanced_coordinateMin (X := X) (y := y) hlambda w j
  rw [h, Function.update_eq_self] at hbalanced
  exact hbalanced

/-- **The minima** are the weights that no coordinate step changes. -/
theorem isMin_iff_coordinateMin (hlambda : 0 ≤ lambda)
    (hzero : ∀ j, hessian X j j = 0 → 0 < lambda) :
    IsMin X y lambda w ↔ ∀ j, coordinateMin X y lambda w j = w j := by
  constructor
  · exact fun hmin j => coordinateMin_eq_of_le hlambda (hzero j) (hmin _)
  · exact fun h => Stationary.isMin fun j => balanced_of_coordinateMin_eq hlambda (h j)

theorem isMin_iff_stationary (hlambda : 0 ≤ lambda)
    (hzero : ∀ j, hessian X j j = 0 → 0 < lambda) :
    IsMin X y lambda w ↔ Stationary X y lambda w := by
  refine ⟨fun hmin j => ?_, Stationary.isMin⟩
  exact balanced_of_coordinateMin_eq hlambda ((isMin_iff_coordinateMin hlambda hzero).mp hmin j)

/-! ### A reweighted ridge -/

omit [Fintype n] [DecidableEq n] in
/-- `|u|` is below `(u ^ 2 / |t| + |t|) / 2`. -/
theorem reweighted_term (hlambda : 0 ≤ lambda) {g t u : K} (ht : t ≠ 0)
    (hg : g * |t| = -(lambda * u)) :
    lambda / 2 * ((t - u) ^ 2 / |t|) ≤ g * (t - u) + lambda * (|t| - |u|) := by
  have habs : 0 < |t| := abs_pos.mpr ht
  refine le_of_mul_le_mul_right ?_ habs
  have hleft : lambda / 2 * ((t - u) ^ 2 / |t|) * |t| = lambda / 2 * (t - u) ^ 2 := by
    rw [mul_assoc, div_mul_cancel₀ _ habs.ne']
  have hright : (g * (t - u) + lambda * (|t| - |u|)) * |t| =
      -(lambda * u) * (t - u) + lambda * (|t| ^ 2 - |u| * |t|) := by
    rw [← hg]
    ring
  have hgap : lambda / 2 * (|t| - |u|) ^ 2 = -(lambda * u) * (t - u) +
      lambda * (|t| ^ 2 - |u| * |t|) - lambda / 2 * (t - u) ^ 2 := by
    have hu : |u| ^ 2 = u ^ 2 := sq_abs u
    have ht : |t| ^ 2 = t ^ 2 := sq_abs t
    rw [sub_sq, hu, ht]
    ring
  rw [hleft, hright, ← sub_nonneg, ← hgap]
  exact mul_nonneg (div_nonneg hlambda zero_le_two) (sq_nonneg _)

omit [DecidableEq n] in
/-- **A reweighted ridge** is better than the weights `v` that it has been weighted
with: `w` is the minimum of the squares with the penalty `w j ^ 2 / |v j|`, among
the weights that are 0 where `v` is. -/
theorem objective_reweighted (hlambda : 0 ≤ lambda)
    (h : ∀ j, v j ≠ 0 → slope X y w j * |v j| = -(lambda * w j))
    (hzero : ∀ j, v j = 0 → w j = 0) :
    objective X y lambda w + ∑ j, lambda / 2 * ((v j - w j) ^ 2 / |v j|) ≤
      objective X y lambda v := by
  have hsum : ∑ j, lambda / 2 * ((v j - w j) ^ 2 / |v j|) ≤
      ∑ j, (slope X y w j * (v j - w j) + lambda * (|v j| - |w j|)) := by
    refine Finset.sum_le_sum fun j _ => ?_
    by_cases hv : v j = 0
    · rw [hv, hzero j hv, sub_self, abs_zero, sub_self, zero_pow two_ne_zero, zero_div, mul_zero,
        mul_zero, mul_zero, add_zero]
    · exact reweighted_term hlambda hv (h j hv)
  linarith [objective_ge X y lambda w v]

end L1LeastSquares
