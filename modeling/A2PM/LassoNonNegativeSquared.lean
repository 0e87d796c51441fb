/-
A2PM/LassoNonNegativeSquared.lean

`LassoNonNegativeSquared` of `model_build/lasso`, one of the methods between
which `lasso.m` chooses, in exact arithmetic.

A weight is the difference of two squares, which have no constraint.  The
conversion is sound: where the gradient is 0 and the Hessian is not negative,
the weights are a minimum (`secondOrder_iff`).  But half of the variables start
at 0, where their derivatives are 0, and the quasi-Newton method that is used by
default never leaves such a place: no weight gets another sign than the one that
it has in the ridge regression (`lassoNonNegativeSquared_sign`).

`sqrt` and `fminunc` are parameters.
-/
import A2PM.LassoShooting
import A2PM.QuasiNewton
import Mathlib.Data.Matrix.ColumnRowPartitioned

namespace A2PM.Lasso

open Matrix L1LeastSquares

variable {K : Type*} [Field K] [LinearOrder K] {n p : ℕ}

/-! ### The function -/

section Definitions

/-- `nonNegativeSquaredLasso`: the value, the gradient and the Hessian. -/
def nonNegativeSquaredLasso {ι : Type*} [Fintype ι] [DecidableEq ι] (XX : Matrix ι ι K)
    (Xy2 : ι → K) (yy lambda : K) (w : ι → K) : K × (ι → K) × Matrix ι ι K :=
  let w2 := fun i => w i ^ 2
  let q := fun i => (2 : ℕ) * (XX *ᵥ w2) i - Xy2 i
  ((w2 ⬝ᵥ (XX *ᵥ w2) - w2 ⬝ᵥ Xy2 + yy) + lambda * ∑ i, w2 i,
    fun i => (2 : ℕ) * w i * q i + (2 : ℕ) * lambda * w i,
    (4 : ℕ) • (diagonal w * ((2 : ℕ) • XX) * diagonal w) + (2 : ℕ) • diagonal q +
      diagonal fun _ => (2 : ℕ) * lambda)

/-- `fminunc`, from a function with its gradient and its Hessian and from the point
to start at: the point that it ends at, and the number of evaluations. -/
abbrev Fminunc (K ι : Type*) : Type _ :=
  ((ι → K) → K × (ι → K) × Matrix ι ι K) → (ι → K) → (ι → K) × ℕ

variable (sqrt : K → K)

/-- `w(1:p,1)` and `w(p+1:2*p,1)`. -/
def squaredStart (wFull : Fin p → K) : Fin p ⊕ Fin p → K :=
  Sum.elim (fun j => sqrt (wFull j * if 0 ≤ wFull j then 1 else 0))
    fun j => sqrt (-wFull j * if wFull j < 0 then 1 else 0)

/-- `w(1:p).^2 - w(p+1:2*p).^2`. -/
def difference (w : Fin p ⊕ Fin p → K) (j : Fin p) : K := w (.inl j) ^ 2 - w (.inr j) ^ 2

variable (X : Matrix (Fin n) (Fin p) K) (y : Fin n → K) (lambda : K)

/-- The function that `fminunc` is called for, with `[X -X]` for `X`. -/
def squaredLasso : (Fin p ⊕ Fin p → K) →
    K × (Fin p ⊕ Fin p → K) × Matrix (Fin p ⊕ Fin p) (Fin p ⊕ Fin p) K :=
  nonNegativeSquaredLasso ((fromCols X (-X))ᵀ * fromCols X (-X))
    (fun i => ((fromCols X (-X))ᵀ *ᵥ y) i * (2 : ℕ)) (y ⬝ᵥ y) lambda

variable (fminunc : Fminunc K (Fin p ⊕ Fin p)) (zeroThreshold : K)

/-- The weights, and the number of evaluations. -/
def lassoNonNegativeSquared : (Fin p → K) × ℕ :=
  let r := fminunc (squaredLasso X y lambda) (squaredStart sqrt (ridge X y lambda))
  let w := difference r.1
  (fun j => if |w j| ≤ zeroThreshold then 0 else w j, r.2)

/-- The gradient is 0, and the Hessian is not negative. -/
def SecondOrder (w : Fin p ⊕ Fin p → K) : Prop :=
  (squaredLasso X y lambda w).2.1 = 0 ∧ ∀ d, 0 ≤ d ⬝ᵥ ((squaredLasso X y lambda w).2.2 *ᵥ d)

end Definitions

variable {X : Matrix (Fin n) (Fin p) K} {y : Fin n → K} {lambda : K} {w : Fin p ⊕ Fin p → K}

/-! ### The derivatives -/

omit [LinearOrder K] in
theorem fromCols_mulVec_sq (w : Fin p ⊕ Fin p → K) :
    fromCols X (-X) *ᵥ (fun i => w i ^ 2) = X *ᵥ difference w := by
  rw [fromCols_mulVec, neg_mulVec, ← sub_eq_add_neg, ← mulVec_sub]
  rfl

/-- The slope of a variable's square. -/
def squareSlope (X : Matrix (Fin n) (Fin p) K) (y : Fin n → K) (w : Fin p ⊕ Fin p → K) :
    Fin p ⊕ Fin p → K :=
  Sum.elim (slope X y (difference w)) fun j => -slope X y (difference w) j

omit [LinearOrder K] in
theorem squareSlope_eq (w : Fin p ⊕ Fin p → K) (i : Fin p ⊕ Fin p) :
    (2 : ℕ) * (((fromCols X (-X))ᵀ * fromCols X (-X)) *ᵥ fun i => w i ^ 2) i -
      ((fromCols X (-X))ᵀ *ᵥ y) i * (2 : ℕ) = squareSlope X y w i := by
  rw [← mulVec_mulVec, fromCols_mulVec_sq, mul_comm _ ((2 : ℕ) : K), ← mul_sub, Nat.cast_ofNat]
  cases i with
  | inl j =>
      show _ = 2 * (Xᵀ *ᵥ (X *ᵥ difference w - y)) j
      rw [mulVec_sub]
      rfl
  | inr j =>
      show _ = -(2 * (Xᵀ *ᵥ (X *ᵥ difference w - y)) j)
      have hcolumn (e : Fin n → K) : ((fromCols X (-X))ᵀ *ᵥ e) (.inr j) = -(Xᵀ *ᵥ e) j :=
        neg_dotProduct _ _
      rw [hcolumn, hcolumn, mulVec_sub, Pi.sub_apply]
      ring

omit [LinearOrder K] in
theorem squaredLasso_gradient (w : Fin p ⊕ Fin p → K) (i : Fin p ⊕ Fin p) :
    (squaredLasso X y lambda w).2.1 i = 2 * w i * (squareSlope X y w i + lambda) := by
  rw [← squareSlope_eq]
  show (2 : ℕ) * w i * _ + (2 : ℕ) * lambda * w i = _
  rw [Nat.cast_ofNat]
  ring

omit [LinearOrder K] in
/-- The Hessian as a form. -/
theorem squaredLasso_hessian (w d : Fin p ⊕ Fin p → K) :
    d ⬝ᵥ ((squaredLasso X y lambda w).2.2 *ᵥ d) =
      8 * ((fromCols X (-X) *ᵥ (w * d)) ⬝ᵥ (fromCols X (-X) *ᵥ (w * d))) +
        2 * ∑ i, (squareSlope X y w i + lambda) * d i ^ 2 := by
  have hscale : diagonal w *ᵥ d = w * d := funext fun i => mulVec_diagonal w d i
  have hform : d ⬝ᵥ ((diagonal w * ((2 : ℕ) • ((fromCols X (-X))ᵀ * fromCols X (-X))) *
      diagonal w) *ᵥ d) =
      2 * ((fromCols X (-X) *ᵥ (w * d)) ⬝ᵥ (fromCols X (-X) *ᵥ (w * d))) := by
    have hleft : d ᵥ* diagonal w = w * d := by
      rw [← hscale, ← mulVec_transpose, diagonal_transpose]
    rw [← mulVec_mulVec, ← mulVec_mulVec, hscale, dotProduct_mulVec, hleft, smul_mulVec,
      dotProduct_smul, ← mulVec_mulVec, dotProduct_mulVec, vecMul_transpose, nsmul_eq_mul,
      Nat.cast_ofNat]
  have hdiagonal (v : Fin p ⊕ Fin p → K) : d ⬝ᵥ (diagonal v *ᵥ d) = ∑ i, v i * d i ^ 2 := by
    refine Finset.sum_congr rfl fun i _ => ?_
    rw [mulVec_diagonal]
    ring
  have hhessian : (squaredLasso X y lambda w).2.2 =
      (4 : ℕ) • (diagonal w * ((2 : ℕ) • ((fromCols X (-X))ᵀ * fromCols X (-X))) * diagonal w) +
        (2 : ℕ) • diagonal (squareSlope X y w) + diagonal fun _ => (2 : ℕ) * lambda := by
    rw [← funext (squareSlope_eq (X := X) (y := y) w)]
    rfl
  have hsum : ∑ i, (squareSlope X y w i + lambda) * d i ^ 2 =
      ∑ i, squareSlope X y w i * d i ^ 2 + lambda * ∑ i, d i ^ 2 := by
    rw [Finset.mul_sum, ← Finset.sum_add_distrib]
    exact Finset.sum_congr rfl fun i _ => add_mul _ _ _
  rw [hhessian, add_mulVec, add_mulVec, dotProduct_add, dotProduct_add, smul_mulVec,
    dotProduct_smul, hform, smul_mulVec, dotProduct_smul, hdiagonal, hdiagonal, nsmul_eq_mul,
    nsmul_eq_mul, hsum, ← Finset.mul_sum, Nat.cast_ofNat, Nat.cast_ofNat]
  ring

variable [IsStrictOrderedRing K]

/-! ### Second-order points -/

/-- The conditions, variable by variable. -/
theorem secondOrder_iff_forall : SecondOrder X y lambda w ↔
    ∀ i, -lambda ≤ squareSlope X y w i ∧ (w i ≠ 0 → squareSlope X y w i = -lambda) := by
  have hgradient (i : Fin p ⊕ Fin p) : (squaredLasso X y lambda w).2.1 i = 0 ↔
      (w i ≠ 0 → squareSlope X y w i = -lambda) := by
    rw [squaredLasso_gradient, mul_eq_zero, mul_eq_zero, or_iff_right two_ne_zero,
      or_iff_not_imp_left, add_eq_zero_iff_eq_neg]
  constructor
  · rintro ⟨hzero, hhessian⟩ i
    have hslope := (hgradient i).mp (congrFun hzero i)
    refine ⟨?_, hslope⟩
    by_cases hi : w i = 0
    · -- the second derivative in this variable
      have h := hhessian (Pi.single i 1)
      have hmove : w * Pi.single i (1 : K) = 0 := by
        funext k
        rcases eq_or_ne k i with rfl | hk
        · exact mul_eq_zero_of_left hi _
        · exact mul_eq_zero_of_right _ (Pi.single_eq_of_ne hk 1)
      have hsum : ∑ k, (squareSlope X y w k + lambda) * (Pi.single i (1 : K) : _ → K) k ^ 2 =
          squareSlope X y w i + lambda := by
        rw [Finset.sum_eq_single i]
        · rw [Pi.single_eq_same, one_pow, mul_one]
        · intro k _ hk
          rw [Pi.single_eq_of_ne hk, zero_pow two_ne_zero, mul_zero]
        · exact fun hnot => absurd (Finset.mem_univ i) hnot
      rw [squaredLasso_hessian, hmove, mulVec_zero, dotProduct_zero, mul_zero, zero_add, hsum] at h
      linarith
    · exact (hslope hi).ge
  · intro h
    refine ⟨funext fun i => (hgradient i).mpr (h i).2, fun d => ?_⟩
    rw [squaredLasso_hessian]
    refine add_nonneg (mul_nonneg (by norm_num) (dotProduct_self_nonneg _)) (mul_nonneg zero_le_two ?_)
    refine Finset.sum_nonneg fun i _ => mul_nonneg ?_ (sq_nonneg _)
    linarith [(h i).1]

/-- A weight that is the difference of two squares, of which only one is not 0. -/
theorem balanced_sq_sub_sq_iff (hlambda : 0 < lambda) {g u v : K} :
    (-lambda ≤ g ∧ (u ≠ 0 → g = -lambda)) ∧ (-lambda ≤ -g ∧ (v ≠ 0 → -g = -lambda)) ↔
      Balanced lambda g (u ^ 2 - v ^ 2) ∧ (u = 0 ∨ v = 0) := by
  constructor
  · rintro ⟨⟨hlow, hu⟩, hhigh, hv⟩
    have habs : |g| ≤ lambda := abs_le.mpr ⟨hlow, neg_le_neg_iff.mp hhigh⟩
    by_cases hu₀ : u = 0
    · refine ⟨⟨habs, ?_⟩, .inl hu₀⟩
      rw [hu₀, zero_pow two_ne_zero, zero_sub, abs_neg, abs_of_nonneg (sq_nonneg v)]
      by_cases hv₀ : v = 0
      · rw [hv₀, zero_pow two_ne_zero, neg_zero, mul_zero, mul_zero, neg_zero]
      · rw [neg_inj.mp (hv hv₀), mul_neg]
    · have hv₀ : v = 0 := by
        by_contra hne
        have hsame := neg_inj.mp (hv hne)
        rw [hu hu₀] at hsame
        linarith
      refine ⟨⟨habs, ?_⟩, .inr hv₀⟩
      rw [hv₀, zero_pow two_ne_zero, sub_zero, hu hu₀, abs_of_nonneg (sq_nonneg u), neg_mul]
  · rintro ⟨⟨habs, hg⟩, hzero⟩
    obtain ⟨hlow, hhigh⟩ := abs_le.mp habs
    refine ⟨⟨hlow, fun hu => ?_⟩, neg_le_neg hhigh, fun hv => ?_⟩
    · have hv := hzero.resolve_left hu
      rw [hv, zero_pow two_ne_zero, sub_zero, abs_of_nonneg (sq_nonneg u), ← neg_mul] at hg
      exact mul_right_cancel₀ (pow_ne_zero 2 hu) hg
    · have hu := hzero.resolve_right hv
      rw [hu, zero_pow two_ne_zero, zero_sub, abs_neg, abs_of_nonneg (sq_nonneg v), mul_neg] at hg
      exact congrArg Neg.neg (mul_right_cancel₀ (pow_ne_zero 2 hv) (neg_inj.mp hg))

/-- **Second-order points** are the minima, each weight written as one square. -/
theorem secondOrder_iff (hlambda : 0 < lambda) : SecondOrder X y lambda w ↔
    IsMin X y lambda (difference w) ∧ ∀ j, w (.inl j) = 0 ∨ w (.inr j) = 0 := by
  rw [secondOrder_iff_forall, Sum.forall, ← forall_and,
    isMin_iff_stationary hlambda.le fun _ _ => hlambda, Stationary, ← forall_and]
  exact forall_congr' fun j => balanced_sq_sub_sq_iff hlambda

/-! ### The signs -/

/-- `fminunc` with `LargeScale` off is a quasi-Newton method. -/
def IsQuasiNewton (X : Matrix (Fin n) (Fin p) K) (y : Fin n → K) (lambda : K) (fminunc : Fminunc K (Fin p ⊕ Fin p)) :
    Prop :=
  ∀ start, ∃ steps, (fminunc (squaredLasso X y lambda) start).1 =
    QuasiNewton.run (fun w => (squaredLasso X y lambda w).2.1) start steps

omit [LinearOrder K] [IsStrictOrderedRing K] in
theorem difference_eq_zero {j : Fin p} (hl : w (.inl j) = 0) (hr : w (.inr j) = 0) :
    difference w j = 0 := by
  rw [difference, hl, hr, sub_self]

/-- **No weight changes its sign**: each has the one that it has in the ridge
regression, or is 0. -/
theorem lassoNonNegativeSquared_sign {sqrt : K → K} (hsqrt : sqrt 0 = 0)
    {fminunc : Fminunc K (Fin p ⊕ Fin p)} (hfminunc : IsQuasiNewton X y lambda fminunc)
    (zeroThreshold : K) (j : Fin p) :
    0 ≤ (lassoNonNegativeSquared sqrt X y lambda fminunc zeroThreshold).1 j *
        ridge X y lambda j ∧
      (ridge X y lambda j = 0 →
        (lassoNonNegativeSquared sqrt X y lambda fminunc zeroThreshold).1 j = 0) := by
  obtain ⟨steps, hsteps⟩ := hfminunc (squaredStart sqrt (ridge X y lambda))
  have hgradient (i : Fin p ⊕ Fin p) (w : Fin p ⊕ Fin p → K) (hw : w i = 0) :
      (squaredLasso X y lambda w).2.1 i = 0 := by
    rw [squaredLasso_gradient, hw, mul_zero, zero_mul]
  have hrest {i : Fin p ⊕ Fin p} (hi : squaredStart sqrt (ridge X y lambda) i = 0) :
      (fminunc (squaredLasso X y lambda) (squaredStart sqrt (ridge X y lambda))).1 i = 0 := by
    rw [hsteps]
    exact QuasiNewton.run_apply_eq_zero (hgradient i) hi steps
  -- the variable for the positive part, and the one for the negative part
  have hpositive (h : ridge X y lambda j ≤ 0) :
      (fminunc (squaredLasso X y lambda) (squaredStart sqrt (ridge X y lambda))).1 (.inl j) = 0 := by
    refine hrest ?_
    show sqrt (_ * if _ then _ else _) = 0
    rcases h.eq_or_lt with hzero | hneg
    · rw [hzero, zero_mul, hsqrt]
    · rw [if_neg hneg.not_ge, mul_zero, hsqrt]
  have hnegative (h : 0 ≤ ridge X y lambda j) :
      (fminunc (squaredLasso X y lambda) (squaredStart sqrt (ridge X y lambda))).1 (.inr j) = 0 := by
    refine hrest ?_
    show sqrt (_ * if _ then _ else _) = 0
    rw [if_neg h.not_gt, mul_zero, hsqrt]
  have hcut : (lassoNonNegativeSquared sqrt X y lambda fminunc zeroThreshold).1 j = 0 ∨
      (lassoNonNegativeSquared sqrt X y lambda fminunc zeroThreshold).1 j = difference
        (fminunc (squaredLasso X y lambda) (squaredStart sqrt (ridge X y lambda))).1 j :=
    ite_eq_or_eq _ _ _
  rcases hcut with hsmall | hw
  · rw [hsmall]
    exact ⟨(zero_mul _).ge, fun _ => rfl⟩
  · rw [hw]
    refine ⟨?_, fun hzero => difference_eq_zero (hpositive hzero.le) (hnegative hzero.ge)⟩
    rcases le_total (ridge X y lambda j) 0 with hneg | hnonneg
    · rw [difference, hpositive hneg, zero_pow two_ne_zero, zero_sub]
      exact mul_nonneg_of_nonpos_of_nonpos (neg_nonpos.mpr (sq_nonneg _)) hneg
    · rw [difference, hnegative hnonneg, zero_pow two_ne_zero, sub_zero]
      exact mul_nonneg (sq_nonneg _) hnonneg

/-- One datapoint with one feature, whose weight is 1 in the ridge regression. -/
def X₁₁ : Matrix (Fin 1) (Fin 1) ℚ := Matrix.of ![![1]]

theorem secondOrder_iff_one :
    SecondOrder X₁₁ ![7 / 2] (5 / 2) (Sum.elim ![3 / 2] ![0]) ↔
      IsMin X₁₁ ![7 / 2] (5 / 2) (difference (Sum.elim ![3 / 2] ![0])) ∧
        ∀ j, (Sum.elim ![3 / 2] ![0] : Fin 1 ⊕ Fin 1 → ℚ) (.inl j) = 0 ∨
          (Sum.elim ![3 / 2] ![0] : Fin 1 ⊕ Fin 1 → ℚ) (.inr j) = 0 :=
  secondOrder_iff (by decide +kernel)

/-- A step of a line search. -/
def oneStep : Fminunc ℚ (Fin 1 ⊕ Fin 1) := fun f start => (start - (1 / 10 : ℚ) • (f start).2.1, 2)

theorem isQuasiNewton_oneStep : IsQuasiNewton X₁₁ ![7 / 2] (5 / 2) oneStep := fun start =>
  ⟨[(1 / 10, none)], by
    show start - (1 / 10 : ℚ) • _ = start - (1 / 10 : ℚ) • (1 *ᵥ _)
    rw [one_mulVec]⟩

theorem lassoNonNegativeSquared_sign_one :
    0 ≤ (lassoNonNegativeSquared id X₁₁ ![7 / 2] (5 / 2) oneStep (1 / 10000)).1 0 *
        ridge X₁₁ ![7 / 2] (5 / 2) 0 ∧
      (ridge X₁₁ ![7 / 2] (5 / 2) 0 = 0 →
        (lassoNonNegativeSquared id X₁₁ ![7 / 2] (5 / 2) oneStep (1 / 10000)).1 0 = 0) :=
  lassoNonNegativeSquared_sign rfl isQuasiNewton_oneStep (1 / 10000) 0

end A2PM.Lasso
