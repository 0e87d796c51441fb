/-
A2PM/LassoShooting.lean

`LassoShooting` of `model_build/lasso`, one of the methods between which
`lasso.m` chooses, in exact arithmetic.

A shoot is an exact coordinate step (`shoot_eq`), and a sweep is one for each
weight.  So the objective falls with each sweep by what the weights have moved
(`objective_sweep`); the sweeps that do not pass the test for the end are
few (`sweeps_le`); and after one that does, the objective is near its minimum
(`shooting_near_min`).  The sweeps have come to a halt exactly at a minimum
(`sweep_eq_iff`).
-/
import A2PM.L1LeastSquares
import A2PM.LinearSolve
import Mathlib.Algebra.Field.Rat
import Mathlib.Algebra.Order.Chebyshev
import Mathlib.Algebra.Order.Ring.Rat
import Mathlib.Data.Fin.VecNotation

namespace A2PM.Lasso

open Matrix L1LeastSquares LinearSolve

variable {K : Type*} [Field K] {n p : ℕ}

/-- `(X'*X + lambda*eye(p))\(X'*y)`.  The matrix is singular only where `lambda` is not
positive; MATLAB warns then, and returns another vector than `solve`.  `sweep_eq_iff` and the
results about single iterations speak of any weights, and `lassoShooting_logged` holds from any
start. -/
def ridge (X : Matrix (Fin n) (Fin p) K) (y : Fin n → K) (lambda : K) : Fin p → K :=
  solve (Xᵀ * X + diagonal fun _ => lambda) (Xᵀ *ᵥ y)

/-! ### The function -/

section Definitions

/-- `X'*X*2`. -/
def XX2 (X : Matrix (Fin n) (Fin p) K) (j k : Fin p) : K := (Xᵀ * X) j k * (2 : ℕ)

/-- `X'*y*2`. -/
def Xy2 (X : Matrix (Fin n) (Fin p) K) (y : Fin n → K) (j : Fin p) : K :=
  (Xᵀ *ᵥ y) j * (2 : ℕ)

def S0 (X : Matrix (Fin n) (Fin p) K) (y : Fin n → K) (beta : Fin p → K) (j : Fin p) : K :=
  ∑ k, XX2 X j k * beta k - XX2 X j j * beta j - Xy2 X y j

variable [LinearOrder K]

/-- Compute the shoot and update the variable. -/
def shoot (X : Matrix (Fin n) (Fin p) K) (y : Fin n → K) (lambda : K) (beta : Fin p → K)
    (j : Fin p) : Fin p → K :=
  if lambda < S0 X y beta j then
    Function.update beta j ((lambda - S0 X y beta j) / XX2 X j j)
  else if S0 X y beta j < -lambda then
    Function.update beta j ((-lambda - S0 X y beta j) / XX2 X j j)
  else if |S0 X y beta j| ≤ lambda then Function.update beta j 0
  else beta

/-- `for j = 1:p`. -/
def sweep (X : Matrix (Fin n) (Fin p) K) (y : Fin n → K) (lambda : K) (beta : Fin p → K) :
    Fin p → K :=
  (List.finRange p).foldl (shoot X y lambda) beta

/-- The variables of the loop, and at the end what the function returns. -/
structure Shooting (K : Type*) (p : ℕ) where
  beta : Fin p → K
  /-- The columns of `wp`. -/
  wp : List (Fin p → K)
  m : ℕ

/-- `while m < maxIter`, with `maxIter - m` iterations left. -/
def Shooting.loop (X : Matrix (Fin n) (Fin p) K) (y : Fin n → K) (lambda optTol : K) :
    ℕ → Shooting K p → Shooting K p
  | 0, s => s
  | left + 1, s =>
      let beta := sweep X y lambda s.beta
      let s' : Shooting K p := ⟨beta, s.wp ++ [beta], s.m + 1⟩
      if norm1 (beta - s.beta) < optTol then s' else s'.loop X y lambda optTol left

/-- The options have their defaults in `lasso.m`. -/
def lassoShooting (X : Matrix (Fin n) (Fin p) K) (y : Fin n → K) (lambda : K) (maxIter : ℕ)
    (optTol : K) : Shooting K p :=
  Shooting.loop X y lambda optTol maxIter ⟨ridge X y lambda, [ridge X y lambda], 0⟩

end Definitions

/-! ### A shoot -/

variable {X : Matrix (Fin n) (Fin p) K} {y : Fin n → K} {lambda : K} {beta : Fin p → K}

theorem XX2_eq (X : Matrix (Fin n) (Fin p) K) (j k : Fin p) : XX2 X j k = hessian X j k := by
  rw [XX2, Nat.cast_ofNat]
  exact mul_comm _ _

theorem S0_eq (X : Matrix (Fin n) (Fin p) K) (y : Fin n → K) (beta : Fin p → K) (j : Fin p) :
    S0 X y beta j = slope X y beta j - hessian X j j * beta j := by
  have hsum : ∑ k, XX2 X j k * beta k = (hessian X *ᵥ beta) j :=
    Finset.sum_congr rfl fun k _ => by rw [XX2_eq]
  have hXy : Xy2 X y j = ((2 : K) • (Xᵀ *ᵥ y)) j := by
    rw [Xy2, Nat.cast_ofNat]
    exact mul_comm _ _
  rw [S0, slope_eq, hsum, hXy, XX2_eq, Pi.sub_apply]
  ring

variable [LinearOrder K] [IsStrictOrderedRing K]

/-- **A shoot** sets one weight to the value that the other ones call for. -/
theorem shoot_eq (X : Matrix (Fin n) (Fin p) K) (y : Fin n → K) (lambda : K)
    (beta : Fin p → K) (j : Fin p) :
    shoot X y lambda beta j = Function.update beta j (coordinateMin X y lambda beta j) := by
  rw [shoot, coordinateMin, ← S0_eq, XX2_eq, threshold]
  split
  · rfl
  next hhigh =>
    split
    · rfl
    next hlow => exact if_pos (abs_le.mpr ⟨not_lt.mp hlow, not_lt.mp hhigh⟩)

/-! ### A sweep -/

section Sweep

variable {js : List (Fin p)}

/-- Weights that a part of a sweep does not come to. -/
theorem foldl_shoot_of_notMem {j : Fin p} (h : j ∉ js) (beta : Fin p → K) :
    js.foldl (shoot X y lambda) beta j = beta j := by
  induction js generalizing beta with
  | nil => rfl
  | cons i js ih =>
      obtain ⟨hne, hnot⟩ := not_or.mp (List.mem_cons.not.mp h)
      rw [List.foldl_cons, ih hnot, shoot_eq, Function.update_of_ne hne]

/-- The head of the list is set once. -/
theorem foldl_shoot_head {j : Fin p} (h : (j :: js).Nodup) (beta : Fin p → K) :
    (j :: js).foldl (shoot X y lambda) beta j = coordinateMin X y lambda beta j := by
  rw [List.foldl_cons, foldl_shoot_of_notMem (List.nodup_cons.mp h).1, shoot_eq,
    Function.update_self]

theorem shoot_of_mem {j k : Fin p} (h : (j :: js).Nodup) (hk : k ∈ js) (beta : Fin p → K) :
    shoot X y lambda beta j k = beta k := by
  have hne : k ≠ j := fun heq => (List.nodup_cons.mp h).1 (heq ▸ hk)
  rw [shoot_eq, Function.update_of_ne hne]

/-- Each weight that moves lowers the objective. -/
theorem objective_foldl_shoot (hlambda : 0 ≤ lambda) (h : js.Nodup) (beta : Fin p → K) :
    objective X y lambda (js.foldl (shoot X y lambda) beta) +
        (js.map fun j => hessian X j j / 2 *
          (beta j - js.foldl (shoot X y lambda) beta j) ^ 2).sum ≤
      objective X y lambda beta := by
  induction js generalizing beta with
  | nil =>
      rw [List.map_nil, List.sum_nil, add_zero]
      exact le_rfl
  | cons j js ih =>
      have hih := ih (List.nodup_cons.mp h).2 (shoot X y lambda beta j)
      have htail : js.map (fun k => hessian X k k / 2 *
            (shoot X y lambda beta j k - js.foldl (shoot X y lambda) (shoot X y lambda beta j) k)
              ^ 2) =
          js.map fun k => hessian X k k / 2 *
            (beta k - (j :: js).foldl (shoot X y lambda) beta k) ^ 2 :=
        List.map_congr_left fun k hk => by rw [shoot_of_mem h hk, List.foldl_cons]
      have hhead := objective_update_coordinateMin (X := X) (y := y) hlambda beta j (beta j)
      rw [Function.update_eq_self, ← shoot_eq, ← foldl_shoot_head h] at hhead
      rw [htail] at hih
      rw [List.map_cons, List.sum_cons, List.foldl_cons]
      rw [List.foldl_cons] at hhead hih
      linarith

/-- What a part of a sweep changes after one of its shoots. -/
theorem norm1_foldl_shoot_le {j : Fin p} (h : (j :: js).Nodup) (beta : Fin p → K) :
    norm1 (js.foldl (shoot X y lambda) (shoot X y lambda beta j) - shoot X y lambda beta j) ≤
      norm1 ((j :: js).foldl (shoot X y lambda) beta - beta) := by
  refine Finset.sum_le_sum fun k _ => ?_
  rw [Pi.sub_apply, Pi.sub_apply, List.foldl_cons]
  rcases eq_or_ne k j with rfl | hk
  · rw [foldl_shoot_of_notMem (List.nodup_cons.mp h).1, sub_self, abs_zero]
    exact abs_nonneg _
  · rw [shoot_eq X y lambda beta j, Function.update_of_ne hk]

/-- **After a sweep** the slope of a weight is off by what the later shoots have
moved. -/
theorem balanced_foldl_shoot (hlambda : 0 ≤ lambda) {M : K} (hM : ∀ j k, |hessian X j k| ≤ M)
    (h : js.Nodup) (beta : Fin p → K) {j : Fin p} (hj : j ∈ js) :
    ∃ g, Balanced lambda g (js.foldl (shoot X y lambda) beta j) ∧
      |slope X y (js.foldl (shoot X y lambda) beta) j - g| ≤
        M * norm1 (js.foldl (shoot X y lambda) beta - beta) := by
  induction js generalizing beta with
  | nil => cases hj
  | cons i js ih =>
      have hnorm : norm1 (js.foldl (shoot X y lambda) (shoot X y lambda beta i) -
          shoot X y lambda beta i) ≤ norm1 ((i :: js).foldl (shoot X y lambda) beta - beta) :=
        norm1_foldl_shoot_le h beta
      have hM₀ : 0 ≤ M := (abs_nonneg (hessian X j j)).trans (hM j j)
      rcases List.mem_cons.mp hj with rfl | hj
      · refine ⟨slope X y (shoot X y lambda beta j) j, ?_, ?_⟩
        · rw [foldl_shoot_head h, shoot_eq]
          exact balanced_coordinateMin hlambda beta j
        · have hsplit : (j :: js).foldl (shoot X y lambda) beta =
              shoot X y lambda beta j +
                ((j :: js).foldl (shoot X y lambda) beta - shoot X y lambda beta j) :=
            (add_sub_cancel _ _).symm
          rw [hsplit, slope_add, Pi.add_apply, add_sub_cancel_left, ← hsplit]
          exact (abs_mulVec_le (hM j) _).trans (mul_le_mul_of_nonneg_left hnorm hM₀)
      · obtain ⟨g, hg, he⟩ := ih (List.nodup_cons.mp h).2 (shoot X y lambda beta i) hj
        exact ⟨g, hg, he.trans (mul_le_mul_of_nonneg_left hnorm hM₀)⟩

theorem exists_foldl_shoot_eq {j : Fin p} (hj : j ∈ js) (h : js.Nodup) (beta : Fin p → K) :
    ∃ beta', js.foldl (shoot X y lambda) beta j = coordinateMin X y lambda beta' j := by
  induction js generalizing beta with
  | nil => cases hj
  | cons i js ih =>
      rcases List.mem_cons.mp hj with rfl | hj
      · exact ⟨beta, foldl_shoot_head h beta⟩
      · exact ih hj (List.nodup_cons.mp h).2 (shoot X y lambda beta i)

/-- A part of a sweep that changes nothing. -/
theorem foldl_shoot_eq_iff (h : js.Nodup) (beta : Fin p → K) :
    js.foldl (shoot X y lambda) beta = beta ↔
      ∀ j ∈ js, coordinateMin X y lambda beta j = beta j := by
  induction js with
  | nil => exact iff_of_true rfl fun j hj => absurd hj List.not_mem_nil
  | cons j js ih =>
      have hih := ih (List.nodup_cons.mp h).2
      rw [List.forall_mem_cons, ← hih]
      constructor
      · intro heq
        have hj : coordinateMin X y lambda beta j = beta j := by
          rw [← foldl_shoot_head h, heq]
        have hshoot : shoot X y lambda beta j = beta := by
          rw [shoot_eq, hj, Function.update_eq_self]
        rw [List.foldl_cons, hshoot] at heq
        exact ⟨hj, heq⟩
      · rintro ⟨hj, heq⟩
        rw [List.foldl_cons, shoot_eq, hj, Function.update_eq_self]
        exact heq

end Sweep

theorem objective_sweep (hlambda : 0 ≤ lambda) (beta : Fin p → K) :
    objective X y lambda (sweep X y lambda beta) +
        ∑ j, hessian X j j / 2 * (beta j - sweep X y lambda beta j) ^ 2 ≤
      objective X y lambda beta := by
  rw [Fin.sum_univ_def]
  exact objective_foldl_shoot hlambda (List.nodup_finRange p) beta

/-- **A sweep changes nothing exactly at a minimum.** -/
theorem sweep_eq_iff (hlambda : 0 ≤ lambda) (hzero : ∀ j, XX2 X j j = 0 → 0 < lambda) :
    sweep X y lambda beta = beta ↔
      ∀ v, objective X y lambda beta ≤ objective X y lambda v := by
  have hmin := isMin_iff_coordinateMin (X := X) (y := y) (w := beta) hlambda
    fun j hj => hzero j (by rw [XX2_eq, hj])
  refine Iff.trans ?_ hmin.symm
  rw [sweep, foldl_shoot_eq_iff (List.nodup_finRange p)]
  exact ⟨fun h j => h j (List.mem_finRange j), fun h j _ => h j⟩

/-- Two datapoints with two features. -/
def X₂ : Matrix (Fin 2) (Fin 2) ℚ := Matrix.of ![![1, 2], ![3, 1]]

def y₂ : Fin 2 → ℚ := ![3, 1]

theorem sweep_eq_iff_two : sweep X₂ y₂ 1 ![0, 13 / 10] = ![0, 13 / 10] ↔
    ∀ v, objective X₂ y₂ 1 ![0, 13 / 10] ≤ objective X₂ y₂ 1 v :=
  sweep_eq_iff zero_le_one fun _ _ => zero_lt_one

/-- A column of zeros has the weight 0. -/
def Settled (X : Matrix (Fin n) (Fin p) K) (beta : Fin p → K) : Prop :=
  ∀ j, XX2 X j j = 0 → beta j = 0

theorem settled_sweep (hlambda : 0 ≤ lambda) (beta : Fin p → K) :
    Settled X (sweep X y lambda beta) := by
  intro j hj
  obtain ⟨beta', hbeta⟩ : ∃ beta', sweep X y lambda beta j = coordinateMin X y lambda beta' j :=
    exists_foldl_shoot_eq (List.mem_finRange j) (List.nodup_finRange p) beta
  rw [hbeta]
  exact coordinateMin_of_hessian_eq_zero hlambda (by rw [← XX2_eq, hj])

theorem objective_sweep_le (hlambda : 0 ≤ lambda) (beta : Fin p → K) :
    objective X y lambda (sweep X y lambda beta) ≤ objective X y lambda beta := by
  have hsum : 0 ≤ ∑ j, hessian X j j / 2 * (beta j - sweep X y lambda beta j) ^ 2 :=
    Finset.sum_nonneg fun j _ =>
      mul_nonneg (div_nonneg (hessian_self_nonneg X j) zero_le_two) (sq_nonneg _)
  linarith [objective_sweep (X := X) (y := y) hlambda beta]

/-- A sweep that moves the weights by `optTol` lowers the objective. -/
theorem objective_sweep_drop (hlambda : 0 ≤ lambda) {c optTol : K} (hopt : 0 ≤ optTol)
    (hc : ∀ j, XX2 X j j = 0 ∨ c ≤ XX2 X j j) (hsettled : Settled X beta)
    (hmove : optTol ≤ norm1 (sweep X y lambda beta - beta)) (hc₀ : 0 ≤ c) :
    c * optTol ^ 2 ≤
      2 * p * (objective X y lambda beta - objective X y lambda (sweep X y lambda beta)) := by
  have hafter := settled_sweep (X := X) (y := y) hlambda beta
  have hterm (j : Fin p) : c * (beta j - sweep X y lambda beta j) ^ 2 ≤
      2 * (hessian X j j / 2 * (beta j - sweep X y lambda beta j) ^ 2) := by
    rcases hc j with hj | hj
    · rw [hsettled j hj, hafter j hj, sub_self, zero_pow two_ne_zero, mul_zero, mul_zero, mul_zero]
    · rw [XX2_eq] at hj
      have hle := mul_le_mul_of_nonneg_right hj (sq_nonneg (beta j - sweep X y lambda beta j))
      linarith
  have hsquares : c * ∑ j, (beta j - sweep X y lambda beta j) ^ 2 ≤
      2 * (objective X y lambda beta - objective X y lambda (sweep X y lambda beta)) := by
    calc c * ∑ j, (beta j - sweep X y lambda beta j) ^ 2
        ≤ ∑ j, 2 * (hessian X j j / 2 * (beta j - sweep X y lambda beta j) ^ 2) := by
          rw [Finset.mul_sum]
          exact Finset.sum_le_sum fun j _ => hterm j
      _ = 2 * ∑ j, hessian X j j / 2 * (beta j - sweep X y lambda beta j) ^ 2 := by
          rw [Finset.mul_sum]
      _ ≤ _ := by linarith [objective_sweep (X := X) (y := y) hlambda beta]
  have hcauchy : norm1 (sweep X y lambda beta - beta) ^ 2 ≤
      p * ∑ j, (beta j - sweep X y lambda beta j) ^ 2 := by
    have h := sq_sum_le_card_mul_sum_sq (s := (Finset.univ : Finset (Fin p)))
      (f := fun j => |(sweep X y lambda beta - beta) j|)
    simp only [Finset.card_univ, Fintype.card_fin, sq_abs, Pi.sub_apply] at h
    refine h.trans (le_of_eq ?_)
    congr 1
    exact Finset.sum_congr rfl fun j _ => sub_sq_comm _ _
  calc c * optTol ^ 2 ≤ c * norm1 (sweep X y lambda beta - beta) ^ 2 :=
        mul_le_mul_of_nonneg_left (pow_le_pow_left₀ hopt hmove 2) hc₀
    _ ≤ c * (p * ∑ j, (beta j - sweep X y lambda beta j) ^ 2) :=
        mul_le_mul_of_nonneg_left hcauchy hc₀
    _ = p * (c * ∑ j, (beta j - sweep X y lambda beta j) ^ 2) := by ring
    _ ≤ p * (2 * (objective X y lambda beta - objective X y lambda (sweep X y lambda beta))) :=
        mul_le_mul_of_nonneg_left hsquares (Nat.cast_nonneg p)
    _ = _ := by ring

/-! ### The loop -/

namespace Shooting

variable {optTol : K} {left : ℕ}

/-- What an iteration does to the variables. -/
def next (X : Matrix (Fin n) (Fin p) K) (y : Fin n → K) (lambda : K) (s : Shooting K p) :
    Shooting K p :=
  ⟨sweep X y lambda s.beta, s.wp ++ [sweep X y lambda s.beta], s.m + 1⟩

omit [IsStrictOrderedRing K] in
theorem loop_succ (s : Shooting K p) : s.loop X y lambda optTol (left + 1) =
    if norm1 (sweep X y lambda s.beta - s.beta) < optTol then s.next X y lambda
    else (s.next X y lambda).loop X y lambda optTol left := rfl

omit [IsStrictOrderedRing K] in
/-- An invariant of the iterations holds at the end. -/
theorem loop_invariant {P : Shooting K p → Prop} (hnext : ∀ s, P s → P (s.next X y lambda))
    {s : Shooting K p} (h : P s) : P (s.loop X y lambda optTol left) := by
  induction left generalizing s with
  | zero => exact h
  | succ left ih =>
      rw [loop_succ]
      split
      · exact hnext s h
      · exact ih (hnext s h)

/-- `wp` ends with `beta`, and the objective falls along it. -/
structure Logged (X : Matrix (Fin n) (Fin p) K) (y : Fin n → K) (lambda : K)
    (s : Shooting K p) : Prop where
  last : s.wp.getLast? = some s.beta
  falls : s.wp.Pairwise fun w w' => objective X y lambda w' ≤ objective X y lambda w
  length : s.wp.length = s.m + 1

theorem Logged.step (hlambda : 0 ≤ lambda) {s : Shooting K p} (h : s.Logged X y lambda) :
    (s.next X y lambda).Logged X y lambda where
  last := List.getLast?_concat
  falls := by
    refine List.pairwise_append.mpr ⟨h.falls, List.pairwise_singleton _ _, fun w hw v hv => ?_⟩
    obtain rfl := List.mem_singleton.mp hv
    have hbeta : objective X y lambda s.beta ≤ objective X y lambda w := by
      obtain ⟨before, hwp⟩ := List.getLast?_eq_some_iff.mp h.last
      have hfalls := h.falls
      rw [hwp] at hw hfalls
      rcases List.mem_append.mp hw with hw | hw
      · exact (List.pairwise_append.mp hfalls).2.2 w hw s.beta (List.mem_singleton_self _)
      · rw [List.mem_singleton.mp hw]
    exact (objective_sweep_le hlambda s.beta).trans hbeta
  length := by rw [next, List.length_append, h.length, List.length_singleton]

theorem loop_logged (hlambda : 0 ≤ lambda) {s : Shooting K p} (h : s.Logged X y lambda) :
    (s.loop X y lambda optTol left).Logged X y lambda :=
  loop_invariant (P := Logged X y lambda) (fun _ => Logged.step hlambda) h

theorem objective_loop_le (hlambda : 0 ≤ lambda) (optTol : K) (left : ℕ) (s : Shooting K p) :
    objective X y lambda (s.loop X y lambda optTol left).beta ≤ objective X y lambda s.beta :=
  loop_invariant (P := fun t => objective X y lambda t.beta ≤ objective X y lambda s.beta)
    (fun t ht => (objective_sweep_le hlambda t.beta).trans ht) le_rfl

/-- The sweeps that do not pass the test, where the weights of the columns of
zeros are 0. -/
theorem loop_m_le_of_settled (hlambda : 0 ≤ lambda) {c : K} (hc₀ : 0 ≤ c) (hopt : 0 ≤ optTol)
    (hc : ∀ j, XX2 X j j = 0 ∨ c ≤ XX2 X j j) (left : ℕ) {s : Shooting K p}
    (hs : Settled X s.beta) :
    (((s.loop X y lambda optTol left).m : K) - s.m - 1) * (c * optTol ^ 2) ≤
      2 * p * (objective X y lambda s.beta -
        objective X y lambda (s.loop X y lambda optTol left).beta) := by
  have hdelta : 0 ≤ c * optTol ^ 2 := mul_nonneg hc₀ (sq_nonneg optTol)
  have hp : (0 : K) ≤ 2 * p := mul_nonneg zero_le_two (Nat.cast_nonneg p)
  induction left generalizing s with
  | zero =>
      rw [loop, sub_self, sub_self, mul_zero, zero_sub, neg_one_mul]
      exact neg_nonpos.mpr hdelta
  | succ left ih =>
      rw [loop_succ]
      split
      next hsmall =>
        have hm : ((s.next X y lambda).m : K) - s.m - 1 = 0 := by
          rw [next, Nat.cast_succ, add_sub_cancel_left, sub_self]
        rw [hm, zero_mul]
        exact mul_nonneg hp (sub_nonneg.mpr (objective_sweep_le hlambda s.beta))
      next hlarge =>
        have hdrop := objective_sweep_drop (X := X) (y := y) hlambda hopt hc hs
          (not_lt.mp hlarge) hc₀
        have hrest := ih (s := s.next X y lambda) (settled_sweep hlambda s.beta)
        have hm : ((s.next X y lambda).m : K) = s.m + 1 := Nat.cast_succ _
        rw [hm] at hrest
        have hbeta : (s.next X y lambda).beta = sweep X y lambda s.beta := rfl
        rw [hbeta] at hrest
        linarith

/-- The first sweep may also set the weights of the columns of zeros. -/
theorem loop_m_le (hlambda : 0 ≤ lambda) {c : K} (hc₀ : 0 ≤ c) (hopt : 0 ≤ optTol)
    (hc : ∀ j, XX2 X j j = 0 ∨ c ≤ XX2 X j j) (left : ℕ) (s : Shooting K p) :
    (((s.loop X y lambda optTol left).m : K) - s.m - 2) * (c * optTol ^ 2) ≤
      2 * p * (objective X y lambda s.beta -
        objective X y lambda (s.loop X y lambda optTol left).beta) := by
  have hdelta : 0 ≤ c * optTol ^ 2 := mul_nonneg hc₀ (sq_nonneg optTol)
  have hp : (0 : K) ≤ 2 * p := mul_nonneg zero_le_two (Nat.cast_nonneg p)
  cases left with
  | zero =>
      rw [loop, sub_self, sub_self, mul_zero, zero_sub, neg_mul]
      exact neg_nonpos.mpr (mul_nonneg zero_le_two hdelta)
  | succ left =>
      have hfirst := objective_sweep_le (X := X) (y := y) hlambda s.beta
      have hm : ((s.next X y lambda).m : K) = s.m + 1 := Nat.cast_succ _
      rw [loop_succ]
      split
      next hsmall =>
        have hle := mul_nonneg hp (sub_nonneg.mpr hfirst)
        have hbeta : (s.next X y lambda).beta = sweep X y lambda s.beta := rfl
        rw [hm, hbeta]
        linarith
      next hlarge =>
        have hrest := loop_m_le_of_settled (y := y) hlambda hc₀ hopt hc left
          (s := s.next X y lambda) (settled_sweep hlambda s.beta)
        rw [hm] at hrest
        have hbeta : (s.next X y lambda).beta = sweep X y lambda s.beta := rfl
        rw [hbeta] at hrest
        have hle := mul_nonneg hp (sub_nonneg.mpr hfirst)
        linarith

omit [IsStrictOrderedRing K] in
/-- A loop that ends before its last iteration ends with the test. -/
theorem exists_sweep_of_lt {s : Shooting K p}
    (h : (s.loop X y lambda optTol left).m < s.m + left) :
    ∃ beta, (s.loop X y lambda optTol left).beta = sweep X y lambda beta ∧
      norm1 (sweep X y lambda beta - beta) < optTol := by
  induction left generalizing s with
  | zero => exact absurd h (lt_irrefl _)
  | succ left ih =>
      rw [loop_succ] at h ⊢
      split
      next hsmall => exact ⟨s.beta, rfl, hsmall⟩
      next hlarge =>
        rw [if_neg hlarge] at h
        refine ih (h.trans_le (le_of_eq ?_))
        show s.m + (left + 1) = s.m + 1 + left
        omega

end Shooting

/-! ### The function -/

/-- **The objective falls** from each column of `wp` to the next, and the last
one is what is returned. -/
theorem lassoShooting_logged (hlambda : 0 ≤ lambda) (maxIter : ℕ) (optTol : K) :
    (lassoShooting X y lambda maxIter optTol).Logged X y lambda :=
  Shooting.loop_logged hlambda
    ⟨rfl, List.pairwise_singleton _ _, rfl⟩

theorem lassoShooting_logged_two : (lassoShooting X₂ y₂ 1 100 (1 / 100)).Logged X₂ y₂ 1 :=
  lassoShooting_logged zero_le_one 100 (1 / 100)

/-- **Few sweeps.**  `c` bounds the columns that are not zero from below. -/
theorem sweeps_le (hlambda : 0 ≤ lambda) {c optTol : K} (hc₀ : 0 ≤ c) (hopt : 0 ≤ optTol)
    (hc : ∀ j, XX2 X j j = 0 ∨ c ≤ XX2 X j j) (maxIter : ℕ) :
    ((lassoShooting X y lambda maxIter optTol).m - 2 : K) * (c * optTol ^ 2) ≤
      2 * p * objective X y lambda (ridge X y lambda) := by
  have hloop := Shooting.loop_m_le (X := X) (y := y) hlambda hc₀ hopt hc maxIter
    ⟨ridge X y lambda, [ridge X y lambda], 0⟩
  have hp : (0 : K) ≤ 2 * p := mul_nonneg zero_le_two (Nat.cast_nonneg p)
  have hend := mul_nonneg hp (objective_nonneg (X := X) (y := y) hlambda
    (lassoShooting X y lambda maxIter optTol).beta)
  rw [Nat.cast_zero, sub_zero, mul_sub] at hloop
  exact hloop.trans (sub_le_self _ hend)

theorem sweeps_le_two :
    ((lassoShooting X₂ y₂ 1 100 (1 / 100)).m - 2 : ℚ) * (10 * (1 / 100) ^ 2) ≤
      2 * (2 : ℕ) * objective X₂ y₂ 1 (ridge X₂ y₂ 1) :=
  sweeps_le zero_le_one (by decide +kernel) (by decide +kernel) (by decide +kernel) 100

/-- **Near the minimum**, where the function ends with its test. -/
theorem shooting_near_min (hlambda : 0 ≤ lambda) {M optTol : K}
    (hM₀ : 0 ≤ M) (hM : ∀ j k, |XX2 X j k| ≤ M) {maxIter : ℕ}
    (hm : (lassoShooting X y lambda maxIter optTol).m < maxIter) (v : Fin p → K) :
    lambda * (objective X y lambda (lassoShooting X y lambda maxIter optTol).beta -
        objective X y lambda v) ≤
      M * optTol * (objective X y lambda (ridge X y lambda) + objective X y lambda 0) := by
  obtain ⟨beta, hw, hsmall⟩ := Shooting.exists_sweep_of_lt
    (s := ⟨ridge X y lambda, [ridge X y lambda], 0⟩) (by rw [Nat.zero_add]; exact hm)
  have hstart := Shooting.objective_loop_le (X := X) (y := y) hlambda optTol maxIter
    ⟨ridge X y lambda, [ridge X y lambda], 0⟩
  rw [lassoShooting, hw]
  rw [hw] at hstart
  have hopt : M * norm1 (sweep X y lambda beta - beta) ≤ M * optTol :=
    mul_le_mul_of_nonneg_left hsmall.le hM₀
  have hbalanced (j : Fin p) : ∃ g, Balanced lambda g (sweep X y lambda beta j) ∧
      |slope X y (sweep X y lambda beta) j - g| ≤ M * optTol := by
    obtain ⟨g, hg, he⟩ := balanced_foldl_shoot (X := X) (y := y) hlambda
      (fun j k => by rw [← XX2_eq]; exact hM j k) (List.nodup_finRange p) beta
      (List.mem_finRange j)
    exact ⟨g, hg, he.trans hopt⟩
  have hMopt : 0 ≤ M * optTol := mul_nonneg hM₀ ((norm1_nonneg _).trans hsmall.le)
  -- weights that are no better than none at all need not be considered
  have hnear (v : Fin p → K) (hv : objective X y lambda v ≤ objective X y lambda 0) :
      lambda * (objective X y lambda (sweep X y lambda beta) - objective X y lambda v) ≤
        M * optTol * (objective X y lambda (ridge X y lambda) + objective X y lambda 0) := by
    have hgap := mul_le_mul_of_nonneg_left
      (objective_sub_le (v := v) fun j _ => hbalanced j) hlambda
    have hdist : lambda * norm1 (v - sweep X y lambda beta) ≤
        objective X y lambda (ridge X y lambda) + objective X y lambda 0 := by
      have htriangle := mul_le_mul_of_nonneg_left
        (norm1_sub_le v (sweep X y lambda beta)) hlambda
      linarith [mul_norm1_le_objective X y lambda v,
        mul_norm1_le_objective X y lambda (sweep X y lambda beta)]
    refine hgap.trans ?_
    rw [mul_left_comm]
    exact mul_le_mul_of_nonneg_left hdist hMopt
  rcases le_total (objective X y lambda v) (objective X y lambda 0) with hv | hv
  · exact hnear v hv
  · refine le_trans (mul_le_mul_of_nonneg_left ?_ hlambda) (hnear 0 le_rfl)
    exact sub_le_sub_left hv _

theorem shooting_near_min_two :
    1 * (objective X₂ y₂ 1 (lassoShooting X₂ y₂ 1 100 (1 / 100)).beta - objective X₂ y₂ 1 0) ≤
      20 * (1 / 100) * (objective X₂ y₂ 1 (ridge X₂ y₂ 1) + objective X₂ y₂ 1 0) :=
  shooting_near_min zero_le_one (by decide +kernel) (by decide +kernel) (by decide +kernel) 0

end A2PM.Lasso
