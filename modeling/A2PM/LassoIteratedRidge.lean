/-
A2PM/LassoIteratedRidge.lean

`LassoIteratedRidge` of `model_build/lasso`, the method that FRAMEWORK.sh is
configured for, in each of its modes and in exact arithmetic.

An iteration solves a ridge regression, weighted by the weights it starts from,
for the weights that are not too close to 0 (`reweigh`).  `XX` and `Xy` are
selected anew only when the set of these has changed, and this is sound but for
the first iteration: if all weights are close to 0 there, `XX` does not exist
(`lassoIteratedRidge_eq_none_iff`).  An iteration makes the weights better than
those it starts from with the small ones set to 0 (`objective_reweigh`), and has
nothing to change exactly at the best weights among those that are 0 where these
are (`reweigh_eq_iff`).  The modes differ in the system that they solve, and agree
in all that follows from it (`modes_agree`); the other results are about the
default one.
-/
import A2PM.LassoShooting
import Mathlib.Analysis.Real.Sqrt
import Mathlib.LinearAlgebra.Matrix.SchurComplement
import Mathlib.Topology.Algebra.Order.Field
import Mathlib.Topology.Instances.Matrix
import Mathlib.Topology.Instances.Real.Lemmas
import Mathlib.Topology.Order.Compact

namespace A2PM.Lasso

open Matrix L1LeastSquares LinearSolve

variable {K : Type*} [Field K] [LinearOrder K] {n p : ℕ}

/-! ### The function -/

/-- `~zeros_new`. -/
def kept (threshold : K) (w : Fin p → K) : Finset (Fin p) :=
  Finset.univ.filter fun j => ¬|w j| ≤ threshold

/-- `XXfull(~zeros_new,~zeros_new)`. -/
def XX (X : Matrix (Fin n) (Fin p) K) (s : Finset (Fin p)) : Matrix s s K :=
  (Xᵀ * X).submatrix Subtype.val Subtype.val

/-- `X(:,~zeros_new)`. -/
def Xnz (X : Matrix (Fin n) (Fin p) K) (s : Finset (Fin p)) : Matrix (Fin n) s K :=
  X.submatrix id Subtype.val

/-- `Xyfull(~zeros_new)`. -/
def Xy (X : Matrix (Fin n) (Fin p) K) (y : Fin n → K) (s : Finset (Fin p)) (j : s) : K :=
  (Xᵀ *ᵥ y) j

/-- The matrix of mode 0: `XX+diag(lambda*abs(1./wtemp))`, where `wtemp` is
`w(~zeros_new)`. -/
def lhs (X : Matrix (Fin n) (Fin p) K) (lambda : K) (s : Finset (Fin p)) (w : Fin p → K) :
    Matrix s s K :=
  XX X s + diagonal fun j : s => lambda * |1 / w j|

/-- `solve(XX+diag(lambda*abs(1./wtemp)),Xy,...)`.  The matrix is positive definite, so that
`solve` uses its factors. -/
def wtemp (X : Matrix (Fin n) (Fin p) K) (y : Fin n → K) (lambda : K) (s : Finset (Fin p))
    (w : Fin p → K) : s → K :=
  solve (lhs X lambda s w) (Xy X y s)

/-- `G = diag(sqrt(abs(wtemp)))`. -/
def G (sqrt : K → K) (s : Finset (Fin p)) (w : Fin p → K) : Matrix s s K :=
  diagonal fun j : s => sqrt |w j|

/-- The matrix of mode 1: `G*XX*G + lambda*eye(length(wtemp))`. -/
def lhsFigueredo (sqrt : K → K) (X : Matrix (Fin n) (Fin p) K) (lambda : K) (s : Finset (Fin p))
    (w : Fin p → K) : Matrix s s K :=
  G sqrt s w * XX X s * G sqrt s w + diagonal fun _ => lambda

/-- Mode 1: `G*solve(G*XX*G + lambda*eye(length(wtemp)),G*Xy,...)`. -/
def wtempFigueredo (sqrt : K → K) (X : Matrix (Fin n) (Fin p) K) (y : Fin n → K) (lambda : K)
    (s : Finset (Fin p)) (w : Fin p → K) : s → K :=
  G sqrt s w *ᵥ solve (lhsFigueredo sqrt X lambda s w) (G sqrt s w *ᵥ Xy X y s)

/-- `U` of mode 2 and `Dinv` of mode 3: `diag(abs(wtemp)/lambda)`. -/
def Dinv (lambda : K) (s : Finset (Fin p)) (w : Fin p → K) : Matrix s s K :=
  diagonal fun j : s => |w j| / lambda

/-- The matrix of mode 2: `U*XX + eye(length(wtemp))`. -/
def lhsSimple (X : Matrix (Fin n) (Fin p) K) (lambda : K) (s : Finset (Fin p)) (w : Fin p → K) :
    Matrix s s K :=
  Dinv lambda s w * XX X s + 1

/-- Mode 2: `solve(U*XX + eye(length(wtemp)),U*Xy,...)`. -/
def wtempSimple (X : Matrix (Fin n) (Fin p) K) (y : Fin n → K) (lambda : K)
    (s : Finset (Fin p)) (w : Fin p → K) : s → K :=
  solve (lhsSimple X lambda s w) (Dinv lambda s w *ᵥ Xy X y s)

/-- The matrix of mode 3: `eye(n)+Xnz*Dinv*Xnz'`. -/
def lhsLowRank (X : Matrix (Fin n) (Fin p) K) (lambda : K) (s : Finset (Fin p)) (w : Fin p → K) :
    Matrix (Fin n) (Fin n) K :=
  1 + Xnz X s * Dinv lambda s w * (Xnz X s)ᵀ

/-- Mode 3: `Dinv*(Xy - Xnz'*s)`, with `solve(eye(n)+Xnz*Dinv*Xnz',Xnz*Dinv*Xy,...)`
for `s`. -/
def wtempLowRank (X : Matrix (Fin n) (Fin p) K) (y : Fin n → K) (lambda : K)
    (s : Finset (Fin p)) (w : Fin p → K) : s → K :=
  Dinv lambda s w *ᵥ (Xy X y s - (Xnz X s)ᵀ *ᵥ
    solve (lhsLowRank X lambda s w) ((Xnz X s * Dinv lambda s w) *ᵥ Xy X y s))

/-- `mode`; mode 1 takes square roots. -/
inductive Mode (K : Type*)
  | pseudoinverse
  | figueredo (sqrt : K → K)
  | simple
  | lowRank

/-- `wtemp` in a mode. -/
def wtempIn (mode : Mode K) (X : Matrix (Fin n) (Fin p) K) (y : Fin n → K) (lambda : K)
    (s : Finset (Fin p)) (w : Fin p → K) : s → K :=
  match mode with
  | .pseudoinverse => wtemp X y lambda s w
  | .figueredo sqrt => wtempFigueredo sqrt X y lambda s w
  | .simple => wtempSimple X y lambda s w
  | .lowRank => wtempLowRank X y lambda s w

/-- The determinant of the matrix of a mode. -/
def detIn (mode : Mode K) (X : Matrix (Fin n) (Fin p) K) (lambda : K) (s : Finset (Fin p))
    (w : Fin p → K) : K :=
  match mode with
  | .pseudoinverse => (lhs X lambda s w).det
  | .figueredo sqrt => (lhsFigueredo sqrt X lambda s w).det
  | .simple => (lhsSimple X lambda s w).det
  | .lowRank => (lhsLowRank X lambda s w).det

/-- The new weights, from the set of the ones that are kept. -/
def scatter (s : Finset (Fin p)) (u : s → K) (j : Fin p) : K := if h : j ∈ s then u ⟨j, h⟩ else 0

/-- The variables of the loop. -/
structure Iteration (K : Type*) (p : ℕ) where
  w : Fin p → K
  /-- `~zeros_old`. -/
  keptOld : Finset (Fin p)
  /-- The weights that `Xy` and `XX` (in mode 3 `Xnz`) were selected for; `none`: these
  do not exist. -/
  selected : Option (Finset (Fin p))
  /-- The columns of `wp`. -/
  wp : List (Fin p → K)
  i : ℕ

/-- The options that `lasso.m` leaves at their defaults, and `fminbnd`, by the
function that it is called for and the upper end of the interval. -/
structure Options (K : Type*) where
  maxIter : ℕ
  optTol : K
  threshold : K
  lineMinIter : ℕ
  fminbnd : (K → K) → K → K

variable (mode : Mode K) (X : Matrix (Fin n) (Fin p) K) (y : Fin n → K) (lambda : K)
  (o : Options K)

/-- `LassoLineObj`. -/
def lassoLineObj (wold wnew : Fin p → K) (step : K) : K :=
  let w := wold + step • (wnew - wold)
  (w ⬝ᵥ ((Xᵀ * X) *ᵥ w) - w ⬝ᵥ ((2 : ℕ) • (Xᵀ *ᵥ y)) + y ⬝ᵥ y) + (2 : ℕ) * lambda * norm1 w

/-- The line minimization on every `lineMinIter`-th iteration. -/
def lineMin (i : ℕ) (wold w : Fin p → K) : Fin p → K :=
  if 0 < i ∧ i % o.lineMinIter = 0 then
    wold + o.fminbnd (lassoLineObj X y lambda wold w) (1 / o.optTol) • (w - wold)
  else w

/-- Select `XX` and `Xy` anew if the zeros have changed. -/
def Iteration.select (s : Iteration K p) : Option (Finset (Fin p)) :=
  if kept o.threshold s.w = s.keptOld then s.selected else some (kept o.threshold s.w)

/-- The body of the loop; `lambda` has been halved.  `none`: `XX` does not exist,
or is not of the size of `wtemp`. -/
def Iteration.next (s : Iteration K p) : Option (Iteration K p) :=
  match s.select o with
  | none => none
  | some sel =>
      if sel = kept o.threshold s.w then
        let w := lineMin X y lambda o s.i s.w (scatter sel (wtempIn mode X y lambda sel s.w))
        some ⟨w, kept o.threshold s.w, some sel, s.wp ++ [w], s.i + 1⟩
      else none

/-- `while i < maxIter`, with `maxIter - i` iterations left. -/
def Iteration.loop : ℕ → Iteration K p → Option (Iteration K p)
  | 0, s => some s
  | left + 1, s =>
      (s.next mode X y lambda o).bind fun s' =>
        if norm1 (s'.w - s.w) < o.optTol then some s'
        else if 10 ^ 100 < norm1 (s'.w - s.w) then some s'
        else Iteration.loop left s'

/-- `LassoIteratedRidge` in a mode.  `none`: the function ends with an error. -/
def lassoIteratedRidgeIn : Option (Iteration K p) :=
  let lambda := lambda / (2 : ℕ)
  let w := ridge X y lambda
  let s : Iteration K p := ⟨w, ∅, none, [w], 0⟩
  if lambda = 0 then some s else s.loop mode X y lambda o o.maxIter

/-- The default mode. -/
def lassoIteratedRidge : Option (Iteration K p) := lassoIteratedRidgeIn .pseudoinverse X y lambda o

/-! ### An iteration -/

variable {mode X y lambda o} {threshold : K} {w : Fin p → K}

/-- The small weights set to 0. -/
def truncate (threshold : K) (w : Fin p → K) (j : Fin p) : K := if |w j| ≤ threshold then 0 else w j

/-- The ridge regression of an iteration. -/
def reweigh (X : Matrix (Fin n) (Fin p) K) (y : Fin n → K) (lambda threshold : K)
    (w : Fin p → K) : Fin p → K :=
  scatter (kept threshold w) (wtemp X y lambda (kept threshold w) w)

theorem mem_kept {j : Fin p} : j ∈ kept threshold w ↔ threshold < |w j| := by
  rw [kept, Finset.mem_filter, and_iff_right (Finset.mem_univ j), not_le]

omit [LinearOrder K] in
theorem scatter_mem {s : Finset (Fin p)} (u : s → K) (j : s) : scatter s u j = u j :=
  dif_pos j.2

omit [LinearOrder K] in
theorem scatter_notMem {s : Finset (Fin p)} (u : s → K) {j : Fin p} (hj : j ∉ s) :
    scatter s u j = 0 :=
  dif_neg hj

omit [LinearOrder K] in
/-- What is selected of `X'*X` works on the weights that are kept. -/
theorem XX_mulVec (s : Finset (Fin p)) (u : s → K) (j : s) :
    (XX X s *ᵥ u) j = ((Xᵀ * X) *ᵥ scatter s u) j := by
  show ∑ k : s, (Xᵀ * X) j k * u k = ∑ k, (Xᵀ * X) j k * scatter s u k
  rw [← Finset.sum_subset (Finset.subset_univ s), ← Finset.sum_coe_sort s]
  · exact Finset.sum_congr rfl fun k _ => by rw [scatter_mem]
  · exact fun k _ hk => by rw [scatter_notMem u hk, mul_zero]

theorem reweigh_of_le {j : Fin p} (h : |w j| ≤ threshold) : reweigh X y lambda threshold w j = 0 :=
  scatter_notMem _ fun hj => (mem_kept.mp hj).not_ge h

variable [IsStrictOrderedRing K]

theorem ne_zero_of_mem_kept (hthreshold : 0 ≤ threshold) {j : Fin p} (hj : j ∈ kept threshold w) :
    w j ≠ 0 :=
  abs_pos.mp (hthreshold.trans_lt (mem_kept.mp hj))

omit [LinearOrder K] [IsStrictOrderedRing K] in
theorem XX_eq (X : Matrix (Fin n) (Fin p) K) (s : Finset (Fin p)) :
    XX X s = (Xnz X s)ᵀ * Xnz X s := rfl

/-- The matrix of an iteration. -/
theorem det_ne_zero (hlambda : 0 < lambda) {s : Finset (Fin p)} (hs : ∀ j ∈ s, w j ≠ 0) :
    (lhs X lambda s w).det ≠ 0 := by
  rw [lhs, XX_eq]
  refine det_gram_add_diagonal _ fun j => mul_pos hlambda (abs_pos.mpr ?_)
  exact one_div_ne_zero (hs j j.2)

/-- **The system** of an iteration, weight by weight. -/
theorem wtemp_eq_iff (hlambda : 0 < lambda) {s : Finset (Fin p)} (hs : ∀ j ∈ s, w j ≠ 0)
    {u : s → K} : wtemp X y lambda s w = u ↔
      ∀ j : s, (XX X s *ᵥ u) j + lambda / |w j| * u j = Xy X y s j := by
  rw [wtemp, solve_eq_iff (det_ne_zero hlambda hs), funext_iff]
  refine forall_congr' fun j => ?_
  rw [lhs, add_mulVec, Pi.add_apply, mulVec_diagonal, abs_div, abs_one, mul_one_div]

omit [LinearOrder K] [IsStrictOrderedRing K] in
theorem scatter_restrict {s : Finset (Fin p)} {v : Fin p → K} (hv : ∀ j, j ∉ s → v j = 0) :
    scatter s (fun j => v j) = v := by
  funext j
  by_cases hj : j ∈ s
  · exact scatter_mem (fun j : s => v j) ⟨j, hj⟩
  · rw [scatter_notMem _ hj, hv j hj]

omit [LinearOrder K] [IsStrictOrderedRing K] in
theorem slope_eq_sub (v : Fin p → K) (j : Fin p) :
    slope X y v j = 2 * (((Xᵀ * X) *ᵥ v) j - (Xᵀ *ᵥ y) j) := by
  rw [L1LeastSquares.slope, mulVec_sub, mulVec_mulVec, Pi.sub_apply]

/-- **The ridge regression** of an iteration has one solution, which its slopes
tell. -/
theorem reweigh_eq_iff_slope (hlambda : 0 < lambda) (hthreshold : 0 ≤ threshold) {v : Fin p → K}
    (hv : ∀ j, |w j| ≤ threshold → v j = 0) :
    reweigh X y lambda threshold w = v ↔
      ∀ j, threshold < |w j| → slope X y v j * |w j| = -(2 * lambda * v j) := by
  have hrestrict : scatter (kept threshold w) (fun j => v j) = v :=
    scatter_restrict fun j hj => hv j (not_lt.mp fun h => hj (mem_kept.mpr h))
  have hentry (j : kept threshold w) :
      (XX X (kept threshold w) *ᵥ fun j : kept threshold w => v j) j + lambda / |w j| * v j =
          Xy X y (kept threshold w) j ↔
        slope X y v j * |w j| = -(2 * lambda * v j) := by
    have hw : |w j| ≠ 0 := (hthreshold.trans_lt (mem_kept.mp j.2)).ne'
    rw [XX_mulVec, hrestrict, slope_eq_sub, Xy]
    constructor
    · intro h
      rw [← h]
      field_simp
      ring
    · intro h
      field_simp
      linarith
  have hsolve : reweigh X y lambda threshold w = v ↔
      wtemp X y lambda (kept threshold w) w = fun j : kept threshold w => v j := by
    constructor
    · intro h
      funext j
      rw [← h]
      exact (scatter_mem _ j).symm
    · intro h
      rw [reweigh, h, hrestrict]
  rw [hsolve, wtemp_eq_iff hlambda fun j hj => ne_zero_of_mem_kept hthreshold hj, Subtype.forall]
  refine forall_congr' fun j => ⟨fun h hj => ?_, fun h hj => ?_⟩
  · exact (hentry ⟨j, mem_kept.mpr hj⟩).mp (h (mem_kept.mpr hj))
  · exact (hentry ⟨j, hj⟩).mpr (h (mem_kept.mp hj))

theorem slope_reweigh (hlambda : 0 < lambda) (hthreshold : 0 ≤ threshold) {j : Fin p}
    (hj : threshold < |w j|) :
    slope X y (reweigh X y lambda threshold w) j * |w j| =
      -(2 * lambda * reweigh X y lambda threshold w j) :=
  (reweigh_eq_iff_slope hlambda hthreshold fun _ h => reweigh_of_le h).mp rfl j hj

omit [IsStrictOrderedRing K] in
theorem truncate_of_lt {j : Fin p} (h : threshold < |w j|) : truncate threshold w j = w j :=
  if_neg h.not_ge

omit [IsStrictOrderedRing K] in
theorem truncate_of_le {j : Fin p} (h : |w j| ≤ threshold) : truncate threshold w j = 0 := if_pos h

/-- **An iteration** makes the weights better than those that it keeps, by what it
changes of them. -/
theorem objective_reweigh (hlambda : 0 < lambda) (hthreshold : 0 ≤ threshold) :
    objective X y (2 * lambda) (reweigh X y lambda threshold w) +
        ∑ j, lambda * ((truncate threshold w j - reweigh X y lambda threshold w j) ^ 2 /
          |truncate threshold w j|) ≤
      objective X y (2 * lambda) (truncate threshold w) := by
  have hnonneg : 0 ≤ 2 * lambda := mul_nonneg zero_le_two hlambda.le
  have hle (j : Fin p) (hj : truncate threshold w j = 0) : |w j| ≤ threshold := by
    by_contra hlt
    rw [truncate_of_lt (not_le.mp hlt)] at hj
    rw [hj, abs_zero] at hlt
    exact hlt hthreshold
  have h := objective_reweighted (X := X) (y := y) (v := truncate threshold w)
    (w := reweigh X y lambda threshold w) hnonneg ?_ fun j hj => reweigh_of_le (hle j hj)
  · rwa [mul_div_cancel_left₀ lambda two_ne_zero] at h
  · intro j hj
    have hlt : threshold < |w j| := by
      by_contra hge
      exact hj (truncate_of_le (not_lt.mp hge))
    rw [truncate_of_lt hlt]
    exact slope_reweigh hlambda hthreshold hlt

/-- The slope of a weight that an iteration leaves as it is. -/
theorem balanced_iff_slope {t g : K} (hlambda : 0 ≤ lambda) (ht : t ≠ 0) :
    Balanced lambda g t ↔ g * |t| = -(lambda * t) := by
  have habs : |t| ≠ 0 := abs_ne_zero.mpr ht
  constructor
  · rintro ⟨-, h⟩
    apply mul_right_cancel₀ ht
    calc g * |t| * t = g * t * |t| := mul_right_comm _ _ _
      _ = -(lambda * (|t| * |t|)) := by rw [h]; ring
      _ = -(lambda * t) * t := by rw [abs_mul_abs_self]; ring
  · intro h
    refine ⟨le_of_eq ?_, ?_⟩
    · apply mul_right_cancel₀ habs
      calc |g| * |t| = |g * (|t|)| := by rw [abs_mul, abs_abs]
        _ = lambda * |t| := by rw [h, abs_neg, abs_mul, abs_of_nonneg hlambda]
    · apply mul_right_cancel₀ habs
      calc g * t * |t| = g * |t| * t := mul_right_comm _ _ _
        _ = -(lambda * (|t| * |t|)) := by rw [h, abs_mul_abs_self]; ring
        _ = -(lambda * |t|) * |t| := by ring

/-- **An iteration changes nothing** exactly at weights without small ones that are
the best among those that are 0 where they are. -/
theorem reweigh_eq_iff (hlambda : 0 < lambda) (hthreshold : 0 ≤ threshold) :
    reweigh X y lambda threshold w = w ↔
      (∀ j, w j ≠ 0 → threshold < |w j|) ∧
        ∀ v, (∀ j, w j = 0 → v j = 0) →
          objective X y (2 * lambda) w ≤ objective X y (2 * lambda) v := by
  have hpos : 0 < 2 * lambda := mul_pos two_pos hlambda
  have hfix (hlarge : ∀ j, w j ≠ 0 → threshold < |w j|) : reweigh X y lambda threshold w = w ↔
      ∀ j, w j ≠ 0 → Balanced (2 * lambda) (slope X y w j) (w j) := by
    have hsmall (j : Fin p) (hj : |w j| ≤ threshold) : w j = 0 := by
      by_contra hne
      exact (hlarge j hne).not_ge hj
    rw [reweigh_eq_iff_slope hlambda hthreshold hsmall]
    constructor
    · exact fun h j hj => (balanced_iff_slope hpos.le hj).mpr (h j (hlarge j hj))
    · intro h j hj
      have hne : w j ≠ 0 := abs_pos.mp (hthreshold.trans_lt hj)
      exact (balanced_iff_slope hpos.le hne).mp (h j hne)
  constructor
  · intro heq
    have hlarge (j : Fin p) (hj : w j ≠ 0) : threshold < |w j| := by
      by_contra hle
      rw [← heq] at hj
      exact hj (reweigh_of_le (not_lt.mp hle))
    have hbalanced := (hfix hlarge).mp heq
    refine ⟨hlarge, fun v hv => objective_le_of_balanced fun j hj => hbalanced j fun hzero => ?_⟩
    rw [hzero, hv j hzero] at hj
    exact hj rfl
  · rintro ⟨hlarge, hbest⟩
    refine (hfix hlarge).mpr fun j hj => balanced_of_coordinateMin_eq hpos.le ?_
    refine coordinateMin_eq_of_le hpos.le (fun _ => hpos) (hbest _ fun i hi => ?_)
    have hne : i ≠ j := by
      rintro rfl
      exact hj hi
    rw [Function.update_of_ne hne, hi]

theorem reweigh_eq_iff_two : reweigh X₂ y₂ (1 / 2) (1 / 10) ![0, 1] = ![0, 1] ↔
    (∀ j, (![0, 1] : Fin 2 → ℚ) j ≠ 0 → 1 / 10 < |(![0, 1] : Fin 2 → ℚ) j|) ∧
      ∀ v, (∀ j, (![0, 1] : Fin 2 → ℚ) j = 0 → v j = 0) →
        objective X₂ y₂ (2 * (1 / 2)) ![0, 1] ≤ objective X₂ y₂ (2 * (1 / 2)) v :=
  reweigh_eq_iff (by decide +kernel) (by decide +kernel)

/-- A slope that a small change of its weight has put off. -/
theorem exists_balanced_of_near {g t u e : K} (hlambda : 0 ≤ lambda) (hthreshold : 0 < threshold)
    (ht : threshold < |t|) (he : |u - t| ≤ e) (hclose : e < threshold)
    (hg : g * |t| = -(lambda * u)) :
    ∃ g', Balanced lambda g' u ∧ |g - g'| ≤ lambda * (e / threshold) := by
  have habs : 0 < |t| := hthreshold.trans ht
  have hu : u ≠ 0 := by
    rintro rfl
    rw [zero_sub, abs_neg] at he
    linarith
  have hu' : |u| ≠ 0 := abs_ne_zero.mpr hu
  refine ⟨-(lambda * (u / |u|)), (balanced_iff_slope hlambda hu).mpr ?_, ?_⟩
  · rw [neg_mul, mul_assoc, div_mul_cancel₀ _ hu']
  · have hdiff : g - -(lambda * (u / |u|)) = lambda * (u / |u|) * ((|t| - |u|) / |t|) := by
      have hg' : g = -(lambda * u) / |t| := by rw [← hg, mul_div_cancel_right₀ _ habs.ne']
      rw [hg']
      field_simp
      ring
    have hone : |u / (|u|)| = 1 := by rw [abs_div, abs_abs, div_self hu']
    rw [hdiff, abs_mul, abs_mul, hone, mul_one, abs_of_nonneg hlambda, abs_div, abs_abs]
    refine mul_le_mul_of_nonneg_left ?_ hlambda
    have hreverse : |(|t| - |u|)| ≤ e := (abs_abs_sub_abs_le t u).trans (by rwa [abs_sub_comm])
    exact div_le_div₀ ((abs_nonneg _).trans he) hreverse hthreshold ht.le

/-- **After an iteration that has changed little**, the weights are nearly the best
among those that are 0 where it has set them to 0. -/
theorem objective_reweigh_sub_le (hlambda : 0 < lambda) {optTol : K} (hoptTol : optTol < threshold)
    (hnear : norm1 (reweigh X y lambda threshold w - w) < optTol) {v : Fin p → K}
    (hv : ∀ j, |w j| ≤ threshold → v j = 0) :
    objective X y (2 * lambda) (reweigh X y lambda threshold w) -
        objective X y (2 * lambda) v ≤
      2 * lambda * (optTol / threshold) * norm1 (v - reweigh X y lambda threshold w) := by
  have hoptTol₀ : 0 < optTol := (norm1_nonneg _).trans_lt hnear
  have hthreshold : 0 < threshold := hoptTol₀.trans hoptTol
  refine objective_sub_le fun j hj => ?_
  have hlt : threshold < |w j| := by
    by_contra hle
    rw [hv j (not_lt.mp hle), reweigh_of_le (not_lt.mp hle)] at hj
    exact hj rfl
  have hj' : |reweigh X y lambda threshold w j - w j| ≤ optTol :=
    (abs_le_norm1 (reweigh X y lambda threshold w - w) j).trans hnear.le
  exact exists_balanced_of_near (mul_nonneg zero_le_two hlambda.le) hthreshold hlt hj' hoptTol
    (slope_reweigh hlambda hthreshold.le hlt)

/-! ### The other modes -/

section Modes

variable {s : Finset (Fin p)}

theorem det_ne_zero_simple (hlambda : 0 < lambda) (hs : ∀ j ∈ s, w j ≠ 0) :
    (lhsSimple X lambda s w).det ≠ 0 := by
  have hpos (j : s) : |w j| / lambda ≠ 0 := div_ne_zero (abs_ne_zero.mpr (hs j j.2)) hlambda.ne'
  have hone : (1 : Matrix s s K) = Dinv lambda s w * diagonal fun j : s => lambda * |1 / w j| := by
    rw [Dinv, diagonal_mul_diagonal, ← diagonal_one]
    congr 1
    funext j
    rw [abs_div, abs_one]
    have hw : |w j| ≠ 0 := abs_ne_zero.mpr (hs j j.2)
    have hl := hlambda.ne'
    field_simp
  have hprod : ∏ j : s, |w j| / lambda ≠ 0 := Finset.prod_ne_zero_iff.mpr fun j _ => hpos j
  rw [lhsSimple, hone, ← mul_add, det_mul, Dinv, det_diagonal]
  exact mul_ne_zero hprod (det_ne_zero hlambda hs)

theorem wtempSimple_eq (hlambda : 0 < lambda) (hs : ∀ j ∈ s, w j ≠ 0) :
    wtempSimple X y lambda s w = wtemp X y lambda s w := by
  symm
  rw [wtemp_eq_iff hlambda hs]
  intro j
  have hsolve := congrFun (mulVec_solve (det_ne_zero_simple (X := X) hlambda hs)
    (Dinv lambda s w *ᵥ Xy X y s)) j
  rw [← wtempSimple, lhsSimple, add_mulVec, one_mulVec, Pi.add_apply, ← mulVec_mulVec, Dinv,
    mulVec_diagonal, mulVec_diagonal] at hsolve
  have hw : |w j| ≠ 0 := abs_ne_zero.mpr (hs j j.2)
  have hl := hlambda.ne'
  field_simp at hsolve ⊢
  linarith

theorem det_ne_zero_figueredo (sqrt : K → K) (hlambda : 0 < lambda) :
    (lhsFigueredo sqrt X lambda s w).det ≠ 0 := by
  have hgram : G sqrt s w * XX X s * G sqrt s w = (Xnz X s * G sqrt s w)ᵀ * (Xnz X s * G sqrt s w) := by
    rw [XX_eq, transpose_mul, G, diagonal_transpose]
    simp only [Matrix.mul_assoc]
  rw [lhsFigueredo, hgram]
  exact det_gram_add_diagonal _ fun _ => hlambda

theorem wtempFigueredo_eq {sqrt : K → K} (hsqrt : ∀ t, 0 ≤ t → sqrt t * sqrt t = t)
    (hlambda : 0 < lambda) (hs : ∀ j ∈ s, w j ≠ 0) :
    wtempFigueredo sqrt X y lambda s w = wtemp X y lambda s w := by
  symm
  rw [wtemp_eq_iff hlambda hs]
  intro j
  have hsolve := congrFun (mulVec_solve (det_ne_zero_figueredo (X := X) (s := s) (w := w) sqrt hlambda)
    (G sqrt s w *ᵥ Xy X y s)) j
  rw [wtempFigueredo]
  generalize solve (lhsFigueredo sqrt X lambda s w) (G sqrt s w *ᵥ Xy X y s) = z at hsolve ⊢
  rw [lhsFigueredo, add_mulVec, Pi.add_apply, ← mulVec_mulVec, ← mulVec_mulVec, G, mulVec_diagonal,
    mulVec_diagonal, mulVec_diagonal] at hsolve
  have hw : |w j| ≠ 0 := abs_ne_zero.mpr (hs j j.2)
  have hroot := hsqrt |w j| (abs_nonneg _)
  have hroot₀ : sqrt |w j| ≠ 0 := by
    intro h
    rw [h, mul_zero] at hroot
    exact hw hroot.symm
  apply mul_left_cancel₀ hroot₀
  rw [← hsolve, mul_add, G, mulVec_diagonal]
  congr 1
  calc sqrt |w j| * (lambda / |w j| * (sqrt |w j| * z j))
      = lambda / |w j| * (sqrt |w j| * sqrt |w j|) * z j := by ring
    _ = lambda * z j := by rw [hroot, div_mul_cancel₀ _ hw]

theorem det_ne_zero_lowRank (hlambda : 0 < lambda) (hs : ∀ j ∈ s, w j ≠ 0) :
    (lhsLowRank X lambda s w).det ≠ 0 := by
  rw [lhsLowRank, Matrix.mul_assoc, det_one_add_mul_comm, Matrix.mul_assoc, ← XX_eq, add_comm]
  exact det_ne_zero_simple hlambda hs

theorem wtempLowRank_eq (hlambda : 0 < lambda) (hs : ∀ j ∈ s, w j ≠ 0) :
    wtempLowRank X y lambda s w = wtemp X y lambda s w := by
  symm
  rw [wtemp_eq_iff hlambda hs]
  intro j
  have hsolve := mulVec_solve (det_ne_zero_lowRank (X := X) hlambda hs)
    ((Xnz X s * Dinv lambda s w) *ᵥ Xy X y s)
  -- the solution of the `n` by `n` system is what `Xnz` makes of the weights
  have hfit : Xnz X s *ᵥ wtempLowRank X y lambda s w =
      solve (lhsLowRank X lambda s w) ((Xnz X s * Dinv lambda s w) *ᵥ Xy X y s) := by
    rw [wtempLowRank]
    generalize solve (lhsLowRank X lambda s w)
      ((Xnz X s * Dinv lambda s w) *ᵥ Xy X y s) = t at hsolve ⊢
    rw [mulVec_mulVec, mulVec_sub, ← hsolve, mulVec_mulVec, lhsLowRank, add_mulVec, one_mulVec,
      add_sub_cancel_right]
  have hw : |w j| ≠ 0 := abs_ne_zero.mpr (hs j j.2)
  have hl := hlambda.ne'
  have hentry : wtempLowRank X y lambda s w j = |w j| / lambda *
      (Xy X y s j - (XX X s *ᵥ wtempLowRank X y lambda s w) j) := by
    rw [XX_eq, ← mulVec_mulVec, hfit]
    exact mulVec_diagonal _ _ _
  rw [hentry]
  field_simp
  ring

/-- The square roots of the mode are right. -/
def Mode.Exact : Mode K → Prop
  | .figueredo sqrt => ∀ t, 0 ≤ t → sqrt t * sqrt t = t
  | _ => True

/-- The systems of all modes have one solution. -/
theorem detIn_ne_zero (mode : Mode K) (hlambda : 0 < lambda) (hs : ∀ j ∈ s, w j ≠ 0) :
    detIn mode X lambda s w ≠ 0 := by
  cases mode with
  | pseudoinverse => exact det_ne_zero hlambda hs
  | figueredo sqrt => exact det_ne_zero_figueredo sqrt hlambda
  | simple => exact det_ne_zero_simple hlambda hs
  | lowRank => exact det_ne_zero_lowRank hlambda hs

/-- Each mode computes the weights of mode 0. -/
theorem wtempIn_eq (hmode : mode.Exact) (hlambda : 0 < lambda) (hs : ∀ j ∈ s, w j ≠ 0) :
    wtempIn mode X y lambda s w = wtemp X y lambda s w := by
  cases mode with
  | pseudoinverse => rfl
  | figueredo sqrt => exact wtempFigueredo_eq hmode hlambda hs
  | simple => exact wtempSimple_eq hlambda hs
  | lowRank => exact wtempLowRank_eq hlambda hs

/-- An iteration is that of mode 0. -/
theorem Iteration.next_mode (hmode : mode.Exact) (hlambda : 0 < lambda)
    (hthreshold : 0 ≤ o.threshold) (s : Iteration K p) :
    s.next mode X y lambda o = s.next .pseudoinverse X y lambda o := by
  unfold next
  split
  next => rfl
  next sel _ =>
    by_cases hsel : sel = kept o.threshold s.w
    · have hkept : ∀ j ∈ sel, s.w j ≠ 0 := fun j hj =>
        ne_zero_of_mem_kept hthreshold (hsel ▸ hj)
      rw [wtempIn_eq hmode hlambda hkept]
      rfl
    · rw [if_neg hsel, if_neg hsel]

theorem Iteration.loop_mode (hmode : mode.Exact) (hlambda : 0 < lambda)
    (hthreshold : 0 ≤ o.threshold) (left : ℕ) (s : Iteration K p) :
    s.loop mode X y lambda o left = s.loop .pseudoinverse X y lambda o left := by
  induction left generalizing s with
  | zero => rfl
  | succ left ih =>
      rw [loop, loop, next_mode hmode hlambda hthreshold]
      simp only [ih]

/-- **The modes agree**: in each iteration the system of the mode has one solution, and the
iteration is that of mode 0, and so is the function. -/
theorem modes_agree (hmode : mode.Exact) (hlambda : 0 < lambda) (hthreshold : 0 ≤ o.threshold) :
    (∀ w, detIn mode X (lambda / (2 : ℕ)) (kept o.threshold w) w ≠ 0) ∧
      (∀ s, Iteration.next mode X y (lambda / (2 : ℕ)) o s =
        Iteration.next .pseudoinverse X y (lambda / (2 : ℕ)) o s) ∧
      lassoIteratedRidgeIn mode X y lambda o = lassoIteratedRidge X y lambda o := by
  have hhalf : 0 < lambda / (2 : ℕ) := div_pos hlambda (Nat.cast_pos.mpr two_pos)
  refine ⟨fun w => ?_, fun s => s.next_mode hmode hhalf hthreshold, ?_⟩
  · exact detIn_ne_zero mode hhalf fun j hj => ne_zero_of_mem_kept hthreshold hj
  · rw [lassoIteratedRidge, lassoIteratedRidgeIn, lassoIteratedRidgeIn]
    simp only [Iteration.loop_mode hmode hhalf hthreshold]

end Modes

/-- One datapoint with one feature. -/
noncomputable def X₁ : Matrix (Fin 1) (Fin 1) ℝ := Matrix.of ![![1]]

noncomputable def y₁ : Fin 1 → ℝ := ![3]

/-- A least value on an interval, where there is one. -/
noncomputable def leastOn (f : ℝ → ℝ) (b : ℝ) : ℝ :=
  open Classical in
  if h : ∃ t ∈ Set.Icc 0 b, ∀ u ∈ Set.Icc 0 b, f t ≤ f u then h.choose else 0

noncomputable def o₁ : Options ℝ := ⟨1, 1, 1, 100, leastOn⟩

theorem modes_agree_one :
    (∀ w, detIn (.figueredo Real.sqrt) X₁ (2 / (2 : ℕ)) (kept 1 w) w ≠ 0) ∧
      (∀ s, Iteration.next (.figueredo Real.sqrt) X₁ y₁ (2 / (2 : ℕ)) o₁ s =
        Iteration.next .pseudoinverse X₁ y₁ (2 / (2 : ℕ)) o₁ s) ∧
      lassoIteratedRidgeIn (.figueredo Real.sqrt) X₁ y₁ 2 o₁ = lassoIteratedRidge X₁ y₁ 2 o₁ :=
  modes_agree (o := o₁) (fun _ => Real.mul_self_sqrt) two_pos zero_le_one

/-! ### The loop -/

section Loop

omit [IsStrictOrderedRing K]

/-- The iteration where `XX` and `Xy` are those of the weights that are kept. -/
def Iteration.advance (X : Matrix (Fin n) (Fin p) K) (y : Fin n → K) (lambda : K) (o : Options K)
    (s : Iteration K p) : Iteration K p :=
  let w := lineMin X y lambda o s.i s.w (reweigh X y lambda o.threshold s.w)
  ⟨w, kept o.threshold s.w, some (kept o.threshold s.w), s.wp ++ [w], s.i + 1⟩

variable {s t : Iteration K p}

theorem Iteration.next_of_select (h : s.select o = some (kept o.threshold s.w)) :
    s.next .pseudoinverse X y lambda o = some (s.advance X y lambda o) := by
  rw [Iteration.next, h]
  exact if_pos rfl

/-- What has been selected is right as long as the zeros have not changed. -/
theorem Iteration.next_eq (h : s.selected = some s.keptOld) :
    s.next .pseudoinverse X y lambda o = some (s.advance X y lambda o) := by
  apply next_of_select
  rw [select]
  split
  next heq => rw [h, heq]
  next => rfl

theorem Iteration.next_first (h : s.selected = none) (hkept : s.keptOld = ∅) :
    s.next .pseudoinverse X y lambda o =
      if kept o.threshold s.w = ∅ then none else some (s.advance X y lambda o) := by
  split
  next hempty => rw [next, select, if_pos (hempty.trans hkept.symm), h]
  next hne =>
    apply next_of_select
    rw [select, hkept, if_neg hne]

/-- Each column of `wp` is one iteration away from the one before it. -/
structure Iteration.Traced (X : Matrix (Fin n) (Fin p) K) (y : Fin n → K) (lambda : K)
    (o : Options K) (s : Iteration K p) : Prop where
  trace : ∀ k a, s.wp[k]? = some a → k < s.i →
    s.wp[k + 1]? = some (lineMin X y lambda o k a (reweigh X y lambda o.threshold a))
  last : s.wp[s.i]? = some s.w
  length : s.wp.length = s.i + 1

theorem Iteration.Traced.advance (h : s.Traced X y lambda o) :
    (s.advance X y lambda o).Traced X y lambda o where
  trace k a ha hk := by
    have hlength := h.length
    have hk' : k ≤ s.i := Nat.lt_succ_iff.mp hk
    rw [Iteration.advance, List.getElem?_append_left (by omega)] at ha
    rcases hk'.eq_or_lt with rfl | hlt
    · obtain rfl := Option.some.inj (h.last.symm.trans ha)
      rw [Iteration.advance, ← hlength, List.getElem?_concat_length]
    · rw [Iteration.advance, List.getElem?_append_left (by omega)]
      exact h.trace k a ha hlt
  last := by
    rw [Iteration.advance]
    show (s.wp ++ [_])[s.i + 1]? = _
    rw [← h.length, List.getElem?_concat_length]
  length := by rw [Iteration.advance, List.length_append, h.length, List.length_singleton]

/-- Once `XX` exists, no iteration fails. -/
theorem Iteration.exists_loop (h : s.Traced X y lambda o) (hselected : s.selected = some s.keptOld)
    (left : ℕ) : ∃ t, s.loop .pseudoinverse X y lambda o left = some t ∧ t.Traced X y lambda o := by
  induction left generalizing s with
  | zero => exact ⟨s, rfl, h⟩
  | succ left ih =>
      rw [loop, next_eq hselected, Option.bind_some]
      split
      · exact ⟨_, rfl, h.advance⟩
      split
      · exact ⟨_, rfl, h.advance⟩
      · exact ih h.advance rfl

theorem Iteration.exists_loop_first (h : s.Traced X y lambda o) (hselected : s.selected = none)
    (hkept : s.keptOld = ∅) (left : ℕ) :
    (s.loop .pseudoinverse X y lambda o left = none ∧ 0 < left ∧ kept o.threshold s.w = ∅) ∨
      (¬(0 < left ∧ kept o.threshold s.w = ∅) ∧
        ∃ t, s.loop .pseudoinverse X y lambda o left = some t ∧ t.Traced X y lambda o) := by
  cases left with
  | zero => exact .inr ⟨fun hlt => absurd hlt.1 (lt_irrefl 0), s, rfl, h⟩
  | succ left =>
      rw [loop, next_first hselected hkept]
      by_cases hempty : kept o.threshold s.w = ∅
      · rw [if_pos hempty]
        exact .inl ⟨rfl, left.succ_pos, hempty⟩
      · refine .inr ⟨fun hlt => hempty hlt.2, ?_⟩
        rw [if_neg hempty, Option.bind_some]
        split
        · exact ⟨_, rfl, h.advance⟩
        split
        · exact ⟨_, rfl, h.advance⟩
        · exact Iteration.exists_loop h.advance rfl left

end Loop

/-! ### The function -/

omit [IsStrictOrderedRing K] in
theorem lassoIteratedRidge_cases (X : Matrix (Fin n) (Fin p) K) (y : Fin n → K) (lambda : K)
    (o : Options K) :
    (lassoIteratedRidge X y lambda o = none ∧ lambda / (2 : ℕ) ≠ 0 ∧ 0 < o.maxIter ∧
        kept o.threshold (ridge X y (lambda / (2 : ℕ))) = ∅) ∨
      (¬(lambda / (2 : ℕ) ≠ 0 ∧ 0 < o.maxIter ∧
          kept o.threshold (ridge X y (lambda / (2 : ℕ))) = ∅) ∧
        ∃ s, lassoIteratedRidge X y lambda o = some s ∧ s.Traced X y (lambda / (2 : ℕ)) o) := by
  have hstart : Iteration.Traced X y (lambda / (2 : ℕ)) o
      ⟨ridge X y (lambda / (2 : ℕ)), ∅, none, [ridge X y (lambda / (2 : ℕ))], 0⟩ :=
    ⟨fun k a _ hk => absurd hk (Nat.not_lt_zero k), rfl, rfl⟩
  rw [lassoIteratedRidge, lassoIteratedRidgeIn]
  by_cases hzero : lambda / (2 : ℕ) = 0
  · exact .inr ⟨fun h => h.1 hzero, _, if_pos hzero, hstart⟩
  · show ((if lambda / (2 : ℕ) = 0 then _ else _) = none ∧ _) ∨ _
    rw [if_neg hzero]
    rcases Iteration.exists_loop_first hstart rfl rfl o.maxIter with
      ⟨hnone, hmax, hempty⟩ | ⟨hnot, s, hs, htraced⟩
    · exact .inl ⟨hnone, hzero, hmax, hempty⟩
    · exact .inr ⟨fun h => hnot h.2, s, hs, htraced⟩

/-- **The function fails** exactly if no weight of the ridge regression is kept:
then the zeros are those that the loop starts from, and `XX` is not selected. -/
theorem lassoIteratedRidge_eq_none_iff (X : Matrix (Fin n) (Fin p) K) (y : Fin n → K) (lambda : K)
    (o : Options K) :
    lassoIteratedRidge X y lambda o = none ↔
      lambda ≠ 0 ∧ 0 < o.maxIter ∧ ∀ j, |ridge X y (lambda / (2 : ℕ)) j| ≤ o.threshold := by
  have htwo : ((2 : ℕ) : K) ≠ 0 := Nat.cast_ne_zero.mpr two_ne_zero
  have hhalf : lambda / (2 : ℕ) ≠ 0 ↔ lambda ≠ 0 := div_ne_zero_iff.trans (and_iff_left htwo)
  have hempty : kept o.threshold (ridge X y (lambda / (2 : ℕ))) = ∅ ↔
      ∀ j, |ridge X y (lambda / (2 : ℕ)) j| ≤ o.threshold := by
    rw [Finset.eq_empty_iff_forall_notMem]
    exact forall_congr' fun j => mem_kept.not.trans not_lt
  rw [← hhalf, ← hempty]
  rcases lassoIteratedRidge_cases X y lambda o with ⟨hnone, h⟩ | ⟨hnot, s, hs, -⟩
  · exact iff_of_true hnone h
  · refine iff_of_false ?_ hnot
    rw [hs]
    exact Option.some_ne_none s

/-- A threshold that no weight of the ridge regression is above. -/
theorem lassoIteratedRidge_eq_none_iff_two :
    lassoIteratedRidge X₂ y₂ 1 ⟨10, 1 / 100, 2, 100, fun _ _ => 0⟩ = none ↔
      (1 : ℚ) ≠ 0 ∧ 0 < 10 ∧ ∀ j, |ridge X₂ y₂ (1 / (2 : ℕ)) j| ≤ 2 :=
  lassoIteratedRidge_eq_none_iff X₂ y₂ 1 ⟨10, 1 / 100, 2, 100, fun _ _ => 0⟩

omit [IsStrictOrderedRing K] in
theorem traced_of_eq_some {s : Iteration K p} (hs : lassoIteratedRidge X y lambda o = some s) :
    s.Traced X y (lambda / (2 : ℕ)) o := by
  rcases lassoIteratedRidge_cases X y lambda o with
    ⟨hnone, -⟩ | ⟨-, t, ht, htraced⟩
  · exact absurd (hnone.symm.trans hs) (Option.some_ne_none s).symm
  · obtain rfl := Option.some.inj (ht.symm.trans hs)
    exact htraced

omit [IsStrictOrderedRing K] in
theorem lassoLineObj_eq (X : Matrix (Fin n) (Fin p) K) (y : Fin n → K) (lambda : K)
    (wold wnew : Fin p → K) (step : K) :
    lassoLineObj X y lambda wold wnew step =
      objective X y (2 * lambda) (wold + step • (wnew - wold)) := by
  rw [lassoLineObj]
  generalize wold + step • (wnew - wold) = w
  have hXX : w ⬝ᵥ ((Xᵀ * X) *ᵥ w) = (X *ᵥ w) ⬝ᵥ (X *ᵥ w) := by
    rw [← mulVec_mulVec, dotProduct_mulVec, vecMul_transpose]
  have hXy : w ⬝ᵥ ((2 : ℕ) • (Xᵀ *ᵥ y)) = 2 * ((X *ᵥ w) ⬝ᵥ y) := by
    rw [dotProduct_smul, dotProduct_mulVec, vecMul_transpose, nsmul_eq_mul, Nat.cast_ofNat]
  rw [objective, squares_eq, sub_dotProduct, dotProduct_sub, dotProduct_sub,
    dotProduct_comm y (X *ᵥ w), hXX, hXy, Nat.cast_ofNat]
  ring

/-- What is relied on of `fminbnd`: the step that it finds is no worse than 1, the step
to the weights of the iteration themselves. -/
def NoWorse (X : Matrix (Fin n) (Fin p) K) (y : Fin n → K) (lambda : K) (o : Options K) : Prop :=
  ∀ wold wnew, lassoLineObj X y lambda wold wnew
      (o.fminbnd (lassoLineObj X y lambda wold wnew) (1 / o.optTol)) ≤
    lassoLineObj X y lambda wold wnew 1

omit [IsStrictOrderedRing K] in
/-- A line minimization is no worse than the step that it takes the direction of. -/
theorem objective_lineMin_le (hfmin : NoWorse X y lambda o) (i : ℕ) (wold w : Fin p → K) :
    objective X y (2 * lambda) (lineMin X y lambda o i wold w) ≤ objective X y (2 * lambda) w := by
  rw [lineMin]
  split
  · have h := hfmin wold w
    rw [lassoLineObj_eq, lassoLineObj_eq, one_smul, add_sub_cancel] at h
    exact h
  · exact le_rfl

omit [IsStrictOrderedRing K] in
theorem lineMin_eq_zero {i : ℕ} {wold w : Fin p → K} {j : Fin p} (hold : wold j = 0)
    (hw : w j = 0) : lineMin X y lambda o i wold w j = 0 := by
  rw [lineMin]
  split
  · show wold j + _ * (w j - wold j) = 0
    rw [hold, hw, sub_self, mul_zero, add_zero]
  · exact hw

omit [IsStrictOrderedRing K] in
theorem Iteration.Traced.lt {s : Iteration K p} (h : s.Traced X y lambda o) {k : ℕ}
    {b : Fin p → K} (hb : s.wp[k + 1]? = some b) : k < s.i := by
  have hlength := h.length
  have hk := (List.getElem?_eq_some_iff.mp hb).1
  omega

/-- A weight that is 0 in a column of `wp` is 0 in all later ones. -/
theorem Iteration.Traced.eq_zero {s : Iteration K p} (h : s.Traced X y lambda o)
    (hthreshold : 0 ≤ o.threshold) {k l : ℕ} (hkl : k ≤ l) {a b : Fin p → K}
    (ha : s.wp[k]? = some a) (hb : s.wp[l]? = some b) {j : Fin p} (hj : a j = 0) : b j = 0 := by
  induction l, hkl using Nat.le_induction generalizing b with
  | base =>
      obtain rfl := Option.some.inj (ha.symm.trans hb)
      exact hj
  | succ l _ ih =>
      have hlt := h.lt hb
      obtain ⟨c, hc⟩ : ∃ c, s.wp[l]? = some c := by
        have hlength := h.length
        exact ⟨_, List.getElem?_eq_getElem (by omega)⟩
      obtain rfl := Option.some.inj ((h.trace l c hc hlt).symm.trans hb)
      refine lineMin_eq_zero (ih hc) (reweigh_of_le ?_)
      rw [ih hc, abs_zero]
      exact hthreshold

/-- **From each column of `wp` to the next** the weights become better than those
that are kept, and a weight that is 0 stays 0 in every later column. -/
theorem lassoIteratedRidge_descent (hlambda : 0 < lambda) (hthreshold : 0 ≤ o.threshold)
    (hfmin : NoWorse X y (lambda / (2 : ℕ)) o) {s : Iteration K p}
    (hs : lassoIteratedRidge X y lambda o = some s) {k : ℕ} {a : Fin p → K}
    (ha : s.wp[k]? = some a) :
    (∀ b, s.wp[k + 1]? = some b →
        objective X y lambda b ≤ objective X y lambda (truncate o.threshold a)) ∧
      ∀ (l : ℕ) (b : Fin p → K), k ≤ l → s.wp[l]? = some b → ∀ j, a j = 0 → b j = 0 := by
  have htraced := traced_of_eq_some hs
  refine ⟨fun b hb => ?_, fun l b hkl hb j hj => htraced.eq_zero hthreshold hkl ha hb hj⟩
  obtain rfl := Option.some.inj ((htraced.trace k a ha (htraced.lt hb)).symm.trans hb)
  have hhalf : 0 < lambda / (2 : ℕ) := div_pos hlambda (Nat.cast_pos.mpr two_pos)
  have htwice : 2 * (lambda / (2 : ℕ)) = lambda := by
    rw [Nat.cast_ofNat]
    exact mul_div_cancel₀ lambda two_ne_zero
  have hline := objective_lineMin_le hfmin k a (reweigh X y (lambda / (2 : ℕ)) o.threshold a)
  have hridge := objective_reweigh (X := X) (y := y) (w := a) hhalf hthreshold
  have hsum : 0 ≤ ∑ j, lambda / (2 : ℕ) * ((truncate o.threshold a j -
      reweigh X y (lambda / (2 : ℕ)) o.threshold a j) ^ 2 / |truncate o.threshold a j|) :=
    Finset.sum_nonneg fun j _ =>
      mul_nonneg hhalf.le (div_nonneg (sq_nonneg _) (abs_nonneg _))
  rw [htwice] at hline hridge
  linarith

theorem leastOn_le {f : ℝ → ℝ} (hf : Continuous f) {b u : ℝ} (hu : u ∈ Set.Icc 0 b) :
    f (leastOn f b) ≤ f u := by
  have h : ∃ t ∈ Set.Icc 0 b, ∀ u ∈ Set.Icc 0 b, f t ≤ f u :=
    isCompact_Icc.exists_isMinOn ⟨u, hu⟩ hf.continuousOn
  rw [leastOn, dif_pos h]
  exact h.choose_spec.2 u hu

theorem noWorse_leastOn (X : Matrix (Fin n) (Fin p) ℝ) (y : Fin n → ℝ) (lambda : ℝ) :
    NoWorse X y lambda ⟨1, 1, 1, 100, leastOn⟩ := by
  intro wold wnew
  refine leastOn_le ?_ ⟨zero_le_one, (div_one 1).ge⟩
  unfold lassoLineObj norm1
  fun_prop

theorem ridge_one : ridge X₁ y₁ (2 / (2 : ℕ)) = ![3 / 2] := by
  have hdet : (X₁ᵀ * X₁ + diagonal fun _ => (2 / (2 : ℕ) : ℝ)).det ≠ 0 := by
    rw [det_fin_one]
    norm_num [X₁, Matrix.mul_apply]
  rw [ridge, LinearSolve.solve_eq_iff hdet]
  funext j
  fin_cases j
  norm_num [X₁, y₁, Matrix.mulVec, dotProduct, Matrix.mul_apply, Matrix.diagonal]

theorem lassoIteratedRidge_descent_one : ∃ s a, lassoIteratedRidge X₁ y₁ 2 o₁ = some s ∧
    s.wp[0]? = some a ∧
      (∀ b, s.wp[0 + 1]? = some b → objective X₁ y₁ 2 b ≤ objective X₁ y₁ 2 (truncate 1 a)) ∧
      ∀ (l : ℕ) (b : Fin 1 → ℝ), 0 ≤ l → s.wp[l]? = some b → ∀ j, a j = 0 → b j = 0 := by
  have hkept : kept o₁.threshold (ridge X₁ y₁ (2 / (2 : ℕ))) ≠ ∅ := by
    rw [ridge_one]
    apply Finset.ne_empty_of_mem (a := 0)
    rw [mem_kept]
    norm_num [o₁]
  have hs : lassoIteratedRidge X₁ y₁ 2 o₁ = some (Iteration.advance X₁ y₁ (2 / (2 : ℕ)) o₁
      ⟨ridge X₁ y₁ (2 / (2 : ℕ)), ∅, none, [ridge X₁ y₁ (2 / (2 : ℕ))], 0⟩) := by
    have htwo : (2 / (2 : ℕ) : ℝ) ≠ 0 := by norm_num
    rw [lassoIteratedRidge, lassoIteratedRidgeIn]
    refine (if_neg htwo).trans ?_
    show Iteration.loop .pseudoinverse X₁ y₁ (2 / (2 : ℕ)) o₁ 1 _ = _
    rw [Iteration.loop, Iteration.next_first rfl rfl, if_neg hkept, Option.bind_some, Iteration.loop]
    split_ifs <;> rfl
  exact ⟨_, _, hs, rfl, lassoIteratedRidge_descent (o := o₁) (k := 0) two_pos zero_le_one
    (noWorse_leastOn X₁ y₁ _) hs rfl⟩

/-- **At the end**, where the last iteration has changed less than `optTol` and was
no line minimization, the weights are nearly the best among those that are 0 where the
small ones were. -/
theorem lassoIteratedRidge_near_min (hlambda : 0 < lambda) (hoptTol : o.optTol < o.threshold)
    {s : Iteration K p} (hs : lassoIteratedRidge X y lambda o = some s) {k : ℕ} {a : Fin p → K}
    (ha : s.wp[k]? = some a) (hk : s.i = k + 1) (hline : ¬(0 < k ∧ k % o.lineMinIter = 0))
    (hnear : norm1 (s.w - a) < o.optTol) {v : Fin p → K} (hv : ∀ j, |a j| ≤ o.threshold → v j = 0) :
    objective X y lambda s.w - objective X y lambda v ≤
      lambda * (o.optTol / o.threshold) * norm1 (v - s.w) := by
  have htraced := traced_of_eq_some hs
  have hstep := htraced.trace k a ha (by omega)
  rw [← hk, htraced.last, lineMin, if_neg hline] at hstep
  have hw : s.w = reweigh X y (lambda / (2 : ℕ)) o.threshold a := Option.some.inj hstep
  have hhalf : 0 < lambda / (2 : ℕ) := div_pos hlambda (Nat.cast_pos.mpr two_pos)
  have htwice : 2 * (lambda / (2 : ℕ)) = lambda := by
    rw [Nat.cast_ofNat]
    exact mul_div_cancel₀ lambda two_ne_zero
  rw [hw] at hnear ⊢
  have h := objective_reweigh_sub_le (X := X) (y := y) hhalf hoptTol hnear hv
  rwa [htwice] at h

def o₂ : Options ℚ := ⟨10, 1 / 100, 1 / 10, 100, fun _ _ => 0⟩

def run₂ : Iteration ℚ 2 := (lassoIteratedRidge X₂ y₂ 1 o₂).get (by decide +kernel)

theorem lassoIteratedRidge_near_min_two :
    objective X₂ y₂ 1 run₂.w - objective X₂ y₂ 1 ![0, 1] ≤
      1 * (1 / 100 / (1 / 10)) * norm1 (![0, 1] - run₂.w) :=
  lassoIteratedRidge_near_min (o := o₂) (k := 1) (a := ![0, 2436 / 1871]) one_pos
    (by decide +kernel) (Option.some_get _).symm (by decide +kernel) (by decide +kernel) (by decide)
    (by decide +kernel) (by decide +kernel)

end A2PM.Lasso
