/-
A2PM/LassoGrafting.lean

`LassoGrafting` of `model_build/lasso`, one of the methods between which
`lasso.m` chooses, in exact arithmetic.

A pass frees the weight that is most out of balance, and leaves the free ones to
`fminunc`.  Where `fminunc` converges, a weight that it has just been given is
balanced, so the loop never frees the same weight twice in a row and never gives
up (`lassoGrafting_ends`).  Weights that are not free only have to pass the test
for the end; it accepts what is near a minimum (`lassoGrafting_near_min`).

`fminunc` is a parameter, by the function that it is called for and the weights
that it starts from.
-/
import A2PM.FuelLoop
import A2PM.LassoIteratedRidge
import Mathlib.Data.List.MinMax
import Mathlib.Data.Sign.Basic

namespace A2PM.Lasso

open Matrix L1LeastSquares

variable {K : Type*} [Field K] [LinearOrder K] {n p : ℕ}

/-! ### The function -/

/-- `computeSlope`. -/
def computeSlope {ι : Type*} (w : ι → K) (lambda : K) (g : ι → K) (threshold : K) (j : ι) : K :=
  if threshold < |w j| then g j + lambda * SignType.sign (w j)
  else if g j < -lambda then g j - lambda
  else if lambda < g j then g j + lambda
  else 0

/-- `LassoObj`, for the weights that are free: the value, the gradient and the
Hessian. -/
def lassoObj (X : Matrix (Fin n) (Fin p) K) (y : Fin n → K) (lambda threshold : K)
    (free : Finset (Fin p)) (w : free → K) : K × (free → K) × Matrix free free K :=
  ((w ⬝ᵥ (XX X free *ᵥ w) - (2 : ℕ) * (w ⬝ᵥ Xy X y free) + y ⬝ᵥ y) + lambda * norm1 w,
    computeSlope w lambda ((2 : ℕ) • (XX X free *ᵥ w) - (2 : ℕ) • Xy X y free) threshold,
    (2 : ℕ) • XX X free)

/-- The options, and `fminunc`: the weights that it returns, and
`output.iterations`. -/
structure GraftingOptions (K : Type*) (p : ℕ) where
  maxIter : ℕ
  optTol : K
  threshold : K
  fminunc : (free : Finset (Fin p)) → ((free → K) → K × (free → K) × Matrix free free K) →
    (free → K) → (free → K) × ℕ

/-- The variables of the loop. -/
structure Grafting (K : Type*) (p : ℕ) where
  w : Fin p → K
  free : Finset (Fin p)
  /-- `none` for -1. -/
  oldmaxpos : Option (Fin p)
  oldmaxpos2 : Option (Fin p)
  iteration : ℕ
  it : ℕ
  /-- The columns of `wp`. -/
  wp : List (Fin p → K)

/-- How the loop ends. -/
inductive GraftingEnd
  | solutionFound | cantIntroduce | maxIter
  deriving DecidableEq

variable (X : Matrix (Fin n) (Fin p) K) (y : Fin n → K) (lambda : K) (o : GraftingOptions K p)

/-- `computeSlope(w,lambda/2,XX*w-Xy,threshold)`. -/
def Grafting.g (s : Grafting K p) : Fin p → K :=
  computeSlope s.w (lambda / (2 : ℕ)) ((Xᵀ * X) *ᵥ s.w - Xᵀ *ᵥ y) o.threshold

/-- `max`: the first position of the greatest value. -/
def maxpos (g : Fin p → K) : Option (Fin p) := (List.finRange p).argmax fun j => |g j|

/-- Solve with all free variables, and update them. -/
def Grafting.solve (s : Grafting K p) (free : Finset (Fin p)) (maxpos : Fin p) : Grafting K p :=
  let r := o.fminunc free (lassoObj X y lambda o.threshold free) fun j => s.w j
  let w := scatter free r.1
  ⟨w, Finset.univ.filter fun j => o.threshold ≤ |w j|, some maxpos, s.oldmaxpos,
    s.iteration + r.2, s.it + 1, s.wp ++ [w]⟩

/-- The condition of the loop and its body. -/
def Grafting.pass (s : Grafting K p) : Grafting K p ⊕ Grafting K p × GraftingEnd :=
  if s.iteration < o.maxIter then
    if ∀ j, |s.g X y lambda o j| ≤ lambda + o.optTol then .inr (s, .solutionFound)
    else match maxpos (s.g X y lambda o) with
      | some maxpos =>
          let free := insert maxpos s.free
          if s.oldmaxpos = some maxpos ∧ s.oldmaxpos = s.oldmaxpos2 then
            .inr ({ s with free := free }, .cantIntroduce)
          else .inl (s.solve X y lambda o free maxpos)
      -- without weights the test has been passed
      | none => .inr (s, .solutionFound)
  else .inr (s, .maxIter)

/-- `LassoGrafting`, for at most `fuel` passes. -/
def lassoGrafting (fuel : ℕ) : Option (Grafting K p × GraftingEnd) :=
  FuelLoop.run (fun _ => Grafting.pass X y lambda o) fuel 0 ⟨0, ∅, none, none, 0, 0, [0]⟩

variable {X y lambda o}

/-! ### The slopes -/

section Slopes

variable {ι : Type*} {w g : ι → K} {threshold : K} {j : ι}

theorem computeSlope_of_lt (h : threshold < |w j|) :
    computeSlope w lambda g threshold j = g j + lambda * SignType.sign (w j) :=
  if_pos h

variable [IsStrictOrderedRing K]

/-- Half of everything. -/
theorem computeSlope_half (w : ι → K) (lambda : K) (g : ι → K) (threshold : K) (j : ι) :
    computeSlope w (lambda / 2) (fun j => g j / 2) threshold j =
      computeSlope w lambda g threshold j / 2 := by
  have hlow : g j / 2 < -(lambda / 2) ↔ g j < -lambda := by
    rw [← neg_div]
    exact div_lt_div_iff_of_pos_right two_pos
  have hhigh : lambda / 2 < g j / 2 ↔ lambda < g j := div_lt_div_iff_of_pos_right two_pos
  simp only [computeSlope, hlow, hhigh]
  split
  · ring
  · split
    · ring
    · split
      · ring
      · exact (zero_div 2).symm

/-- What the slope of a small weight tells about the gradient. -/
theorem abs_le_of_computeSlope {e : K} (hlambda : 0 ≤ lambda) (he : 0 ≤ e) (h : |w j| ≤ threshold)
    (hslope : |computeSlope w lambda g threshold j| ≤ 2 * lambda + e) : |g j| ≤ lambda + e := by
  rw [computeSlope, if_neg h.not_gt] at hslope
  split at hslope
  next hlow =>
    rw [abs_of_neg (by linarith)] at hslope
    rw [abs_of_neg (by linarith)]
    linarith
  next hlow =>
    split at hslope
    next hhigh =>
      rw [abs_of_pos (by linarith)] at hslope
      rw [abs_of_pos (by linarith)]
      linarith
    next hhigh =>
      refine (abs_le.mpr ⟨not_lt.mp hlow, not_lt.mp hhigh⟩).trans ?_
      exact le_add_of_nonneg_right he

end Slopes

variable [IsStrictOrderedRing K]

/-- The slopes of the loop are half of those of the objective. -/
theorem Grafting.g_eq (s : Grafting K p) (j : Fin p) :
    s.g X y lambda o j = computeSlope s.w lambda (slope X y s.w) o.threshold j / 2 := by
  have hslope : (Xᵀ * X) *ᵥ s.w - Xᵀ *ᵥ y = fun j => slope X y s.w j / 2 := by
    funext j
    rw [slope_eq_sub, mul_div_cancel_left₀ _ two_ne_zero]
    rfl
  rw [Grafting.g, hslope, Nat.cast_ofNat]
  exact computeSlope_half ..

omit [IsStrictOrderedRing K] in
/-- The gradient of `LassoObj` is that of the objective. -/
theorem lassoObj_gradient (free : Finset (Fin p)) (u : free → K) (threshold : K) (j : free) :
    (lassoObj X y lambda threshold free u).2.1 j =
      computeSlope (scatter free u) lambda (slope X y (scatter free u)) threshold j := by
  have hgradient : ((2 : ℕ) • (XX X free *ᵥ u) - (2 : ℕ) • Xy X y free) j =
      slope X y (scatter free u) j := by
    rw [Pi.sub_apply, Pi.smul_apply, Pi.smul_apply, XX_mulVec, slope_eq_sub, nsmul_eq_mul,
      nsmul_eq_mul, ← mul_sub, Nat.cast_ofNat]
    rfl
  show computeSlope u lambda _ threshold j = _
  simp only [computeSlope, hgradient, scatter_mem]

/-! ### A pass -/

omit [IsStrictOrderedRing K] in
/-- What a pass does. -/
theorem Grafting.pass_cases (X : Matrix (Fin n) (Fin p) K) (y : Fin n → K) (lambda : K)
    (o : GraftingOptions K p) (s : Grafting K p) :
    s.pass X y lambda o = .inr (s, .maxIter) ∧ o.maxIter ≤ s.iteration ∨
      s.iteration < o.maxIter ∧
        (s.pass X y lambda o = .inr (s, .solutionFound) ∧
            (∀ j, |s.g X y lambda o j| ≤ lambda + o.optTol) ∨
          ∃ k, lambda + o.optTol < |s.g X y lambda o k| ∧
            (s.pass X y lambda o = .inr ({ s with free := insert k s.free }, .cantIntroduce) ∧
                s.oldmaxpos = some k ∨
              s.pass X y lambda o = .inl (s.solve X y lambda o (insert k s.free) k))) := by
  rw [Grafting.pass]
  by_cases hiter : s.iteration < o.maxIter
  · refine .inr ⟨hiter, ?_⟩
    rw [if_pos hiter]
    by_cases htest : ∀ j, |s.g X y lambda o j| ≤ lambda + o.optTol
    · exact .inl ⟨if_pos htest, htest⟩
    · rw [if_neg htest]
      obtain ⟨j, hj⟩ := not_forall.mp htest
      obtain ⟨k, hk⟩ : ∃ k, maxpos (s.g X y lambda o) = some k := by
        rw [← Option.ne_none_iff_exists', maxpos, Ne, List.argmax_eq_none]
        exact List.ne_nil_of_mem (List.mem_finRange j)
      have hmax : |s.g X y lambda o j| ≤ |s.g X y lambda o k| :=
        List.le_of_mem_argmax (f := fun j => |s.g X y lambda o j|) (List.mem_finRange j) hk
      refine .inr ⟨k, (not_le.mp hj).trans_le hmax, ?_⟩
      rw [hk]
      show (if _ then _ else _) = _ ∧ _ ∨ (if _ then _ else _) = _
      by_cases hold : s.oldmaxpos = some k ∧ s.oldmaxpos = s.oldmaxpos2
      · exact .inl ⟨if_pos hold, hold.1⟩
      · exact .inr (if_neg hold)
  · exact .inl ⟨if_neg hiter, not_lt.mp hiter⟩

variable (X y lambda o)

/-- `fminunc` converges: the gradient at the weights that it returns is small. -/
def Converges : Prop :=
  ∀ (free : Finset (Fin p)) start (j : free), |(lassoObj X y lambda o.threshold free
    (o.fminunc free (lassoObj X y lambda o.threshold free) start).1).2.1 j| ≤ o.optTol

/-- The weights that `fminunc` has found are balanced; the one that was freed last is
among them. -/
def Grafting.Solved (s : Grafting K p) : Prop :=
  ∀ j, o.threshold < |s.w j| ∨ s.oldmaxpos = some j →
    |computeSlope s.w lambda (slope X y s.w) o.threshold j| ≤ o.optTol

variable {X y lambda o}

theorem Grafting.solved_solve (hthreshold : 0 ≤ o.threshold) (h : Converges X y lambda o)
    (s : Grafting K p) (free : Finset (Fin p)) (k : Fin p) :
    (s.solve X y lambda o (insert k free) k).Solved X y lambda o := by
  intro j hj
  have hfree : j ∈ insert k free := by
    rcases hj with hlarge | hlast
    · by_contra hnot
      have hzero : (s.solve X y lambda o (insert k free) k).w j = 0 := scatter_notMem _ hnot
      rw [hzero, abs_zero] at hlarge
      exact hthreshold.not_gt hlarge
    · rw [← Option.some.inj hlast]
      exact Finset.mem_insert_self k free
  have hgradient := h (insert k free) (fun j => s.w j) ⟨j, hfree⟩
  rwa [lassoObj_gradient] at hgradient

/-- A weight that is balanced is not freed. -/
theorem Grafting.Solved.oldmaxpos_ne (hlambda : 0 ≤ lambda) (hoptTol : 0 ≤ o.optTol)
    {s : Grafting K p} (h : s.Solved X y lambda o) {k : Fin p}
    (hk : lambda + o.optTol < |s.g X y lambda o k|) : s.oldmaxpos ≠ some k := by
  intro hlast
  have hsmall := h k (.inr hlast)
  rw [Grafting.g_eq, abs_div, abs_two] at hk
  linarith

/-! ### The loop -/

theorem Grafting.solved_start (hthreshold : 0 ≤ o.threshold) :
    (⟨0, ∅, none, none, 0, 0, [0]⟩ : Grafting K p).Solved X y lambda o := by
  rintro j (hlarge | hlast)
  · have hzero : o.threshold < |(0 : K)| := hlarge
    rw [abs_zero] at hzero
    exact absurd hzero hthreshold.not_gt
  · cases hlast

/-- The loop, with `left` iterations of `fminunc` left. -/
theorem exists_run_pass (hlambda : 0 ≤ lambda) (hoptTol : 0 ≤ o.optTol)
    (hthreshold : 0 ≤ o.threshold) (hfminunc : Converges X y lambda o)
    (hiterations : ∀ free start,
      0 < (o.fminunc free (lassoObj X y lambda o.threshold free) start).2)
    {left : ℕ} (k : ℕ) {s : Grafting K p} (hs : s.Solved X y lambda o)
    (hleft : o.maxIter ≤ s.iteration + left) :
    ∃ fuel t e, FuelLoop.run (fun _ => Grafting.pass X y lambda o) fuel k s = some (t, e) ∧
      e ≠ .cantIntroduce := by
  induction left generalizing k s with
  | zero =>
      rcases s.pass_cases X y lambda o with ⟨hend, -⟩ | ⟨hiter, -⟩
      · exact ⟨1, s, .maxIter, FuelLoop.run_inr hend 0, by decide⟩
      · omega
  | succ left ih =>
      rcases s.pass_cases X y lambda o with
        ⟨hend, -⟩ | ⟨-, ⟨hend, -⟩ | ⟨maxpos, hviolated, ⟨-, hlast⟩ | hnext⟩⟩
      · exact ⟨1, s, .maxIter, FuelLoop.run_inr hend 0, by decide⟩
      · exact ⟨1, s, .solutionFound, FuelLoop.run_inr hend 0, by decide⟩
      · exact absurd hlast (hs.oldmaxpos_ne hlambda hoptTol hviolated)
      · have hpos := hiterations (insert maxpos s.free) fun j => s.w j
        have hiteration : (s.solve X y lambda o (insert maxpos s.free) maxpos).iteration =
            s.iteration + (o.fminunc (insert maxpos s.free)
              (lassoObj X y lambda o.threshold (insert maxpos s.free)) fun j => s.w j).2 := rfl
        obtain ⟨fuel, t, e, hr, he⟩ := ih (k + 1)
          (s.solved_solve hthreshold hfminunc s.free maxpos) (by omega)
        exact ⟨fuel + 1, t, e, by rw [FuelLoop.run_inl hnext, hr], he⟩

/-- **The loop** ends with weights for which the test holds, or with its iterations
used up; it never comes to "Cant Introduce Anything". -/
theorem lassoGrafting_ends (hlambda : 0 ≤ lambda) (hoptTol : 0 ≤ o.optTol)
    (hthreshold : 0 ≤ o.threshold) (hfminunc : Converges X y lambda o)
    (hiterations : ∀ free start,
      0 < (o.fminunc free (lassoObj X y lambda o.threshold free) start).2) :
    ∃ fuel s e, lassoGrafting X y lambda o fuel = some (s, e) ∧ e ≠ .cantIntroduce :=
  exists_run_pass hlambda hoptTol hthreshold hfminunc hiterations 0
    (Grafting.solved_start hthreshold) (Nat.le_add_left _ _)

/-- The slope of a weight is near one that leaves it where it is, but for what a small
weight is. -/
theorem Grafting.term_ge (hlambda : 0 ≤ lambda) (hoptTol : 0 ≤ o.optTol)
    (hthreshold : 0 ≤ o.threshold) {s : Grafting K p} (h : s.Solved X y lambda o)
    (htest : ∀ j, |s.g X y lambda o j| ≤ lambda + o.optTol) (v : Fin p → K) (j : Fin p) :
    -(2 * o.optTol * |v j - s.w j| + 2 * lambda * |s.w j - truncate o.threshold s.w j|) ≤
      slope X y s.w j * (v j - s.w j) + lambda * (|v j| - |s.w j|) := by
  by_cases hj : |s.w j| ≤ o.threshold
  · have hslope : |slope X y s.w j| ≤ lambda + 2 * o.optTol := by
      have hg := htest j
      rw [Grafting.g_eq, abs_div, abs_two] at hg
      refine abs_le_of_computeSlope hlambda (mul_nonneg zero_le_two hoptTol) hj ?_
      linarith
    have hmove : -((lambda + 2 * o.optTol) * |v j - s.w j|) ≤ slope X y s.w j * (v j - s.w j) := by
      calc -((lambda + 2 * o.optTol) * |v j - s.w j|)
          ≤ -(|slope X y s.w j| * |v j - s.w j|) :=
            neg_le_neg (mul_le_mul_of_nonneg_right hslope (abs_nonneg _))
        _ = -|slope X y s.w j * (v j - s.w j)| := by rw [abs_mul]
        _ ≤ slope X y s.w j * (v j - s.w j) := neg_abs_le _
    have hnorm : lambda * |v j - s.w j| ≤ lambda * (|v j| + |s.w j|) :=
      mul_le_mul_of_nonneg_left (abs_sub _ _) hlambda
    rw [truncate_of_le hj, sub_zero]
    linarith
  · have hlt := not_le.mp hj
    have hslope := h j (.inl hlt)
    rw [computeSlope_of_lt hlt] at hslope
    have hw : s.w j ≠ 0 := abs_pos.mp (hthreshold.trans_lt hlt)
    have hbalanced : Balanced lambda (-(lambda * SignType.sign (s.w j))) (s.w j) := by
      refine (balanced_iff_slope hlambda hw).mpr ?_
      rw [neg_mul, mul_assoc, sign_mul_abs]
    have hnear : |slope X y s.w j - -(lambda * SignType.sign (s.w j))| ≤ o.optTol := by
      rwa [sub_neg_eq_add]
    have hge := hbalanced.ge hnear (v j)
    rw [truncate_of_lt hlt, sub_self, abs_zero, mul_zero, add_zero]
    have hmore : 0 ≤ o.optTol * |v j - s.w j| := mul_nonneg hoptTol (abs_nonneg _)
    linarith

/-- What holds where the loop has found a solution. -/
theorem solved_of_solutionFound (hthreshold : 0 ≤ o.threshold) (hfminunc : Converges X y lambda o)
    {fuel : ℕ} {s : Grafting K p} (hs : lassoGrafting X y lambda o fuel = some (s, .solutionFound)) :
    s.Solved X y lambda o ∧ ∀ j, |s.g X y lambda o j| ≤ lambda + o.optTol := by
  refine FuelLoop.run_inv (fun _ s => s.Solved X y lambda o)
    (fun r => r.2 = .solutionFound →
      r.1.Solved X y lambda o ∧ ∀ j, |r.1.g X y lambda o j| ≤ lambda + o.optTol)
    ?_ ?_ (Grafting.solved_start hthreshold) hs rfl
  · intro _ s t hs ht
    rcases s.pass_cases X y lambda o with
      ⟨hend, -⟩ | ⟨-, ⟨hend, -⟩ | ⟨k, -, ⟨hend, -⟩ | hnext⟩⟩
    · cases ht.symm.trans hend
    · cases ht.symm.trans hend
    · cases ht.symm.trans hend
    · cases ht.symm.trans hnext
      exact s.solved_solve hthreshold hfminunc s.free k
  · intro _ s r hs hr hfound
    rcases s.pass_cases X y lambda o with
      ⟨hend, -⟩ | ⟨-, ⟨hend, htest⟩ | ⟨k, -, ⟨hend, -⟩ | hnext⟩⟩
    · cases hr.symm.trans hend
      cases hfound
    · cases hr.symm.trans hend
      exact ⟨hs, htest⟩
    · cases hr.symm.trans hend
      cases hfound
    · cases hr.symm.trans hnext

/-- **Near the minimum**, where the loop has found a solution. -/
theorem lassoGrafting_near_min (hlambda : 0 ≤ lambda) (hoptTol : 0 ≤ o.optTol)
    (hthreshold : 0 ≤ o.threshold) (hfminunc : Converges X y lambda o) {fuel : ℕ}
    {s : Grafting K p} (hs : lassoGrafting X y lambda o fuel = some (s, .solutionFound))
    (v : Fin p → K) :
    objective X y lambda s.w - objective X y lambda v ≤
      2 * o.optTol * norm1 (v - s.w) + 2 * lambda * norm1 (s.w - truncate o.threshold s.w) := by
  obtain ⟨hsolved, htest⟩ := solved_of_solutionFound hthreshold hfminunc hs
  have hsum : -(2 * o.optTol * norm1 (v - s.w) +
        2 * lambda * norm1 (s.w - truncate o.threshold s.w)) ≤
      ∑ j, (slope X y s.w j * (v j - s.w j) + lambda * (|v j| - |s.w j|)) := by
    rw [norm1, norm1, Finset.mul_sum, Finset.mul_sum, ← Finset.sum_add_distrib,
      ← Finset.sum_neg_distrib]
    exact Finset.sum_le_sum fun j _ =>
      Grafting.term_ge hlambda hoptTol hthreshold hsolved htest v j
  linarith [objective_ge X y lambda s.w v]

/-- Two features of one datapoint. -/
def X₁₂ : Matrix (Fin 1) (Fin 2) ℚ := Matrix.of ![![1, 1 / 2]]

/-- `fminunc` that finds the weight of the first feature, if that is free. -/
def g₂ : GraftingOptions ℚ 2 where
  maxIter := 10
  optTol := 1 / 100
  threshold := 1 / 10
  fminunc := fun free _ _ => (fun j => if (j : Fin 2).val = 0 then 5 / 2 else
    if free.card = 2 then 0 else 4, 1)

theorem converges_g₂ : Converges X₁₂ ![3] 1 g₂ := by
  intro free start
  show ∀ j : free, |(lassoObj X₁₂ ![3] 1 (1 / 10) free fun j => if (j : Fin 2).val = 0 then
    5 / 2 else if free.card = 2 then 0 else 4).2.1 j| ≤ 1 / 100
  clear start
  revert free
  decide +kernel

theorem lassoGrafting_ends_two :
    ∃ fuel s e, lassoGrafting X₁₂ ![3] 1 g₂ fuel = some (s, e) ∧ e ≠ .cantIntroduce :=
  lassoGrafting_ends (by decide) (by decide +kernel) (by decide +kernel) converges_g₂
    fun _ _ => Nat.one_pos

/-- It ends after one pass. -/
theorem lassoGrafting_g₂ : (lassoGrafting X₁₂ ![3] 1 g₂ 2).map Prod.snd = some .solutionFound := by
  decide +kernel

theorem lassoGrafting_near_min_two :
    ∃ s, lassoGrafting X₁₂ ![3] 1 g₂ 2 = some (s, .solutionFound) ∧
      objective X₁₂ ![3] 1 s.w - objective X₁₂ ![3] 1 ![1, 1] ≤
        2 * (1 / 100) * norm1 (![1, 1] - s.w) + 2 * 1 * norm1 (s.w - truncate (1 / 10) s.w) := by
  obtain ⟨⟨s, e⟩, hs, rfl⟩ := Option.map_eq_some_iff.mp lassoGrafting_g₂
  exact ⟨s, hs, lassoGrafting_near_min (o := g₂) (by decide) (by decide +kernel)
    (by decide +kernel) converges_g₂ hs ![1, 1]⟩

end A2PM.Lasso
