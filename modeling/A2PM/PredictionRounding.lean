/-
A2PM/PredictionRounding.lean

`calculate_linear_regression`, `get_predicted_rttc` and `get_predicted_mttf` of
`controller/ml_model.c` in the arithmetic of the source: differences of `int`s are
`int`s, the slopes are `float`s, and the regression is computed in `double`s and
returned as a `float`.

Where nothing overflows, the prediction is near the exact one, relative to the sum of
the absolute values of what is added up: so the rejuvenation is decided as in exact
arithmetic, unless the prediction is that near to the threshold (`predictions_near`).
For features that a VM can have nothing overflows (`exists_predictions`).
-/
import A2PM.FeaturesText
import A2PM.RoundingError
import Mathlib.Data.Rat.Floor

namespace A2PM.MlModel

open FeaturesText FloatRounding MachineInt

/-! ### In exact arithmetic -/

/-- What `get_predicted_mttf` takes from `init_features`. -/
def fromInit (initFeatures : SystemFeatures) (f : SystemFeaturesWithSlopes) :
    SystemFeaturesWithSlopes :=
  { f with
    nTh := initFeatures.nTh
    memUsed := initFeatures.memUsed
    memBuffers := initFeatures.memBuffers
    swapUsed := initFeatures.swapUsed
    cpuUser := initFeatures.cpuUser
    cpuNice := initFeatures.cpuNice
    cpuSystem := initFeatures.cpuSystem
    cpuIowait := initFeatures.cpuIowait
    cpuIdle := initFeatures.cpuIdle }

/-- The variable `f` of `get_predicted_mttf`. -/
def mttfFeatures (mem : SystemFeaturesWithSlopes)
    (lastFeatures currentFeatures initFeatures : SystemFeatures) : SystemFeaturesWithSlopes :=
  fromInit initFeatures (rttcFeatures mem lastFeatures currentFeatures)

/-- `get_predicted_mttf`; `ml_model` is not used. -/
def getPredictedMttf (_mlModel : ℤ) (lastFeatures currentFeatures initFeatures : SystemFeatures)
    (mem : SystemFeaturesWithSlopes) : ℚ :=
  calculateLinearRegression (mttfFeatures mem lastFeatures currentFeatures initFeatures)

namespace Rounded

/-! ### In the arithmetic of the source

`none`: the difference of two `int`s is no `int`, or a number becomes infinite. -/

/-- A coefficient times a feature. -/
def times (coefficient feature : ℚ) : Option ℚ := toDouble (binary64 coefficient * feature)

/-- One more term of the sum. -/
def plusTimes (s coefficient feature : ℚ) : Option ℚ :=
  (times coefficient feature).bind fun t => toDouble (s + t)

/-- `calculate_linear_regression`. -/
def calculateLinearRegression (f : SystemFeaturesWithSlopes) : Option ℚ := do
  let s ← times 0.5929 f.genTime
  let s ← plusTimes s (-0.2645) f.nThSlope
  let s ← plusTimes s (-0.0002) f.memUsedSlope
  let s ← plusTimes s 0.0002 f.memFreeSlope
  let s ← plusTimes s 0.4242 f.cpuUserSlope
  let s ← plusTimes s (-0.9884) f.cpuIdleSlope
  let s ← plusTimes s (-0.459) f.nTh
  let s ← plusTimes s 0.0002 f.memFree
  let s ← plusTimes s (-0.0013) f.memBuffers
  let s ← plusTimes s 0.0001 f.memCached
  let s ← plusTimes s (-0.0004) f.swapUsed
  let s ← plusTimes s 1.1191 f.cpuUser
  let s ← plusTimes s 0.9517 f.cpuSystem
  let s ← plusTimes s 0.8971 f.cpuIdle
  let s ← toDouble (s + binary64 242.8923)
  toFloat s

/-- The difference of two `int`s, as a `float`. -/
def intSlope (current last : ℤ) : Option ℚ :=
  (exactInt (current - last)).bind fun d => toFloat (d : ℚ)

/-- The variable `f` of `get_predicted_rttc`. -/
def rttcFeatures (mem : SystemFeaturesWithSlopes) (lastFeatures currentFeatures : SystemFeatures) :
    Option SystemFeaturesWithSlopes := do
  let genTime ← toFloat (currentFeatures.time - lastFeatures.time)
  let nThSlope ← intSlope currentFeatures.nTh lastFeatures.nTh
  let memUsedSlope ← intSlope currentFeatures.memUsed lastFeatures.memUsed
  let memFreeSlope ← intSlope currentFeatures.memFree lastFeatures.memFree
  let swapUsedSlope ← intSlope currentFeatures.swapUsed lastFeatures.swapUsed
  let swapFreeSlope ← intSlope currentFeatures.swapFree lastFeatures.swapFree
  let cpuUserSlope ← toFloat (currentFeatures.cpuUser - lastFeatures.cpuUser)
  let cpuSystemSlope ← toFloat (currentFeatures.cpuSystem - lastFeatures.cpuSystem)
  let cpuIdleSlope ← toFloat (currentFeatures.cpuIdle - lastFeatures.cpuIdle)
  -- the other fields are copied
  some { MlModel.rttcFeatures mem lastFeatures currentFeatures with
    genTime, nThSlope, memUsedSlope, memFreeSlope, swapUsedSlope, swapFreeSlope, cpuUserSlope,
    cpuSystemSlope, cpuIdleSlope }

/-- `get_predicted_rttc`. -/
def getPredictedRttc (_mlModel : ℤ) (lastFeatures currentFeatures : SystemFeatures)
    (mem : SystemFeaturesWithSlopes) : Option ℚ :=
  (rttcFeatures mem lastFeatures currentFeatures).bind calculateLinearRegression

/-- `get_predicted_mttf`. -/
def getPredictedMttf (_mlModel : ℤ) (lastFeatures currentFeatures initFeatures : SystemFeatures)
    (mem : SystemFeaturesWithSlopes) : Option ℚ :=
  (rttcFeatures mem lastFeatures currentFeatures).bind fun f =>
    calculateLinearRegression (fromInit initFeatures f)

/-! ### The terms -/

/-- The coefficients and features, in the order of the sum, for two vectors. -/
def terms (f g : SystemFeaturesWithSlopes) : List (ℚ × ℚ × ℚ) :=
  [(0.5929, f.genTime, g.genTime), (-0.2645, f.nThSlope, g.nThSlope),
    (-0.0002, f.memUsedSlope, g.memUsedSlope), (0.0002, f.memFreeSlope, g.memFreeSlope),
    (0.4242, f.cpuUserSlope, g.cpuUserSlope), (-0.9884, f.cpuIdleSlope, g.cpuIdleSlope),
    (-0.459, f.nTh, g.nTh), (0.0002, f.memFree, g.memFree), (-0.0013, f.memBuffers, g.memBuffers),
    (0.0001, f.memCached, g.memCached), (-0.0004, f.swapUsed, g.swapUsed),
    (1.1191, f.cpuUser, g.cpuUser), (0.9517, f.cpuSystem, g.cpuSystem),
    (0.8971, f.cpuIdle, g.cpuIdle)]

/-- What is added up, without the signs. -/
def mass (f : SystemFeaturesWithSlopes) : ℚ :=
  ((terms f f).map fun t => |t.1| * |t.2.1|).sum + 242.8923

/-- What the roundings amount to. -/
def margin (f : SystemFeaturesWithSlopes) : ℚ := mass f / 2 ^ 22 + 1 / 2 ^ 144

/-- The features `g` are those of `f`, as `float`s. -/
def NearFeatures (f g : SystemFeaturesWithSlopes) : Prop :=
  ∀ t ∈ terms f g, Near (1 + 1 / 2 ^ 24) (1 / 2 ^ 150) |t.2.1| t.2.1 t.2.2

theorem near_toFloat {x r : ℚ} (h : toFloat x = some r) :
    Near (1 + 1 / 2 ^ 24) (1 / 2 ^ 150) |x| x r := by
  obtain rfl := toFloat_eq_some h
  have hnear := (near_self x).binary32
  rwa [one_mul, zero_mul, zero_add] at hnear

theorem near_intSlope {current last : ℤ} {r : ℚ} (h : intSlope current last = some r) :
    Near (1 + 1 / 2 ^ 24) (1 / 2 ^ 150) |(current - last : ℚ)| (current - last) r := by
  obtain ⟨d, hd, hr⟩ := Option.bind_eq_some_iff.mp h
  obtain rfl := exactInt_eq_some hd
  rw [← Int.cast_sub]
  exact near_toFloat hr

theorem near_exact (x : ℚ) : Near (1 + 1 / 2 ^ 24) (1 / 2 ^ 150) |x| x x :=
  (near_self x).mono (by norm_num) (by norm_num)

theorem near_rttcFeatures {mem g : SystemFeaturesWithSlopes}
    {lastFeatures currentFeatures : SystemFeatures}
    (h : rttcFeatures mem lastFeatures currentFeatures = some g) :
    NearFeatures (MlModel.rttcFeatures mem lastFeatures currentFeatures) g := by
  obtain ⟨_, hgenTime, h⟩ := Option.bind_eq_some_iff.mp h
  obtain ⟨_, hnTh, h⟩ := Option.bind_eq_some_iff.mp h
  obtain ⟨_, hmemUsed, h⟩ := Option.bind_eq_some_iff.mp h
  obtain ⟨_, hmemFree, h⟩ := Option.bind_eq_some_iff.mp h
  obtain ⟨_, -, h⟩ := Option.bind_eq_some_iff.mp h
  obtain ⟨_, -, h⟩ := Option.bind_eq_some_iff.mp h
  obtain ⟨_, hcpuUser, h⟩ := Option.bind_eq_some_iff.mp h
  obtain ⟨_, -, h⟩ := Option.bind_eq_some_iff.mp h
  obtain ⟨_, hcpuIdle, h⟩ := Option.bind_eq_some_iff.mp h
  obtain rfl := Option.some.inj h
  simp only [NearFeatures, terms, List.forall_mem_cons, MlModel.rttcFeatures, near_exact,
    near_toFloat hgenTime, near_intSlope hnTh, near_intSlope hmemUsed, near_intSlope hmemFree,
    near_toFloat hcpuUser, near_toFloat hcpuIdle, true_and]
  exact List.forall_mem_nil _

theorem near_fromInit {f g : SystemFeaturesWithSlopes} (h : NearFeatures f g)
    (initFeatures : SystemFeatures) :
    NearFeatures (fromInit initFeatures f) (fromInit initFeatures g) := by
  simp only [NearFeatures, terms, List.forall_mem_cons, fromInit, near_exact, true_and] at h ⊢
  tauto

/-- The coefficients that occur. -/
theorem coefficient_mem (f g : SystemFeaturesWithSlopes) :
    ∀ t ∈ terms f g, 1 / 2 ^ 14 ≤ |t.1| ∧ |t.1| ≤ 2 := by
  simp only [terms, List.forall_mem_cons]
  norm_num [le_abs, abs_le]

/-- Such a coefficient has all the bits of a `double`. -/
theorem near_coefficient {k : ℚ} (hk : 1 / 2 ^ 14 ≤ |k|) :
    Near (1 + 1 / 2 ^ 53) 0 |k| k (binary64 k) := by
  have hbits : ((2 : ℕ) : ℚ) ^ ((-1074 : ℤ) + (53 : ℕ) - 1) ≤ |k| := by
    refine (zpow_le_zpow_right₀ (by norm_num) (by decide : _ ≤ (-14 : ℤ))).trans ?_
    norm_num at hk ⊢
    exact hk
  have h := (near_self k).rnd 53
  rw [one_mul, zero_mul, ← rndAbove_eq_rnd hbits] at h
  exact h

theorem near_constant : Near (1 + 1 / 2 ^ 53) 0 242.8923 (242.8923 : ℚ) (binary64 242.8923) := by
  have h := near_coefficient (k := 242.8923) (by rw [abs_of_pos] <;> norm_num)
  rwa [abs_of_pos (by norm_num)] at h

/-- A term. -/
theorem near_times {k x x' r : ℚ} (hk : 1 / 2 ^ 14 ≤ |k| ∧ |k| ≤ 2)
    (h : Near (1 + 1 / 2 ^ 24) (1 / 2 ^ 150) |x| x x') (hr : times k x' = some r) :
    Near ((1 + 1 / 2 ^ 24) * (1 + 1 / 2 ^ 53) ^ 2) (1 / 2 ^ 148) (|k| * |x|) (k * x) r := by
  obtain rfl := toDouble_eq_some hr
  have hterm := ((near_coefficient hk.1).mul h).binary64
  refine hterm.mono (by ring_nf; rfl) ?_
  linarith [hk.2]

/-! ### The sum -/

theorem calculateLinearRegression_eq (f g : SystemFeaturesWithSlopes) :
    calculateLinearRegression g = (times 0.5929 g.genTime).bind fun s =>
      ((terms f g).tail.foldlM (fun s t => plusTimes s t.1 t.2.2) s).bind fun s =>
        (toDouble (s + binary64 242.8923)).bind toFloat := by
  simp only [calculateLinearRegression, terms, List.tail_cons, List.foldlM_cons, List.foldlM_nil,
    Option.bind_eq_bind, Option.bind_assoc, Option.pure_def, Option.bind_some]

theorem exact_eq (f g : SystemFeaturesWithSlopes) :
    MlModel.calculateLinearRegression f = 0.5929 * f.genTime +
      ((terms f g).tail.map fun t => t.1 * t.2.1).sum + 242.8923 := by
  simp only [MlModel.calculateLinearRegression, terms, List.tail_cons, List.map_cons, List.map_nil,
    List.sum_cons, List.sum_nil]
  ring

/-- **The regression**, from slopes that have been rounded. -/
theorem calculateLinearRegression_near {f g : SystemFeaturesWithSlopes} {r : ℚ}
    (hnear : NearFeatures f g) (hr : calculateLinearRegression g = some r) :
    |r - MlModel.calculateLinearRegression f| ≤ margin f := by
  rw [calculateLinearRegression_eq f] at hr
  obtain ⟨first, hfirst, hr⟩ := Option.bind_eq_some_iff.mp hr
  obtain ⟨sum, hsum, hr⟩ := Option.bind_eq_some_iff.mp hr
  obtain ⟨total, htotal, hr⟩ := Option.bind_eq_some_iff.mp hr
  have hcoefficient := coefficient_mem f g
  have hstart := near_times (hcoefficient _ List.mem_cons_self) (hnear _ List.mem_cons_self) hfirst
  have hrest : ∀ t ∈ (terms f g).tail, (0 : ℚ) ≤ 1 / 2 ^ 148 ∧ ∀ s r,
      plusTimes s t.1 t.2.2 = some r → ∃ u, Near ((1 + 1 / 2 ^ 24) * (1 + 1 / 2 ^ 53) ^ 2)
        (1 / 2 ^ 148) (|t.1| * |t.2.1|) (t.1 * t.2.1) u ∧
          |r - (s + u)| ≤ 1 / 2 ^ 53 * |s + u| + 1 / 2 ^ 200 := by
    intro t ht
    have hmem := List.mem_of_mem_tail ht
    refine ⟨by norm_num, fun s r hr => ?_⟩
    obtain ⟨u, hu, hr⟩ := Option.bind_eq_some_iff.mp hr
    obtain rfl := toDouble_eq_some hr
    exact ⟨u, near_times (hcoefficient t hmem) (hnear t hmem) hu, abs_binary64_sub_le _⟩
  have hfold := near_foldlM (by norm_num) (by norm_num) (terms f g).tail (by norm_num) hrest hstart
    hsum
  have hlength : (terms f g).tail.length = 13 := rfl
  have hoffsets : ((terms f g).tail.map fun _ => (1 / 2 ^ 148 + 1 / 2 ^ 200 : ℚ)).sum =
      13 * (1 / 2 ^ 148 + 1 / 2 ^ 200) := by
    rw [List.map_const', List.sum_replicate, nsmul_eq_mul, hlength]
    norm_num
  have hconstant : Near ((1 + 1 / 2 ^ 24) * (1 + 1 / 2 ^ 53) ^ 2 * (1 + 1 / 2 ^ 53) ^ 13) 0 242.8923
      (242.8923 : ℚ) (binary64 242.8923) :=
    near_constant.mono (by norm_num) le_rfl
  rw [hlength, hoffsets] at hfold
  obtain rfl := toDouble_eq_some htotal
  obtain rfl := toFloat_eq_some hr
  have herror := (hfold.add hconstant).binary64.binary32
  have hmass : 0 ≤ mass f := herror.nonneg
  have hfactor : (1 + 1 / 2 ^ 24) * (1 + 1 / 2 ^ 53) ^ 2 * (1 + 1 / 2 ^ 53) ^ 13 * (1 + 1 / 2 ^ 53) *
      (1 + 1 / 2 ^ 24) - 1 ≤ (1 / 2 ^ 22 : ℚ) := by norm_num
  rw [exact_eq f g]
  refine herror.error.trans ?_
  rw [margin]
  refine add_le_add ?_ (by norm_num)
  calc _ ≤ 1 / 2 ^ 22 * mass f := mul_le_mul_of_nonneg_right hfactor hmass
    _ = mass f / 2 ^ 22 := one_div_mul_eq_div _ _

theorem getPredictedRttc_near {mlModel : ℤ} {lastFeatures currentFeatures : SystemFeatures}
    {mem : SystemFeaturesWithSlopes} {r : ℚ}
    (h : getPredictedRttc mlModel lastFeatures currentFeatures mem = some r) :
    |r - MlModel.getPredictedRttc mlModel lastFeatures currentFeatures mem| ≤
      margin (MlModel.rttcFeatures mem lastFeatures currentFeatures) := by
  obtain ⟨g, hg, hr⟩ := Option.bind_eq_some_iff.mp h
  exact calculateLinearRegression_near (near_rttcFeatures hg) hr

theorem getPredictedMttf_near {mlModel : ℤ}
    {lastFeatures currentFeatures initFeatures : SystemFeatures} {mem : SystemFeaturesWithSlopes}
    {r : ℚ} (h : getPredictedMttf mlModel lastFeatures currentFeatures initFeatures mem = some r) :
    |r - MlModel.getPredictedMttf mlModel lastFeatures currentFeatures initFeatures mem| ≤
      margin (mttfFeatures mem lastFeatures currentFeatures initFeatures) := by
  obtain ⟨g, hg, hr⟩ := Option.bind_eq_some_iff.mp h
  exact calculateLinearRegression_near (near_fromInit (near_rttcFeatures hg) initFeatures) hr

/-! ### Where nothing overflows

The `mem_free` and the `mem_cached` of the stack may be any `int`s. -/

section

/-- The range of counts and sizes. -/
def Count (z : ℤ) : Prop := 0 ≤ z ∧ z < 2 ^ 31

/-- Counts and sizes that are not negative, and times and percentages that are not huge. -/
structure Moderate (p : SystemFeatures) : Prop where
  nTh : Count p.nTh
  memUsed : Count p.memUsed
  memFree : Count p.memFree
  memBuffers : Count p.memBuffers
  swapUsed : Count p.swapUsed
  swapFree : Count p.swapFree
  time : |p.time| ≤ 2 ^ 90
  cpuUser : |p.cpuUser| ≤ 2 ^ 90
  cpuSystem : |p.cpuSystem| ≤ 2 ^ 90
  cpuIdle : |p.cpuIdle| ≤ 2 ^ 90

theorem abs_intCast_le {z : ℤ} (hlow : -2 ^ 31 ≤ z) (hhigh : z < 2 ^ 31) : |(z : ℚ)| ≤ 2 ^ 92 := by
  have habs : |(z : ℚ)| ≤ 2 ^ 31 := by
    rw [← Int.cast_abs]
    exact_mod_cast abs_le.mpr ⟨hlow, hhigh.le⟩
  exact habs.trans (by norm_num)

theorem Count.abs_le {z : ℤ} (h : Count z) : |(z : ℚ)| ≤ 2 ^ 92 :=
  abs_intCast_le (by linarith [h.1]) h.2

theorem Count.abs_sub_le {current last : ℤ} (hcurrent : Count current) (hlast : Count last) :
    |(current - last : ℚ)| ≤ 2 ^ 92 := by
  rw [← Int.cast_sub]
  exact abs_intCast_le (by linarith [hcurrent.1, hlast.2]) (by linarith [hcurrent.2, hlast.1])

theorem abs_slope_le {current last : ℚ} (hcurrent : |current| ≤ 2 ^ 90) (hlast : |last| ≤ 2 ^ 90) :
    |current - last| ≤ 2 ^ 92 := by
  have h := abs_sub current last
  linarith

theorem exists_slope {current last : ℚ} (hcurrent : |current| ≤ 2 ^ 90) (hlast : |last| ≤ 2 ^ 90) :
    ∃ r, toFloat (current - last) = some r :=
  (exists_toFloat ((abs_slope_le hcurrent hlast).trans (by norm_num))).imp fun _ h => h.1

theorem exists_intSlope {current last : ℤ} (hcurrent : Count current) (hlast : Count last) :
    ∃ r, intSlope current last = some r := by
  have hle := Count.abs_sub_le hcurrent hlast
  rw [← Int.cast_sub] at hle
  obtain ⟨r, hr, -⟩ := exists_toFloat (hle.trans (by norm_num))
  refine ⟨r, ?_⟩
  rw [intSlope, exactInt_of_mem (by linarith [hcurrent.1, hlast.2])
    (by linarith [hcurrent.2, hlast.1]), Option.bind_some, hr]

variable {mem : SystemFeaturesWithSlopes} {lastFeatures currentFeatures initFeatures : SystemFeatures}

theorem exists_rttcFeatures (hlast : Moderate lastFeatures) (hcurrent : Moderate currentFeatures) :
    ∃ g, rttcFeatures mem lastFeatures currentFeatures = some g := by
  obtain ⟨_, hgenTime⟩ := exists_slope hcurrent.time hlast.time
  obtain ⟨_, hnTh⟩ := exists_intSlope hcurrent.nTh hlast.nTh
  obtain ⟨_, hmemUsed⟩ := exists_intSlope hcurrent.memUsed hlast.memUsed
  obtain ⟨_, hmemFree⟩ := exists_intSlope hcurrent.memFree hlast.memFree
  obtain ⟨_, hswapUsed⟩ := exists_intSlope hcurrent.swapUsed hlast.swapUsed
  obtain ⟨_, hswapFree⟩ := exists_intSlope hcurrent.swapFree hlast.swapFree
  obtain ⟨_, hcpuUser⟩ := exists_slope hcurrent.cpuUser hlast.cpuUser
  obtain ⟨_, hcpuSystem⟩ := exists_slope hcurrent.cpuSystem hlast.cpuSystem
  obtain ⟨_, hcpuIdle⟩ := exists_slope hcurrent.cpuIdle hlast.cpuIdle
  simp only [rttcFeatures, hgenTime, hnTh, hmemUsed, hmemFree, hswapUsed, hswapFree, hcpuUser,
    hcpuSystem, hcpuIdle, Option.bind_eq_bind, Option.bind_some]
  exact ⟨_, rfl⟩

/-- The features of `f` are far below the infinities. -/
def Below (f : SystemFeaturesWithSlopes) : Prop := ∀ t ∈ terms f f, |t.2.1| ≤ 2 ^ 92

theorem below_percentage {q : ℚ} (hq : |q| ≤ 2 ^ 90) : |q| ≤ 2 ^ 92 :=
  hq.trans (by norm_num)

theorem below_rttcFeatures (hlast : Moderate lastFeatures) (hcurrent : Moderate currentFeatures)
    (hfree : |(mem.memFree : ℚ)| ≤ 2 ^ 92) (hcached : |(mem.memCached : ℚ)| ≤ 2 ^ 92) :
    Below (MlModel.rttcFeatures mem lastFeatures currentFeatures) := by
  simp only [Below, terms, List.forall_mem_cons, MlModel.rttcFeatures]
  exact ⟨abs_slope_le hcurrent.time hlast.time, hcurrent.nTh.abs_sub_le hlast.nTh,
    hcurrent.memUsed.abs_sub_le hlast.memUsed, hcurrent.memFree.abs_sub_le hlast.memFree,
    abs_slope_le hcurrent.cpuUser hlast.cpuUser, abs_slope_le hcurrent.cpuIdle hlast.cpuIdle,
    hlast.nTh.abs_le, hfree, hlast.memBuffers.abs_le, hcached, hlast.swapUsed.abs_le,
    below_percentage hlast.cpuUser, below_percentage hlast.cpuSystem,
    below_percentage hlast.cpuIdle, List.forall_mem_nil _⟩

theorem below_fromInit {f : SystemFeaturesWithSlopes} (h : Below f) (hinit : Moderate initFeatures) :
    Below (fromInit initFeatures f) := by
  simp only [Below, terms, List.forall_mem_cons, fromInit] at h ⊢
  obtain ⟨hgenTime, hnTh, hmemUsed, hmemFree, hcpuUser, hcpuIdle, -, hfree, -, hcached, -⟩ := h
  exact ⟨hgenTime, hnTh, hmemUsed, hmemFree, hcpuUser, hcpuIdle, hinit.nTh.abs_le, hfree,
    hinit.memBuffers.abs_le, hcached, hinit.swapUsed.abs_le, below_percentage hinit.cpuUser,
    below_percentage hinit.cpuSystem, below_percentage hinit.cpuIdle, List.forall_mem_nil _⟩

/-- A term that is small enough, and a sum with it. -/
theorem exists_plusTimes {s k x : ℚ} (hk : 1 / 2 ^ 14 ≤ |k| ∧ |k| ≤ 2) (hx : |x| ≤ 2 ^ 93)
    (hs : |s| ≤ 2 ^ 199) :
    (∃ t, times k x = some t ∧ |t| ≤ 2 ^ 97) ∧
      ∃ r, plusTimes s k x = some r ∧ |r| ≤ 2 * |s| + 2 ^ 99 := by
  have hk' : |binary64 k| ≤ 4 := by
    have h := (near_coefficient hk.1).abs_computed_le
    linarith [hk.2]
  have hproduct : |binary64 k * x| ≤ 2 ^ 95 := by
    rw [abs_mul]
    calc |binary64 k| * |x| ≤ 4 * 2 ^ 93 := mul_le_mul hk' hx (abs_nonneg x) (by norm_num)
      _ = 2 ^ 95 := by norm_num
  obtain ⟨t, ht, htle⟩ := exists_toDouble (hproduct.trans (by norm_num))
  have hsum : |s + t| ≤ |s| + 2 ^ 97 := by
    have h := abs_add_le s t
    linarith
  obtain ⟨r, hr, hrle⟩ := exists_toDouble (hsum.trans (by linarith))
  refine ⟨⟨t, ht, by linarith⟩, r, ?_, by linarith⟩
  rw [plusTimes, times, ht, Option.bind_some, hr]

/-- The rounded features are hardly greater than the exact ones. -/
theorem NearFeatures.abs_le {f g : SystemFeaturesWithSlopes} (h : NearFeatures f g) (hf : Below f) :
    ∀ t ∈ terms f g, |t.2.2| ≤ 2 ^ 93 := by
  have hle {x x' : ℚ} (hnear : Near (1 + 1 / 2 ^ 24) (1 / 2 ^ 150) |x| x x') (hx : |x| ≤ 2 ^ 92) :
      |x'| ≤ 2 ^ 93 := by
    have hcomputed := hnear.abs_computed_le
    linarith
  simp only [NearFeatures, Below, terms, List.forall_mem_cons] at h hf ⊢
  obtain ⟨h₁, h₂, h₃, h₄, h₅, h₆, h₇, h₈, h₉, h₁₀, h₁₁, h₁₂, h₁₃, h₁₄, -⟩ := h
  obtain ⟨f₁, f₂, f₃, f₄, f₅, f₆, f₇, f₈, f₉, f₁₀, f₁₁, f₁₂, f₁₃, f₁₄, -⟩ := hf
  exact ⟨hle h₁ f₁, hle h₂ f₂, hle h₃ f₃, hle h₄ f₄, hle h₅ f₅, hle h₆ f₆, hle h₇ f₇, hle h₈ f₈,
    hle h₉ f₉, hle h₁₀ f₁₀, hle h₁₁ f₁₁, hle h₁₂ f₁₂, hle h₁₃ f₁₃, hle h₁₄ f₁₄,
    List.forall_mem_nil _⟩

theorem exists_calculateLinearRegression {f g : SystemFeaturesWithSlopes} (hnear : NearFeatures f g)
    (hf : Below f) : ∃ r, calculateLinearRegression g = some r := by
  have hg := hnear.abs_le hf
  have hcoefficient := coefficient_mem f g
  have hstep : ∀ t ∈ terms f g, ∀ s, |s| ≤ (2 ^ 199 : ℚ) →
      ∃ r, plusTimes s t.1 t.2.2 = some r ∧ |r| ≤ 2 * |s| + 2 ^ 99 := fun t ht s hs =>
    (exists_plusTimes (hcoefficient t ht) (hg t ht) hs).2
  obtain ⟨first, hfirst, hfirstle⟩ := (exists_plusTimes (s := 0)
    (hcoefficient _ List.mem_cons_self) (hg _ List.mem_cons_self) (by norm_num)).1
  have hlength : (terms f g).tail.length = 13 := rfl
  obtain ⟨sum, hsum, hsumle⟩ := exists_foldlM (by norm_num) (terms f g).tail
    (fun t ht => hstep t (List.mem_of_mem_tail ht)) (x := first)
    (by rw [hlength]; linarith)
  rw [hlength] at hsumle
  have hconstant := near_constant.abs_computed_le
  have hadd := abs_add_le sum (binary64 (242.8923 : ℚ))
  obtain ⟨total, htotal, htotalle⟩ :=
    exists_toDouble (x := sum + binary64 (242.8923 : ℚ)) (by linarith)
  obtain ⟨r, hr, -⟩ := exists_toFloat (x := total) (by linarith)
  refine ⟨r, ?_⟩
  rw [calculateLinearRegression_eq f g, hfirst, Option.bind_some, hsum, Option.bind_some, htotal,
    Option.bind_some, hr]

/-- **For all moderate features** there are predictions. -/
theorem exists_predictions (mlModel : ℤ) (hlast : Moderate lastFeatures)
    (hcurrent : Moderate currentFeatures) (hinit : Moderate initFeatures)
    (hfree : |(mem.memFree : ℚ)| ≤ 2 ^ 92) (hcached : |(mem.memCached : ℚ)| ≤ 2 ^ 92) :
    ∃ rttc mttf, getPredictedRttc mlModel lastFeatures currentFeatures mem = some rttc ∧
      getPredictedMttf mlModel lastFeatures currentFeatures initFeatures mem = some mttf := by
  obtain ⟨g, hg⟩ : ∃ g, rttcFeatures mem lastFeatures currentFeatures = some g :=
    exists_rttcFeatures hlast hcurrent
  have hnear := near_rttcFeatures hg
  have hbelow := below_rttcFeatures hlast hcurrent hfree hcached
  obtain ⟨rttc, hrttc⟩ := exists_calculateLinearRegression hnear hbelow
  obtain ⟨mttf, hmttf⟩ := exists_calculateLinearRegression (near_fromInit hnear initFeatures)
    (below_fromInit hbelow hinit)
  refine ⟨rttc, mttf, ?_, ?_⟩
  · rw [getPredictedRttc, hg, Option.bind_some, hrttc]
  · rw [getPredictedMttf, hg, Option.bind_some, hmttf]

end

/-! ### The decision -/

/-- **The decision** to rejuvenate is that of exact arithmetic where nothing overflows, unless
the prediction is within the margin of the threshold. -/
theorem predictions_near {mlModel : ℤ} {lastFeatures currentFeatures initFeatures : SystemFeatures}
    {mem : SystemFeaturesWithSlopes} {rttc mttf : ℚ}
    (hrttc : getPredictedRttc mlModel lastFeatures currentFeatures mem = some rttc)
    (hmttf : getPredictedMttf mlModel lastFeatures currentFeatures initFeatures mem = some mttf) :
    |rttc - MlModel.getPredictedRttc mlModel lastFeatures currentFeatures mem| ≤
      margin (MlModel.rttcFeatures mem lastFeatures currentFeatures) ∧
    |mttf - MlModel.getPredictedMttf mlModel lastFeatures currentFeatures initFeatures mem| ≤
      margin (mttfFeatures mem lastFeatures currentFeatures initFeatures) ∧
    (margin (MlModel.rttcFeatures mem lastFeatures currentFeatures) <
        |MlModel.getPredictedRttc mlModel lastFeatures currentFeatures mem - ttcThreshold| →
      (rttc < ttcThreshold ↔
        MlModel.getPredictedRttc mlModel lastFeatures currentFeatures mem < ttcThreshold)) := by
  have hnear := getPredictedRttc_near hrttc
  refine ⟨hnear, getPredictedMttf_near hmttf, fun hfar => ?_⟩
  obtain ⟨hlow, hhigh⟩ := abs_le.mp hnear
  rcases lt_abs.mp hfar with habove | hbelow
  · exact iff_of_false (by linarith) (by linarith)
  · exact iff_of_true (by linarith) (by linarith)

/-- A VM at rest. -/
theorem predictions_near_atRest : ∃ rttc mttf,
    getPredictedRttc 1 (atRest 0).toSystemFeatures (atRest 1).toSystemFeatures default =
      some rttc ∧
    getPredictedMttf 1 (atRest 0).toSystemFeatures (atRest 1).toSystemFeatures
      (atRest 0).toSystemFeatures default = some mttf ∧
    |rttc - MlModel.getPredictedRttc 1 (atRest 0).toSystemFeatures (atRest 1).toSystemFeatures
        default| ≤
      margin (MlModel.rttcFeatures default (atRest 0).toSystemFeatures
        (atRest 1).toSystemFeatures) := by
  have hrttc : (getPredictedRttc 1 (atRest 0).toSystemFeatures (atRest 1).toSystemFeatures
      default).isSome := by
    decide +kernel
  have hmttf : (getPredictedMttf 1 (atRest 0).toSystemFeatures (atRest 1).toSystemFeatures
      (atRest 0).toSystemFeatures default).isSome := by
    decide +kernel
  obtain ⟨rttc, hrttc⟩ := Option.isSome_iff_exists.mp hrttc
  obtain ⟨mttf, hmttf⟩ := Option.isSome_iff_exists.mp hmttf
  exact ⟨rttc, mttf, hrttc, hmttf, (predictions_near hrttc hmttf).1⟩

/-- The margin is less than a millisecond there. -/
example : margin (MlModel.rttcFeatures default (atRest 0).toSystemFeatures
    (atRest 1).toSystemFeatures) < 1 / 1000 := by
  decide +kernel

/-- Free memory of 2147483647, after -1. -/
example : intSlope 2147483647 (-1) = none := by
  decide +kernel

end Rounded

end A2PM.MlModel
