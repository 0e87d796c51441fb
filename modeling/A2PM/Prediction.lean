/-
A2PM/Prediction.lean

`get_predicted_rttc` of `controller/ml_model.c`, next to the datapoints that
the model was trained on.

The local variable `f` is not initialised, and the function does not set all
of its fields: `mem` is what the memory held before.  `float` and `int`
arithmetic is exact.
-/
import A2PM.Aggregation
import A2PM.SystemFeatures

namespace A2PM.MlModel

open ModelBuild

/-! ### The prediction -/

/-- `calculate_linear_regression`. -/
def calculateLinearRegression (f : SystemFeaturesWithSlopes) : ℚ :=
  0.5929 * f.genTime +
  -0.2645 * f.nThSlope +
  -0.0002 * f.memUsedSlope +
  0.0002 * f.memFreeSlope +
  0.4242 * f.cpuUserSlope +
  -0.9884 * f.cpuIdleSlope +
  -0.459 * f.nTh +
  0.0002 * f.memFree +
  -0.0013 * f.memBuffers +
  0.0001 * f.memCached +
  -0.0004 * f.swapUsed +
  1.1191 * f.cpuUser +
  0.9517 * f.cpuSystem +
  0.8971 * f.cpuIdle +
  242.8923

/-- The variable `f` of `get_predicted_rttc`. -/
def rttcFeatures (mem : SystemFeaturesWithSlopes) (lastFeatures currentFeatures : SystemFeatures) :
    SystemFeaturesWithSlopes :=
  { mem with
    genTime := currentFeatures.time - lastFeatures.time
    nThSlope := currentFeatures.nTh - lastFeatures.nTh
    memUsedSlope := currentFeatures.memUsed - lastFeatures.memUsed
    memFreeSlope := currentFeatures.memFree - lastFeatures.memFree
    swapUsedSlope := currentFeatures.swapUsed - lastFeatures.swapUsed
    swapFreeSlope := currentFeatures.swapFree - lastFeatures.swapFree
    cpuUserSlope := currentFeatures.cpuUser - lastFeatures.cpuUser
    cpuSystemSlope := currentFeatures.cpuSystem - lastFeatures.cpuSystem
    cpuIdleSlope := currentFeatures.cpuIdle - lastFeatures.cpuIdle
    nTh := lastFeatures.nTh
    memUsed := lastFeatures.memUsed
    memBuffers := lastFeatures.memBuffers
    swapUsed := lastFeatures.swapUsed
    cpuUser := lastFeatures.cpuUser
    cpuNice := lastFeatures.cpuNice
    cpuSystem := lastFeatures.cpuSystem
    cpuIowait := lastFeatures.cpuIowait
    cpuIdle := lastFeatures.cpuIdle }

/-- `get_predicted_rttc`; `ml_model` is not used. -/
def getPredictedRttc (_mlModel : ℤ) (lastFeatures currentFeatures : SystemFeatures)
    (mem : SystemFeaturesWithSlopes) : ℚ :=
  calculateLinearRegression (rttcFeatures mem lastFeatures currentFeatures)

/-! ### The training data -/

/-- The datapoint that `read_db_file` makes of the same features. -/
def node (p : SystemFeatures) : Node where
  key := p.time
  generationTime := 0
  slope := fun _ => 0
  int
    | .nTh => p.nTh
    | .memUsed => p.memUsed
    | .memFree => p.memFree
    | .memShared => p.memShared
    | .memBuffers => p.memBuffers
    | .memCached => p.memCached
    | .swapUsed => p.swapUsed
    | .swapFree => p.swapFree
  cpu
    | .cpuUser => p.cpuUser
    | .cpuNice => p.cpuNice
    | .cpuSystem => p.cpuSystem
    | .cpuIowait => p.cpuIowait
    | .cpuSteal => p.cpuSteal
    | .cpuIdle => p.cpuIdle

/-- Features whose `int` fields are numbers of 32 bits. -/
structure Datapoint extends SystemFeatures where
  inRange : ∀ f, -2 ^ 31 ≤ (node toSystemFeatures).int f ∧ (node toSystemFeatures).int f < 2 ^ 31

/-- The features of an aggregated datapoint that the regression reads; the
others are 0. -/
def trainedFeatures (a : Node) : SystemFeaturesWithSlopes :=
  { (default : SystemFeaturesWithSlopes) with
    genTime := a.generationTime
    nThSlope := a.slope (.inl .nTh)
    memUsedSlope := a.slope (.inl .memUsed)
    memFreeSlope := a.slope (.inl .memFree)
    cpuUserSlope := a.slope (.inr .cpuUser)
    cpuIdleSlope := a.slope (.inr .cpuIdle)
    nTh := a.int .nTh
    memFree := a.int .memFree
    memBuffers := a.int .memBuffers
    memCached := a.int .memCached
    swapUsed := a.int .swapUsed
    cpuUser := a.cpu .cpuUser
    cpuSystem := a.cpu .cpuSystem
    cpuIdle := a.cpu .cpuIdle }

/-- The two vectors have the same features, of those that the regression
reads. -/
structure SameFeatures (f g : SystemFeaturesWithSlopes) : Prop where
  genTime : f.genTime = g.genTime
  nThSlope : f.nThSlope = g.nThSlope
  memUsedSlope : f.memUsedSlope = g.memUsedSlope
  memFreeSlope : f.memFreeSlope = g.memFreeSlope
  cpuUserSlope : f.cpuUserSlope = g.cpuUserSlope
  cpuIdleSlope : f.cpuIdleSlope = g.cpuIdleSlope
  nTh : f.nTh = g.nTh
  memFree : f.memFree = g.memFree
  memBuffers : f.memBuffers = g.memBuffers
  memCached : f.memCached = g.memCached
  swapUsed : f.swapUsed = g.swapUsed
  cpuUser : f.cpuUser = g.cpuUser
  cpuSystem : f.cpuSystem = g.cpuSystem
  cpuIdle : f.cpuIdle = g.cpuIdle

/-- The regression reads nothing else. -/
theorem SameFeatures.calculateLinearRegression_eq {f g : SystemFeaturesWithSlopes}
    (h : SameFeatures f g) : calculateLinearRegression f = calculateLinearRegression g := by
  simp only [calculateLinearRegression, h.genTime, h.nThSlope, h.memUsedSlope, h.memFreeSlope,
    h.cpuUserSlope, h.cpuIdleSlope, h.nTh, h.memFree, h.memBuffers, h.memCached, h.swapUsed,
    h.cpuUser, h.cpuSystem, h.cpuIdle]

/-- `aggregate` puts out one datapoint for the run of `p` and `q`; the vector
of `get_predicted_rttc` has its features, and the prediction is the one for
that datapoint. -/
def ServedAsTrained (mlModel : ℤ) (p q : Datapoint) (mem : SystemFeaturesWithSlopes) : Prop :=
  ∃ a, aggregate [[node p.toSystemFeatures, node q.toSystemFeatures]] = some [a] ∧
    SameFeatures (rttcFeatures mem p.toSystemFeatures q.toSystemFeatures) (trainedFeatures a) ∧
    getPredictedRttc mlModel p.toSystemFeatures q.toSystemFeatures mem =
      calculateLinearRegression (trainedFeatures a)

/-! ### Exactly when it holds -/

/-- All features but two are those of the aggregated datapoint. -/
theorem sameFeatures_iff {p q : SystemFeatures} {mem : SystemFeaturesWithSlopes} :
    SameFeatures (rttcFeatures mem p q)
        (trainedFeatures (average (node q) ⟨node p, [], node q⟩)) ↔
      mem.memFree = p.memFree ∧ mem.memCached = p.memCached := by
  rw [average_pair]
  constructor
  · intro h
    exact ⟨h.memFree, h.memCached⟩
  · rintro ⟨hfree, hcached⟩
    exact
      { genTime := rfl
        nThSlope := rfl
        memUsedSlope := rfl
        memFreeSlope := rfl
        cpuUserSlope := rfl
        cpuIdleSlope := rfl
        nTh := rfl
        memFree := hfree
        memBuffers := rfl
        memCached := hcached
        swapUsed := rfl
        cpuUser := rfl
        cpuSystem := rfl
        cpuIdle := rfl }

/-- **Training and serving.**  The features are those of training iff the
memory of the two fields that are not set happens to hold the values of
`last_features`. -/
theorem servedAsTrained_iff (mlModel : ℤ) (p q : Datapoint) (mem : SystemFeaturesWithSlopes) :
    ServedAsTrained mlModel p q mem ↔ mem.memFree = p.memFree ∧ mem.memCached = p.memCached := by
  have haggregate := aggregate_pair (q := node q.toSystemFeatures) p.inRange
  constructor
  · rintro ⟨a, ha, hsame, -⟩
    obtain rfl : average _ _ = a := by
      rw [haggregate] at ha
      exact (List.cons.inj (Option.some.inj ha)).1
    exact sameFeatures_iff.mp hsame
  · intro hmem
    refine ⟨_, haggregate, sameFeatures_iff.mpr hmem, ?_⟩
    exact (sameFeatures_iff.mpr hmem).calculateLinearRegression_eq

/-- What the contents of the memory add to the prediction. -/
theorem getPredictedRttc_eq (mlModel : ℤ) (p q : SystemFeatures)
    (mem mem' : SystemFeaturesWithSlopes) :
    getPredictedRttc mlModel p q mem = getPredictedRttc mlModel p q mem' +
      0.0002 * (mem.memFree - mem'.memFree) + 0.0001 * (mem.memCached - mem'.memCached) := by
  simp only [getPredictedRttc, calculateLinearRegression, rttcFeatures]
  ring

/-! ### A VM at rest -/

/-- A VM with 600 MB of memory, a sixth of it free. -/
def atRest (time : ℚ) : Datapoint where
  toSystemFeatures := {
    time := time
    nTh := 100
    memTotal := 600000
    memUsed := 500000
    memFree := 100000
    memShared := 0
    memBuffers := 20000
    memCached := 50000
    swapTotal := 0
    swapUsed := 0
    swapFree := 0
    cpuUser := 0
    cpuNice := 0
    cpuSystem := 0
    cpuIowait := 0
    cpuSteal := 0
    cpuIdle := 100 }
  inRange := by
    intro f
    cases f <;> simp [node]

/-- Where the memory holds zeros, free and cached memory are taken to be 0. -/
theorem unset_fields : ¬ ServedAsTrained 1 (atRest 0) (atRest 1) default := by
  rintro ⟨a, ha, hsame, -⟩
  rw [aggregate_pair (atRest 0).inRange] at ha
  obtain rfl := (List.cons.inj (Option.some.inj ha)).1
  have hfree := (sameFeatures_iff.mp hsame).1
  exact absurd hfree (by decide : (0 : ℤ) ≠ 100000)

end A2PM.MlModel
