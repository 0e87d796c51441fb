/-
A2PM/SystemFeatures.lean

`controller/system_features.h`: the record a VM sends about itself, and the
vector of features with slopes that the prediction models read.  `float`
fields are exact rationals.
-/
import Mathlib.Data.Rat.Defs

namespace A2PM

/-- `system_features`. -/
structure SystemFeatures where
  time : ℚ
  nTh : ℤ
  memTotal : ℤ
  memUsed : ℤ
  memFree : ℤ
  memShared : ℤ
  memBuffers : ℤ
  memCached : ℤ
  swapTotal : ℤ
  swapUsed : ℤ
  swapFree : ℤ
  cpuUser : ℚ
  cpuNice : ℚ
  cpuSystem : ℚ
  cpuIowait : ℚ
  cpuSteal : ℚ
  cpuIdle : ℚ
  deriving DecidableEq, Inhabited

/-- `system_features_with_slopes`. -/
structure SystemFeaturesWithSlopes where
  genTime : ℚ
  nThSlope : ℚ
  memUsedSlope : ℚ
  memFreeSlope : ℚ
  swapUsedSlope : ℚ
  swapFreeSlope : ℚ
  cpuUserSlope : ℚ
  cpuSystemSlope : ℚ
  cpuIdleSlope : ℚ
  nTh : ℤ
  memTotal : ℤ
  memUsed : ℤ
  memFree : ℤ
  memShared : ℤ
  memBuffers : ℤ
  memCached : ℤ
  swapTotal : ℤ
  swapUsed : ℤ
  swapFree : ℤ
  cpuUser : ℚ
  cpuNice : ℚ
  cpuSystem : ℚ
  cpuIowait : ℚ
  cpuSteal : ℚ
  cpuIdle : ℚ
  deriving DecidableEq, Inhabited

end A2PM
