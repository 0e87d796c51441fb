/-
A2PM/FeaturesText.lean

The features message: `get_features` of `controller/client.c` prints it,
`get_feature` of `controller/server.c` scans it, and the loop of
`communication_thread` works with what it has scanned.

The text is right: all seventeen values come back, the real ones as the nearest
`float`s (`getFeature_getFeatures`).  But `get_feature` takes `current_features` by
value and fills in its own copy, so that the record of
`communication_thread` stays what the stack held (`delivered_iff`).

A text is the characters of `recv_buff` before the first zero.
-/
import A2PM.FormattedText
import A2PM.Prediction
import A2PM.Transition

namespace A2PM

open FormattedText MlModel Transition

/-- The values with the digits that `%f` prints. -/
def SystemFeatures.printed (v : SystemFeatures) : SystemFeatures :=
  { v with
    time := FormattedText.printed v.time
    cpuUser := FormattedText.printed v.cpuUser
    cpuNice := FormattedText.printed v.cpuNice
    cpuSystem := FormattedText.printed v.cpuSystem
    cpuIowait := FormattedText.printed v.cpuIowait
    cpuSteal := FormattedText.printed v.cpuSteal
    cpuIdle := FormattedText.printed v.cpuIdle }

/-- The values as a `system_features` has them. -/
def SystemFeatures.stored (v : SystemFeatures) : SystemFeatures where
  time := storedFloat v.time
  nTh := storedInt v.nTh
  memTotal := storedInt v.memTotal
  memUsed := storedInt v.memUsed
  memFree := storedInt v.memFree
  memShared := storedInt v.memShared
  memBuffers := storedInt v.memBuffers
  memCached := storedInt v.memCached
  swapTotal := storedInt v.swapTotal
  swapUsed := storedInt v.swapUsed
  swapFree := storedInt v.swapFree
  cpuUser := storedFloat v.cpuUser
  cpuNice := storedFloat v.cpuNice
  cpuSystem := storedFloat v.cpuSystem
  cpuIowait := storedFloat v.cpuIowait
  cpuSteal := storedFloat v.cpuSteal
  cpuIdle := storedFloat v.cpuIdle

namespace FeaturesText

/-! ### The text -/

/-- `num_th`: the line that `fgets` reads from `wc -l`. -/
def numTh (n : ℤ) : List Char := printInt n ++ ['\n']

/-- `get_features`, for the values it has collected. -/
def getFeatures (v : SystemFeatures) : Option (List Char) := do
  let output ← sprintf "Datapoint: %f %s" [.float v.time, .string (numTh v.nTh)]
  let output ← sprintf "%sMemory: %d %d %d %d %d %d\n"
    [.string output, .int v.memTotal, .int v.memUsed, .int v.memFree, .int v.memShared,
      .int v.memBuffers, .int v.memCached]
  let output ← sprintf "%sSwap: %d %d %d\n"
    [.string output, .int v.swapTotal, .int v.swapUsed, .int v.swapFree]
  sprintf "%sCPU: %f %f %f %f %f %f"
    [.string output, .float v.cpuUser, .float v.cpuNice, .float v.cpuSystem, .float v.cpuIowait,
      .float v.cpuSteal, .float v.cpuIdle]

/-- The format of `get_feature`. -/
def featureFormat : String :=
  "Datapoint: %f %d\nMemory: %d %d %d %d %d %d\nSwap: %d %d %d\nCPU: %f %f %f %f %f %f"

/-- The argument for the `i`-th conversion: a value is written to its field, an
`int` or a `float`. -/
def assign (f : SystemFeatures) : ℕ → Value → SystemFeatures
  | 0, .float q => { f with time := storedFloat q }
  | 1, .int z => { f with nTh := storedInt z }
  | 2, .int z => { f with memTotal := storedInt z }
  | 3, .int z => { f with memUsed := storedInt z }
  | 4, .int z => { f with memFree := storedInt z }
  | 5, .int z => { f with memShared := storedInt z }
  | 6, .int z => { f with memBuffers := storedInt z }
  | 7, .int z => { f with memCached := storedInt z }
  | 8, .int z => { f with swapTotal := storedInt z }
  | 9, .int z => { f with swapUsed := storedInt z }
  | 10, .int z => { f with swapFree := storedInt z }
  | 11, .float q => { f with cpuUser := storedFloat q }
  | 12, .float q => { f with cpuNice := storedFloat q }
  | 13, .float q => { f with cpuSystem := storedFloat q }
  | 14, .float q => { f with cpuIowait := storedFloat q }
  | 15, .float q => { f with cpuSteal := storedFloat q }
  | 16, .float q => { f with cpuIdle := storedFloat q }
  | _, _ => f

/-- `get_feature`: the contents of its parameter `current_features` when it
returns. -/
def getFeature (features : List Char) (currentFeatures : SystemFeatures) : SystemFeatures :=
  (sscanf features featureFormat).zipIdx.foldl (fun f v => assign f v.2 v.1) currentFeatures

/-! ### `communication_thread` -/

/-- `TTC_THRESHOLD`. -/
abbrev ttcThreshold : ℚ := 300

/-- What `communication_thread` knows about the features of its VM. -/
structure Locals where
  /-- `vm.last_features`. -/
  lastFeatures : SystemFeatures
  /-- `vm.last_system_features_stored`. -/
  lastSystemFeaturesStored : ℤ
  currentFeatures : SystemFeatures
  initFeatures : SystemFeatures
  flagInitFeatures : Bool
  /-- The last, current and first features of each call of the predictor. -/
  predicted : List (SystemFeatures × SystemFeatures × SystemFeatures)
  deriving DecidableEq

namespace Locals

/-- `get_feature(recv_buff, current_features)`: what the callee's copy holds
when it returns, and the caller's variables. -/
def callGetFeature (recvBuff : List Char) (s : Locals) : SystemFeatures × Locals :=
  (getFeature recvBuff s.currentFeatures, s)

/-- Fill `init_features` the first time. -/
def fillInit (s : Locals) : Locals :=
  if s.flagInitFeatures then s
  else { s with initFeatures := s.currentFeatures, flagInitFeatures := true }

/-- `store_last_system_features`. -/
def storeLast (s : Locals) : Locals :=
  { s with lastFeatures := s.currentFeatures, lastSystemFeaturesStored := 1 }

/-- The call of the predictor. -/
def predict (s : Locals) : Locals :=
  { s with predicted := s.predicted ++ [(s.lastFeatures, s.currentFeatures, s.initFeatures)] }

/-- The loop of `communication_thread` on the text it has received; is the VM
rejuvenated?  (`mem`: the uninitialised memory of the predictor.) -/
def receive (mlModel : ℤ) (s : Locals) (recvBuff : List Char)
    (mem : SystemFeaturesWithSlopes) : Locals × Bool :=
  let s := (callGetFeature recvBuff s).2
  let s := s.fillInit
  -- at least 2 sets of features needed
  if s.lastSystemFeaturesStored ≠ 0 then
    if getPredictedRttc mlModel s.lastFeatures s.currentFeatures mem < ttcThreshold then
      (s.predict, true)
    else (s.predict.storeLast, false)
  else (s.storeLast, false)

end Locals

/-! ### The property -/

/-- The values `v` reach the variables of `communication_thread`, which goes
from `s` to `r.1`. -/
structure Delivered (v : SystemFeatures) (s : Locals) (r : Locals × Bool) : Prop where
  current : r.1.currentFeatures = v
  init : s.flagInitFeatures = false → r.1.initFeatures = v
  predictor : s.lastSystemFeaturesStored ≠ 0 →
    r.1.predicted = s.predicted ++ [(s.lastFeatures, v, r.1.initFeatures)]
  last : r.2 = false → r.1.lastFeatures = v

/-! ### The text is right -/

/-- The seventeen values, in the order of the text. -/
def values (v : SystemFeatures) : List Value :=
  [.float v.time, .int v.nTh, .int v.memTotal, .int v.memUsed, .int v.memFree, .int v.memShared,
    .int v.memBuffers, .int v.memCached, .int v.swapTotal, .int v.swapUsed, .int v.swapFree,
    .float v.cpuUser, .float v.cpuNice, .float v.cpuSystem, .float v.cpuIowait, .float v.cpuSteal,
    .float v.cpuIdle]

theorem values_injective : Function.Injective values := by
  intro v w h
  simp only [values, List.cons.injEq, Value.float.injEq, Value.int.injEq, and_true] at h
  cases v
  cases w
  simp_all

/-- The four `sprintf` of the client print what one with the format of the
server would. -/
theorem getFeatures_eq (v : SystemFeatures) :
    ∃ text, getFeatures v = some text ∧ sprintf featureFormat (values v) = some text := by
  simp [getFeatures, sprintf, featureFormat, values, directives, print, numTh]

/-- Every value comes back, with the digits that are printed. -/
theorem sscanf_getFeatures {v : SystemFeatures} {text : List Char}
    (h : getFeatures v = some text) : sscanf text featureFormat = values v.printed := by
  obtain ⟨text', htext', hprint⟩ := getFeatures_eq v
  obtain rfl := Option.some.inj (h.symm.trans htext')
  have hseparated : separated (directives featureFormat.toList) = true := by decide
  exact scan_print hseparated hprint

/-- Each is stored in the field of its name, whatever the record held before. -/
theorem getFeature_getFeatures {v : SystemFeatures} {text : List Char}
    (h : getFeatures v = some text) (currentFeatures : SystemFeatures) :
    getFeature text currentFeatures = v.printed.stored := by
  rw [getFeature, sscanf_getFeatures h]
  rfl

/-! ### What reaches the thread -/

namespace Locals

variable (mlModel : ℤ) (s : Locals) (recvBuff : List Char) (mem : SystemFeaturesWithSlopes)

theorem fillInit_spec :
    s.fillInit.currentFeatures = s.currentFeatures ∧ s.fillInit.lastFeatures = s.lastFeatures ∧
      s.fillInit.lastSystemFeaturesStored = s.lastSystemFeaturesStored ∧
      s.fillInit.predicted = s.predicted ∧
      (s.flagInitFeatures = false → s.fillInit.initFeatures = s.currentFeatures) := by
  cases hflag : s.flagInitFeatures with
  | true =>
      rw [fillInit, if_pos hflag]
      exact ⟨rfl, rfl, rfl, rfl, fun h => by cases h⟩
  | false =>
      rw [fillInit, hflag]
      exact ⟨rfl, rfl, rfl, rfl, fun _ => rfl⟩

/-- The three ways through the loop. -/
theorem receive_cases :
    (s.lastSystemFeaturesStored = 0 ∧
      s.receive mlModel recvBuff mem = (s.fillInit.storeLast, false)) ∨
    (s.lastSystemFeaturesStored ≠ 0 ∧
      (s.receive mlModel recvBuff mem = (s.fillInit.predict, true) ∨
        s.receive mlModel recvBuff mem = (s.fillInit.predict.storeLast, false))) := by
  obtain ⟨-, -, hstored, -, -⟩ := fillInit_spec s
  rw [← hstored]
  by_cases hzero : s.fillInit.lastSystemFeaturesStored = 0
  · exact .inl ⟨hzero, if_neg (not_not_intro hzero)⟩
  · refine .inr ⟨hzero, ?_⟩
    have hreceive : s.receive mlModel recvBuff mem =
        if getPredictedRttc mlModel s.fillInit.lastFeatures s.fillInit.currentFeatures mem <
          ttcThreshold then (s.fillInit.predict, true) else (s.fillInit.predict.storeLast, false) :=
      if_pos hzero
    rw [hreceive]
    split
    · exact .inl rfl
    · exact .inr rfl

/-- The record of `communication_thread` is never filled in. -/
theorem receive_currentFeatures :
    (s.receive mlModel recvBuff mem).1.currentFeatures = s.currentFeatures := by
  obtain ⟨hcurrent, -⟩ := fillInit_spec s
  rw [← hcurrent]
  rcases receive_cases mlModel s recvBuff mem with ⟨-, h⟩ | ⟨-, h | h⟩
  · rw [h]
    rfl
  · rw [h]
    rfl
  · rw [h]
    rfl

/-- What the thread works with is that record. -/
theorem delivered_currentFeatures :
    Delivered s.currentFeatures s (s.receive mlModel recvBuff mem) := by
  obtain ⟨hcurrent, hlast, -, hpredicted, hinit⟩ := fillInit_spec s
  have hargs : s.fillInit.predict.predicted =
      s.predicted ++ [(s.lastFeatures, s.currentFeatures, s.fillInit.initFeatures)] := by
    rw [predict, hcurrent, hlast, hpredicted]
  have hcurrent' := receive_currentFeatures mlModel s recvBuff mem
  rcases receive_cases mlModel s recvBuff mem with ⟨hzero, h⟩ | ⟨-, h | h⟩
  · rw [h] at hcurrent' ⊢
    exact ⟨hcurrent', hinit, fun hne => absurd hzero hne, fun _ => hcurrent⟩
  · rw [h] at hcurrent' ⊢
    exact ⟨hcurrent', hinit, fun _ => hargs, fun hfalse => by cases hfalse⟩
  · rw [h] at hcurrent' ⊢
    exact ⟨hcurrent', hinit, fun _ => hargs, fun _ => hcurrent⟩

/-- No message of a run changes it. -/
theorem currentFeatures_run {s s' : Locals}
    {messages : List (List Char × SystemFeaturesWithSlopes)}
    (h : run (fun s m => some (s.receive mlModel m.1 m.2).1) s messages = some s') :
    s'.currentFeatures = s.currentFeatures := by
  refine invariant_of_run (P := fun u => u.currentFeatures = s.currentFeatures) ?_ rfl h
  intro u m u' hu hstep
  obtain rfl := Option.some.inj hstep
  exact (receive_currentFeatures mlModel u m.1 m.2).trans hu

end Locals

/-- **Features round trip.**  The values of a message reach the thread iff
the memory of `current_features` holds them already. -/
theorem delivered_iff (v : SystemFeatures) (mlModel : ℤ) (s : Locals)
    (mem : SystemFeaturesWithSlopes) :
    ∃ text, getFeatures v = some text ∧
      (Delivered v.printed s (s.receive mlModel text mem) ↔
        s.currentFeatures = v.printed) := by
  obtain ⟨text, htext, -⟩ := getFeatures_eq v
  refine ⟨text, htext, ?_⟩
  constructor
  · intro h
    rw [← h.current]
    exact (s.receive_currentFeatures mlModel text mem).symm
  · intro h
    rw [← h]
    exact s.delivered_currentFeatures mlModel text mem

/-- A VM one second after its start, with two thirds of its memory free. -/
def firstFeatures : SystemFeatures :=
  { (default : SystemFeatures) with
    time := 1, nTh := 100, memTotal := 600000, memUsed := 200000, memFree := 400000,
    cpuUser := 0.5, cpuIdle := 99.5 }

example : getFeatures firstFeatures =
    some ("Datapoint: 1.000000 100\nMemory: 600000 200000 400000 0 0 0\nSwap: 0 0 0\nCPU: " ++
      "0.500000 0.000000 0.000000 0.000000 0.000000 99.500000").toList := by decide +kernel

/-- The thread when its VM has connected, on a stack of zeros. -/
def start : Locals := ⟨default, 0, default, default, false, []⟩

/-- The first message of the VM leaves the thread with zeros. -/
theorem features_lost :
    ∃ text, getFeatures firstFeatures = some text ∧
      getFeature text start.currentFeatures = firstFeatures.printed ∧
      (start.receive 1 text default).1.lastFeatures = default ∧
      ¬ Delivered firstFeatures.printed start (start.receive 1 text default) := by
  obtain ⟨text, htext, -⟩ := getFeatures_eq firstFeatures
  have hexact : firstFeatures.printed.stored = firstFeatures.printed := by decide +kernel
  refine ⟨text, htext, (getFeature_getFeatures htext _).trans hexact, rfl, ?_⟩
  intro h
  have hcurrent : start.currentFeatures = firstFeatures.printed :=
    (start.receive_currentFeatures 1 text default).symm.trans h.current
  exact absurd (congrArg SystemFeatures.nTh hcurrent) (by decide)

end FeaturesText

end A2PM
