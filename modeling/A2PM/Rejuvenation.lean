/-
A2PM/Rejuvenation.lean

What `communication_thread` of `controller/server.c` does when it sends its
VM the command REJUVENATE, and what it does not.

It calls `switch_active_machine`, which marks its parameter as
`REJUVENATING` and clears the parameter's flag `last_system_features_stored`.
The parameter is a copy.  In the registry the VM stays `ACTIVE`, and with a
`STAND_BY` VM that takes its place there is one `ACTIVE` VM too many
(`not_switched`).  In the thread the flag stays set, so the next message is
taken for the second of two; as is the first message of a connection whose
slot had the flag set (`along_realSamples_iff`).
-/
import A2PM.ControllerData
import A2PM.FeaturesText

namespace A2PM.Controller

open Transition FeaturesText MlModel

/-! ### The registry -/

/-- `switch_active_machine`.  (`sent`: does the `send` succeed?) -/
def switchAndSend (vm : VmData) (sent : Bool) (reg : Registry) : Option (VmData × Registry) :=
  (switchActiveMachine vm reg).bind fun r =>
    if sent then some r else (manageDisconnectedVms r.1 r.2).map fun reg => (r.1, reg)

def isStandBy (e : VmData) : Bool := e.serviceInfo.state == .standBy

/-- The number of `ACTIVE` entries. -/
def countActive (l : List VmData) : ℕ := l.countP fun e => e.serviceInfo.state == .active

/-- **Rejuvenation switch.**  The registry goes from `reg` to `reg'`: the VM
is marked, the first `STAND_BY` VM of its group takes its place, and all
else is as it was. -/
structure Switched (vm : VmData) (reg reg' : Registry) : Prop where
  marked : ∀ (i : ℕ) (e : VmData), (reg vm.serviceInfo.service).live[i]? = some e →
    e.ipAddress = vm.ipAddress → (reg' vm.serviceInfo.service).live[i]? =
      some { e with serviceInfo.state := .rejuvenating, lastSystemFeaturesStored := 0 }
  promoted : ∀ (j : ℕ) (e : VmData), (reg vm.serviceInfo.service).live[j]? = some e →
    (reg vm.serviceInfo.service).live.findIdx? isStandBy = some j →
      (reg' vm.serviceInfo.service).live[j]? = some (activate e)
  others : ∀ (g : Service) (j : ℕ), (g = vm.serviceInfo.service →
      (∀ e : VmData, (reg g).live[j]? = some e → e.ipAddress ≠ vm.ipAddress) ∧
        (reg g).live.findIdx? isStandBy ≠ some j) →
    (reg' g).live[j]? = (reg g).live[j]?
  active : countActive (reg' vm.serviceInfo.service).live +
      (if (reg vm.serviceInfo.service).live.any isStandBy then 0 else 1) =
    countActive (reg vm.serviceInfo.service).live

/-- An entry that is promoted is one more. -/
theorem countActive_set {l : List VmData} {i : ℕ} (hi : i < l.length)
    (hstandBy : isStandBy l[i] = true) :
    countActive (l.set i (activate l[i])) = countActive l + 1 := by
  have hbefore : (l[i].serviceInfo.state == VmState.active) = false := by
    rw [beq_iff_eq.mp hstandBy]
    rfl
  have hafter : ((activate l[i]).serviceInfo.state == VmState.active) = true := rfl
  rw [countActive, List.countP_set hi, hbefore, hafter]
  rfl

/-- What `switch_active_machine` does to the group of its VM. -/
theorem switchAndSend_cases {reg reg' : Registry} (h : reg.Wf) {vm copy : VmData}
    (hs : switchAndSend vm true reg = some (copy, reg')) :
    (reg vm.serviceInfo.service).live.findIdx? isStandBy = none ∧ reg' = reg ∨
      ∃ i, ∃ hi : i < (reg vm.serviceInfo.service).live.length,
        isStandBy (reg vm.serviceInfo.service).live[i] = true ∧
        (reg' vm.serviceInfo.service).live =
          (reg vm.serviceInfo.service).live.set i
            (activate (reg vm.serviceInfo.service).live[i]) := by
  obtain ⟨copy', reg'', hswitch, -, -, hnone, hsome⟩ := switchActiveMachine_spec h vm
  rw [switchAndSend, hswitch, Option.bind_some, if_pos rfl, Option.some.injEq, Prod.mk.injEq] at hs
  obtain ⟨-, rfl⟩ := hs
  cases hfind : (reg vm.serviceInfo.service).live.findIdx? isStandBy with
  | none => exact .inl ⟨rfl, hnone hfind⟩
  | some i =>
      obtain ⟨hi, hlive⟩ := hsome i hfind
      obtain ⟨_, hstandBy, -⟩ := List.findIdx?_eq_some_iff_getElem.mp hfind
      exact .inr ⟨i, hi, hstandBy, hlive⟩

/-- No entry of the group is marked. -/
theorem not_marked {reg reg' : Registry} (h : reg.Wf) {vm copy : VmData}
    (hs : switchAndSend vm true reg = some (copy, reg')) {i : ℕ} {e : VmData}
    (he : (reg' vm.serviceInfo.service).live[i]? = some e)
    (hmarked : e.serviceInfo.state = .rejuvenating) :
    (reg vm.serviceInfo.service).live[i]? = some e := by
  rcases switchAndSend_cases h hs with ⟨-, rfl⟩ | ⟨j, hj, -, hlive⟩
  · exact he
  · rw [hlive] at he
    by_cases hji : j = i
    · subst hji
      rw [List.getElem?_set_self hj] at he
      obtain rfl := Option.some.inj he
      exact absurd hmarked (by simp [activate])
    · rwa [List.getElem?_set_ne hji] at he

/-- **Rejuvenation switch.**  Whatever the registry and the VM, no entry is
marked, and there is one `ACTIVE` entry more than there should be. -/
theorem not_switched {reg : Registry} (h : reg.Wf) (vm : VmData) :
    ∃ copy reg', switchAndSend vm true reg = some (copy, reg') ∧
      (∀ (i : ℕ) (e : VmData), (reg' vm.serviceInfo.service).live[i]? = some e →
        e.serviceInfo.state = .rejuvenating →
        (reg vm.serviceInfo.service).live[i]? = some e) ∧
      ¬ Switched vm reg reg' := by
  obtain ⟨copy, reg', hswitch, -⟩ := switchActiveMachine_spec h vm
  have hs : switchAndSend vm true reg = some (copy, reg') := by
    rw [switchAndSend, hswitch]
    rfl
  refine ⟨copy, reg', hs, fun i e he hmarked => not_marked h hs he hmarked, fun hswitched => ?_⟩
  -- counting is enough: the entry of `vm` keeps its state
  have hactive := hswitched.active
  rcases switchAndSend_cases h hs with ⟨hnone, rfl⟩ | ⟨j, hj, hstandBy, hlive⟩
  · have hany : (reg' vm.serviceInfo.service).live.any isStandBy = false := by
      rw [List.any_eq_false]
      intro d hd
      rw [List.findIdx?_eq_none_iff.mp hnone d hd]
      exact Bool.false_ne_true
    rw [hany, if_neg Bool.false_ne_true] at hactive
    omega
  · have hany : (reg vm.serviceInfo.service).live.any isStandBy = true :=
      List.any_eq_true.mpr ⟨_, List.getElem_mem hj, hstandBy⟩
    rw [hany, if_pos rfl, hlive, countActive_set hj hstandBy] at hactive
    omega

/-- A VM, as its thread has copied its entry. -/
def firstVm : VmData := ⟨4, "10.0.0.1", 40001, ⟨service1, .active, 8080⟩, default, 1⟩

/-- Its entry and, on stand-by, a second one. -/
def pair : Registry := fun _ =>
  { cells := [firstVm, ⟨5, "10.0.0.2", 40002, ⟨service1, .standBy, 8080⟩, default, 0⟩]
    current := 2
    allocated := 2 }

theorem not_switched_pair :
    ∃ copy reg', switchAndSend firstVm true pair = some (copy, reg') ∧
      (∀ (i : ℕ) (e : VmData), (reg' firstVm.serviceInfo.service).live[i]? = some e →
        e.serviceInfo.state = .rejuvenating →
        (pair firstVm.serviceInfo.service).live[i]? = some e) ∧
      ¬ Switched firstVm pair reg' :=
  not_switched (fun _ => ⟨Nat.zero_lt_two, Nat.le_refl 2, rfl⟩) firstVm

/-- When the first one is rejuvenated both are `ACTIVE`, and the first one's
flag is set. -/
theorem both_active :
    ∃ copy reg', switchAndSend firstVm true pair = some (copy, reg') ∧
      ((reg' service1).live.map fun e =>
          (e.ipAddress, e.serviceInfo.state, e.lastSystemFeaturesStored)) =
        [("10.0.0.1", .active, 1), ("10.0.0.2", .active, 0)] ∧
      ¬ Switched firstVm pair reg' := by
  refine ⟨_, _, rfl, by decide, fun hswitched => ?_⟩
  exact absurd hswitched.active (by decide)

/-! ### The thread -/

/-- A features message, and what becomes of the answer to it. -/
structure Message where
  text : List Char
  /-- The uninitialised memory of the predictor. -/
  mem : SystemFeaturesWithSlopes
  /-- CONTINUE or REJUVENATE is sent. -/
  sent : Bool

/-- A call of `get_predicted_mttf` and `get_predicted_rttc`, which have the
same first arguments. -/
structure PredictorCall where
  lastFeatures : SystemFeatures
  currentFeatures : SystemFeatures
  /-- The message before the one that triggers the call, if it came after the
  latest REJUVENATE. -/
  before : Option (List Char)
  message : List Char

/-- A communication thread and what it has received. -/
structure Session where
  locals : Locals
  /-- The loop has not been left. -/
  running : Bool
  /-- The last message since the latest REJUVENATE. -/
  before : Option (List Char)
  calls : List PredictorCall

namespace Session

/-- The thread's start; `slot` is what the slot held before its registration,
`current` and `init` what the stack holds. -/
def start (s : VmService) (ip : String) (socket : ℤ) (port : ℕ) (slot : VmData)
    (current init : SystemFeatures) : Session :=
  let vm := fillSlot s ip socket port slot
  { locals := ⟨vm.lastFeatures, vm.lastSystemFeaturesStored, current, init, false, []⟩
    running := vm.serviceInfo.state == .active
    before := none
    calls := [] }

/-- One message.  After a REJUVENATE that cannot be sent the loop goes on with a descriptor that
`switch_active_machine` has closed; the next `recv` is taken to fail on it, which ends the
loop. -/
def step (mlModel : ℤ) (s : Session) (m : Message) : Option Session :=
  if s.running then
    let r := s.locals.receive mlModel m.text m.mem
    some {
      locals := r.1
      running := m.sent
      before := if r.2 then none else some m.text
      calls := s.calls ++ (r.1.predicted.drop s.locals.predicted.length).map fun p =>
        ⟨p.1, p.2.1, s.before, m.text⟩ }
  else none

end Session

/-- The text has values for all fields, and they are those of `v`. -/
def Says (text : List Char) (v : SystemFeatures) : Prop := ∀ r, getFeature text r = v

/-- The arguments are two successive messages. -/
def PredictorCall.Real (c : PredictorCall) : Prop :=
  ∃ text, c.before = some text ∧ Says text c.lastFeatures ∧ Says c.message c.currentFeatures

namespace Session

/-- **Predictions use two real samples.** -/
def RealSamples (s : Session) : Prop := ∀ c ∈ s.calls, c.Real

/-- If the flag is set when a message comes, then there has been one before,
and both say what the memory of `current_features` holds. -/
def FlagTrue (s : Session) (m : Message) : Prop :=
  s.locals.lastSystemFeaturesStored ≠ 0 → ∃ text, s.before = some text ∧
    Says text s.locals.currentFeatures ∧ Says m.text s.locals.currentFeatures

/-- What one message does. -/
theorem step_cases {mlModel : ℤ} {s s' : Session} {m : Message}
    (h : s.step mlModel m = some s') :
    s'.locals.currentFeatures = s.locals.currentFeatures ∧
      ((s.locals.lastSystemFeaturesStored = 0 ∧ s'.calls = s.calls ∧
          s'.locals.lastFeatures = s.locals.currentFeatures) ∨
        (s.locals.lastSystemFeaturesStored ≠ 0 ∧
          s'.calls = s.calls ++
            [⟨s.locals.lastFeatures, s.locals.currentFeatures, s.before, m.text⟩] ∧
          (s'.before = none ∨ s'.locals.lastFeatures = s.locals.currentFeatures))) := by
  rw [step] at h
  split at h
  · obtain rfl := Option.some.inj h
    obtain ⟨hcurrent, hlast, -, hpredicted, -⟩ := s.locals.fillInit_spec
    have hargs : s.locals.fillInit.predict.predicted.drop s.locals.predicted.length =
        [(s.locals.lastFeatures, s.locals.currentFeatures, s.locals.fillInit.initFeatures)] := by
      rw [Locals.predict, hcurrent, hlast, hpredicted]
      exact List.drop_left
    refine ⟨s.locals.receive_currentFeatures mlModel m.text m.mem, ?_⟩
    rcases s.locals.receive_cases mlModel m.text m.mem with ⟨hzero, hr⟩ | ⟨hne, hr | hr⟩
    · left
      refine ⟨hzero, ?_, ?_⟩
      · simp only [hr, Locals.storeLast, hpredicted, List.drop_length, List.map_nil,
          List.append_nil]
      · simp only [hr, Locals.storeLast, hcurrent]
    · right
      refine ⟨hne, ?_, .inl ?_⟩
      · simp only [hr, hargs, List.map_cons, List.map_nil]
      · simp only [hr, if_true]
    · right
      refine ⟨hne, ?_, .inr ?_⟩
      · simp only [hr, Locals.storeLast]
        rw [hargs]
        rfl
      · simp only [hr, Locals.storeLast, Locals.predict, hcurrent]
  · cases h

/-- Once a message has been received since the latest REJUVENATE, the last
features are what the memory of `current_features` holds. -/
structure Inv (s : Session) : Prop where
  real : s.RealSamples
  last : s.before ≠ none → s.locals.lastFeatures = s.locals.currentFeatures

theorem inv_step {mlModel : ℤ} {s s' : Session} {m : Message} (h : s.Inv) (hm : s.FlagTrue m)
    (hstep : s.step mlModel m = some s') : s'.Inv := by
  obtain ⟨hcurrent, ⟨-, hcalls, hlast⟩ | ⟨hne, hcalls, hlast⟩⟩ := step_cases hstep
  -- without the flag there is no call
  · refine ⟨?_, fun _ => hlast.trans hcurrent.symm⟩
    rw [RealSamples, hcalls]
    exact h.real
  · refine ⟨?_, fun hbefore => ?_⟩
    · rw [RealSamples, hcalls]
      intro c hc
      rcases List.mem_append.mp hc with hold | hnew
      · exact h.real c hold
      · obtain rfl := List.mem_singleton.mp hnew
        obtain ⟨text, hbefore, htext, hstored⟩ := hm hne
        have hsome : s.before ≠ none := hbefore ▸ Option.some_ne_none text
        refine ⟨text, hbefore, ?_, hstored⟩
        rw [h.last hsome]
        exact htext
    · rw [hcurrent]
      exact hlast.resolve_left hbefore

theorem flagTrue_of_realSamples {mlModel : ℤ} {s s' : Session} {m : Message} (h : s.Inv)
    (hstep : s.step mlModel m = some s') (hreal : s'.RealSamples) : s.FlagTrue m := by
  intro hne
  obtain ⟨-, ⟨hzero, -, -⟩ | ⟨-, hcalls, -⟩⟩ := step_cases hstep
  · exact absurd hzero hne
  · rw [RealSamples, hcalls] at hreal
    obtain ⟨text, hbefore, htext, hstored⟩ :=
      hreal _ (List.mem_append_right _ List.mem_cons_self)
    have hsome : s.before ≠ none := by
      have hbefore : s.before = some text := hbefore
      rw [hbefore]
      exact Option.some_ne_none text
    have hlast := h.last hsome
    exact ⟨text, hbefore, fun r => (htext r).trans hlast, hstored⟩

/-- **Predictions use two real samples.**  They do all along a run iff at
every message the flag tells the truth. -/
theorem along_realSamples_iff (mlModel : ℤ) (s : VmService) (ip : String) (socket : ℤ) (port : ℕ)
    (slot : VmData) (current init : SystemFeatures) (ms : List Message) :
    Along (step mlModel) RealSamples (start s ip socket port slot current init) ms ↔
      AllSteps (step mlModel) FlagTrue (start s ip socket port slot current init) ms := by
  refine along_iff_allSteps (fun _ h => h.real) (fun _ _ _ h hm hs => inv_step h hm hs)
    (fun _ _ _ h hs hreal => flagTrue_of_realSamples h hs hreal) ⟨fun c hc => ?_, fun h => ?_⟩
  · cases hc
  · exact absurd rfl h

/-- The first message of a VM whose slot has been used before. -/
theorem first_message_predicted :
    ∃ text, getFeatures firstFeatures = some text ∧
      ¬ Along (step 1) RealSamples
        (start ⟨service1, .active, 8080⟩ "10.0.0.2" 5 40002 firstVm default default)
        [⟨text, default, true⟩] := by
  obtain ⟨text, htext, -⟩ := getFeatures_eq firstFeatures
  refine ⟨text, htext, fun hok => ?_⟩
  obtain ⟨s', hstep⟩ : ∃ s', step 1
      (start ⟨service1, .active, 8080⟩ "10.0.0.2" 5 40002 firstVm default default)
      ⟨text, default, true⟩ = some s' := ⟨_, rfl⟩
  have hreal : s'.RealSamples := (hok.2 s' hstep).head
  obtain ⟨-, ⟨hzero, -⟩ | ⟨-, hcalls, -⟩⟩ := step_cases hstep
  · exact absurd hzero (by decide)
  · rw [RealSamples, hcalls] at hreal
    obtain ⟨before, hbefore, -⟩ := hreal _ List.mem_cons_self
    cases hbefore

end Session

end A2PM.Controller
