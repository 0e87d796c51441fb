/-
A2PM/Aggregation.lean

`aggregate` of `model_build/aggregate.c`, which turns the datapoints of each
run into averaged datapoints.

The runs and `aggregated_datapoints` are lists; `insertRear` appends.  The
function does the same to all eight `int` fields of a `struct node`, to all
six `cpu_` fields, and to the fourteen slopes of these, so a node has them as
functions of the field.  `double` is exact.

The loop keeps four variables; between two datapoints they say that a window
is open (`inWindow`).  A datapoint near the start of the window joins it
(`body_near`), any other one closes it and opens the next (`body_closing`),
so the datapoints put out are those of the greedy segmentation
(`loop_greedy`), with the sums and the counter in 32 bits (`emitted`); where
they fit in an `int` these are the averages (`average`).
-/
import A2PM.MachineInt
import A2PM.Segmentation
import Mathlib.Algebra.Order.BigOperators.Group.List
import Mathlib.Algebra.Order.Field.Rat
import Mathlib.Tactic.Ring

namespace A2PM.ModelBuild

open MachineInt Segmentation

/-! ### Nodes -/

/-- The `int` fields of `struct node`. -/
inductive IntField
  | nTh | memUsed | memFree | memShared | memBuffers | memCached | swapUsed | swapFree
  deriving DecidableEq

/-- The `cpu_` fields of `struct node`. -/
inductive CpuField
  | cpuUser | cpuNice | cpuSystem | cpuIowait | cpuSteal | cpuIdle
  deriving DecidableEq

/-- The fields that have a slope. -/
abbrev Field := IntField ⊕ CpuField

/-- `struct node`, without its link. -/
@[ext] structure Node where
  key : ℚ
  generationTime : ℚ
  slope : Field → ℚ
  int : IntField → ℤ
  cpu : CpuField → ℚ

/-- The value of a field, as a `double`. -/
def Node.value (p : Node) : Field → ℚ
  | .inl f => p.int f
  | .inr f => p.cpu f

/-- A node after `bzero`. -/
def Node.zero : Node where
  key := 0
  generationTime := 0
  slope := fun _ => 0
  int := fun _ => 0
  cpu := fun _ => 0

/-- `AGGREGATION_STEP`, in seconds. -/
abbrev aggregationStep : ℚ := 15

def insertRear (l : List Node) (temp : Node) : List Node := l ++ [temp]

/-! ### The loop -/

/-- The variables of `aggregate`. -/
@[ext] structure Vars where
  initTime : ℚ
  numNodes : ℕ
  computeRTTC : Bool
  aggregated : Node
  aggregatedDatapoints : List Node

/-- The end of a window: averages and slopes, `insertRear`, and a new start.
With no nodes the `int` divisions fail. -/
def closeWindow (curr : Node) (s : Vars) : Option Vars :=
  if s.numNodes = 0 then none
  else
    let newNode : Node := {
      key := s.aggregated.key
      generationTime := (curr.key - s.aggregated.generationTime) / s.numNodes
      slope := fun f => (s.aggregated.slope f - curr.value f) / (-1 * s.numNodes)
      int := fun f => divUnsigned (s.aggregated.int f) s.numNodes
      cpu := fun f => s.aggregated.cpu f / s.numNodes }
    some {
      initTime := curr.key
      numNodes := 0
      computeRTTC := true
      aggregated := .zero
      aggregatedDatapoints := insertRear s.aggregatedDatapoints newNode }

/-- `if(compute_RTTC)`: the RTTC and the start of the slopes. -/
def openWindow (tail curr : Node) (s : Vars) : Vars :=
  if s.computeRTTC then
    { s with
      aggregated := { s.aggregated with
        key := tail.key - curr.key
        generationTime := curr.key
        slope := curr.value }
      computeRTTC := false }
  else s

/-- The sums. -/
def addNode (curr : Node) (s : Vars) : Vars :=
  { s with
    aggregated := { s.aggregated with
      int := fun f => toInt (s.aggregated.int f + curr.int f)
      cpu := fun f => s.aggregated.cpu f + curr.cpu f }
    -- an `unsigned int`
    numNodes := (s.numNodes + 1) % 2 ^ 32 }

/-- The body of `while(curr_node != NULL)`. -/
def body (tail : Node) (isTail : Bool) (curr : Node) (s : Vars) : Option Vars :=
  (if aggregationStep < |curr.key - s.initTime| ∨ isTail = true then closeWindow curr s
    else some s).map fun s => addNode curr (openWindow tail curr s)

/-- The loop, from `curr_node` on. -/
def loop (tail : Node) : List Node → Vars → Option Vars
  | [], s => some s
  | curr :: next, s => (body tail next.isEmpty curr s).bind (loop tail next)

/-- `aggregate` on one run; of an empty one it reads `head->key`. -/
def aggregateRun (output : List Node) : List Node → Option (List Node)
  | [] => none
  | head :: next =>
      (loop ((head :: next).getLast (List.cons_ne_nil head next)) (head :: next)
        { initTime := head.key
          numNodes := 0
          computeRTTC := true
          aggregated := .zero
          aggregatedDatapoints := output }).map Vars.aggregatedDatapoints

/-- `aggregate`: what `aggregated_datapoints` holds at the end. -/
def aggregate (inputDatapoints : List (List Node)) : Option (List Node) :=
  inputDatapoints.foldlM aggregateRun []

/-! ### Windows -/

/-- More than `AGGREGATION_STEP` seconds from the first datapoint. -/
def Far (first x : Node) : Prop := aggregationStep < |x.key - first.key|

instance : DecidableRel Far := fun _ _ => inferInstanceAs (Decidable (_ < _))

/-- The sum of an `int` field. -/
def sumInt (l : List Node) (f : IntField) : ℤ := (l.map fun p : Node => p.int f).sum

/-- The sum of a `cpu_` field. -/
def sumCpu (l : List Node) (f : CpuField) : ℚ := (l.map fun p : Node => p.cpu f).sum

/-- The datapoint that stands for a window. -/
def average (tail : Node) (w : Window Node) : Node where
  key := tail.key - w.first.key
  generationTime := (w.closing.key - w.first.key) / w.size
  slope := fun f => (w.closing.value f - w.first.value f) / w.size
  int := fun f => (sumInt w.elements f).tdiv w.size
  cpu := fun f => sumCpu w.elements f / w.size

/-- Non-negative `int` fields, whose sums fit in an `int`. -/
def Fits (l : List Node) : Prop :=
  ∀ f, (∀ p ∈ l, 0 ≤ p.int f) ∧ sumInt l f < 2 ^ 31

/-- A run of at least two datapoints. -/
structure Run where
  nodes : List Node
  two_le : 2 ≤ nodes.length

theorem Run.ne_nil (r : Run) : r.nodes ≠ [] :=
  List.ne_nil_of_length_pos (Nat.zero_lt_of_lt r.two_le)

def Run.tail (r : Run) : Node := r.nodes.getLast r.ne_nil

theorem sumInt_nonneg {l : List Node} {f : IntField} (h : ∀ p ∈ l, 0 ≤ p.int f) :
    0 ≤ sumInt l f := by
  apply List.sum_nonneg
  intro z hz
  obtain ⟨p, hp, rfl⟩ := List.mem_map.mp hz
  exact h p hp

theorem Fits.sublist {l l' : List Node} (h : Fits l) (hsub : l'.Sublist l) : Fits l' := by
  intro f
  refine ⟨fun p hp => (h f).1 p (hsub.subset hp), lt_of_le_of_lt ?_ (h f).2⟩
  apply (hsub.map _).sum_le_sum
  intro z hz
  obtain ⟨p, hp, rfl⟩ := List.mem_map.mp hz
  exact (h f).1 p hp

theorem sumInt_append (l : List Node) (x : Node) (f : IntField) :
    sumInt (l ++ [x]) f = sumInt l f + x.int f := by
  simp [sumInt]

theorem sumCpu_append (l : List Node) (x : Node) (f : CpuField) :
    sumCpu (l ++ [x]) f = sumCpu l f + x.cpu f := by
  simp [sumCpu]

/-! ### The loop invariant -/

/-- `aggregated` in a window. -/
def opened (tail first : Node) (others : List Node) : Node where
  key := tail.key - first.key
  generationTime := first.key
  slope := first.value
  int := sumInt (first :: others)
  cpu := sumCpu (first :: others)

/-- The variables between two datapoints: the window that has started with
`first` and `others` is open. -/
def inWindow (tail first : Node) (others output : List Node) : Vars where
  initTime := first.key
  numNodes := (first :: others).length % 2 ^ 32
  computeRTTC := false
  aggregated := opened tail first others
  aggregatedDatapoints := output

/-- The variables with their `int` sums as an `int` holds them. -/
def Vars.stored (s : Vars) : Vars :=
  { s with aggregated := { s.aggregated with int := fun f => toInt (s.aggregated.int f) } }

/-- `num_nodes` is not 0 when the window is closed. -/
def Counted (w : Window Node) : Prop := w.size % 2 ^ 32 ≠ 0

instance : DecidablePred Counted := fun _ => inferInstanceAs (Decidable (_ ≠ _))

/-- The datapoint that is put out for a window, with the sums and the counter
in 32 bits. -/
def emitted (tail : Node) (w : Window Node) : Node where
  key := tail.key - w.first.key
  generationTime := (w.closing.key - w.first.key) / (w.size % 2 ^ 32 : ℕ)
  slope := fun f => (w.closing.value f - w.first.value f) / (w.size % 2 ^ 32 : ℕ)
  int := fun f => divUnsigned (toInt (sumInt w.elements f)) (w.size % 2 ^ 32)
  cpu := fun f => sumCpu w.elements f / (w.size % 2 ^ 32 : ℕ)

/-- The sums of the open window grow. -/
theorem addNode_inWindow (tail first x : Node) (others output : List Node) :
    addNode x (inWindow tail first others output).stored =
      (inWindow tail first (others ++ [x]) output).stored := by
  apply Vars.ext
  · rfl
  · show ((first :: others).length % 2 ^ 32 + 1) % 2 ^ 32 =
      (first :: (others ++ [x])).length % 2 ^ 32
    simp
  · rfl
  · apply Node.ext
    · rfl
    · rfl
    · rfl
    · funext f
      show toInt (toInt (sumInt (first :: others) f) + x.int f) =
        toInt (sumInt (first :: (others ++ [x])) f)
      rw [toInt_toInt_add, ← sumInt_append]
      rfl
    · funext f
      exact (sumCpu_append (first :: others) x f).symm
  · rfl

/-- A datapoint near the start of the window joins it. -/
theorem body_near {tail first x : Node} (others output : List Node) (hnear : ¬ Far first x) :
    body tail false x (inWindow tail first others output).stored =
      some (inWindow tail first (others ++ [x]) output).stored := by
  have hstay : ¬ (aggregationStep < |x.key - (inWindow tail first others output).stored.initTime| ∨
      false = true) := by
    rintro (hfar | hfalse)
    · exact hnear hfar
    · cases hfalse
  rw [body, if_neg hstay, Option.map_some]
  show some (addNode x (inWindow tail first others output).stored) = _
  rw [addNode_inWindow]

/-- The first datapoint of a window. -/
theorem addNode_openWindow (tail x : Node) (output : List Node) :
    addNode x (openWindow tail x ⟨x.key, 0, true, .zero, output⟩) =
      (inWindow tail x [] output).stored := by
  apply Vars.ext
  · rfl
  · rfl
  · rfl
  · apply Node.ext
    · rfl
    · rfl
    · rfl
    · funext f
      show toInt (0 + x.int f) = toInt (sumInt [x] f)
      have hzero : 0 + x.int f = sumInt [x] f := by simp [sumInt]
      rw [hzero]
    · funext f
      show 0 + x.cpu f = sumCpu [x] f
      simp [sumCpu]
  · rfl

/-- The window is closed, and its datapoint put out, if its counter is not 0. -/
theorem closeWindow_inWindow (tail first x : Node) (others output : List Node) :
    closeWindow x (inWindow tail first others output).stored =
      if Counted ⟨first, others, x⟩ then
        some ⟨x.key, 0, true, .zero, output ++ [emitted tail ⟨first, others, x⟩]⟩
      else none := by
  have hn : (inWindow tail first others output).stored.numNodes =
      Window.size ⟨first, others, x⟩ % 2 ^ 32 := rfl
  rw [closeWindow, hn]
  by_cases hcounted : Counted ⟨first, others, x⟩
  · rw [if_neg hcounted, if_pos hcounted]
    show some (Vars.mk _ _ _ _ (output ++ [_])) = some (Vars.mk _ _ _ _ (output ++ [_]))
    congr 4
    apply Node.ext
    · rfl
    · rfl
    · funext f
      show (first.value f - x.value f) / (-1 * _) = (x.value f - first.value f) / _
      rw [neg_one_mul, div_neg, ← neg_div, neg_sub]
    · rfl
    · rfl
  · rw [if_pos (not_not.mp hcounted), if_neg hcounted]

/-- Any other datapoint closes the window, and opens the next one. -/
theorem body_closing {tail first x : Node} (others output : List Node) {isTail : Bool}
    (hclose : Far first x ∨ isTail = true) :
    body tail isTail x (inWindow tail first others output).stored =
      if Counted ⟨first, others, x⟩ then
        some (inWindow tail x [] (output ++ [emitted tail ⟨first, others, x⟩])).stored
      else none := by
  have hcond : aggregationStep < |x.key - (inWindow tail first others output).stored.initTime| ∨
      isTail = true := hclose
  rw [body, if_pos hcond, closeWindow_inWindow]
  split
  · rw [Option.map_some, addNode_openWindow]
  · rfl

/-! ### One run -/

/-- The loop over the datapoints that join the window. -/
theorem loop_near {tail first closing : Node} {xs : List Node} (others rest output : List Node)
    (hnear : ∀ x ∈ xs, ¬ Far first x) :
    loop tail (xs ++ closing :: rest) (inWindow tail first others output).stored =
      loop tail (closing :: rest) (inWindow tail first (others ++ xs) output).stored := by
  induction xs generalizing others with
  | nil => rw [List.nil_append, List.append_nil]
  | cons x xs ih =>
      have hassoc : others ++ x :: xs = others ++ [x] ++ xs := by simp
      have hnext : (xs ++ closing :: rest).isEmpty = false := by
        rw [List.isEmpty_eq_false_iff]
        simp
      rw [hassoc, List.cons_append, loop, hnext,
        body_near others output (hnear x List.mem_cons_self), Option.bind_some]
      exact ih (others ++ [x]) fun z hz => hnear z (List.mem_cons_of_mem _ hz)

/-- From the first datapoint of a window on, the loop puts out one datapoint
for each window of the greedy segmentation. -/
theorem loop_greedy {tail : Node} {l : List Node} {ws : List (Window Node)}
    (h : Greedy Far l ws) {first : Node} {next : List Node} (hl : l = first :: next)
    (output : List Node) :
    (loop tail next (inWindow tail first [] output).stored).map Vars.aggregatedDatapoints =
      if ∀ w ∈ ws, Counted w then some (output ++ ws.map (emitted tail)) else none := by
  induction h generalizing first next output with
  | last x =>
      obtain ⟨rfl, rfl⟩ := List.cons.inj hl
      rw [if_pos (List.forall_mem_nil _), List.map_nil, List.append_nil]
      rfl
  | @window start closing others rest ws hnear hclose _ ih =>
      obtain ⟨rfl, rfl⟩ := List.cons.inj hl
      have hcond : Far start closing ∨ rest.isEmpty = true := by
        rcases hclose with hfar | rfl
        · exact .inl hfar
        · exact .inr rfl
      rw [loop_near [] rest output hnear, List.nil_append, loop, body_closing others output hcond]
      by_cases hcounted : Counted ⟨start, others, closing⟩
      · rw [if_pos hcounted, Option.bind_some, ih rfl]
        simp only [List.forall_mem_cons, hcounted, true_and, List.map_cons, List.append_assoc,
          List.singleton_append]
      · rw [if_neg hcounted, if_neg fun h => hcounted (h _ List.mem_cons_self)]
        rfl

/-- The head of a run opens its first window. -/
theorem aggregateRun_start (output next : List Node) (head x : Node) :
    aggregateRun output (head :: x :: next) =
      (loop ((head :: x :: next).getLast (List.cons_ne_nil _ _)) (x :: next)
        (inWindow ((head :: x :: next).getLast (List.cons_ne_nil _ _)) head [] output).stored).map
          Vars.aggregatedDatapoints := by
  have hstay : ¬ (aggregationStep < |head.key - head.key| ∨ (x :: next).isEmpty = true) := by
    simp
  rw [aggregateRun, loop, body, if_neg hstay, Option.map_some, addNode_openWindow,
    Option.bind_some]

/-- At the tail a window without datapoints cannot be closed. -/
theorem body_tail_eq_none (tail curr : Node) {s : Vars} (hs : s.numNodes = 0) :
    body tail true curr s = none := by
  have hcond : aggregationStep < |curr.key - s.initTime| ∨ true = true := .inr rfl
  rw [body, if_pos hcond, closeWindow, if_pos hs]
  rfl

/-- What `aggregate` adds for one run, in the arithmetic of the code. -/
theorem aggregateRun_emitted (r : Run) (output : List Node) :
    aggregateRun output r.nodes =
      if ∀ w ∈ windows Far r.nodes, Counted w then
        some (output ++ (windows Far r.nodes).map (emitted r.tail))
      else none := by
  cases hnodes : r.nodes with
  | nil => exact absurd hnodes r.ne_nil
  | cons head next =>
      cases next with
      | nil =>
          have htwo := r.two_le
          rw [hnodes] at htwo
          exact absurd htwo (by simp)
      | cons x next =>
          have htail : (head :: x :: next).getLast (List.cons_ne_nil _ _) = r.tail := by
            simp only [Run.tail, hnodes]
          rw [aggregateRun_start, htail,
            loop_greedy (greedy_windows (List.cons_ne_nil head (x :: next))) rfl output]

theorem size_pos (w : Window Node) : 0 < w.size := Nat.succ_pos _

/-- With a counter that does not wrap. -/
theorem counted_of_lt {w : Window Node} (h : w.size < 2 ^ 32) : Counted w := by
  rw [Counted, Nat.mod_eq_of_lt h]
  exact (size_pos w).ne'

theorem emitted_eq_average {tail : Node} {w : Window Node}
    (hdiv : ∀ f, divUnsigned (toInt (sumInt w.elements f)) w.size = (sumInt w.elements f).tdiv w.size)
    (hsize : w.size < 2 ^ 32) : emitted tail w = average tail w := by
  have hmod : w.size % 2 ^ 32 = w.size := Nat.mod_eq_of_lt hsize
  apply Node.ext
  · rfl
  · show _ / ((w.size % 2 ^ 32 : ℕ) : ℚ) = _ / (w.size : ℚ)
    rw [hmod]
  · funext f
    show _ / ((w.size % 2 ^ 32 : ℕ) : ℚ) = _ / (w.size : ℚ)
    rw [hmod]
  · funext f
    show divUnsigned (toInt (sumInt w.elements f)) (w.size % 2 ^ 32) = _
    rw [hmod]
    exact hdiv f
  · funext f
    show _ / ((w.size % 2 ^ 32 : ℕ) : ℚ) = _ / (w.size : ℚ)
    rw [hmod]

theorem Fits.divUnsigned_sumInt {l : List Node} (h : Fits l) (f : IntField) (n : ℕ) :
    divUnsigned (toInt (sumInt l f)) n = (sumInt l f).tdiv n := by
  have hnonneg := sumInt_nonneg (h f).1
  rw [toInt_of_mem (by omega) (h f).2]
  exact divUnsigned_of_nonneg hnonneg (h f).2 n

/-- What `aggregate` adds for one run whose sums fit. -/
theorem aggregateRun_eq {r : Run} (hfits : Fits r.nodes)
    (hsize : ∀ w ∈ windows Far r.nodes, w.size < 2 ^ 32) (output : List Node) :
    aggregateRun output r.nodes =
      some (output ++ (windows Far r.nodes).map (average r.tail)) := by
  have hemitted : (windows Far r.nodes).map (emitted r.tail) =
      (windows Far r.nodes).map (average r.tail) := by
    apply List.map_congr_left
    intro w hw
    have hwindow : Fits w.elements := hfits.sublist ((greedy_windows r.ne_nil).elements_sublist hw)
    exact emitted_eq_average (fun f => hwindow.divUnsigned_sumInt f _) (hsize w hw)
  rw [aggregateRun_emitted, if_pos fun w hw => counted_of_lt (hsize w hw), hemitted]

/-- A window of one datapoint has its values, and the differences to the one
that closes it. -/
theorem average_pair (p q : Node) :
    average q ⟨p, [], q⟩ =
      { key := q.key - p.key
        generationTime := q.key - p.key
        slope := fun f => q.value f - p.value f
        int := p.int
        cpu := p.cpu } := by
  have hsize : ((Window.size ⟨p, [], q⟩ : ℕ) : ℚ) = 1 := Nat.cast_one
  apply Node.ext
  · rfl
  · show (q.key - p.key) / _ = q.key - p.key
    rw [hsize, div_one]
  · funext f
    show (q.value f - p.value f) / _ = q.value f - p.value f
    rw [hsize, div_one]
  · funext f
    show (sumInt [p] f).tdiv 1 = p.int f
    simp [sumInt]
  · funext f
    show sumCpu [p] f / _ = p.cpu f
    rw [hsize, div_one]
    simp [sumCpu]

/-- A run of two datapoints is one window. -/
theorem aggregate_pair {p q : Node} (hp : ∀ f, -2 ^ 31 ≤ p.int f ∧ p.int f < 2 ^ 31) :
    aggregate [[p, q]] = some [average q ⟨p, [], q⟩] := by
  have hdiv : ∀ f, divUnsigned (toInt (sumInt [p] f)) 1 = (sumInt [p] f).tdiv 1 := by
    intro f
    have hone : sumInt [p] f = p.int f := by simp [sumInt]
    rw [hone, toInt_of_mem (hp f).1 (hp f).2, divUnsigned_one (hp f).1 (hp f).2, Int.tdiv_one]
  have hsize : Window.size (⟨p, [], q⟩ : Window Node) < 2 ^ 32 := by
    show 1 < 2 ^ 32
    decide
  have hemitted : emitted q ⟨p, [], q⟩ = average q ⟨p, [], q⟩ := emitted_eq_average hdiv hsize
  have hrun : aggregateRun [] [p, q] = some [average q ⟨p, [], q⟩] := by
    rw [← hemitted]
    refine (aggregateRun_emitted ⟨[p, q], Nat.le_refl 2⟩ []).trans ?_
    exact if_pos (List.forall_mem_singleton.mpr (counted_of_lt hsize))
  rw [aggregate, List.foldlM_cons, hrun]
  rfl

/-! ### All runs -/

/-- **Aggregation.**  The datapoints put out are those of the windows of each
run, in order; these windows are the greedy segmentation of the run, and each
datapoint of a run but its tail is in exactly one of them. -/
theorem aggregate_eq (runs : List Run) (hfits : ∀ r ∈ runs, Fits r.nodes)
    (hsize : ∀ r ∈ runs, ∀ w ∈ windows Far r.nodes, w.size < 2 ^ 32) :
    aggregate (runs.map Run.nodes) =
        some (runs.flatMap fun r => (windows Far r.nodes).map (average r.tail)) ∧
      ∀ r ∈ runs, (∀ ws, Greedy Far r.nodes ws ↔ ws = windows Far r.nodes) ∧
        (windows Far r.nodes).flatMap Window.elements = r.nodes.dropLast := by
  constructor
  · have hfold : ∀ output, (runs.map Run.nodes).foldlM aggregateRun output =
        some (output ++ runs.flatMap fun r => (windows Far r.nodes).map (average r.tail)) := by
      induction runs with
      | nil => simp
      | cons r runs ih =>
          intro output
          have hrun := aggregateRun_eq (hfits r List.mem_cons_self) (hsize r List.mem_cons_self)
            output
          have hrest := ih (fun r hr => hfits r (List.mem_cons_of_mem _ hr))
            fun r hr => hsize r (List.mem_cons_of_mem _ hr)
          rw [List.map_cons, List.foldlM_cons, hrun]
          show List.foldlM aggregateRun _ (runs.map Run.nodes) = _
          rw [hrest, List.flatMap_cons, List.append_assoc]
    exact hfold []
  · intro r _
    have hiff : ∀ ws, Greedy Far r.nodes ws ↔ ws = windows Far r.nodes := by
      intro ws
      exact greedy_iff r.ne_nil
    exact ⟨hiff, ((hiff _).mpr rfl).flatMap_elements⟩

/-- Four datapoints, one every 10 seconds: the window of the first two is
closed by the third. -/
def shortRun : Run where
  nodes :=
    [{ Node.zero with key := 0, int := fun _ => 5 },
      { Node.zero with key := 10, int := fun _ => 8 },
      { Node.zero with key := 20 },
      { Node.zero with key := 30 }]
  two_le := by decide

theorem fits_shortRun : Fits shortRun.nodes := by
  intro f
  simp [shortRun, sumInt, Node.zero]

theorem aggregate_shortRun :
    aggregate ([shortRun].map Run.nodes) =
        some ([shortRun].flatMap fun r => (windows Far r.nodes).map (average r.tail)) ∧
      ∀ r ∈ [shortRun], (∀ ws, Greedy Far r.nodes ws ↔ ws = windows Far r.nodes) ∧
        (windows Far r.nodes).flatMap Window.elements = r.nodes.dropLast := by
  apply aggregate_eq
  · intro r hr
    rw [List.mem_singleton.mp hr]
    exact fits_shortRun
  · intro r hr w hw
    have hlt := (greedy_windows r.ne_nil).size_lt_length hw
    rw [List.mem_singleton.mp hr] at hlt
    exact hlt.trans (by decide)

/-! ### A window of 2³² datapoints -/

theorem fits_replicate (k : ℕ) : Fits (List.replicate k Node.zero) := by
  intro f
  constructor
  · intro p hp
    rw [List.eq_of_mem_replicate hp]
    exact le_refl 0
  · simp [sumInt, Node.zero]

/-- Datapoints all at the same time, with nothing in use. -/
def idleRun (m : ℕ) : Run where
  nodes := List.replicate (m + 2) Node.zero
  two_le := by
    rw [List.length_replicate]
    exact Nat.le_add_left 2 m

/-- A run of datapoints at the same time is one window. -/
theorem windows_idleRun (m : ℕ) :
    windows Far (idleRun m).nodes = [⟨.zero, List.replicate m .zero, .zero⟩] := by
  have hnear : ∀ x ∈ List.replicate m Node.zero, ¬ Far Node.zero x := by
    intro x hx
    rw [List.eq_of_mem_replicate hx]
    simp [Far, Node.zero]
  have hnodes : (idleRun m).nodes = .zero :: (List.replicate m Node.zero ++ [.zero]) := by
    rw [← List.replicate_succ']
    rfl
  rw [hnodes]
  exact (Greedy.window hnear (.inr rfl) (.last Node.zero)).eq_windows.symm

/-- The counter of a window of `2 ^ 32` datapoints is 0 when it is closed. -/
theorem aggregateRun_idleRun {m : ℕ} (hm : m + 1 = 2 ^ 32) (output : List Node) :
    aggregateRun output (idleRun m).nodes = none := by
  rw [aggregateRun_emitted, windows_idleRun, if_neg]
  intro hcounted
  apply List.forall_mem_singleton.mp hcounted
  show (Node.zero :: List.replicate m Node.zero).length % 2 ^ 32 = 0
  rw [List.length_cons, List.length_replicate, hm]
  exact Nat.mod_self _

/-- A run of `2 ^ 32 + 1` datapoints ends in a division by zero. -/
theorem aggregate_idleRun :
    Fits (idleRun 4294967295).nodes ∧
      aggregate ([idleRun 4294967295].map Run.nodes) ≠
        some ([idleRun 4294967295].flatMap fun r =>
          (windows Far r.nodes).map (average r.tail)) := by
  refine ⟨fits_replicate _, ?_⟩
  have hrun : aggregateRun [] (idleRun 4294967295).nodes = none :=
    aggregateRun_idleRun (by norm_num) []
  have hnone : aggregate [(idleRun 4294967295).nodes] = none := by
    rw [aggregate, List.foldlM_cons, hrun]
    rfl
  rw [List.map_singleton, hnone]
  exact (Option.some_ne_none _).symm

end A2PM.ModelBuild
