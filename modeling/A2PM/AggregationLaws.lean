/-
A2PM/AggregationLaws.lean

What the datapoints that `aggregate` puts out say about their run.

* Slopes and times: multiplied by the sizes of the windows they add up to the
  differences between the ends of the run (`aggregateRun_conserved`).  Each
  window is closed by the datapoint that starts the next one, so the sums
  telescope.
* Averages: the sums are `int`s.  A sum from `2 ^ 32` on has lost a multiple of
  `2 ^ 32` when it is divided, and the quotient can be less than all values of
  the window (`aggregateRun_inRange_iff`).  Sums from `2 ^ 31` on are negative
  for a while, but the division is an unsigned one.
-/
import A2PM.Aggregation
import Mathlib.Algebra.Order.BigOperators.Group.List
import Mathlib.Data.List.Forall2
import Mathlib.Tactic.NormNum

namespace A2PM.ModelBuild

open MachineInt Segmentation

def Run.head (r : Run) : Node := r.nodes.head r.ne_nil

/-! ### Slopes and times -/

/-- With windows of these sizes, these datapoints conserve the slopes and the
times of the run. -/
structure Conserved (r : Run) (sizes : List ℕ) (output : List Node) : Prop where
  length : output.length = sizes.length
  slopes : ∀ f, (List.zipWith (fun (n : ℕ) (p : Node) => (n : ℚ) * p.slope f) sizes output).sum =
    r.tail.value f - r.head.value f
  times : (List.zipWith (fun (n : ℕ) (p : Node) => (n : ℚ) * p.generationTime) sizes output).sum =
    r.tail.key - r.head.key
  /-- The RTTC of a window, and that of the next one. -/
  rttc : (sizes.zip output).IsChain fun a b => a.2.key - b.2.key = (a.1 : ℚ) * a.2.generationTime
  lastRttc : ∀ a ∈ (sizes.zip output).getLast?, a.2.key = (a.1 : ℚ) * a.2.generationTime

section

variable {tail : Node} {w : Window Node}

theorem size_ne_zero (w : Window Node) : (w.size : ℚ) ≠ 0 := Nat.cast_ne_zero.mpr (size_pos w).ne'

theorem size_mul_slope (hsize : w.size < 2 ^ 32) (f : Field) :
    w.size * (emitted tail w).slope f = w.closing.value f - w.first.value f := by
  show (w.size : ℚ) * (_ / ((w.size % 2 ^ 32 : ℕ) : ℚ)) = _
  rw [Nat.mod_eq_of_lt hsize, mul_div_cancel₀ _ (size_ne_zero w)]

theorem size_mul_generationTime (hsize : w.size < 2 ^ 32) :
    w.size * (emitted tail w).generationTime = w.closing.key - w.first.key := by
  show (w.size : ℚ) * (_ / ((w.size % 2 ^ 32 : ℕ) : ℚ)) = _
  rw [Nat.mod_eq_of_lt hsize, mul_div_cancel₀ _ (size_ne_zero w)]

end

/-- The sum over the windows of what they contribute. -/
theorem sum_zipWith_emitted {r : Run} {g h : Node → ℚ}
    (hwindow : ∀ w ∈ windows Far r.nodes,
      w.size * g (emitted r.tail w) = h w.closing - h w.first) :
    (List.zipWith (fun (n : ℕ) p => (n : ℚ) * g p) ((windows Far r.nodes).map Window.size)
      ((windows Far r.nodes).map (emitted r.tail))).sum = h r.tail - h r.head := by
  rw [List.zipWith_map, List.zipWith_self, List.map_congr_left hwindow]
  exact (greedy_windows r.ne_nil).sum_sub h r.ne_nil

theorem conserved_emitted {r : Run} (hsize : ∀ w ∈ windows Far r.nodes, w.size < 2 ^ 32) :
    Conserved r ((windows Far r.nodes).map Window.size)
      ((windows Far r.nodes).map (emitted r.tail)) := by
  have hgreedy : Greedy Far r.nodes (windows Far r.nodes) := greedy_windows r.ne_nil
  constructor
  · rw [List.length_map, List.length_map]
  · intro f
    exact sum_zipWith_emitted (g := fun p => p.slope f) (h := fun p => p.value f)
      fun w hw => size_mul_slope (hsize w hw) f
  · exact sum_zipWith_emitted (g := Node.generationTime) (h := Node.key)
      fun w hw => size_mul_generationTime (hsize w hw)
  · -- the next window starts where this one is closed
    rw [List.zip_map', List.isChain_map]
    apply hgreedy.isChain.imp_of_mem_imp
    intro w w' hw _ hnext
    show r.tail.key - w.first.key - (r.tail.key - w'.first.key) = _
    rw [size_mul_generationTime (hsize w hw), ← hnext]
    exact sub_sub_sub_cancel_left _ _ _
  · intro a ha
    rw [List.zip_map', List.getLast?_map] at ha
    obtain ⟨w, hw, rfl⟩ := Option.map_eq_some_iff.mp ha
    have hlast : w.closing = r.tail := hgreedy.closing_last r.ne_nil w hw
    show r.tail.key - w.first.key = _
    rw [size_mul_generationTime (hsize w (List.mem_of_getLast? hw)), hlast]

/-- **Conservation of slopes and times.**  As long as the counter does not
wrap, the windows of a run conserve its slopes and times. -/
theorem aggregateRun_conserved (r : Run) (hsize : ∀ w ∈ windows Far r.nodes, w.size < 2 ^ 32)
    (before : List Node) :
    ∃ output, aggregateRun before r.nodes = some (before ++ output) ∧
      Conserved r ((windows Far r.nodes).map Window.size) output := by
  refine ⟨(windows Far r.nodes).map (emitted r.tail), ?_, conserved_emitted hsize⟩
  rw [aggregateRun_emitted, if_pos fun w hw => counted_of_lt (hsize w hw)]

theorem aggregateRun_conserved_shortRun :
    ∃ output, aggregateRun [] shortRun.nodes = some ([] ++ output) ∧
      Conserved shortRun ((windows Far shortRun.nodes).map Window.size) output := by
  apply aggregateRun_conserved
  intro w hw
  exact ((greedy_windows shortRun.ne_nil).size_lt_length hw).trans (by decide)

/-- With a window of `2 ^ 32` datapoints nothing is put out. -/
theorem idleRun_not_conserved :
    ¬ ∃ output, aggregateRun [] (idleRun 4294967295).nodes = some ([] ++ output) ∧
      Conserved (idleRun 4294967295) ((windows Far (idleRun 4294967295).nodes).map Window.size)
        output := by
  rintro ⟨output, hrun, -⟩
  rw [aggregateRun_idleRun (by norm_num)] at hrun
  cases hrun

/-! ### Averages -/

/-- The values of an `int` field in a window. -/
def values (w : Window Node) (f : IntField) : List ℤ := w.elements.map fun p => p.int f

theorem values_ne_nil (w : Window Node) (f : IntField) : values w f ≠ [] := List.cons_ne_nil _ _

/-- The least value of the field in the window. -/
def least (w : Window Node) (f : IntField) : ℤ := (values w f).min (values_ne_nil w f)

/-- The greatest value of the field in the window. -/
def greatest (w : Window Node) (f : IntField) : ℤ := (values w f).max (values_ne_nil w f)

/-- The averaged fields of a datapoint are in the range of its window. -/
def InRange (w : Window Node) (p : Node) : Prop :=
  ∀ f, least w f ≤ p.int f ∧ p.int f ≤ greatest w f

/-- In 32 bits, the sum of the field is one of as many values in the range of
the window as the counter says. -/
def Averages (w : Window Node) (f : IntField) : Prop :=
  let n : ℤ := (w.size % 2 ^ 32 : ℕ)
  let sum := sumInt w.elements f % 2 ^ 32
  n * least w f ≤ sum ∧ sum < n * (greatest w f + 1)

/-- An `int` that `%d` has read from a numeral without a sign. -/
def NonNegative (p : Node) : Prop := ∀ f, 0 ≤ p.int f ∧ p.int f < 2 ^ 31

theorem exists_least (w : Window Node) (f : IntField) : ∃ p ∈ w.elements, p.int f = least w f :=
  List.mem_map.mp (List.min_mem (values_ne_nil w f))

theorem exists_greatest (w : Window Node) (f : IntField) :
    ∃ p ∈ w.elements, p.int f = greatest w f :=
  List.mem_map.mp (List.max_mem (values_ne_nil w f))

/-- The average is in range iff the sum, as far as it has been kept, is. -/
theorem inRange_emitted_iff {tail : Node} {w : Window Node} (hcounted : Counted w)
    (hints : ∀ p ∈ w.elements, NonNegative p) :
    InRange w (emitted tail w) ↔ ∀ f, Averages w f := by
  apply forall_congr'
  intro f
  obtain ⟨p, hp, hleast⟩ := exists_least w f
  obtain ⟨q, hq, hgreatest⟩ := exists_greatest w f
  have hlow : 0 ≤ least w f := hleast ▸ (hints p hp f).1
  have hhigh : greatest w f < 2 ^ 31 := hgreatest ▸ (hints q hq f).2
  exact divUnsigned_toInt_mem_iff (Nat.pos_of_ne_zero hcounted) hlow hhigh

/-- **Averages stay in range.**  All windows of a run are averaged in their
ranges iff no counter is 0 and no sum has lost too much. -/
theorem aggregateRun_inRange_iff (r : Run) (hints : ∀ p ∈ r.nodes, NonNegative p)
    (before : List Node) :
    (∃ output, aggregateRun before r.nodes = some (before ++ output) ∧
      List.Forall₂ InRange (windows Far r.nodes) output) ↔
      ∀ w ∈ windows Far r.nodes, Counted w ∧ ∀ f, Averages w f := by
  have hwindow : ∀ w ∈ windows Far r.nodes, Counted w →
      (InRange w (emitted r.tail w) ↔ ∀ f, Averages w f) := by
    intro w hw hcounted
    apply inRange_emitted_iff hcounted
    intro p hp
    exact hints p (((greedy_windows r.ne_nil).elements_sublist hw).subset hp)
  rw [aggregateRun_emitted]
  constructor
  · rintro ⟨output, hrun, hrange⟩
    rw [Option.ite_none_right_eq_some] at hrun
    obtain ⟨hcounted, hrun⟩ := hrun
    obtain rfl := List.append_cancel_left (Option.some.inj hrun)
    rw [List.forall₂_map_right_iff, List.forall₂_same] at hrange
    intro w hw
    exact ⟨hcounted w hw, (hwindow w hw (hcounted w hw)).mp (hrange w hw)⟩
  · intro h
    refine ⟨_, if_pos fun w hw => (h w hw).1, ?_⟩
    rw [List.forall₂_map_right_iff, List.forall₂_same]
    intro w hw
    exact (hwindow w hw (h w hw).1).mpr (h w hw).2

/-- A sum below `2 ^ 32` has lost nothing. -/
theorem averages_of_lt {w : Window Node} {f : IntField} (hsize : w.size < 2 ^ 32)
    (hnonneg : 0 ≤ sumInt w.elements f) (hsum : sumInt w.elements f < 2 ^ 32) : Averages w f := by
  have hlength : (values w f).length = w.size := List.length_map _
  have hlow : w.size • least w f ≤ sumInt w.elements f := by
    rw [← hlength]
    exact List.card_nsmul_le_sum _ _ fun z hz => List.min_le_of_mem hz
  have hhigh : sumInt w.elements f ≤ w.size • greatest w f := by
    rw [← hlength]
    exact List.sum_le_card_nsmul _ _ fun z hz => List.le_max_of_mem hz
  have hpos : (0 : ℤ) < w.size := Int.natCast_pos.mpr (size_pos w)
  rw [nsmul_eq_mul] at hlow hhigh
  rw [Averages, Nat.mod_eq_of_lt hsize, Int.emod_eq_of_lt hnonneg hsum, mul_add, mul_one]
  exact ⟨hlow, by omega⟩

theorem aggregateRun_inRange_shortRun :
    ∃ output, aggregateRun [] shortRun.nodes = some ([] ++ output) ∧
      List.Forall₂ InRange (windows Far shortRun.nodes) output := by
  refine (aggregateRun_inRange_iff shortRun ?_ []).mpr ?_
  · simp [shortRun, NonNegative, Node.zero]
  · intro w hw
    have hgreedy : Greedy Far shortRun.nodes (windows Far shortRun.nodes) :=
      greedy_windows shortRun.ne_nil
    have hsize : w.size < 2 ^ 32 := (hgreedy.size_lt_length hw).trans (by decide)
    have hfits : Fits w.elements := fits_shortRun.sublist (hgreedy.elements_sublist hw)
    refine ⟨counted_of_lt hsize, fun f => averages_of_lt hsize (sumInt_nonneg (hfits f).1) ?_⟩
    exact (hfits f).2.trans (by norm_num)

/-- A datapoint with the greatest `int` in every field. -/
def fullNode (key : ℚ) : Node := { Node.zero with key := key, int := fun _ => 2147483647 }

/-- Three of them, and a fourth one that closes their window. -/
def fullRun : Run where
  nodes := [fullNode 0, fullNode 1, fullNode 2, fullNode 3]
  two_le := by decide

theorem windows_fullRun :
    windows Far fullRun.nodes = [⟨fullNode 0, [fullNode 1, fullNode 2], fullNode 3⟩] := by
  have hnear : ∀ x ∈ [fullNode 1, fullNode 2], ¬ Far (fullNode 0) x := by
    intro x hx
    rcases List.mem_pair.mp hx with rfl | rfl
    · norm_num [Far, fullNode]
    · norm_num [Far, fullNode]
  exact (Greedy.window hnear (.inr rfl) (.last (fullNode 3))).eq_windows.symm

/-- Their average is a third of what each of them has. -/
theorem fullRun_not_inRange :
    ¬ ∃ output, aggregateRun [] fullRun.nodes = some ([] ++ output) ∧
      List.Forall₂ InRange (windows Far fullRun.nodes) output := by
  rintro ⟨output, hrun, hrange⟩
  rw [aggregateRun_emitted, Option.ite_none_right_eq_some, windows_fullRun] at hrun
  obtain ⟨hcounted, hrun⟩ := hrun
  obtain rfl := Option.some.inj hrun
  rw [windows_fullRun] at hrange
  cases hrange with
  | cons hfirst _ => exact absurd (hfirst .memUsed).1 (by decide)

end A2PM.ModelBuild
