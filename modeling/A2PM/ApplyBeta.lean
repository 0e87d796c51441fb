/-
A2PM/ApplyBeta.lean

`write_aggregated_file` of `model_build/aggregate.c`, which writes a line for
each aggregated datapoint, and `model_build/applyBeta.py`, which reads them
back, weights the columns, adds a column `LASSO-time` and leaves out the
columns that are zero.

`loadRows_writeAggregatedFile`: the thirty numbers of a line come back as they
are printed, so each weight meets the feature it is for.  The loop that sums a
row starts with the first column, which is the RTTC: `LASSO-time` is the
linear prediction plus the RTTC (`lasso_printedRow`).

A row is a function of its column, as the keys of the dictionary are the thirty
column names.  `float` is exact.
-/
import A2PM.Aggregation
import A2PM.DelimitedText
import Mathlib.Algebra.BigOperators.Fin

namespace A2PM.ModelBuild

open FormattedText DelimitedText

/-! ### `write_aggregated_file` -/

/-- The string literals of the header line. -/
def aggregatedHeader : List String :=
  ["RTTC, ", "GenTime, ", "n_th_slope, ", "mem_used_slope, ", "mem_free_slope, ",
   "mem_shared_slope, ", "mem_buffers_slope, ", "mem_cached_slope, ", "swap_used_slope, ",
   "swap_free_slope, ", "cpu_user_slope, ", "cpu_nice_slope, ", "cpu_system_slope, ",
   "cpu_iowait_slope, ", "cpu_steal_slope, ", "cpu_idle_slope, ", "n_th, ", "mem_used, ",
   "mem_free, ", "mem_shared, ", "mem_buffers, ", "mem_cached, ", "swap_used, ", "swap_free, ",
   "cpu_user, ", "cpu_nice, ", "cpu_system, ", "cpu_iowait, ", "cpu_steal, ", "cpu_idle\n"]

def nodeFormat : String :=
  "%f, %f, %f, %f, %f, %f, %f, %f, %f, %f, %f, %f, %f, %f, %f, %f, " ++
    "%d, %d, %d, %d, %d, %d, %d, %d, %f, %f, %f, %f, %f, %f\n"

/-- The arguments of `fprintf`. -/
def nodeArguments (curr : Node) : List Value :=
  [.float curr.key,
   .float curr.generationTime,
   .float (curr.slope (.inl .nTh)),
   .float (curr.slope (.inl .memUsed)),
   .float (curr.slope (.inl .memFree)),
   .float (curr.slope (.inl .memShared)),
   .float (curr.slope (.inl .memBuffers)),
   .float (curr.slope (.inl .memCached)),
   .float (curr.slope (.inl .swapUsed)),
   .float (curr.slope (.inl .swapFree)),
   .float (curr.slope (.inr .cpuUser)),
   .float (curr.slope (.inr .cpuNice)),
   .float (curr.slope (.inr .cpuSystem)),
   .float (curr.slope (.inr .cpuIowait)),
   .float (curr.slope (.inr .cpuSteal)),
   .float (curr.slope (.inr .cpuIdle)),
   .int (curr.int .nTh),
   .int (curr.int .memUsed),
   .int (curr.int .memFree),
   .int (curr.int .memShared),
   .int (curr.int .memBuffers),
   .int (curr.int .memCached),
   .int (curr.int .swapUsed),
   .int (curr.int .swapFree),
   .float (curr.cpu .cpuUser),
   .float (curr.cpu .cpuNice),
   .float (curr.cpu .cpuSystem),
   .float (curr.cpu .cpuIowait),
   .float (curr.cpu .cpuSteal),
   .float (curr.cpu .cpuIdle)]

/-- `write_aggregated_file`: the text of the file. -/
def writeAggregatedFile (aggregatedDatapoints : List Node) : Option (List Char) :=
  (aggregatedDatapoints.mapM fun curr => sprintf nodeFormat (nodeArguments curr)).map
    fun lines => aggregatedHeader.flatMap String.toList ++ lines.flatten

/-! ### `applyBeta.py` -/

/-- `columns`. -/
def columns : List String :=
  ["RTTC", "gen_time", "n_th_slope", "mem_used_slope", "mem_free_slope", "mem_shared_slope",
   "mem_buffers_slope", "mem_cached_slope", "swap_used_slope", "swap_free_slope",
   "cpu_user_slope", "cpu_nice_slope", "cpu_system_slope", "cpu_iowait_slope",
   "cpu_steal_slope", "cpu_idle_slope", "n_th", "mem_used", "mem_free", "mem_shared",
   "mem_buffers", "mem_cached", "swap_used", "swap_free", "cpu_user", "cpu_nice", "cpu_system",
   "cpu_iowait", "cpu_steal", "cpu_idle"]

/-- `columns[i]` -/
def columnName (c : Fin 30) : String := columns.get c

/-- A row of `data`: its entry for each of the columns, and for
`LASSO-time`. -/
structure Row where
  value : Fin 30 → ℚ
  lasso : ℚ

/-- `row['RTTC']` -/
def Row.rttc (row : Row) : ℚ := row.value ⟨0, Nat.succ_pos 29⟩

/-- The entries after the assignments `row[columns[i]] = beta[i-1] * ...`; the
first column is not weighted. -/
def weighted (beta : Fin 29 → ℚ) (fields : Fin 30 → ℚ) : Fin 30 → ℚ :=
  Fin.cons (fields 0) fun k => beta k * fields k.succ

/-- `for i in range(0,len(row))` -/
def sumRow (value : Fin 30 → ℚ) : ℚ :=
  (List.finRange 30).foldl (fun lasso i => lasso + value i) 0

/-- The loop over the rows that are read. -/
def weightRow (beta : Fin 29 → ℚ) (fields : Fin 30 → ℚ) : Row where
  value := weighted beta fields
  lasso := sumRow (weighted beta fields)

/-- The fields of a line as numbers; anything but thirty numbers raises an
exception. -/
def tableRow (fields : List (List Char)) : Option (Fin 30 → ℚ) :=
  (fields.mapM readFloat).bind fun values =>
    if h : values.length = 30 then some fun i => values.get ⟨i, i.isLt.trans_eq h.symm⟩ else none

/-- `data`, from the text of `aggregated.csv`.  `DictReader` skips empty
lines. -/
def loadRows (beta : Fin 29 → ℚ) (text : List Char) : Option (List Row) :=
  match readlines text with
  | [] => none
  | _ :: lines => (lines.filter fun line => line ≠ ['\n']).mapM fun line =>
      ((csvFields line).bind tableRow).map (weightRow beta)

/-- The `sum` of a column. -/
def columnSum (data : List Row) (col : Fin 30) : ℚ :=
  data.foldl (fun sum row => sum + |row.value col|) 0

/-- `wanted_columns`. -/
def wantedColumns (data : List Row) : List (Fin 30) :=
  (List.finRange 30).filter fun col => 0 < columnSum data col

/-- `fieldnames`. -/
def fieldnames (data : List Row) : List String :=
  "LASSO-time" :: (wantedColumns data).map columnName

/-- The numbers that `writerow` writes. -/
def writerow (wanted : List (Fin 30)) (row : Row) : List ℚ := row.lasso :: wanted.map row.value

/-- The rows of the file that is written. -/
def writtenRows (data : List Row) : List (List ℚ) := data.map (writerow (wantedColumns data))

/-! ### The columns -/

/-- The feature behind a column of the aggregated file. -/
inductive Feature
  | genTime
  | slope (f : Field)
  | value (f : Field)
  deriving DecidableEq

/-- The fields of a node, in the order of the file. -/
def fields : List Field :=
  [.inl .nTh, .inl .memUsed, .inl .memFree, .inl .memShared, .inl .memBuffers, .inl .memCached,
   .inl .swapUsed, .inl .swapFree, .inr .cpuUser, .inr .cpuNice, .inr .cpuSystem,
   .inr .cpuIowait, .inr .cpuSteal, .inr .cpuIdle]

/-- The features, in the order of the header. -/
def features : List Feature := .genTime :: (fields.map .slope ++ fields.map .value)

def feature (k : Fin 29) : Feature := features.get k

namespace Feature

def name : Feature → String
  | genTime => "GenTime"
  | slope f => fieldName f ++ "_slope"
  | value f => fieldName f
where
  fieldName : Field → String
    | .inl .nTh => "n_th"
    | .inl .memUsed => "mem_used"
    | .inl .memFree => "mem_free"
    | .inl .memShared => "mem_shared"
    | .inl .memBuffers => "mem_buffers"
    | .inl .memCached => "mem_cached"
    | .inl .swapUsed => "swap_used"
    | .inl .swapFree => "swap_free"
    | .inr .cpuUser => "cpu_user"
    | .inr .cpuNice => "cpu_nice"
    | .inr .cpuSystem => "cpu_system"
    | .inr .cpuIowait => "cpu_iowait"
    | .inr .cpuSteal => "cpu_steal"
    | .inr .cpuIdle => "cpu_idle"

/-- The cell of a node for a feature. -/
def cell (p : Node) : Feature → Number
  | genTime => .float p.generationTime
  | slope f => .float (p.slope f)
  | value (.inl f) => .int (p.int f)
  | value (.inr f) => .float (p.cpu f)

end Feature

/-- The value of feature `k` of a datapoint, as it is printed. -/
def printedFeature (p : Node) (k : Fin 29) : ℚ := ((feature k).cell p).printedValue

/-- The cells of a line. -/
def nodeCells (p : Node) : List Number := .float p.key :: features.map (Feature.cell p)

/-- The linear prediction of a datapoint. -/
def linearPrediction (beta : Fin 29 → ℚ) (p : Node) : ℚ := ∑ k, beta k * printedFeature p k

/-- The features stand in the order of the header. -/
example : "RTTC, " :: features.map (fun f => f.name ++ ", ") =
    aggregatedHeader.dropLast ++ ["cpu_idle, "] := by decide +kernel

/-- The columns of the script are those of the header. -/
example : columns = "RTTC" :: "gen_time" :: (features.map Feature.name).tail := by
  decide +kernel

/-! ### Reading the aggregated file -/

/-- The line of a datapoint. -/
def nodeLine (p : Node) : List Char := joined (rowFields (nodeCells p)) ++ ['\n']

/-- The thirty numbers of a line. -/
def printedRow (p : Node) : Fin 30 → ℚ := Fin.cons (printed p.key) (printedFeature p)

theorem nodeCells_ne_nil (p : Node) : nodeCells p ≠ [] := List.cons_ne_nil _ _

theorem directives_nodeFormat : directives nodeFormat.toList =
    rowFormat (List.replicate 16 .float ++ List.replicate 8 .int ++ List.replicate 6 .float) := by
  decide +kernel

theorem sprintf_nodeFormat (p : Node) :
    sprintf nodeFormat (nodeArguments p) = some (nodeLine p) := by
  have hformat : directives nodeFormat.toList = rowFormat ((nodeCells p).map Number.directive) :=
    directives_nodeFormat
  have harguments : nodeArguments p = (nodeCells p).map Number.value := rfl
  rw [sprintf, hformat, harguments, print_rowFormat (nodeCells_ne_nil p)]
  rfl

theorem writeAggregatedFile_eq (datapoints : List Node) :
    writeAggregatedFile datapoints =
      some (aggregatedHeader.flatMap String.toList :: datapoints.map nodeLine).flatten := by
  rw [writeAggregatedFile, mapM_eq_some fun p _ => sprintf_nodeFormat p]
  rfl

theorem isLine_aggregatedHeader : IsLine (aggregatedHeader.flatMap String.toList) := by
  refine ⟨aggregatedHeader.dropLast.flatMap String.toList ++ "cpu_idle".toList, ?_, ?_⟩
  · rw [List.append_assoc]
    show aggregatedHeader.flatMap String.toList = _
    rw [← List.dropLast_append_getLast (show aggregatedHeader ≠ [] from List.cons_ne_nil _ _),
      List.flatMap_append]
    rfl
  · rw [List.mem_append, List.mem_flatMap]
    decide +kernel

theorem isLine_nodeLine (p : Node) : IsLine (nodeLine p) :=
  ⟨_, rfl, Plain.not_mem_joined (fun _ => rowFields_spec) (by decide)⟩

/-- A line has a delimiter, so it is not empty. -/
theorem nodeLine_ne (p : Node) : nodeLine p ≠ ['\n'] := by
  have hcomma : ',' ∈ nodeLine p := by
    apply List.mem_append_left
    rw [nodeCells, rowFields, features, List.map_cons, List.map_cons, joined_cons_cons]
    exact List.mem_append_right _ List.mem_cons_self
  intro heq
  rw [heq] at hcomma
  exact absurd hcomma (by decide)

theorem tableRow_nodeCells (p : Node) : tableRow (rowFields (nodeCells p)) = some (printedRow p) := by
  rw [tableRow, mapM_readFloat_rowFields, Option.bind_some]
  have hlength : ((nodeCells p).map Number.printedValue).length = 30 := rfl
  rw [dif_pos hlength]
  congr 1
  funext i
  cases i using Fin.cases with
  | zero => rfl
  | succ k =>
      rw [List.get_eq_getElem, List.getElem_map]
      have hk : (k : ℕ) < (features.map (Feature.cell p)).length := k.isLt
      exact congrArg Number.printedValue (List.getElem_map (Feature.cell p) (h := hk))

theorem loadRow_nodeLine (beta : Fin 29 → ℚ) (p : Node) :
    ((csvFields (nodeLine p)).bind tableRow).map (weightRow beta) =
      some (weightRow beta (printedRow p)) := by
  rw [nodeLine, csvFields_joined (rowFields_ne_nil (nodeCells_ne_nil p)) fun _ => rowFields_spec,
    Option.bind_some, tableRow_nodeCells, Option.map_some]

/-- **The aggregated file comes back**, each weight with its feature. -/
theorem loadRows_writeAggregatedFile (beta : Fin 29 → ℚ) (datapoints : List Node) :
    (writeAggregatedFile datapoints).bind (loadRows beta) =
      some (datapoints.map fun p => weightRow beta (printedRow p)) := by
  have hlines : ∀ line ∈ aggregatedHeader.flatMap String.toList :: datapoints.map nodeLine,
      IsLine line := by
    refine List.forall_mem_cons.mpr ⟨isLine_aggregatedHeader, ?_⟩
    intro line hline
    obtain ⟨p, -, rfl⟩ := List.mem_map.mp hline
    exact isLine_nodeLine p
  have hfilter : (datapoints.map nodeLine).filter (fun line => line ≠ ['\n']) =
      datapoints.map nodeLine := by
    apply List.filter_eq_self.mpr
    intro line hline
    obtain ⟨p, -, rfl⟩ := List.mem_map.mp hline
    exact decide_eq_true (nodeLine_ne p)
  rw [writeAggregatedFile_eq, Option.bind_some, loadRows, readlines_flatten hlines]
  show ((datapoints.map nodeLine).filter fun line => line ≠ ['\n']).mapM _ = _
  rw [hfilter, List.mapM_map]
  exact mapM_eq_some fun p _ => loadRow_nodeLine beta p

/-! ### The prediction -/

theorem sumRow_eq_sum (value : Fin 30 → ℚ) : sumRow value = ∑ i, value i := by
  rw [sumRow, Fin.sum_univ_def, ← List.foldl_map, List.sum_eq_foldl]

/-- The loop starts with the column that is not weighted. -/
theorem lasso_printedRow (beta : Fin 29 → ℚ) (p : Node) :
    (weightRow beta (printedRow p)).lasso = printed p.key + linearPrediction beta p := by
  show sumRow (weighted beta (printedRow p)) = _
  rw [sumRow_eq_sum, Fin.sum_univ_succ]
  rfl

/-- The column `LASSO-time`, from the datapoints that are written. -/
def lassoTimes (beta : Fin 29 → ℚ) (datapoints : List Node) : Option (List ℚ) :=
  ((writeAggregatedFile datapoints).bind (loadRows beta)).map fun data => data.map Row.lasso

theorem lassoTimes_eq (beta : Fin 29 → ℚ) (datapoints : List Node) :
    lassoTimes beta datapoints =
      some (datapoints.map fun p => printed p.key + linearPrediction beta p) := by
  rw [lassoTimes, loadRows_writeAggregatedFile, Option.map_some, List.map_map]
  congr 1
  apply List.map_congr_left
  intro p _
  exact lasso_printedRow beta p

/-- A datapoint without its RTTC. -/
def withoutRttc (p : Node) : Node := { p with key := 0 }

theorem printed_zero : printed 0 = 0 := by
  have h := printed_intCast 0
  rw [Int.cast_zero] at h
  exact h

theorem printed_one : printed 1 = 1 := by
  have h := printed_intCast 1
  rw [Int.cast_one] at h
  exact h

/-- **The RTTC in its own prediction.**  `LASSO-time` is the linear prediction
where the RTTC is printed as zero, and only there; it is also independent of the
RTTCs only if there are no datapoints. -/
theorem lassoTimes_iff (beta : Fin 29 → ℚ) (datapoints : List Node) :
    (lassoTimes beta datapoints = some (datapoints.map (linearPrediction beta)) ↔
      ∀ p ∈ datapoints, printed p.key = 0) ∧
    ((lassoTimes beta datapoints = some (datapoints.map (linearPrediction beta)) ∧
      ∀ datapoints' : List Node, datapoints'.map withoutRttc = datapoints.map withoutRttc →
        lassoTimes beta datapoints' = lassoTimes beta datapoints) ↔ datapoints = []) := by
  simp only [lassoTimes_eq, Option.some.injEq]
  refine ⟨?_, ?_⟩
  · rw [List.map_inj_left]
    refine forall₂_congr fun p _ => ?_
    exact add_eq_right
  · constructor
    · rintro ⟨-, hindependent⟩
      cases datapoints with
      | nil => rfl
      | cons p rest =>
          -- with 0 and with 1 for the RTTC
          have hkey (q : ℚ) : printed q = printed p.key := by
            have h := hindependent ({ p with key := q } :: rest) rfl
            exact add_right_cancel (List.cons.inj h).1
          have hzero : printed 0 = printed 1 := (hkey 0).trans (hkey 1).symm
          rw [printed_zero, printed_one] at hzero
          exact absurd hzero zero_ne_one
    · rintro rfl
      refine ⟨rfl, ?_⟩
      intro datapoints' h
      rw [List.map_eq_nil_iff.mp h]

/-- With the RTTC 1 and no weights, `LASSO-time` is not the linear
prediction. -/
theorem lassoTimes_zero_weights :
    lassoTimes (fun _ => 0) [{ Node.zero with key := 1 }] ≠
      some ([{ Node.zero with key := 1 }].map (linearPrediction fun _ => 0)) := by
  rw [lassoTimes_eq]
  intro h
  have hkey : printed 1 + _ = _ := (List.cons.inj (Option.some.inj h)).1
  rw [add_eq_right, printed_one] at hkey
  exact absurd hkey one_ne_zero

/-! ### The columns that are left -/

/-- Absolute values do not cancel. -/
theorem sum_abs_pos_iff {α : Type*} (l : List α) (f : α → ℚ) :
    0 < (l.map fun x => |f x|).sum ↔ ∃ x ∈ l, f x ≠ 0 := by
  have hnonneg (l : List α) : 0 ≤ (l.map fun x => |f x|).sum := by
    apply List.sum_nonneg
    intro q hq
    obtain ⟨x, -, rfl⟩ := List.mem_map.mp hq
    exact abs_nonneg (f x)
  induction l with
  | nil => simp
  | cons x l ih =>
      rw [List.map_cons, List.sum_cons, List.exists_mem_cons_iff (fun y => f y ≠ 0)]
      refine Iff.trans ?_ (or_congr_right ih)
      constructor
      · intro h
        rcases eq_or_ne (f x) 0 with hx | hx
        · rw [hx, abs_zero, zero_add] at h
          exact .inr h
        · exact .inl hx
      · rintro (hx | hl)
        · exact add_pos_of_pos_of_nonneg (abs_pos.mpr hx) (hnonneg l)
        · exact add_pos_of_nonneg_of_pos (abs_nonneg (f x)) hl

theorem mem_wantedColumns {data : List Row} {c : Fin 30} :
    c ∈ wantedColumns data ↔ ∃ row ∈ data, row.value c ≠ 0 := by
  have hsum : columnSum data c = (data.map fun row => |row.value c|).sum := by
    rw [columnSum, ← List.foldl_map, List.sum_eq_foldl]
  rw [wantedColumns, List.mem_filter, decide_eq_true_eq, hsum, sum_abs_pos_iff]
  exact and_iff_right (List.mem_finRange c)

theorem mem_wantedColumns_weightRow {beta : Fin 29 → ℚ} {rows : List (Fin 30 → ℚ)} {c : Fin 30} :
    c ∈ wantedColumns (rows.map (weightRow beta)) ↔
      ∃ fields ∈ rows, weighted beta fields c ≠ 0 := by
  rw [mem_wantedColumns]
  constructor
  · rintro ⟨row, hrow, hne⟩
    obtain ⟨fields, hfields, rfl⟩ := List.mem_map.mp hrow
    exact ⟨fields, hfields, hne⟩
  · rintro ⟨fields, hfields, hne⟩
    exact ⟨weightRow beta fields, List.mem_map_of_mem hfields, hne⟩

/-- If the RTTC is kept, it is the first of the columns, and the others are
behind it. -/
theorem wantedColumns_eq (data : List Row) :
    wantedColumns data = (if 0 < columnSum data 0 then [0] else []) ++
      ((List.finRange 29).filter fun k => 0 < columnSum data k.succ).map Fin.succ := by
  have hothers : ((List.finRange 29).map Fin.succ).filter (fun col => 0 < columnSum data col) =
      ((List.finRange 29).filter fun k => 0 < columnSum data k.succ).map Fin.succ :=
    List.filter_map
  rw [wantedColumns, List.finRange_succ, ← hothers]
  by_cases hrttc : 0 < columnSum data 0
  · rw [if_pos hrttc]
    exact List.filter_cons_of_pos (decide_eq_true hrttc)
  · rw [if_neg hrttc]
    exact List.filter_cons_of_neg fun h => hrttc (of_decide_eq_true h)

theorem wantedColumns_of_rttc {data : List Row} (h : 0 ∈ wantedColumns data) :
    ∃ others, wantedColumns data = 0 :: others := by
  have hrttc : 0 < columnSum data 0 := of_decide_eq_true (List.mem_filter.mp h).2
  exact ⟨_, by rw [wantedColumns_eq, if_pos hrttc]; rfl⟩

/-- Terms that are zero may be left out of a sum. -/
theorem sum_map_filter {α : Type*} {keep : α → Bool} {f : α → ℚ} {l : List α}
    (h : ∀ x ∈ l, keep x = false → f x = 0) :
    ((l.filter keep).map f).sum = (l.map f).sum := by
  induction l with
  | nil => rfl
  | cons x l ih =>
      obtain ⟨hx, hl⟩ := List.forall_mem_cons.mp h
      rw [List.map_cons, List.sum_cons, ← ih hl]
      cases hkeep : keep x with
      | true => rw [List.filter_cons_of_pos hkeep, List.map_cons, List.sum_cons]
      | false =>
          rw [List.filter_cons_of_neg (by rw [hkeep]; exact Bool.false_ne_true), hx hkeep,
            zero_add]

/-- The columns that are left out are zero in this row, as in every other. -/
theorem sum_wantedColumns {data : List Row} {row : Row} (h : row ∈ data) :
    ((wantedColumns data).map row.value).sum = sumRow row.value := by
  rw [sumRow_eq_sum, Fin.sum_univ_def, wantedColumns]
  apply sum_map_filter
  intro c _ hout
  by_contra hne
  have hwanted : c ∈ wantedColumns data := mem_wantedColumns.mpr ⟨row, h, hne⟩
  rw [(List.mem_filter.mp hwanted).2] at hout
  cases hout

/-- **Nothing is lost.**  Each row that is written starts with its
`LASSO-time`, which is the sum of the others; these are the columns that are not
zero in all rows, in the order they had. -/
theorem writtenRows_spec (beta : Fin 29 → ℚ) (rows : List (Fin 30 → ℚ)) :
    List.Forall₂ (fun (row : Row) cells => cells.head? = some row.lasso ∧
      cells.tail = (wantedColumns (rows.map (weightRow beta))).map row.value ∧
        row.lasso = cells.tail.sum)
      (rows.map (weightRow beta)) (writtenRows (rows.map (weightRow beta))) ∧
    fieldnames (rows.map (weightRow beta)) =
      "LASSO-time" :: (wantedColumns (rows.map (weightRow beta))).map columnName ∧
    (wantedColumns (rows.map (weightRow beta))).Sublist (List.finRange 30) ∧
    ∀ c, c ∈ wantedColumns (rows.map (weightRow beta)) ↔
      ∃ fields ∈ rows, weighted beta fields c ≠ 0 := by
  refine ⟨?_, rfl, List.filter_sublist, fun c => mem_wantedColumns_weightRow⟩
  apply List.forall₂_map_right_iff.mpr
  apply List.forall₂_same.mpr
  intro row hrow
  refine ⟨rfl, rfl, ?_⟩
  obtain ⟨fields, -, rfl⟩ := List.mem_map.mp hrow
  exact (sum_wantedColumns hrow).symm

/-! ### The file that is written -/

/-- A line of `csv.DictWriter`. -/
def csvLine (cells : List (List Char)) : List Char := joined cells ++ ['\r', '\n']

/-- `QUOTE_NONNUMERIC` quotes the names. -/
def quoted (name : String) : List Char := '"' :: (name.toList ++ ['"'])

/-- The text of the file: `repr` writes a number. -/
def weightedFile (repr : ℚ → List Char) (data : List Row) : List Char :=
  (csvLine ((fieldnames data).map quoted) ::
    (writtenRows data).map fun cells => csvLine (cells.map repr)).flatten

/-- Fields without a newline make a line. -/
theorem isLine_csvLine {cells : List (List Char)} (h : ∀ cell ∈ cells, '\n' ∉ cell) :
    IsLine (csvLine cells) := by
  refine ⟨joined cells ++ ['\r'], by rw [csvLine, List.append_assoc]; rfl, ?_⟩
  rw [List.mem_append]
  rintro (hmem | hmem)
  · rcases mem_joined hmem with heq | ⟨cell, hcell, hc⟩
    · exact absurd heq (by decide)
    · exact h cell hcell hc
  · exact absurd hmem (by decide)

/-- A character of a column name. -/
def isNameChar (c : Char) : Bool := c.isAlpha || c = '_' || c = '-'

/-- The names are not empty, and have none of the characters that separate or
quote them. -/
def PlainName (name : String) : Prop :=
  name.toList ≠ [] ∧ ∀ c ∈ name.toList, isNameChar c = true

theorem plainName_columnName (c : Fin 30) : PlainName (columnName c) := by
  have hall : ∀ c : Fin 30, (columnName c).toList ≠ [] ∧
      (columnName c).toList.all isNameChar = true := by decide +kernel
  exact ⟨(hall c).1, List.all_eq_true.mp (hall c).2⟩

theorem plainName_lasso : PlainName "LASSO-time" := by
  have hall : "LASSO-time".toList ≠ [] ∧ "LASSO-time".toList.all isNameChar = true := by
    decide +kernel
  exact ⟨hall.1, List.all_eq_true.mp hall.2⟩

theorem plainName_fieldnames (data : List Row) : ∀ name ∈ fieldnames data, PlainName name := by
  refine List.forall_mem_cons.mpr ⟨plainName_lasso, ?_⟩
  intro name hname
  obtain ⟨c, -, rfl⟩ := List.mem_map.mp hname
  exact plainName_columnName c

theorem PlainName.not_mem {name : String} (h : PlainName name) {c : Char}
    (hc : isNameChar c = false) : c ∉ name.toList := by
  intro hmem
  rw [h.2 c hmem] at hc
  cases hc

theorem newline_not_mem_quoted {name : String} (h : PlainName name) : '\n' ∉ quoted name := by
  rw [quoted, List.mem_cons, List.mem_append]
  rintro (hquote | hname | hquote)
  · exact absurd hquote (by decide)
  · exact h.not_mem rfl hname
  · exact absurd hquote (by decide)

end A2PM.ModelBuild
