/-
A2PM/Training.lean

`model_build/lasso.m`, between `aggregate.c`, whose file it reads, and
`applyBeta.py`, which applies its weights to the same file.

`dlmread` starts behind row 10, but only one row is a header: the weights are
fitted to the datapoints behind the first nine (`lasso_writeAggregatedFile`), by
the squares of what the linear prediction misses the RTTC by.  The error that
`buildErrorTables.py` reports for them is not of this kind: the column
`LASSO-time` already holds the RTTC, so what is reported is the mean absolute
value of the linear prediction itself (`mae_weightedFile`).  It does not depend
on the RTTC, and zero weights have none.
-/
import A2PM.ErrorTables
import A2PM.LassoGrafting
import A2PM.LassoNonNegativeSquared

namespace A2PM.ModelBuild

open FormattedText DelimitedText Lasso L1LeastSquares

/-! ### `lasso.m` -/

/-- `dlmread(file,',',r,0)`, for a file of thirty columns. -/
def dlmread (r : ℕ) (text : List Char) : Option (List (Fin 30 → ℚ)) :=
  ((readlines text).drop r).mapM fun line => (csvFields line).bind tableRow

/-- `X(:,[2:size(X,2)])`. -/
def design (rows : List (Fin 30 → ℚ)) : Matrix (Fin rows.length) (Fin 29) ℚ :=
  Matrix.of fun i k => rows.get i k.succ

/-- `X(:,1)`. -/
def target (rows : List (Fin 30 → ℚ)) : Fin rows.length → ℚ :=
  fun i => Matrix.vecHead (rows.get i)

/-- The functions of the numeric library that the methods call. -/
structure Solvers where
  sqrt : ℚ → ℚ
  fminbnd : (ℚ → ℚ) → ℚ → ℚ
  fminuncFree : (free : Finset (Fin 29)) → Fminunc ℚ free
  fminunc : Fminunc ℚ (Fin 29 ⊕ Fin 29)

/-- The method that is chosen, with its default options; `fuel` bounds the passes of
`LassoGrafting`.  `none`: an error. -/
def fit (s : Solvers) (fuel : ℕ) (algorithm : String) (lambda : ℚ)
    (rows : List (Fin 30 → ℚ)) : Option (Fin 29 → ℚ) :=
  let X := design rows
  let Y := target rows
  if algorithm = "grafting" then
    (lassoGrafting X Y lambda ⟨10000, 1 / 100000, 1 / 10000, s.fminuncFree⟩ fuel).map
      fun r => r.1.w
  else if algorithm = "iteratedRidge" then
    (lassoIteratedRidge X Y lambda ⟨10000, 1 / 100000, 1 / 10000, 100, s.fminbnd⟩).map
      Iteration.w
  else if algorithm = "nonNegativeSquared" then
    some (lassoNonNegativeSquared s.sqrt X Y lambda s.fminunc (1 / 10000)).1
  else if algorithm = "shooting" then some (lassoShooting X Y lambda 10000 (1 / 100000)).beta
  else none

/-- `lasso`, from the text of `aggregated.csv`; a matrix without rows has no column to
take. -/
def lasso (s : Solvers) (fuel : ℕ) (algorithm : String) (lambda : ℚ) (text : List Char) :
    Option (Fin 29 → ℚ) :=
  (dlmread 10 text).bind fun rows =>
    if rows = [] then none else fit s fuel algorithm lambda rows

/-! ### What the weights are fitted to -/

/-- The rows behind the first one are the datapoints. -/
theorem dlmread_writeAggregatedFile (r : ℕ) (datapoints : List Node) :
    (writeAggregatedFile datapoints).bind (dlmread (r + 1)) =
      some ((datapoints.drop r).map printedRow) := by
  have hlines : ∀ line ∈ aggregatedHeader.flatMap String.toList :: datapoints.map nodeLine,
      DelimitedText.IsLine line := by
    refine List.forall_mem_cons.mpr ⟨isLine_aggregatedHeader, ?_⟩
    intro line hline
    obtain ⟨p, -, rfl⟩ := List.mem_map.mp hline
    exact isLine_nodeLine p
  rw [writeAggregatedFile_eq, Option.bind_some, dlmread, readlines_flatten hlines,
    List.drop_succ_cons, ← List.map_drop, List.mapM_map]
  apply mapM_eq_some
  intro p _
  show (csvFields (nodeLine p)).bind tableRow = _
  rw [nodeLine, csvFields_joined (rowFields_ne_nil (nodeCells_ne_nil p)) fun _ => rowFields_spec,
    Option.bind_some, tableRow_nodeCells]

/-- The squares for a row. -/
theorem squares_rows (rows : List (Fin 30 → ℚ)) (beta : Fin 29 → ℚ) :
    squares (design rows) (target rows) beta =
      (rows.map fun fields => (∑ k : Fin 29, fields k.succ * beta k - fields 0) ^ 2).sum :=
  Fin.sum_univ_fun_getElem rows fun fields => (∑ k : Fin 29, fields k.succ * beta k - fields 0) ^ 2

theorem squares_printedRow (datapoints : List Node) (beta : Fin 29 → ℚ) :
    squares (design (datapoints.map printedRow)) (target (datapoints.map printedRow)) beta =
      (datapoints.map fun p => (linearPrediction beta p - printed p.key) ^ 2).sum := by
  rw [squares_rows, List.map_map]
  congr 1
  apply List.map_congr_left
  intro p _
  show (∑ k, printedFeature p k * beta k - printed p.key) ^ 2 = _
  have hprediction : ∑ k, printedFeature p k * beta k = linearPrediction beta p :=
    Finset.sum_congr rfl fun k _ => mul_comm _ _
  rw [hprediction]

/-- **The training set**: the datapoints behind the first nine, of which there has to be
one. -/
theorem lasso_writeAggregatedFile (s : Solvers) (fuel : ℕ) (algorithm : String) (lambda : ℚ)
    (datapoints : List Node) :
    (writeAggregatedFile datapoints).bind (lasso s fuel algorithm lambda) =
        (if datapoints.length ≤ 9 then none
        else fit s fuel algorithm lambda ((datapoints.drop 9).map printedRow)) ∧
      ∀ beta, objective (design ((datapoints.drop 9).map printedRow))
          (target ((datapoints.drop 9).map printedRow)) lambda beta =
        ((datapoints.drop 9).map fun p => (linearPrediction beta p - printed p.key) ^ 2).sum +
          lambda * norm1 beta := by
  constructor
  · have hread := dlmread_writeAggregatedFile 9 datapoints
    rw [writeAggregatedFile_eq, Option.bind_some] at hread ⊢
    have hempty : (datapoints.drop 9).map printedRow = [] ↔ datapoints.length ≤ 9 :=
      List.map_eq_nil_iff.trans List.drop_eq_nil_iff
    rw [lasso, hread, Option.bind_some]
    exact if_congr hempty rfl rfl
  · intro beta
    rw [objective, squares_printedRow]

/-! ### What is reported -/

variable {float : List Char → Option ℚ} {repr : ℚ → List Char}

/-- **The mean absolute error** that is reported for weights is the mean of the absolute
values of their predictions. -/
theorem mae_weightedFile {datapoints : List Node} {beta : Fin 29 → ℚ}
    (hrttc : ∃ p ∈ datapoints, printed p.key ≠ 0)
    (h : FileReadsBack float repr (datapoints.map fun p => weightRow beta (printedRow p))) :
    (((writeAggregatedFile datapoints).bind (loadRows beta)).bind fun data =>
        (readLassoFile float (weightedFile repr data)).bind mae) =
      some (((datapoints.take 3747).map fun p => |linearPrediction beta p|).sum /
        (datapoints.take 3747).length) := by
  obtain ⟨p, hp, hkey⟩ := hrttc
  have hwanted : 0 ∈ wantedColumns (datapoints.map fun p => weightRow beta (printedRow p)) :=
    mem_wantedColumns.mpr ⟨_, List.mem_map_of_mem hp, hkey⟩
  obtain ⟨others, hothers⟩ := wantedColumns_of_rttc hwanted
  have hread := readLassoFile_of_wanted h hothers
  rw [← List.map_take, List.map_map] at hread
  have hne : datapoints.take 3747 ≠ [] := by
    rw [Ne, List.take_eq_nil_iff]
    exact not_or.mpr ⟨by decide, List.ne_nil_of_mem hp⟩
  rw [loadRows_writeAggregatedFile, Option.bind_some, hread, Option.bind_some, mae,
    meanError_eq _ (mt List.map_eq_nil_iff.mp hne), sum_countedError_true, List.length_map,
    List.map_map]
  congr 3
  apply List.map_congr_left
  intro p _
  show |(weightRow beta (printedRow p)).lasso - printed p.key| = _
  rw [lasso_printedRow, add_sub_cancel_left]

/-- A datapoint with RTTC 1 and generation time 2. -/
def shortNode : Node := { Node.zero with key := 1, generationTime := 2 }

theorem fileReadsBack_shortNode : FileReadsBack readFloat wholeRepr
    ([shortNode].map fun p => weightRow (fun _ => 1) (printedRow p)) := by
  have hvalues : ∀ c, ((weightRow (fun _ => 1) (printedRow shortNode)).value c).den = 1 := by
    decide +kernel
  have hlasso : ((weightRow (fun _ => 1) (printedRow shortNode)).lasso).den = 1 := by
    decide +kernel
  intro cells hcells q hq
  obtain ⟨row, hrow, rfl⟩ := List.mem_map.mp hcells
  obtain rfl := List.mem_singleton.mp hrow
  apply readsBack_wholeRepr
  rcases List.mem_cons.mp hq with rfl | hvalue
  · exact hlasso
  · obtain ⟨c, -, rfl⟩ := List.mem_map.mp hvalue
    exact hvalues c

/-- The prediction is 2 instead of 1, and the error that is reported is 2. -/
theorem mae_weightedFile_shortNode :
    (((writeAggregatedFile [shortNode]).bind (loadRows fun _ => 1)).bind fun data =>
        (readLassoFile readFloat (weightedFile wholeRepr data)).bind mae) =
      some ((([shortNode].take 3747).map fun p => |linearPrediction (fun _ => 1) p|).sum /
        ([shortNode].take 3747).length) :=
  mae_weightedFile ⟨shortNode, List.mem_cons_self, by decide +kernel⟩ fileReadsBack_shortNode

end A2PM.ModelBuild
