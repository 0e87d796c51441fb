/-
A2PM/ErrorTables.lean

`model_build/buildErrorTables.py`: the reader for the files of
`applyBeta.py`, and the error measures.

The reader takes the first two fields of each line behind the header, as long
as the line number is below 3748.  The second field is the RTTC only if that
column has not been left out, so the round trip holds for at most 3747 rows,
one of them with an RTTC that is not zero (`readLassoFile_weightedFile_iff`).

Each measure is a mean of errors over the datapoints that count for it
(`meanError`), or a maximum.  As sums over the datapoints the measures compare
term by term, and the order does not matter.  `float` is exact.
-/
import A2PM.ApplyBeta

namespace A2PM.ModelBuild

open FormattedText DelimitedText

/-- `Datapoint`. -/
@[ext] structure Datapoint where
  real : ℚ
  predicted : ℚ
  deriving DecidableEq

/-! ### `readLassoFile` -/

section Reader

variable (float : List Char → Option ℚ)

/-- The body of the loop: a field that is missing, or no number, raises an
exception. -/
def readDatapoint (line : List Char) : Option Datapoint :=
  match line.splitOn ',' with
  | first :: second :: _ =>
      (float first).bind fun predicted => (float second).map fun real => ⟨real, predicted⟩
  | _ => none

/-- The loop, from line `i` on. -/
def readLassoLines : ℕ → List (List Char) → Option (List Datapoint)
  | _, [] => some []
  | i, line :: lines =>
      if 0 < line.length ∧ 0 < i ∧ i < 3748 then
        (readDatapoint float line).bind fun dp =>
          (readLassoLines (i + 1) lines).map fun datapoints => dp :: datapoints
      else readLassoLines (i + 1) lines

def readLassoFile (text : List Char) : Option (List Datapoint) :=
  readLassoLines float 0 (readlines text)

/-- A number that `repr` writes into a field, and `float` reads back, whatever
white space follows. -/
structure ReadsBack (repr : ℚ → List Char) (q : ℚ) : Prop where
  reads : ∀ gap, Blank gap → float (repr q ++ gap) = some q
  delimiter : ',' ∉ repr q
  newline : '\n' ∉ repr q

end Reader

variable {float : List Char → Option ℚ} {repr : ℚ → List Char}

/-- The lines behind the header that are below the limit. -/
theorem readLassoLines_eq {i : ℕ} (hi : 0 < i) {lines : List (List Char)}
    (h : ∀ line ∈ lines, line ≠ []) :
    readLassoLines float i lines = (lines.take (3748 - i)).mapM (readDatapoint float) := by
  induction lines generalizing i with
  | nil => rw [List.take_nil]; rfl
  | cons line lines ih =>
      obtain ⟨hline, hlines⟩ := List.forall_mem_cons.mp h
      have hrest := ih (Nat.succ_pos i) hlines
      rw [readLassoLines, hrest]
      by_cases hlimit : i < 3748
      · have htake : 3748 - i = (3748 - (i + 1)) + 1 := by omega
        rw [if_pos ⟨List.length_pos_of_ne_nil hline, hi, hlimit⟩, htake, List.take_succ_cons,
          List.mapM_cons]
        cases readDatapoint float line with
        | none => rfl
        | some dp =>
            show Option.map _ _ = Option.bind _ _
            rw [Option.map_eq_bind]
            rfl
      · have hzero : 3748 - i = 0 := by omega
        have hzero' : 3748 - (i + 1) = 0 := by omega
        rw [if_neg fun h => hlimit h.2.2, hzero, hzero', List.take_zero, List.take_zero]

theorem csvLine_ne_nil (cells : List (List Char)) : csvLine cells ≠ [] :=
  List.append_ne_nil_of_right_ne_nil _ (List.cons_ne_nil _ _)

/-- The end of the line belongs to the last field. -/
theorem splitOn_csvLine_singleton {field : List Char} (h : ',' ∉ field) :
    (csvLine [field]).splitOn ',' = [field ++ ['\r', '\n']] := by
  have hcomma : ',' ∉ field ++ ['\r', '\n'] := by
    rw [List.mem_append]
    rintro (hmem | hmem)
    · exact h hmem
    · exact absurd hmem (by decide)
  have hsplit := splitOn_joined (List.cons_ne_nil _ []) (List.forall_mem_singleton.mpr hcomma)
  rw [joined, List.intercalate_singleton] at hsplit
  rw [csvLine, joined, List.intercalate_singleton, hsplit]

theorem splitOn_csvLine_cons {field : List Char} (h : ',' ∉ field) (field' : List Char)
    (fields : List (List Char)) :
    (csvLine (field :: field' :: fields)).splitOn ',' =
      field :: (csvLine (field' :: fields)).splitOn ',' := by
  rw [csvLine, joined_cons_cons, List.append_assoc, List.cons_append,
    List.splitOn_append_cons_self_of_not_mem h]
  rfl

/-- A line of one field. -/
theorem readDatapoint_singleton {p : ℚ} (hp : ReadsBack float repr p) :
    readDatapoint float (csvLine [repr p]) = none := by
  rw [readDatapoint, splitOn_csvLine_singleton hp.delimiter]

/-- A line of at least two fields: the second one may end the line. -/
theorem readDatapoint_csvLine {p r : ℚ} {others : List ℚ} (hp : ReadsBack float repr p)
    (hr : ReadsBack float repr r) :
    readDatapoint float (csvLine ((p :: r :: others).map repr)) = some ⟨r, p⟩ := by
  have hblank : Blank ['\r', '\n'] := by
    intro c hc
    simp only [List.mem_cons, List.not_mem_nil, or_false] at hc
    rcases hc with rfl | rfl <;> rfl
  have hfirst : float (repr p) = some p := by
    have h := hp.reads [] blank_nil
    rwa [List.append_nil] at h
  -- what the second field is read from
  have hsecond : ∃ gap fields, Blank gap ∧
      (csvLine ((r :: others).map repr)).splitOn ',' = (repr r ++ gap) :: fields := by
    cases others with
    | nil => exact ⟨['\r', '\n'], [], hblank, splitOn_csvLine_singleton hr.delimiter⟩
    | cons q others =>
        refine ⟨[], (csvLine ((q :: others).map repr)).splitOn ',', blank_nil, ?_⟩
        rw [List.append_nil]
        exact splitOn_csvLine_cons hr.delimiter _ _
  obtain ⟨gap, fields, hgap, hsplit⟩ := hsecond
  have hline : (csvLine ((p :: r :: others).map repr)).splitOn ',' =
      repr p :: (repr r ++ gap) :: fields := by
    rw [← hsplit]
    exact splitOn_csvLine_cons hp.delimiter _ _
  rw [readDatapoint, hline]
  show (float (repr p)).bind _ = _
  rw [hfirst, Option.bind_some, hr.reads gap hgap]
  rfl

/-! ### The file of `applyBeta.py` -/

/-- All numbers of the file are read back. -/
def FileReadsBack (float : List Char → Option ℚ) (repr : ℚ → List Char) (data : List Row) : Prop :=
  ∀ cells ∈ writtenRows data, ∀ q ∈ cells, ReadsBack float repr q

/-- The datapoint of a row. -/
def lassoDatapoint (row : Row) : Datapoint := ⟨row.rttc, row.lasso⟩

/-- The window of lines that the reader looks at. -/
theorem readLassoFile_eq {data : List Row} (h : FileReadsBack float repr data) :
    readLassoFile float (weightedFile repr data) =
      (data.take 3747).mapM fun row =>
        readDatapoint float (csvLine ((writerow (wantedColumns data) row).map repr)) := by
  have hlines : ∀ line ∈ csvLine ((fieldnames data).map quoted) ::
      (writtenRows data).map fun cells => csvLine (cells.map repr), IsLine line := by
    refine List.forall_mem_cons.mpr ⟨isLine_csvLine (List.forall_mem_map.mpr fun name hname =>
      newline_not_mem_quoted (plainName_fieldnames data name hname)), ?_⟩
    intro line hline
    obtain ⟨cells, hcells, rfl⟩ := List.mem_map.mp hline
    apply isLine_csvLine
    intro cell hcell
    obtain ⟨q, hq, rfl⟩ := List.mem_map.mp hcell
    exact (h cells hcells q hq).newline
  have hne : ∀ line ∈ (writtenRows data).map fun cells => csvLine (cells.map repr),
      line ≠ [] := by
    intro line hline
    obtain ⟨cells, -, rfl⟩ := List.mem_map.mp hline
    exact csvLine_ne_nil _
  rw [readLassoFile, weightedFile, readlines_flatten hlines, readLassoLines,
    if_neg fun hi => Nat.lt_irrefl 0 hi.2.1, readLassoLines_eq Nat.one_pos hne, ← List.map_take,
    List.mapM_map, writtenRows, ← List.map_take, List.mapM_map]
  rfl

/-- The second column that is kept is taken for the RTTC. -/
theorem readLassoFile_of_wanted {data : List Row} (h : FileReadsBack float repr data)
    {c : Fin 30} {others : List (Fin 30)} (hwanted : wantedColumns data = c :: others) :
    readLassoFile float (weightedFile repr data) =
      some ((data.take 3747).map fun row => ⟨row.value c, row.lasso⟩) := by
  rw [readLassoFile_eq h]
  apply mapM_eq_some
  intro row hrow
  have hcells : writerow (wantedColumns data) row ∈ writtenRows data :=
    List.mem_map_of_mem (List.mem_of_mem_take hrow)
  have hread := h _ hcells
  rw [hwanted] at hread ⊢
  exact readDatapoint_csvLine (hread _ List.mem_cons_self)
    (hread _ (List.mem_cons_of_mem _ List.mem_cons_self))

/-- Without a column there is nothing to take for the RTTC. -/
theorem readLassoFile_of_wanted_nil {data : List Row} (h : FileReadsBack float repr data)
    (hne : data ≠ []) (hwanted : wantedColumns data = []) :
    readLassoFile float (weightedFile repr data) = none := by
  obtain ⟨row, rest, rfl⟩ := List.exists_cons_of_ne_nil hne
  have hcells : writerow (wantedColumns (row :: rest)) row ∈ writtenRows (row :: rest) :=
    List.mem_cons_self
  have hread := h _ hcells
  rw [readLassoFile_eq h, List.take_succ_cons, List.mapM_cons]
  rw [hwanted] at hread ⊢
  show (readDatapoint float (csvLine [repr row.lasso])).bind _ = none
  rw [readDatapoint_singleton (hread _ List.mem_cons_self)]
  rfl

/-- If it is not, the datapoints are not those of the rows. -/
theorem readLassoFile_ne {data : List Row} (h : FileReadsBack float repr data) (hne : data ≠ [])
    (hrttc : 0 ∉ wantedColumns data) :
    readLassoFile float (weightedFile repr data) ≠ some (data.map lassoDatapoint) := by
  cases hwanted : wantedColumns data with
  | nil =>
      rw [readLassoFile_of_wanted_nil h hne hwanted]
      exact (Option.some_ne_none _).symm
  | cons c others =>
      rw [readLassoFile_of_wanted h hwanted]
      intro heq
      have hmap := Option.some.inj heq
      have hlength := congrArg List.length hmap
      rw [List.length_map, List.length_map, List.length_take] at hlength
      rw [List.take_of_length_le (by omega), List.map_inj_left] at hmap
      -- the column is not zero in some row, where the RTTC then is not either
      have hc : c ∈ wantedColumns data := hwanted ▸ List.mem_cons_self
      obtain ⟨row, hrow, hvalue⟩ := mem_wantedColumns.mp hc
      rw [show row.value c = row.value 0 from congrArg Datapoint.real (hmap row hrow)] at hvalue
      exact hrttc (mem_wantedColumns.mpr ⟨row, hrow, hvalue⟩)

/-- Up to the limit. -/
theorem readLassoFile_eq_iff {data : List Row} (h : FileReadsBack float repr data)
    (hrttc : 0 ∈ wantedColumns data) :
    readLassoFile float (weightedFile repr data) = some (data.map lassoDatapoint) ↔
      data.length ≤ 3747 := by
  obtain ⟨others, hwanted⟩ := wantedColumns_of_rttc hrttc
  rw [readLassoFile_of_wanted h hwanted, Option.some.injEq]
  constructor
  · intro heq
    have hlength := congrArg List.length heq
    rw [List.length_map, List.length_map, List.length_take] at hlength
    omega
  · intro hlength
    rw [List.take_of_length_le hlength]
    rfl

/-- **The round trip** of a Lasso file: at most 3747 rows, and an RTTC that is
not zero if there are any. -/
theorem readLassoFile_weightedFile_iff (beta : Fin 29 → ℚ) (rows : List (Fin 30 → ℚ))
    (h : FileReadsBack float repr (rows.map (weightRow beta))) :
    readLassoFile float (weightedFile repr (rows.map (weightRow beta))) =
        some ((rows.map (weightRow beta)).map lassoDatapoint) ↔
      rows.length ≤ 3747 ∧ (rows = [] ∨ ∃ fields ∈ rows, fields 0 ≠ 0) := by
  have hrttc : 0 ∈ wantedColumns (rows.map (weightRow beta)) ↔ ∃ fields ∈ rows, fields 0 ≠ 0 :=
    mem_wantedColumns_weightRow
  by_cases hwanted : 0 ∈ wantedColumns (rows.map (weightRow beta))
  · rw [readLassoFile_eq_iff h hwanted, List.length_map]
    exact (and_iff_left (.inr (hrttc.mp hwanted))).symm
  · rcases eq_or_ne rows [] with rfl | hne
    · rw [readLassoFile_eq h]
      exact iff_of_true rfl ⟨Nat.zero_le _, .inl rfl⟩
    · have hdata : rows.map (weightRow beta) ≠ [] := mt List.map_eq_nil_iff.mp hne
      refine iff_of_false (readLassoFile_ne h hdata hwanted) ?_
      rintro ⟨-, hnil | hexists⟩
      · exact hne hnil
      · exact hwanted (hrttc.mpr hexists)

/-! #### Numbers without a fraction -/

/-- A number with an integral value, as `repr` writes it. -/
def wholeRepr (q : ℚ) : List Char := printInt q.num ++ ['.', '0']

/-- The numeral that `wholeRepr` writes. -/
def wholeNumeral (z : ℤ) : DoubleNumeral :=
  { printedInt z with
    fraction := some ['0']
    fractionIsDigit := List.forall_mem_singleton.mpr rfl
    ne_nil := List.append_ne_nil_of_right_ne_nil _ (List.cons_ne_nil _ _) }

theorem wholeNumeral_text (z : ℤ) : (wholeNumeral z).text = printInt z ++ ['.', '0'] := by
  rw [← printedInt_text]
  show (signOf (z < 0)).text ++ _ ++ ['.', '0'] ++ [] = (signOf (z < 0)).text ++ _ ++ [] ++ [] ++ _
  simp only [List.append_nil]
  rfl

theorem wholeNumeral_value (z : ℤ) : (wholeNumeral z).value = z := by
  rw [← printedInt_value]
  show (wholeNumeral z).mantissa = (printedInt z).mantissa
  have hdigits : Nat.ofDigitChars 10 (Nat.toDigits 10 z.natAbs ++ ['0']) 0 = 10 * z.natAbs := by
    rw [Nat.ofDigitChars_append, Nat.ofDigitChars_ten_toDigits]
    rfl
  simp only [DoubleNumeral.mantissa, wholeNumeral, printedInt, Option.getD_some, Option.getD_none,
    List.append_nil, List.length_nil, List.length_singleton, hdigits,
    Nat.ofDigitChars_ten_toDigits, pow_zero, pow_one, div_one]
  push_cast
  rw [mul_div_cancel_left₀ _ (by norm_num)]
  rfl

theorem readsBack_wholeRepr {q : ℚ} (h : q.den = 1) : ReadsBack readFloat wholeRepr q := by
  have htext : wholeRepr q = (wholeNumeral q.num).text := (wholeNumeral_text q.num).symm
  have hplain := plain_numeral (wholeNumeral q.num)
  constructor
  · intro gap hgap
    rw [htext, ← List.nil_append (_ ++ gap), readFloat_numeral blank_nil hgap, wholeNumeral_value]
    exact congrArg some (Rat.coe_int_num_of_den_eq_one h)
  · rw [htext]
    exact fun hmem => hplain _ hmem (by decide)
  · rw [htext]
    exact fun hmem => hplain _ hmem (by decide)

/-- A row with RTTC 2 and `gen_time` 1, which weighs 1. -/
def shortRow : Fin 30 → ℚ := Fin.cons 2 (Fin.cons 1 fun _ => 0)

theorem fileReadsBack_shortRow {n : ℕ} :
    FileReadsBack readFloat wholeRepr ((List.replicate n shortRow).map (weightRow fun _ => 1)) := by
  have hvalues : ∀ c, ((weightRow (fun _ => 1) shortRow).value c).den = 1 := by decide +kernel
  have hlasso : ((weightRow (fun _ => 1) shortRow).lasso).den = 1 := by decide +kernel
  intro cells hcells q hq
  obtain ⟨row, hrow, rfl⟩ := List.mem_map.mp hcells
  obtain ⟨fields, hfields, rfl⟩ := List.mem_map.mp hrow
  obtain rfl := List.eq_of_mem_replicate hfields
  apply readsBack_wholeRepr
  rcases List.mem_cons.mp hq with rfl | hvalue
  · exact hlasso
  · obtain ⟨c, -, rfl⟩ := List.mem_map.mp hvalue
    exact hvalues c

theorem readLassoFile_shortRow :
    readLassoFile readFloat (weightedFile wholeRepr
        ((List.replicate 1 shortRow).map (weightRow fun _ => 1))) =
      some (((List.replicate 1 shortRow).map (weightRow fun _ => 1)).map lassoDatapoint) ↔
    (List.replicate 1 shortRow).length ≤ 3747 ∧
      (List.replicate 1 shortRow = [] ∨ ∃ fields ∈ List.replicate 1 shortRow, fields 0 ≠ 0) :=
  readLassoFile_weightedFile_iff (fun _ => 1) (List.replicate 1 shortRow) fileReadsBack_shortRow

/-- A file of 3748 rows loses its last one. -/
theorem readLassoFile_long :
    readLassoFile readFloat (weightedFile wholeRepr
        ((List.replicate 3748 shortRow).map (weightRow fun _ => 1))) ≠
      some (((List.replicate 3748 shortRow).map (weightRow fun _ => 1)).map lassoDatapoint) := by
  have hrttc : 0 ∈ wantedColumns ((List.replicate 3748 shortRow).map (weightRow fun _ => 1)) :=
    mem_wantedColumns_weightRow.mpr
      ⟨shortRow, List.mem_replicate.mpr ⟨by decide, rfl⟩, two_ne_zero⟩
  intro h
  have hlength := (readLassoFile_eq_iff fileReadsBack_shortRow hrttc).mp h
  rw [List.length_map, List.length_replicate] at hlength
  exact absurd hlength (by decide)

/-! ### The error measures -/

/-- `abs(dp.predicted - dp.real)` -/
def absoluteError (dp : Datapoint) : ℚ := |dp.predicted - dp.real|

/-- `MAPE`: `max_error`. -/
def maxError (datapoints : List Datapoint) : ℚ :=
  datapoints.foldl
    (fun maxError dp => if maxError < absoluteError dp then absoluteError dp else maxError) 0

/-- The loop that counts: `n`. -/
def countDatapoints (datapoints : List Datapoint) : ℕ := datapoints.foldl (fun n _ => n + 1) 0

/-- The mean of the errors that count, over all datapoints; a division by zero
raises an exception. -/
def meanError (counts : Datapoint → Bool) (datapoints : List Datapoint) : Option ℚ :=
  let n := countDatapoints datapoints
  let sum := datapoints.foldl
    (fun sum dp => if counts dp then sum + absoluteError dp else sum) (0 : ℚ)
  if n = 0 then none else some (sum / n)

def mae : List Datapoint → Option ℚ := meanError fun _ => true

def smae : List Datapoint → Option ℚ := meanError fun dp => 0.1 * dp.real < absoluteError dp

def smaeAbs : List Datapoint → Option ℚ := meanError fun dp => 300 < absoluteError dp

/-- `average_real_values_RAPE` -/
def averageReal (datapoints : List Datapoint) : ℚ :=
  datapoints.foldl (fun sum dp => sum + dp.real) 0 / countDatapoints datapoints

def rape (datapoints : List Datapoint) : Option ℚ :=
  if countDatapoints datapoints = 0 then none
  else
    let average := averageReal datapoints
    let numerator := datapoints.foldl (fun sum dp => sum + absoluteError dp) (0 : ℚ)
    let denominator := datapoints.foldl (fun sum dp => sum + |average - dp.real|) (0 : ℚ)
    if denominator = 0 then none else some (numerator / denominator * 100)

/-! #### As sums -/

/-- What a datapoint adds to a mean. -/
def countedError (counts : Datapoint → Bool) (dp : Datapoint) : ℚ :=
  if counts dp then absoluteError dp else 0

/-- `sum(abs(average - dp.real))` -/
def deviation (datapoints : List Datapoint) : ℚ :=
  (datapoints.map fun dp => |averageReal datapoints - dp.real|).sum

theorem countDatapoints_eq (datapoints : List Datapoint) :
    countDatapoints datapoints = datapoints.length := by
  have hfrom (n : ℕ) : datapoints.foldl (fun n _ => n + 1) n = n + datapoints.length := by
    induction datapoints generalizing n with
    | nil => rfl
    | cons dp datapoints ih => rw [List.foldl_cons, ih, List.length_cons]; omega
  rw [countDatapoints, hfrom, Nat.zero_add]

theorem foldl_add_eq_sum {α : Type*} (f : α → ℚ) (l : List α) :
    l.foldl (fun sum x => sum + f x) 0 = (l.map f).sum := by
  rw [← List.foldl_map, List.sum_eq_foldl]

theorem averageReal_eq (datapoints : List Datapoint) :
    averageReal datapoints = (datapoints.map Datapoint.real).sum / datapoints.length := by
  rw [averageReal, foldl_add_eq_sum, countDatapoints_eq]

variable {datapoints : List Datapoint}

theorem meanError_eq (counts : Datapoint → Bool) (h : datapoints ≠ []) :
    meanError counts datapoints =
      some ((datapoints.map (countedError counts)).sum / datapoints.length) := by
  have hloop : (fun (sum : ℚ) dp => if counts dp then sum + absoluteError dp else sum) =
      fun sum dp => sum + countedError counts dp := by
    funext sum dp
    rw [countedError]
    cases counts dp with
    | true => rfl
    | false => exact (add_zero sum).symm
  have hn : datapoints.length ≠ 0 := mt List.length_eq_zero_iff.mp h
  simp only [meanError, countDatapoints_eq, hloop, foldl_add_eq_sum, if_neg hn]

theorem sum_countedError_true (datapoints : List Datapoint) :
    (datapoints.map (countedError fun _ => true)).sum = (datapoints.map absoluteError).sum := rfl

theorem rape_eq (h : datapoints ≠ []) (hdeviation : deviation datapoints ≠ 0) :
    rape datapoints =
      some ((datapoints.map absoluteError).sum / deviation datapoints * 100) := by
  have hn : datapoints.length ≠ 0 := mt List.length_eq_zero_iff.mp h
  rw [deviation] at hdeviation
  simp only [rape, countDatapoints_eq, foldl_add_eq_sum, if_neg hn, if_neg hdeviation, deviation]

/-! #### Term by term -/

theorem absoluteError_nonneg (dp : Datapoint) : 0 ≤ absoluteError dp := abs_nonneg _

theorem countedError_nonneg (counts : Datapoint → Bool) (dp : Datapoint) :
    0 ≤ countedError counts dp := by
  rw [countedError]
  split
  next => exact absoluteError_nonneg dp
  next => exact le_refl 0

theorem countedError_le (counts : Datapoint → Bool) (dp : Datapoint) :
    countedError counts dp ≤ absoluteError dp := by
  rw [countedError]
  split
  next => exact le_refl _
  next => exact absoluteError_nonneg dp

/-- An error that does not count is bounded. -/
theorem absoluteError_le {counts : Datapoint → Bool} {dp : Datapoint} {bound : ℚ}
    (hbound : 0 ≤ bound) (h : counts dp = false → absoluteError dp ≤ bound) :
    absoluteError dp ≤ countedError counts dp + bound := by
  rw [countedError]
  cases hcounts : counts dp with
  | true => exact le_add_of_nonneg_right hbound
  | false => exact (h hcounts).trans (le_add_of_nonneg_left (le_refl 0))

theorem maxError_eq (datapoints : List Datapoint) :
    maxError datapoints = (datapoints.map absoluteError).foldl max 0 := by
  have hloop : (fun maxError dp =>
      if maxError < absoluteError dp then absoluteError dp else maxError) =
      fun maxError dp => max maxError (absoluteError dp) := by
    funext maxError dp
    exact (max_def_lt _ _).symm
  rw [maxError, hloop, List.foldl_map]

/-- The loop only goes up, and passes every number. -/
theorem le_foldl_max (l : List ℚ) (start : ℚ) :
    start ≤ l.foldl max start ∧ ∀ q ∈ l, q ≤ l.foldl max start := by
  induction l generalizing start with
  | nil => exact ⟨le_refl _, fun q hq => absurd hq List.not_mem_nil⟩
  | cons first rest ih =>
      obtain ⟨hstart, hrest⟩ := ih (max start first)
      refine ⟨(le_max_left _ _).trans hstart, ?_⟩
      exact List.forall_mem_cons.mpr ⟨(le_max_right _ _).trans hstart, hrest⟩

theorem absoluteError_le_maxError {dp : Datapoint} (h : dp ∈ datapoints) :
    absoluteError dp ≤ maxError datapoints := by
  rw [maxError_eq]
  exact (le_foldl_max _ 0).2 _ (List.mem_map_of_mem h)

/-! #### The measures compare -/

/-- A bound of each term bounds the mean. -/
theorem mean_le_of_forall {f : Datapoint → ℚ} {bound : ℚ} (h : datapoints ≠ [])
    (hbound : ∀ dp ∈ datapoints, f dp ≤ bound) :
    (datapoints.map f).sum / datapoints.length ≤ bound := by
  have hn : (0 : ℚ) < datapoints.length := Nat.cast_pos.mpr (List.length_pos_of_ne_nil h)
  have hsum : (datapoints.map f).sum ≤ datapoints.length • bound := by
    have hmap : ∀ q ∈ datapoints.map f, q ≤ bound := by
      intro q hq
      obtain ⟨dp, hdp, rfl⟩ := List.mem_map.mp hq
      exact hbound dp hdp
    have hcard := List.sum_le_card_nsmul _ bound hmap
    rwa [List.length_map] at hcard
  rw [div_le_iff₀ hn, mul_comm]
  rwa [nsmul_eq_mul] at hsum

theorem mean_nonneg {f : Datapoint → ℚ} (h : ∀ dp ∈ datapoints, 0 ≤ f dp) :
    0 ≤ (datapoints.map f).sum / datapoints.length := by
  have hterms : ∀ q ∈ datapoints.map f, 0 ≤ q := by
    intro q hq
    obtain ⟨dp, hdp, rfl⟩ := List.mem_map.mp hq
    exact h dp hdp
  exact div_nonneg (List.sum_nonneg hterms) (Nat.cast_nonneg _)

/-- Means compare as their terms do. -/
theorem mean_le_mean {f g : Datapoint → ℚ} (h : ∀ dp ∈ datapoints, f dp ≤ g dp) :
    (datapoints.map f).sum / datapoints.length ≤ (datapoints.map g).sum / datapoints.length :=
  div_le_div_of_nonneg_right (List.sum_le_sum h) (Nat.cast_nonneg _)

/-- The mean of a sum of two terms. -/
theorem mean_add (f g : Datapoint → ℚ) :
    (datapoints.map fun dp => f dp + g dp).sum / datapoints.length =
      (datapoints.map f).sum / datapoints.length + (datapoints.map g).sum / datapoints.length := by
  rw [List.sum_map_add, add_div]

/-- A list of reals that are not all equal deviates from its average. -/
theorem deviation_pos {dp dp' : Datapoint} (hdp : dp ∈ datapoints) (hdp' : dp' ∈ datapoints)
    (hne : dp.real ≠ dp'.real) : 0 < deviation datapoints := by
  rw [deviation, sum_abs_pos_iff]
  by_contra hall
  have heq (x : Datapoint) (hx : x ∈ datapoints) : averageReal datapoints = x.real := by
    by_contra hx'
    exact hall ⟨x, hx, sub_ne_zero.mpr hx'⟩
  exact hne ((heq dp hdp).symm.trans (heq dp' hdp'))

/-! #### The order does not matter -/

section Order

variable {datapoints' : List Datapoint} (h : datapoints'.Perm datapoints)

include h

theorem maxError_perm : maxError datapoints' = maxError datapoints := by
  rw [maxError_eq, maxError_eq]
  exact (h.map absoluteError).foldl_eq 0

theorem meanError_perm (counts : Datapoint → Bool) :
    meanError counts datapoints' = meanError counts datapoints := by
  rcases eq_or_ne datapoints [] with rfl | hne
  · rw [h.eq_nil]
  · have hne' : datapoints' ≠ [] := fun heq => hne (List.nil_perm.mp (heq ▸ h))
    rw [meanError_eq counts hne, meanError_eq counts hne', (h.map _).sum_eq, h.length_eq]

theorem averageReal_perm : averageReal datapoints' = averageReal datapoints := by
  rw [averageReal_eq, averageReal_eq, (h.map _).sum_eq, h.length_eq]

theorem rape_perm : rape datapoints' = rape datapoints := by
  simp only [rape, countDatapoints_eq, foldl_add_eq_sum, averageReal_perm h, h.length_eq,
    (h.map absoluteError).sum_eq, (h.map fun dp => |averageReal datapoints - dp.real|).sum_eq]

end Order

/-! #### Consistency -/

/-- **The measures are consistent.** -/
theorem errorMeasures_consistent (h : datapoints ≠ []) :
    ∃ m s a, mae datapoints = some m ∧ smae datapoints = some s ∧ smaeAbs datapoints = some a ∧
      0 ≤ s ∧ s ≤ m ∧ m ≤ maxError datapoints ∧ a ≤ m ∧ m ≤ a + 300 ∧
      ((∀ dp ∈ datapoints, 0 ≤ dp.real) →
        m ≤ s + 0.1 * ((datapoints.map Datapoint.real).sum / datapoints.length)) ∧
      ((∃ dp ∈ datapoints, ∃ dp' ∈ datapoints, dp.real ≠ dp'.real) →
        ∃ r, rape datapoints = some r ∧
          r * deviation datapoints = 100 * datapoints.length * m) ∧
      ∀ datapoints' : List Datapoint, datapoints'.Perm datapoints →
        maxError datapoints' = maxError datapoints ∧ rape datapoints' = rape datapoints ∧
          mae datapoints' = mae datapoints ∧ smae datapoints' = smae datapoints ∧
          smaeAbs datapoints' = smaeAbs datapoints := by
  have hn : (datapoints.length : ℚ) ≠ 0 :=
    Nat.cast_ne_zero.mpr (mt List.length_eq_zero_iff.mp h)
  refine ⟨_, _, _, meanError_eq _ h, meanError_eq _ h, meanError_eq _ h, ?_, ?_, ?_, ?_, ?_, ?_,
    ?_, ?_⟩
  · exact mean_nonneg fun dp _ => countedError_nonneg _ dp
  · exact mean_le_mean fun dp _ => countedError_le _ dp
  · exact mean_le_of_forall h fun dp hdp => absoluteError_le_maxError hdp
  · exact mean_le_mean fun dp _ => countedError_le _ dp
  · -- an error that `SMAE_ABS` leaves out is at most 300
    have hterms : ∀ dp ∈ datapoints, absoluteError dp ≤
        countedError (fun dp => 300 < absoluteError dp) dp + 300 := fun dp _ =>
      absoluteError_le (by norm_num) fun hout => not_lt.mp (of_decide_eq_false hout)
    have hmean := mean_le_mean hterms
    rwa [mean_add, List.map_const', List.sum_replicate, nsmul_eq_mul,
      mul_div_cancel_left₀ _ hn] at hmean
  · intro hreal
    -- an error that `SMAE` leaves out is at most a tenth of the value
    have hterms : ∀ dp ∈ datapoints, absoluteError dp ≤
        countedError (fun dp => 0.1 * dp.real < absoluteError dp) dp + 0.1 * dp.real :=
      fun dp hdp => absoluteError_le (mul_nonneg (by norm_num) (hreal dp hdp))
        fun hout => not_lt.mp (of_decide_eq_false hout)
    have hmean := mean_le_mean hterms
    rwa [mean_add, List.sum_map_mul_left, mul_div_assoc] at hmean
  · rintro ⟨dp, hdp, dp', hdp', hne⟩
    have hdeviation := (deviation_pos hdp hdp' hne).ne'
    refine ⟨_, rape_eq h hdeviation, ?_⟩
    rw [mul_right_comm, div_mul_cancel₀ _ hdeviation, sum_countedError_true]
    field_simp
  · intro datapoints' hperm
    exact ⟨maxError_perm hperm, rape_perm hperm, meanError_perm hperm _, meanError_perm hperm _,
      meanError_perm hperm _⟩

theorem errorMeasures_pair :
    ∃ m s a r, mae [⟨0, 1⟩, ⟨2, 2⟩] = some m ∧ smae [⟨0, 1⟩, ⟨2, 2⟩] = some s ∧
      smaeAbs [⟨0, 1⟩, ⟨2, 2⟩] = some a ∧ rape [⟨0, 1⟩, ⟨2, 2⟩] = some r ∧ s ≤ m ∧
      m ≤ maxError [⟨0, 1⟩, ⟨2, 2⟩] ∧ m ≤ a + 300 ∧
      m ≤ s + 0.1 * (([⟨0, 1⟩, ⟨2, 2⟩].map Datapoint.real).sum / (2 : ℕ)) ∧
      r * deviation [⟨0, 1⟩, ⟨2, 2⟩] = 100 * (2 : ℕ) * m := by
  obtain ⟨m, s, a, hm, hs, ha, -, hle, hmax, -, hm300, hreal, hrape, -⟩ :=
    errorMeasures_consistent (List.cons_ne_nil (⟨0, 1⟩ : Datapoint) [⟨2, 2⟩])
  obtain ⟨r, hr, hdeviation⟩ := hrape
    ⟨⟨0, 1⟩, List.mem_cons_self, ⟨2, 2⟩, List.mem_cons_of_mem _ List.mem_cons_self,
      two_ne_zero.symm⟩
  exact ⟨m, s, a, r, hm, hs, ha, hr, hle, hmax, hm300, hreal (by decide +kernel), hdeviation⟩

end A2PM.ModelBuild
