/-
A2PM/Report.lean

The tables of `generate_report` in `model_build/FRAMEWORK.sh`.

The weight vectors come in the order in which the lambdas were run, the csv
files in the order in which the shell lists the directory, and the n-th of the
one is put with the n-th of the other: this is right exactly if the file names
are in order as configured (`headerFiles_eq_iff`).  In a table the non-zero
weights are put in turn beside the names that the header of the file has left
behind `"RTTC",` (`words_cleanHeader`), so each of them must belong to a column
that is kept, and the RTTC must be kept as well (`prefix_names_iff`).

The collation order, `repr` and Python's `str` of a lambda are parameters.
-/
import A2PM.ApplyBeta
import A2PM.ErrorTables
import A2PM.Framework
import Mathlib.Data.List.Dedup
import Mathlib.Data.List.GetD
import Mathlib.Data.List.Perm.Basic

namespace A2PM.ModelBuild

open FormattedText DelimitedText ShellText

/-- A lambda as it is printed, and the weights found for it, which `%.15f`
prints without an exponent. -/
structure Fit where
  lambda : List Char
  weights : Fin 29 → DoubleNumeral
  exponent : ∀ k, (weights k).exponent = none

namespace Fit

/-- What `lasso.m` displays for it. -/
def record (f : Fit) : Record := ⟨f.lambda, (List.finRange 29).map fun k => (f.weights k).text⟩

/-- `beta` in `applyBeta.py`. -/
def beta (f : Fit) : Fin 29 → ℚ := fun k => (f.weights k).value

/-- The file that `applyBeta.py` writes for it. -/
def file (repr : ℚ → List Char) (rows : List (Fin 30 → ℚ)) (f : Fit) : List Char :=
  weightedFile repr (rows.map (weightRow f.beta))

end Fit

section Model

variable (lambdaName : List Char → List Char) (le : List Char → List Char → Bool)
  (repr : ℚ → List Char) (rows : List (Fin 30 → ℚ)) (fits : List Fit)

def Fit.fileName (f : Fit) : List Char :=
  "lasso-lambda-".toList ++ lambdaName f.lambda ++ ".csv".toList

/-- What a name in `csv` stands for: the file that was written last. -/
def fileContent (name : List Char) : Option (List Char) :=
  (fits.reverse.find? fun f => f.fileName lambdaName = name).map (Fit.file repr rows)

/-- `header_files=( csv/* )` -/
def headerFiles : List (List Char) := (fits.map (Fit.fileName lambdaName)).dedup.mergeSort le

/-- What the pipe for `header_string` does to the header. -/
def cleanHeader (line : List Char) : List Char :=
  replaceAll '"' [] (replaceAll '_' ['\\', '_'] (deleteThrough "\"RTTC\"," line))

/-- A table: the file it is made from, and its lines, each a name and a
weight. -/
structure Table where
  file : List Char
  lines : List (List Char × List Char)

/-- The loop over the parameters; `bc` compares one with 0. -/
def matchParameters (headers : List (List Char)) :
    ℕ → List (List Char) → List (List Char × List Char)
  | _, [] => []
  | headCount, parameter :: parameters =>
      if (readFloat parameter).any (· ≠ 0) = true then
        (headers.getD headCount [], parameter) ::
          matchParameters headers (headCount + 1) parameters
      else matchParameters headers headCount parameters

/-- `line`, from a line of `beta-vectors.txt`. -/
def parameters (line : List Char) : List (List Char) :=
  words (replaceAll ',' [' '] (captured [(echo (line.drop 6)).erase ']']))

/-- `headers`, from the text of a file. -/
def headers (text : List Char) : List (List Char) :=
  words (replaceAll ',' [' '] (captured ((head 1 (textLines text)).map cleanHeader)))

/-- The body of the loop; without a file, `head` would wait for its input. -/
def reportTable (count : ℕ) (line : List Char) : Option Table :=
  (headerFiles lambdaName le fits)[count]?.bind fun file =>
    (fileContent lambdaName repr rows fits file).map fun text =>
      ⟨file, matchParameters (headers text) 0 (parameters line)⟩

/-- The loop, from `count` on. -/
def reportLoop : ℕ → List (List Char) → Option (List Table)
  | _, [] => some []
  | count, line :: lines =>
      (reportTable lambdaName le repr rows fits count line).bind fun table =>
        (reportLoop (count + 1) lines).map fun tables => table :: tables

/-- `generate_report`: the parameter tables. -/
def report : Option (List Table) :=
  reportLoop lambdaName le repr rows fits 0
    (grep "beta" (textLines (betaVectors (fits.map Fit.record))))

/-- A name, as the first `sed` writes it. -/
def escaped (name : List Char) : List Char := replaceAll '_' ['\\', '_'] name

/-- The lines of a table: each non-zero weight beside the name of its feature.
The carriage return at the end of the header is white space to LaTeX. -/
def LinesOk (f : Fit) (lines : List (List Char × List Char)) : Prop :=
  List.Forall₂ (fun k line => line.1.filter (fun c => c ≠ '\r') =
      escaped (columnName k.succ).toList ∧ line.2 = (f.weights k).text)
    ((List.finRange 29).filter fun k => f.beta k ≠ 0) lines

/-- A table for each weight vector, from its own file, with the right names. -/
def Aligned : Prop :=
  ∃ tables, report lambdaName le repr rows fits = some tables ∧
    List.Forall₂ (fun f table => table.file = f.fileName lambdaName ∧ LinesOk f table.lines)
      fits tables

end Model

/-! ### The header -/

/-- The header of a file, without the newline. -/
def headerLine (names : List String) : List Char := joined (names.map quoted) ++ ['\r']

theorem headerLine_cons_cons (name name' : String) (names : List String) :
    headerLine (name :: name' :: names) =
      '"' :: (name.toList ++ '"' :: ',' :: headerLine (name' :: names)) := by
  simp [headerLine, quoted, joined_cons_cons]

theorem headerLine_singleton (name : String) :
    headerLine [name] = '"' :: (name.toList ++ ['"', '\r']) := by
  simp [headerLine, quoted, joined]

/-- `"RTTC",` with its first quote taken off. -/
def rttcRest : List Char := "RTTC".toList ++ ['"', ',']

theorem rttcPattern : "\"RTTC\",".toList = '"' :: rttcRest := by decide

variable {name name' : String} {names : List String}

theorem plainName_rttc : PlainName "RTTC" := plainName_columnName ⟨0, Nat.succ_pos 29⟩

/-- The pattern starts here only if the name is the one that it has. -/
theorem rttc_of_start (h : PlainName name) {c : Char} {rest : List Char}
    (hstarts : '"' :: rttcRest <+: '"' :: (name.toList ++ '"' :: c :: rest)) :
    name = "RTTC" ∧ c = ',' := by
  obtain ⟨rest', heq⟩ := (List.cons_prefix_cons.mp hstarts).2
  rw [rttcRest, List.append_assoc] at heq
  have hname : "RTTC".toList = name.toList := by
    have htake := congrArg (List.takeWhile fun c => c ≠ '"') heq
    rwa [TextInput.takeWhile_delimiter (h.not_mem rfl)] at htake
  refine ⟨(String.toList_inj.mp hname).symm, ?_⟩
  rw [hname, List.append_cancel_left_eq] at heq
  exact (List.cons.inj (List.cons.inj heq).2).1.symm

/-- The quote at the end of a name starts no occurrence. -/
theorem afterLast_quote {c : Char} (hc : c ≠ 'R') (hquote : '"' ≠ c) (v : List Char) :
    afterLast ('"' :: rttcRest) ('"' :: c :: v) = afterLast ('"' :: rttcRest) v := by
  have hskip : afterLast ('"' :: rttcRest) ([c] ++ v) = afterLast ('"' :: rttcRest) v :=
    afterLast_skip (fun hmem => hquote (List.mem_singleton.mp hmem)) v
  have hno : ¬ '"' :: rttcRest <+: '"' :: c :: v := by
    intro hstarts
    have hrest : 'R' :: rttcRest.tail <+: c :: v := (List.cons_prefix_cons.mp hstarts).2
    exact hc (List.cons_prefix_cons.mp hrest).1.symm
  rw [List.singleton_append] at hskip
  rw [afterLast, hskip]
  cases afterLast ('"' :: rttcRest) v with
  | some after => rfl
  | none => exact if_neg hno

/-- The last name. -/
theorem afterLast_headerLine_singleton (h : PlainName name) :
    afterLast ('"' :: rttcRest) (headerLine [name]) = none := by
  have hrest : afterLast ('"' :: rttcRest) (name.toList ++ ['"', '\r']) = none := by
    rw [afterLast_skip (h.not_mem rfl), afterLast_quote (by decide) (by decide)]
    rfl
  rw [headerLine_singleton, afterLast, hrest]
  apply if_neg
  intro hstarts
  exact absurd (rttc_of_start h hstarts).2 (by decide)

/-- A name that others follow. -/
theorem afterLast_headerLine (h : PlainName name) :
    afterLast ('"' :: rttcRest) (headerLine (name :: name' :: names)) =
      (afterLast ('"' :: rttcRest) (headerLine (name' :: names))).or
        (if name = "RTTC" then some (headerLine (name' :: names)) else none) := by
  have hrest : afterLast ('"' :: rttcRest)
      (name.toList ++ '"' :: ',' :: headerLine (name' :: names)) =
      afterLast ('"' :: rttcRest) (headerLine (name' :: names)) := by
    rw [afterLast_skip (h.not_mem rfl), afterLast_quote (by decide) (by decide)]
  rw [headerLine_cons_cons, afterLast, hrest]
  cases afterLast ('"' :: rttcRest) (headerLine (name' :: names)) with
  | some after => rfl
  | none =>
      show (if _ then _ else none) = if _ then _ else none
      by_cases hname : name = "RTTC"
      · subst hname
        have hpattern : '"' :: ("RTTC".toList ++ '"' :: ',' :: headerLine (name' :: names)) =
            ('"' :: rttcRest) ++ headerLine (name' :: names) := by
          rw [rttcRest, List.cons_append, List.append_assoc]
          rfl
        rw [if_pos rfl, hpattern, if_pos (List.prefix_append _ _), List.drop_left]
      · rw [if_neg hname, if_neg fun hstarts => hname (rttc_of_start h hstarts).1]

/-- Without the RTTC nothing is cut off. -/
theorem afterLast_headerLine_none (hplain : ∀ name ∈ names, PlainName name)
    (hrttc : "RTTC" ∉ names) : afterLast ('"' :: rttcRest) (headerLine names) = none := by
  induction names with
  | nil => decide
  | cons name names ih =>
      obtain ⟨hname, hnames⟩ := List.forall_mem_cons.mp hplain
      rw [List.mem_cons, not_or] at hrttc
      cases names with
      | nil => exact afterLast_headerLine_singleton hname
      | cons name' names =>
          rw [afterLast_headerLine hname, ih hnames hrttc.2, if_neg fun heq => hrttc.1 heq.symm]
          rfl

/-- The features whose columns are kept. -/
def keptFeatures (data : List Row) : List (Fin 29) :=
  (List.finRange 29).filter fun k => 0 < columnSum data k.succ

theorem columns_pos : 0 < 30 := Nat.succ_pos 29

/-- What is left of the header. -/
def keptNames (data : List Row) : List String :=
  if 0 < columnSum data ⟨0, columns_pos⟩ ∧ keptFeatures data ≠ [] then
    (keptFeatures data).map fun k => columnName k.succ
  else fieldnames data

theorem keptNames_eq (data : List Row) :
    keptNames data = if 0 < columnSum data 0 ∧ keptFeatures data ≠ [] then
      (keptFeatures data).map fun k => columnName k.succ
    else fieldnames data := rfl

theorem columnName_ne_rttc : ∀ k : Fin 29, columnName k.succ ≠ "RTTC" := by decide +kernel

theorem fieldnames_eq (data : List Row) :
    fieldnames data = "LASSO-time" :: ((if 0 < columnSum data 0 then ["RTTC"] else []) ++
      (keptFeatures data).map fun k => columnName k.succ) := by
  rw [fieldnames, wantedColumns_eq, List.map_append, List.map_map]
  congr 2
  split
  next => rfl
  next => rfl

theorem plainName_keptFeatures (data : List Row) :
    ∀ name ∈ (keptFeatures data).map fun k => columnName k.succ, PlainName name :=
  List.forall_mem_map.mpr fun k _ => plainName_columnName k.succ

theorem rttc_not_mem_keptFeatures (data : List Row) :
    "RTTC" ∉ (keptFeatures data).map fun k => columnName k.succ := by
  intro hmem
  obtain ⟨k, -, heq⟩ := List.mem_map.mp hmem
  exact columnName_ne_rttc k heq

theorem deleteThrough_headerLine (data : List Row) :
    deleteThrough "\"RTTC\"," (headerLine (fieldnames data)) = headerLine (keptNames data) := by
  have hlasso : "LASSO-time" ≠ "RTTC" := by decide
  have hnone := afterLast_headerLine_none (plainName_keptFeatures data)
    (rttc_not_mem_keptFeatures data)
  rw [deleteThrough, rttcPattern]
  by_cases hrttc : 0 < columnSum data 0
  · have hfields := fieldnames_eq data
    rw [if_pos hrttc, List.singleton_append] at hfields
    cases hkept : keptFeatures data with
    | nil =>
        rw [hkept, List.map_nil] at hfields
        rw [keptNames_eq, if_neg fun h => h.2 hkept, hfields, afterLast_headerLine plainName_lasso,
          afterLast_headerLine_singleton plainName_rttc, if_neg hlasso]
        rfl
    | cons k kept =>
        rw [hkept, List.map_cons] at hfields hnone
        rw [keptNames_eq, if_pos ⟨hrttc, hkept ▸ List.cons_ne_nil _ _⟩, hfields, hkept,
          List.map_cons, afterLast_headerLine plainName_lasso, afterLast_headerLine plainName_rttc, hnone,
          if_pos rfl]
        rfl
  · have hfields := fieldnames_eq data
    rw [if_neg hrttc, List.nil_append] at hfields
    have hcut : afterLast ('"' :: rttcRest) (headerLine (fieldnames data)) = none := by
      apply afterLast_headerLine_none (plainName_fieldnames data)
      rw [hfields, List.mem_cons, not_or]
      exact ⟨hlasso.symm, rttc_not_mem_keptFeatures data⟩
    rw [hcut, keptNames_eq, if_neg fun h => hrttc h.1]
    rfl

theorem plainName_keptNames (data : List Row) : ∀ name ∈ keptNames data, PlainName name := by
  rw [keptNames_eq]
  split
  next => exact plainName_keptFeatures data
  next => exact plainName_fieldnames data

/-! ### The words of the header -/

/-- The last of these with the carriage return. -/
def marked : List (List Char) → List (List Char)
  | [] => []
  | [word] => [word ++ ['\r']]
  | word :: word' :: rest => word :: marked (word' :: rest)

theorem marked_ne_nil (word : List Char) (rest : List (List Char)) :
    marked (word :: rest) ≠ [] := by
  cases rest with
  | nil => exact List.cons_ne_nil _ _
  | cons word' rest => exact List.cons_ne_nil _ _

/-- The three replacements. -/
def cleaned (text : List Char) : List Char :=
  replaceAll ',' [' '] (replaceAll '"' [] (replaceAll '_' ['\\', '_'] text))

theorem cleaned_append (u v : List Char) : cleaned (u ++ v) = cleaned u ++ cleaned v := by
  rw [cleaned, replaceAll_append, replaceAll_append, replaceAll_append]
  rfl

theorem not_mem_escaped (h : PlainName name) {c : Char} (hc : isNameChar c = false)
    (hslash : c ∉ ['\\', '_']) : c ∉ escaped name.toList := fun hmem =>
  (mem_replaceAll hmem).elim hslash (h.not_mem hc)

theorem cleaned_name (h : PlainName name) : cleaned name.toList = escaped name.toList := by
  have hquote : '"' ∉ escaped name.toList := not_mem_escaped h rfl (by decide)
  have hcomma : ',' ∉ escaped name.toList := not_mem_escaped h rfl (by decide)
  show replaceAll ',' [' '] (replaceAll '"' [] (escaped name.toList)) = _
  rw [replaceAll_of_not_mem hquote, replaceAll_of_not_mem hcomma]

theorem cleaned_headerLine (hplain : ∀ name ∈ names, PlainName name) (hne : names ≠ []) :
    cleaned (headerLine names) =
      [' '].intercalate (marked (names.map fun name => escaped name.toList)) := by
  induction names with
  | nil => exact absurd rfl hne
  | cons name names ih =>
      obtain ⟨hname, hnames⟩ := List.forall_mem_cons.mp hplain
      cases names with
      | nil =>
          have hline : headerLine [name] = ['"'] ++ name.toList ++ ['"', '\r'] :=
            headerLine_singleton name
          have hquote : cleaned ['"'] = [] := by decide
          have hend : cleaned ['"', '\r'] = ['\r'] := by decide
          rw [hline, cleaned_append, cleaned_append, cleaned_name hname, hquote, hend]
          exact (List.intercalate_singleton ..).symm
      | cons name' names =>
          have hline : headerLine (name :: name' :: names) =
              ['"'] ++ name.toList ++ ['"', ','] ++ headerLine (name' :: names) := by
            rw [headerLine_cons_cons]
            simp
          have hquote : cleaned ['"'] = [] := by decide
          have hcomma : cleaned ['"', ','] = [' '] := by decide
          rw [hline, cleaned_append, cleaned_append, cleaned_append, cleaned_name hname, hquote,
            hcomma, ih hnames (List.cons_ne_nil _ _), List.nil_append]
          exact (List.intercalate_cons_of_ne_nil (marked_ne_nil _ _)).symm

theorem mem_marked {words : List (List Char)} {word : List Char} (h : word ∈ marked words) :
    ∃ word' ∈ words, word = word' ∨ word = word' ++ ['\r'] := by
  induction words with
  | nil => cases h
  | cons w words ih =>
      cases words with
      | nil => exact ⟨w, List.mem_cons_self, .inr (List.mem_singleton.mp h)⟩
      | cons w' words =>
          rcases List.mem_cons.mp h with rfl | hrest
          · exact ⟨word, List.mem_cons_self, .inl rfl⟩
          · obtain ⟨word', hword', heq⟩ := ih hrest
            exact ⟨word', List.mem_cons_of_mem _ hword', heq⟩

/-- The carriage return is all that is added. -/
theorem map_filter_marked {words : List (List Char)} (h : ∀ word ∈ words, '\r' ∉ word) :
    (marked words).map (List.filter fun c => c ≠ '\r') = words := by
  have hkeep {word : List Char} (hword : '\r' ∉ word) :
      word.filter (fun c => c ≠ '\r') = word :=
    List.filter_eq_self.mpr fun c hc => decide_eq_true fun heq => hword (heq ▸ hc)
  induction words with
  | nil => rfl
  | cons word words ih =>
      obtain ⟨hword, hwords⟩ := List.forall_mem_cons.mp h
      cases words with
      | nil =>
          show [(word ++ ['\r']).filter fun c => c ≠ '\r'] = [word]
          rw [List.filter_append, hkeep hword]
          exact congrArg ([·]) (List.append_nil word)
      | cons word' words =>
          show word.filter (fun c => c ≠ '\r') ::
            (marked (word' :: words)).map (List.filter fun c => c ≠ '\r') = _
          rw [hkeep hword, ih hwords]

theorem isWord_escaped (h : PlainName name) {rest : List Char} (hrest : rest = [] ∨ rest = ['\r']) :
    IsWord (escaped name.toList ++ rest) := by
  have hname : escaped name.toList ≠ [] := by
    obtain ⟨c, cs, hcs⟩ := List.exists_cons_of_ne_nil h.1
    rw [hcs]
    intro hnil
    have hc := List.flatMap_eq_nil_iff.mp hnil c List.mem_cons_self
    split at hc
    next => cases hc
    next => cases hc
  refine ⟨List.append_ne_nil_of_left_ne_nil hname _, ?_⟩
  intro c hc
  rcases List.mem_append.mp hc with hmem | hmem
  · by_contra hseparator
    rw [Bool.not_eq_false] at hseparator
    have hspecial : c = ' ' ∨ c = '\t' ∨ c = '\n' := by
      simpa [isSeparator, or_assoc] using hseparator
    rcases hspecial with rfl | rfl | rfl
    · exact not_mem_escaped h rfl (by decide) hmem
    · exact not_mem_escaped h rfl (by decide) hmem
    · exact not_mem_escaped h rfl (by decide) hmem
  · rcases hrest with rfl | rfl
    · cases hmem
    · rw [List.mem_singleton.mp hmem]
      rfl

theorem newline_not_mem_headerLine (hplain : ∀ name ∈ names, PlainName name) :
    '\n' ∉ headerLine names := by
  rw [headerLine, List.mem_append]
  rintro (hmem | hmem)
  · rcases mem_joined hmem with heq | ⟨cell, hcell, hc⟩
    · exact absurd heq (by decide)
    · obtain ⟨name, hname, rfl⟩ := List.mem_map.mp hcell
      exact newline_not_mem_quoted (hplain name hname) hc
  · exact absurd hmem (by decide)

/-- **The names** that the weights are put beside. -/
theorem headers_weightedFile (repr : ℚ → List Char) (data : List Row) :
    headers (weightedFile repr data) =
      marked ((keptNames data).map fun name => escaped name.toList) := by
  have hplain := plainName_keptNames data
  have hkept : keptNames data ≠ [] := by
    rw [keptNames_eq]
    split
    next h => exact mt List.map_eq_nil_iff.mp h.2
    next => exact List.cons_ne_nil _ _
  have hfile : ∃ rest, weightedFile repr data = headerLine (fieldnames data) ++ '\n' :: rest := by
    refine ⟨((writtenRows data).map fun cells => csvLine (cells.map repr)).flatten, ?_⟩
    simp [weightedFile, csvLine, headerLine]
  obtain ⟨rest, hfile⟩ := hfile
  have hnewline : '\n' ∉ cleanHeader (headerLine (fieldnames data)) := by
    rw [cleanHeader, deleteThrough_headerLine]
    intro hmem
    rcases mem_replaceAll hmem with hnil | hmem
    · cases hnil
    · exact (mem_replaceAll hmem).elim (by decide) (newline_not_mem_headerLine hplain)
  rw [headers, hfile, textLines_append (newline_not_mem_headerLine (plainName_fieldnames data))]
  show words (replaceAll ',' [' '] (captured [cleanHeader (headerLine (fieldnames data))])) = _
  rw [captured_singleton hnewline, cleanHeader, deleteThrough_headerLine]
  show words (cleaned (headerLine (keptNames data))) = _
  rw [cleaned_headerLine hplain hkept, words_intercalate]
  intro word hword
  obtain ⟨word', hword', heq⟩ := mem_marked hword
  obtain ⟨name, hname, rfl⟩ := List.mem_map.mp hword'
  rcases heq with rfl | rfl
  · have h := isWord_escaped (hplain name hname) (.inl rfl)
    rwa [List.append_nil] at h
  · exact isWord_escaped (hplain name hname) (.inr rfl)

/-! ### The weights -/

theorem text_ne_nil (n : DoubleNumeral) : n.text ≠ [] := by
  obtain ⟨c, rest, heq, -⟩ := n.opens n.exponentText
  have htext : n.text = n.sign.text ++ (c :: rest) := by
    rw [← heq]
    simp [DoubleNumeral.text]
  rw [htext]
  exact List.append_ne_nil_of_right_ne_nil _ (List.cons_ne_nil _ _)

theorem printedChar_of_isNumeralChar {c : Char} (h : IsNumeralChar c) : PrintedChar c := by
  rcases h with hdigit | hother
  · exact .inl hdigit
  · have hsub : ['+', '-', '.', 'e', 'E'] ⊆
        ['+', '-', '.', 'e', 'E', 'I', 'n', 'f', 'N', 'a', 'i'] := by decide
    exact .inr (hsub hother)

theorem printed_text (n : DoubleNumeral) : Printed n.text :=
  ⟨text_ne_nil n, fun _ hc => printedChar_of_isNumeralChar (DoubleNumeral.isNumeralChar_of_mem hc)⟩

variable {f : Fit}

theorem Fit.record_ok (h : Printed f.lambda) : f.record.Ok :=
  ⟨h, List.forall_mem_map.mpr fun k _ => printed_text (f.weights k)⟩

theorem replaceAll_joined {fields : List (List Char)} (h : ∀ field ∈ fields, ',' ∉ field) :
    replaceAll ',' [' '] (joined fields) = [' '].intercalate fields := by
  induction fields with
  | nil => rfl
  | cons field fields ih =>
      obtain ⟨hfield, hfields⟩ := List.forall_mem_cons.mp h
      cases fields with
      | nil =>
          rw [joined, List.intercalate_singleton, List.intercalate_singleton,
            replaceAll_of_not_mem hfield]
      | cons field' fields =>
          have hline : joined (field :: field' :: fields) =
              field ++ [','] ++ joined (field' :: fields) := by
            rw [joined_cons_cons, List.append_assoc]
            rfl
          have hcomma : replaceAll ',' [' '] [','] = [' '] := by decide
          rw [hline, replaceAll_append, replaceAll_append, replaceAll_of_not_mem hfield, hcomma,
            ih hfields, List.intercalate_cons_cons]

/-- **The weights** that are put into the table. -/
theorem parameters_betaLine (h : Printed f.lambda) :
    parameters f.record.betaLine = (List.finRange 29).map fun k => (f.weights k).text := by
  have hok := Fit.record_ok h
  have hdrop : f.record.betaLine.drop 6 = joined f.record.weights ++ [']'] := rfl
  have hclose : ']' ∉ joined f.record.weights := hok.not_mem_joined (by decide)
  have herase : (joined f.record.weights ++ [']']).erase ']' = joined f.record.weights := by
    rw [List.erase_append_right _ hclose]
    exact List.append_nil _
  have hseparator : ∀ c ∈ joined f.record.weights ++ [']'], isSeparator c = false := by
    have hout (c : Char) (hc : c ∈ ['\n', ' ', '\t']) : c ∉ joined f.record.weights ++ [']'] := by
      have hsub : ['\n', ' ', '\t'] ⊆
          ['\n', ' ', '\t', '=', 'l', 't', 'm', '*', '?', '[', ']', '"', '_'] := by decide
      rw [List.mem_append]
      rintro (hmem | hmem)
      · exact hok.not_mem_joined (hsub hc) hmem
      · rw [List.mem_singleton.mp hmem] at hc
        exact absurd hc (by decide)
    exact not_isSeparator (hout ' ' (by decide)) (hout '\t' (by decide)) (hout '\n' (by decide))
  have hword : joined f.record.weights ++ [']'] ≠ [] :=
    List.append_ne_nil_of_right_ne_nil _ (List.cons_ne_nil _ _)
  rw [parameters, hdrop, echo_singleton hword hseparator, herase,
    captured_singleton (hok.not_mem_joined (by decide)), replaceAll_joined, words_intercalate]
  · rfl
  · intro text htext
    obtain ⟨k, -, rfl⟩ := List.mem_map.mp htext
    have hprinted := printed_text (f.weights k)
    have hout {c : Char} (hc : ¬ PrintedChar c) : c ∉ (f.weights k).text := fun hmem =>
      hc (hprinted.chars c hmem)
    exact ⟨hprinted.ne_nil, not_isSeparator (hout (not_printedChar (by decide)))
      (hout (not_printedChar (by decide))) (hout (not_printedChar (by decide)))⟩
  · intro text htext
    obtain ⟨k, -, rfl⟩ := List.mem_map.mp htext
    exact fun hmem => plain_numeral (f.weights k) ',' hmem (by decide)

/-! ### The lines of a table -/

theorem readFloat_weight (k : Fin 29) : readFloat (f.weights k).text = some (f.beta k) := by
  have h := readFloat_numeral blank_nil blank_nil (f.weights k)
  rwa [List.append_nil, List.nil_append] at h

/-- The loop puts the non-zero weights beside the names from `headCount` on. -/
theorem matchParameters_iff (words : List (List Char)) (headCount : ℕ) (ks : List (Fin 29)) :
    List.Forall₂ (fun k (line : List Char × List Char) =>
        line.1.filter (fun c => c ≠ '\r') = escaped (columnName k.succ).toList ∧
          line.2 = (f.weights k).text)
      (ks.filter fun k => f.beta k ≠ 0)
      (matchParameters words headCount (ks.map fun k => (f.weights k).text)) ↔
    ((ks.filter fun k => f.beta k ≠ 0).map fun k => escaped (columnName k.succ).toList) <+:
      (words.drop headCount).map (List.filter fun c => c ≠ '\r') := by
  induction ks generalizing headCount with
  | nil => exact iff_of_true .nil (List.nil_prefix ..)
  | cons k ks ih =>
      rw [List.map_cons, matchParameters, readFloat_weight]
      by_cases hk : f.beta k = 0
      · have hfilter : (k :: ks).filter (fun k => f.beta k ≠ 0) =
            ks.filter fun k => f.beta k ≠ 0 :=
          List.filter_cons_of_neg fun h => of_decide_eq_true h hk
        have hany : ¬ (some (f.beta k)).any (· ≠ 0) = true := fun h => of_decide_eq_true h hk
        rw [hfilter, if_neg hany]
        exact ih headCount
      · have hfilter : (k :: ks).filter (fun k => f.beta k ≠ 0) =
            k :: ks.filter fun k => f.beta k ≠ 0 :=
          List.filter_cons_of_pos (decide_eq_true hk)
        have hany : (some (f.beta k)).any (· ≠ 0) = true := decide_eq_true hk
        rw [hfilter, if_pos hany, List.forall₂_cons, List.map_cons, ih (headCount + 1)]
        rcases Nat.lt_or_ge headCount words.length with hlt | hge
        · rw [List.drop_eq_getElem_cons hlt, List.map_cons, List.cons_prefix_cons,
            List.getD_eq_getElem words [] hlt]
          constructor
          · rintro ⟨⟨hname, -⟩, hrest⟩
            exact ⟨hname.symm, hrest⟩
          · rintro ⟨hname, hrest⟩
            exact ⟨⟨hname.symm, rfl⟩, hrest⟩
        · have hcell : words.getD headCount [] = [] := List.getD_eq_default _ _ hge
          rw [List.drop_eq_nil_of_le hge, hcell]
          refine iff_of_false ?_ fun h => List.cons_ne_nil _ _ (List.prefix_nil.mp h)
          rintro ⟨⟨hname, -⟩, -⟩
          have hword := isWord_escaped (plainName_columnName k.succ) (.inl rfl)
          rw [List.append_nil, ← hname] at hword
          exact hword.1 rfl

/-- Back from `escaped`. -/
def unescaped (text : List Char) : String := String.ofList (text.filter fun c => c ≠ '\\')

theorem unescaped_escaped (h : PlainName name) : unescaped (escaped name.toList) = name := by
  have hslash : '\\' ∉ name.toList := h.not_mem rfl
  have hfilter (text : List Char) (htext : '\\' ∉ text) :
      (escaped text).filter (fun c => c ≠ '\\') = text := by
    induction text with
    | nil => rfl
    | cons c text ih =>
        rw [List.mem_cons, not_or] at htext
        have hsplit : escaped (c :: text) = escaped [c] ++ escaped text :=
          replaceAll_append '_' _ [c] text
        rw [hsplit, List.filter_append, ih htext.2]
        by_cases hscore : c = '_'
        · subst hscore
          rfl
        · have hc : decide (c ≠ '\\') = true := decide_eq_true fun heq => htext.1 heq.symm
          rw [escaped, replaceAll_of_not_mem fun hmem => hscore (List.mem_singleton.mp hmem).symm,
            List.filter_cons_of_pos (a := c) hc]
          rfl
  rw [unescaped, hfilter _ hslash, String.ofList_toList]

theorem prefix_of_escaped {names names' : List String} (h : ∀ name ∈ names, PlainName name)
    (h' : ∀ name ∈ names', PlainName name)
    (hstarts : names.map (fun name => escaped name.toList) <+:
      names'.map fun name => escaped name.toList) : names <+: names' := by
  have hid {l : List String} (hl : ∀ name ∈ l, PlainName name) :
      l.map (unescaped ∘ fun name => escaped name.toList) = l :=
    (List.map_congr_left fun name hname => unescaped_escaped (hl name hname)).trans (List.map_id l)
  have hback := hstarts.map unescaped
  rwa [List.map_map, List.map_map, hid h, hid h'] at hback

theorem columnName_injective : Function.Injective fun k : Fin 29 => columnName k.succ := by
  have hnodup : columns.Nodup := by decide +kernel
  intro k k' heq
  exact Fin.succ_injective _ (List.nodup_iff_injective_get.mp hnodup heq)

theorem columnName_ne_lasso : ∀ k : Fin 29, columnName k.succ ≠ "LASSO-time" := by decide +kernel

/-- **The names beside the weights.**  They are right if there are no non-zero
weights; else each of these must have a column that is kept, and the RTTC must
be kept for the header to be cut behind it. -/
theorem prefix_names_iff {data : List Row} {beta : Fin 29 → ℚ}
    (hkeep : ∀ k, 0 < columnSum data k.succ → beta k ≠ 0) :
    (((List.finRange 29).filter fun k => beta k ≠ 0).map fun k =>
        escaped (columnName k.succ).toList) <+:
      (keptNames data).map (fun name => escaped name.toList) ↔
    ∀ k, beta k ≠ 0 → 0 < columnSum data 0 ∧ 0 < columnSum data k.succ := by
  have hmem {k : Fin 29} : k ∈ (List.finRange 29).filter (fun k => beta k ≠ 0) ↔ beta k ≠ 0 := by
    rw [List.mem_filter, decide_eq_true_eq]
    exact and_iff_right (List.mem_finRange k)
  constructor
  · intro hstarts k hk
    have hnames : (((List.finRange 29).filter fun k => beta k ≠ 0).map fun k =>
        columnName k.succ) <+: keptNames data := by
      apply prefix_of_escaped _ (plainName_keptNames data)
      · rw [List.map_map]
        exact hstarts
      · exact List.forall_mem_map.mpr fun k _ => plainName_columnName k.succ
    have hname : columnName k.succ ∈ keptNames data :=
      hnames.subset (List.mem_map_of_mem (hmem.mpr hk))
    rw [keptNames_eq] at hname hnames
    split at hname
    next hrttc =>
      obtain ⟨k', hk', heq⟩ := List.mem_map.mp hname
      rw [columnName_injective heq] at hk'
      exact ⟨hrttc.1, of_decide_eq_true (List.mem_filter.mp hk').2⟩
    next hrttc =>
      -- the names start with `LASSO-time`, which is none of a feature
      obtain ⟨k', ks, hks⟩ := List.exists_cons_of_ne_nil (List.ne_nil_of_mem (hmem.mpr hk))
      rw [hks, if_neg hrttc, List.map_cons] at hnames
      exact absurd (List.cons_prefix_cons.mp hnames).1 (columnName_ne_lasso k')
  · intro hcolumns
    cases hks : (List.finRange 29).filter fun k => beta k ≠ 0 with
    | nil => exact List.nil_prefix
    | cons k ks =>
        have hk : beta k ≠ 0 := hmem.mp (hks ▸ List.mem_cons_self)
        have hkept : keptFeatures data = k :: ks := by
          rw [← hks]
          exact List.filter_congr fun k _ =>
            decide_eq_decide.mpr ⟨hkeep k, fun hk => (hcolumns k hk).2⟩
        rw [keptNames_eq, if_pos ⟨(hcolumns k hk).1, hkept ▸ List.cons_ne_nil _ _⟩, hkept,
          List.map_map]
        exact List.prefix_rfl

section Runs

variable {lambdaName : List Char → List Char} {le : List Char → List Char → Bool}
  {repr : ℚ → List Char} {rows : List (Fin 30 → ℚ)} {fits : List Fit}

/-- The table of a weight vector, from its own file. -/
def ownTable (lambdaName : List Char → List Char) (repr : ℚ → List Char)
    (rows : List (Fin 30 → ℚ)) (f : Fit) : Table :=
  ⟨f.fileName lambdaName,
    matchParameters (headers (f.file repr rows)) 0 (parameters f.record.betaLine)⟩

theorem linesOk_ownTable (lambdaName : List Char → List Char) (repr : ℚ → List Char)
    (rows : List (Fin 30 → ℚ)) (h : Printed f.lambda) :
    LinesOk f (ownTable lambdaName repr rows f).lines ↔
      ∀ k, f.beta k ≠ 0 → (∃ fields ∈ rows, fields 0 ≠ 0) ∧ ∃ fields ∈ rows, fields k.succ ≠ 0 := by
  have hcolumn (c : Fin 30) : 0 < columnSum (rows.map (weightRow f.beta)) c ↔
      ∃ fields ∈ rows, weighted f.beta fields c ≠ 0 := by
    rw [← mem_wantedColumns_weightRow, wantedColumns, List.mem_filter, decide_eq_true_eq]
    exact (and_iff_right (List.mem_finRange c)).symm
  have hproduct (k : Fin 29) (fields : Fin 30 → ℚ) :
      weighted f.beta fields k.succ ≠ 0 ↔ f.beta k ≠ 0 ∧ fields k.succ ≠ 0 := mul_ne_zero_iff
  have hnames : ((keptNames (rows.map (weightRow f.beta))).map fun name =>
      escaped name.toList) = (headers (f.file repr rows)).map (List.filter fun c => c ≠ '\r') := by
    rw [Fit.file, headers_weightedFile, map_filter_marked]
    intro word hword
    obtain ⟨name, hname, rfl⟩ := List.mem_map.mp hword
    exact not_mem_escaped (plainName_keptNames _ name hname) rfl (by decide)
  rw [LinesOk, ownTable, parameters_betaLine h, matchParameters_iff, List.drop_zero, ← hnames,
    prefix_names_iff]
  · apply forall_congr'
    intro k
    apply imp_congr_right
    intro hk
    rw [hcolumn, hcolumn]
    apply and_congr_right'
    apply exists_congr
    intro fields
    rw [hproduct, and_iff_right hk]
  · intro k hsum
    obtain ⟨fields, -, hne⟩ := (hcolumn k.succ).mp hsum
    exact ((hproduct k fields).mp hne).1

/-! ### The files and the weights -/

/-- **The order of the files** is that of the lambdas exactly if the names are
configured in that order, each once. -/
theorem headerFiles_eq_iff (htrans : ∀ a b c, le a b = true → le b c = true → le a c = true)
    (htotal : ∀ a b, (le a b || le b a) = true) :
    headerFiles lambdaName le fits = fits.map (Fit.fileName lambdaName) ↔
      (fits.map (Fit.fileName lambdaName)).Pairwise fun a b => le a b = true ∧ a ≠ b := by
  rw [headerFiles, List.pairwise_and_iff]
  constructor
  · intro heq
    constructor
    · rw [← heq]
      exact List.pairwise_mergeSort htrans htotal _
    · show (fits.map (Fit.fileName lambdaName)).Nodup
      rw [← heq]
      exact (List.mergeSort_perm _ le).nodup_iff.mpr (List.nodup_dedup _)
  · rintro ⟨hle, hnodup⟩
    have hdedup : (fits.map (Fit.fileName lambdaName)).dedup = _ := List.Nodup.dedup hnodup
    rw [hdedup, List.mergeSort_of_pairwise hle]

/-- The lines with the weights. -/
theorem grep_betaVectors {records : List Record} (h : ∀ r ∈ records, r.Ok) :
    grep "beta" (textLines (betaVectors records)) = records.map Record.betaLine := by
  have ht : 't' ∈ "beta".toList := by decide
  rw [textLines_betaVectors h, grep_of_not_mem ht List.not_mem_nil]
  induction records with
  | nil => rfl
  | cons r records ih =>
      obtain ⟨hr, hrecords⟩ := List.forall_mem_cons.mp h
      have hlines : r.lines = [] :: [] :: r.lastLines := rfl
      rw [List.flatMap_cons, grep_append, ih hrecords, hlines,
        grep_of_not_mem ht List.not_mem_nil, grep_of_not_mem ht List.not_mem_nil, r.grep_beta hr]
      rfl

/-- The tables take the files one after the other. -/
theorem files_reportLoop {lines : List (List Char)} {count : ℕ} {tables : List Table}
    (h : reportLoop lambdaName le repr rows fits count lines = some tables) :
    tables.map Table.file = ((headerFiles lambdaName le fits).drop count).take lines.length := by
  induction lines generalizing count tables with
  | nil =>
      cases h
      rfl
  | cons line lines ih =>
      obtain ⟨table, htable, htables⟩ := Option.bind_eq_some_iff.mp h
      obtain ⟨rest, hrest, rfl⟩ := Option.map_eq_some_iff.mp htables
      obtain ⟨file, hfile, htext⟩ := Option.bind_eq_some_iff.mp htable
      obtain ⟨text, -, rfl⟩ := Option.map_eq_some_iff.mp htext
      obtain ⟨hlt, rfl⟩ := List.getElem?_eq_some_iff.mp hfile
      rw [List.map_cons, ih hrest, List.drop_eq_getElem_cons hlt]
      rfl

/-- The file of a lambda has its own rows. -/
theorem fileContent_fileName (hnodup : (fits.map (Fit.fileName lambdaName)).Nodup)
    (hmem : f ∈ fits) :
    fileContent lambdaName repr rows fits (f.fileName lambdaName) = some (f.file repr rows) := by
  obtain ⟨f', hf'⟩ : ∃ f', (fits.reverse.find? fun f' =>
      f'.fileName lambdaName = f.fileName lambdaName) = some f' := by
    rw [← Option.isSome_iff_exists, List.find?_isSome]
    exact ⟨f, List.mem_reverse.mpr hmem, decide_eq_true rfl⟩
  have hfound := List.find?_some hf'
  have hname : f'.fileName lambdaName = f.fileName lambdaName := of_decide_eq_true hfound
  have hmem' : f' ∈ fits := List.mem_reverse.mp (List.mem_of_find?_eq_some hf')
  rw [fileContent, hf', List.inj_on_of_nodup_map hnodup hmem' hmem hname]
  rfl

/-- The tables of the weight vectors that are left. -/
theorem reportLoop_eq (hnodup : (fits.map (Fit.fileName lambdaName)).Nodup)
    (hfiles : headerFiles lambdaName le fits = fits.map (Fit.fileName lambdaName))
    {done rest : List Fit} (hfits : fits = done ++ rest) :
    reportLoop lambdaName le repr rows fits done.length
        (rest.map fun f => f.record.betaLine) =
      some (rest.map (ownTable lambdaName repr rows)) := by
  induction rest generalizing done with
  | nil => rfl
  | cons f rest ih =>
      have hrest : fits = (done ++ [f]) ++ rest := by rw [hfits, List.append_assoc]; rfl
      have hfile : (headerFiles lambdaName le fits)[done.length]? =
          some (f.fileName lambdaName) := by
        rw [hfiles, List.getElem?_map, hfits, List.getElem?_append_right (Nat.le_refl _),
          Nat.sub_self]
        rfl
      have hmem : f ∈ fits := by
        rw [hfits]
        exact List.mem_append_right _ List.mem_cons_self
      have hcontent : fileContent lambdaName repr rows fits (f.fileName lambdaName) =
          some (f.file repr rows) := fileContent_fileName hnodup hmem
      have hloop := ih hrest
      rw [List.length_append, List.length_singleton] at hloop
      rw [List.map_cons, reportLoop, reportTable, hfile, Option.bind_some, hcontent,
        Option.map_some, Option.bind_some, hloop]
      rfl

theorem report_eq (hlambda : ∀ f ∈ fits, Printed f.lambda) :
    report lambdaName le repr rows fits =
      reportLoop lambdaName le repr rows fits 0 (fits.map fun f => f.record.betaLine) := by
  have hrecords : ∀ r ∈ fits.map Fit.record, r.Ok :=
    List.forall_mem_map.mpr fun f hf => Fit.record_ok (hlambda f hf)
  rw [report, grep_betaVectors hrecords, List.map_map]
  rfl

/-- The files are in the order of the lambdas if each table is from the right
one. -/
theorem headerFiles_of_aligned (hlambda : ∀ f ∈ fits, Printed f.lambda)
    (h : Aligned lambdaName le repr rows fits) :
    headerFiles lambdaName le fits = fits.map (Fit.fileName lambdaName) := by
  obtain ⟨tables, hreport, haligned⟩ := h
  rw [report_eq hlambda] at hreport
  have hnames : tables.map Table.file = fits.map (Fit.fileName lambdaName) := by
    rw [← List.forall₂_eq_eq_eq, List.forall₂_map_left_iff, List.forall₂_map_right_iff]
    exact haligned.flip.imp fun _ _ h => h.1
  have hlength : (headerFiles lambdaName le fits).length ≤
      (fits.map fun f => f.record.betaLine).length := by
    have hsub := (List.dedup_sublist (fits.map (Fit.fileName lambdaName))).length_le
    rw [List.length_map] at hsub
    rw [headerFiles, List.length_mergeSort, List.length_map]
    exact hsub
  rw [← hnames, files_reportLoop hreport, List.drop_zero, List.take_of_length_le hlength]

/-- **When the report is right.**  The weight vectors are put with their own
files, and the weights beside the names of their features, exactly if the file
names are in order as configured, and each non-zero weight has a feature that is
not zero in all rows, with an RTTC that is not either. -/
theorem aligned_iff (htrans : ∀ a b c, le a b = true → le b c = true → le a c = true)
    (htotal : ∀ a b, (le a b || le b a) = true) (hlambda : ∀ f ∈ fits, Printed f.lambda) :
    Aligned lambdaName le repr rows fits ↔
      (fits.map (Fit.fileName lambdaName)).Pairwise (fun a b => le a b = true ∧ a ≠ b) ∧
        ∀ f ∈ fits, ∀ k, f.beta k ≠ 0 →
          (∃ fields ∈ rows, fields 0 ≠ 0) ∧ ∃ fields ∈ rows, fields k.succ ≠ 0 := by
  have hown (hpairs : (fits.map (Fit.fileName lambdaName)).Pairwise
      fun a b => le a b = true ∧ a ≠ b) :
      report lambdaName le repr rows fits = some (fits.map (ownTable lambdaName repr rows)) :=
    (report_eq hlambda).trans <| reportLoop_eq (hpairs.imp fun h => h.2)
      ((headerFiles_eq_iff htrans htotal).mpr hpairs) (List.nil_append fits).symm
  have hok : List.Forall₂ (fun f table => table.file = f.fileName lambdaName ∧
      LinesOk f table.lines) fits (fits.map (ownTable lambdaName repr rows)) ↔
        ∀ f ∈ fits, ∀ k, f.beta k ≠ 0 →
          (∃ fields ∈ rows, fields 0 ≠ 0) ∧ ∃ fields ∈ rows, fields k.succ ≠ 0 := by
    rw [List.forall₂_map_right_iff, List.forall₂_same]
    apply forall₂_congr
    intro f hf
    have hfile : (ownTable lambdaName repr rows f).file = f.fileName lambdaName := rfl
    rw [← linesOk_ownTable lambdaName repr rows (hlambda f hf)]
    exact and_iff_right hfile
  constructor
  · intro haligned
    have hpairs := (headerFiles_eq_iff htrans htotal).mp (headerFiles_of_aligned hlambda haligned)
    obtain ⟨tables, hreport, htables⟩ := haligned
    obtain rfl := Option.some.inj ((hown hpairs).symm.trans hreport)
    exact ⟨hpairs, hok.mp htables⟩
  · rintro ⟨hpairs, hcolumns⟩
    exact ⟨_, hown hpairs, hok.mpr hcolumns⟩

end Runs

/-! ### Two lambdas -/

/-- The order of the names in the C locale. -/
def byCode : List Char → List Char → Bool
  | [], _ => true
  | _ :: _, [] => false
  | c :: s, d :: t => decide (c.toNat < d.toNat) || (decide (c.toNat = d.toNat) && byCode s t)

theorem byCode_trans (a b c : List Char) (hab : byCode a b = true) (hbc : byCode b c = true) :
    byCode a c = true := by
  induction a generalizing b c with
  | nil => rfl
  | cons x a ih =>
      cases b with
      | nil => cases hab
      | cons y b =>
          cases c with
          | nil => cases hbc
          | cons z c =>
              simp only [byCode, Bool.or_eq_true, Bool.and_eq_true, decide_eq_true_eq] at hab hbc ⊢
              rcases hab with hlt | ⟨heq, hrest⟩
              · omega
              · rcases hbc with hlt | ⟨heq', hrest'⟩
                · omega
                · exact .inr ⟨heq.trans heq', ih b c hrest hrest'⟩

theorem byCode_total (a b : List Char) : (byCode a b || byCode b a) = true := by
  induction a generalizing b with
  | nil => rfl
  | cons x a ih =>
      cases b with
      | nil => rfl
      | cons y b =>
          have hrest : byCode a b = true ∨ byCode b a = true := Bool.or_eq_true_iff.mp (ih b)
          simp only [byCode, Bool.or_eq_true, Bool.and_eq_true, decide_eq_true_eq]
          rcases Nat.lt_trichotomy x.toNat y.toNat with hlt | heq | hgt
          · exact .inl (.inl hlt)
          · exact hrest.imp (fun h => .inr ⟨heq, h⟩) fun h => .inr ⟨heq.symm, h⟩
          · exact .inr (.inl hgt)

/-- A weight vector of ones. -/
def onesFit (lambda : List Char) : Fit := ⟨lambda, fun _ => printedFloat 1, fun _ => rfl⟩

theorem printed_of_digits {text : List Char} (hne : text ≠ [])
    (h : text.all Char.isDigit = true) : Printed text :=
  ⟨hne, fun c hc => .inl (List.all_eq_true.mp h c hc)⟩

theorem aligned_ten_two :
    Aligned id byCode wholeRepr [fun _ => 1] [onesFit ['1', '0'], onesFit ['2']] := by
  have hprinted : ∀ f ∈ [onesFit ['1', '0'], onesFit ['2']], Printed f.lambda := by
    rw [List.forall_mem_cons, List.forall_mem_singleton]
    exact ⟨printed_of_digits (List.cons_ne_nil _ _) rfl,
      printed_of_digits (List.cons_ne_nil _ _) rfl⟩
  refine (aligned_iff byCode_trans byCode_total hprinted).mpr ⟨?_, ?_⟩
  · decide
  · intro f _ k _
    exact ⟨⟨_, List.mem_singleton_self _, one_ne_zero⟩, ⟨_, List.mem_singleton_self _, one_ne_zero⟩⟩

theorem not_aligned_two_ten :
    ¬ Aligned id byCode wholeRepr [fun _ => 1] [onesFit ['2'], onesFit ['1', '0']] := by
  have hprinted : ∀ f ∈ [onesFit ['2'], onesFit ['1', '0']], Printed f.lambda := by
    rw [List.forall_mem_cons, List.forall_mem_singleton]
    exact ⟨printed_of_digits (List.cons_ne_nil _ _) rfl,
      printed_of_digits (List.cons_ne_nil _ _) rfl⟩
  intro haligned
  have hpairs := (headerFiles_eq_iff byCode_trans byCode_total).mp
    (headerFiles_of_aligned hprinted haligned)
  exact absurd (List.rel_of_pairwise_cons hpairs List.mem_cons_self).1 (by decide)

end A2PM.ModelBuild
