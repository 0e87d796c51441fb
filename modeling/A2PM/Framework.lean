/-
A2PM/Framework.lean

`model_build/FRAMEWORK.sh` from `run_lasso` to `apply_lasso`: `lasso.m` appends
what it displays to `beta-vectors.txt`, seven lines for each lambda, and the
loop cuts the file in pieces of eight lines that overlap by one.

With the empty line that the script writes first, each piece is the last line of
the record before, or that empty line, and the seven lines of a record
(`applyBody_record`); the piece that is left at the end gives no lambda
(`applyBody_last`).
-/
import A2PM.FuelLoop
import A2PM.ShellText

namespace A2PM.ModelBuild

open DelimitedText ShellText

/-! ### `lasso.m` -/

/-- A lambda and its weights, as they are printed. -/
structure Record where
  lambda : List Char
  weights : List (List Char)

/-- `beta=[...]` without the name. -/
def Record.betaVector (r : Record) : List Char := '[' :: (joined r.weights ++ [']'])

/-- What `disp` displays. -/
def Record.displayed (r : Record) : List Char :=
  "\n\n***\n\nlambda_val=".toList ++ r.lambda ++ "\n\nbeta=[".toList ++ joined r.weights ++
    "]".toList ++ "\n".toList

/-- `beta-vectors.txt`, from `echo ""` on. -/
def betaVectors (records : List Record) : List Char :=
  "\n".toList ++ records.flatMap Record.displayed

/-! ### `apply_lasso` -/

/-- A word after pathname expansion: a pattern stands for the names it matches,
or for itself. -/
def expandWord (glob : List Char → List (List Char)) (word : List Char) : List (List Char) :=
  if word.any ['*', '?', '['].contains = true ∧ glob word ≠ [] then glob word else [word]

/-- The arguments that an expansion without quotes gives. -/
def expand (glob : List Char → List (List Char)) (text : List Char) : List (List Char) :=
  (words text).flatMap (expandWord glob)

/-- The variables of the loop: the lines of `working`, and the arguments of the
calls of `applyBeta.py` so far. -/
abbrev ApplyState := List (List Char) × List (List (List Char))

/-- The body of `while [[ -s working ]]`; `glob k` are the names that match at
iteration `k`. -/
def applyBody (glob : ℕ → List Char → List (List Char)) (k : ℕ) (s : ApplyState) :
    ApplyState ⊕ List (List (List Char)) :=
  if s.1 = [] then .inr s.2
  else
    let piece := tail 5 (head 8 s.1)
    let lambdaVal := captured ((grep "lambda_val" piece).map (deleteThrough "="))
    let betaVector := captured ((grep "beta" piece).map (deleteThrough "="))
    .inl (tailFrom 8 s.1, s.2 ++ [expand (glob k) lambdaVal ++ expand (glob k) betaVector])

/-- The loop, on a copy of `beta-vectors.txt`. -/
def applyLoop (glob : ℕ → List Char → List (List Char)) (fuel : ℕ) (text : List Char) :
    Option (List (List (List Char))) :=
  FuelLoop.run (applyBody glob) fuel 0 (textLines text, [])

/-! ### Printed numbers -/

/-- A character of a number, `Inf`, `NaN` or a complex unit. -/
def PrintedChar (c : Char) : Prop :=
  c.isDigit = true ∨ c ∈ ['+', '-', '.', 'e', 'E', 'I', 'n', 'f', 'N', 'a', 'i']

/-- A number, as MATLAB prints it. -/
structure Printed (text : List Char) : Prop where
  ne_nil : text ≠ []
  chars : ∀ c ∈ text, PrintedChar c

/-- A record of printed numbers. -/
structure Record.Ok (r : Record) : Prop where
  lambda : Printed r.lambda
  weights : ∀ w ∈ r.weights, Printed w

instance : DecidablePred PrintedChar := fun _ => inferInstanceAs (Decidable (_ ∨ _))

/-- The characters that the script looks for are not among them. -/
theorem not_printedChar {c : Char}
    (h : c ∈ ['\n', ' ', '\t', '=', 'l', 't', 'm', '*', '?', '[', ']', '"', '_']) :
    ¬ PrintedChar c := by
  intro hc
  simp only [List.mem_cons, List.not_mem_nil, or_false] at h
  rcases h with rfl | rfl | rfl | rfl | rfl | rfl | rfl | rfl | rfl | rfl | rfl | rfl | rfl <;>
    exact absurd hc (by decide)

namespace Record

variable {r : Record}

theorem Ok.not_mem_lambda (h : r.Ok) {c : Char}
    (hc : c ∈ ['\n', ' ', '\t', '=', 'l', 't', 'm', '*', '?', '[', ']', '"', '_']) :
    c ∉ r.lambda := fun hmem => not_printedChar hc (h.lambda.chars c hmem)

theorem Ok.not_mem_joined (h : r.Ok) {c : Char}
    (hc : c ∈ ['\n', ' ', '\t', '=', 'l', 't', 'm', '*', '?', '[', ']', '"', '_']) :
    c ∉ joined r.weights := by
  intro hmem
  rcases mem_joined hmem with rfl | ⟨w, hw, hcw⟩
  · exact absurd hc (by decide)
  · exact not_printedChar hc ((h.weights w hw).chars c hcw)

/-! ### The lines of a record -/

def lambdaLine (r : Record) : List Char := "lambda_val=".toList ++ r.lambda

def betaLine (r : Record) : List Char := "beta=".toList ++ r.betaVector

def lines (r : Record) : List (List Char) :=
  [[], [], "***".toList, [], r.lambdaLine, [], r.betaLine]

theorem displayed_eq (r : Record) : r.displayed = ofLines r.lines := by
  have hbefore : "\n\n***\n\nlambda_val=".toList =
      ['\n', '\n'] ++ "***".toList ++ ['\n', '\n'] ++ "lambda_val=".toList := by decide
  have hbetween : "\n\nbeta=[".toList = ['\n', '\n'] ++ "beta=".toList ++ ['['] := by decide
  unfold displayed lines lambdaLine betaLine betaVector
  rw [hbefore, hbetween]
  simp [ofLines]

theorem Ok.newline_not_mem (h : r.Ok) : ∀ line ∈ r.lines, '\n' ∉ line := by
  have hlambda : '\n' ∉ r.lambdaLine := by
    unfold lambdaLine
    rw [List.mem_append, not_or]
    exact ⟨by decide, h.not_mem_lambda (by decide)⟩
  have hbeta : '\n' ∉ r.betaLine := by
    unfold betaLine betaVector
    simp only [List.mem_append, List.mem_cons, List.not_mem_nil, or_false]
    rintro (hname | hopen | hweights | hclose)
    · exact absurd hname (by decide)
    · exact absurd hopen (by decide)
    · exact h.not_mem_joined (by decide) hweights
    · exact absurd hclose (by decide)
  intro line hline
  unfold lines at hline
  simp only [List.mem_cons, List.not_mem_nil, or_false] at hline
  rcases hline with rfl | rfl | rfl | rfl | rfl | rfl | rfl
  · exact List.not_mem_nil
  · exact List.not_mem_nil
  · decide
  · exact List.not_mem_nil
  · exact hlambda
  · exact List.not_mem_nil
  · exact hbeta

theorem Ok.not_mem_betaVector (h : r.Ok) {c : Char} (hc : c ∈ ['\n', ' ', '\t', '=', 'l', 'm']) :
    c ∉ r.betaVector := by
  have hout : ['\n', ' ', '\t', '=', 'l', 'm'] ⊆
      ['\n', ' ', '\t', '=', 'l', 't', 'm', '*', '?', '[', ']', '"', '_'] := by decide
  unfold betaVector
  simp only [List.mem_append, List.mem_cons, List.not_mem_nil, or_false]
  rintro (rfl | hweights | rfl)
  · exact absurd hc (by decide)
  · exact h.not_mem_joined (hout hc) hweights
  · exact absurd hc (by decide)

/-- The value behind the only `=`. -/
theorem deleteThrough_lambdaLine (h : r.Ok) : deleteThrough "=" r.lambdaLine = r.lambda := by
  have hname : "lambda_val=".toList = "lambda_val".toList ++ ['='] := by decide
  unfold lambdaLine
  rw [hname, List.append_assoc]
  exact deleteThrough_assignment _ (h.not_mem_lambda (by decide))

theorem deleteThrough_betaLine (h : r.Ok) : deleteThrough "=" r.betaLine = r.betaVector := by
  have hname : "beta=".toList = "beta".toList ++ ['='] := by decide
  unfold betaLine
  rw [hname, List.append_assoc]
  exact deleteThrough_assignment _ (h.not_mem_betaVector (by decide))

theorem Ok.not_mem_betaLine (h : r.Ok) : 'l' ∉ r.betaLine := by
  unfold betaLine
  rw [List.mem_append, not_or]
  exact ⟨by decide, h.not_mem_betaVector (by decide)⟩

theorem Ok.not_mem_lambdaLine (h : r.Ok) : 't' ∉ r.lambdaLine := by
  unfold lambdaLine
  rw [List.mem_append, not_or]
  exact ⟨by decide, h.not_mem_lambda (by decide)⟩

theorem infix_lambdaLine (r : Record) : "lambda_val".toList <:+: r.lambdaLine := by
  have hname : "lambda_val=".toList = "lambda_val".toList ++ ['='] := by decide
  unfold lambdaLine
  rw [hname, List.append_assoc]
  exact (List.prefix_append _ _).isInfix

theorem infix_betaLine (r : Record) : "beta".toList <:+: r.betaLine := by
  have hname : "beta=".toList = "beta".toList ++ ['='] := by decide
  unfold betaLine
  rw [hname, List.append_assoc]
  exact (List.prefix_append _ _).isInfix

/-- The lines that `tail` leaves of a piece. -/
def lastLines (r : Record) : List (List Char) :=
  ["***".toList, [], r.lambdaLine, [], r.betaLine]

theorem grep_lambda (h : r.Ok) : grep "lambda_val" r.lastLines = [r.lambdaLine] := by
  have hl : 'l' ∈ "lambda_val".toList := by decide
  unfold lastLines
  rw [grep_of_not_mem hl (by decide), grep_of_not_mem hl List.not_mem_nil,
    grep_of_infix (infix_lambdaLine r), grep_of_not_mem hl List.not_mem_nil,
    grep_of_not_mem hl h.not_mem_betaLine]
  rfl

theorem grep_beta (h : r.Ok) : grep "beta" r.lastLines = [r.betaLine] := by
  have ht : 't' ∈ "beta".toList := by decide
  unfold lastLines
  rw [grep_of_not_mem ht (by decide), grep_of_not_mem ht List.not_mem_nil,
    grep_of_not_mem ht h.not_mem_lambdaLine, grep_of_not_mem ht List.not_mem_nil,
    grep_of_infix (infix_betaLine r)]
  rfl

end Record

/-! ### The arguments -/

section Expand

variable {glob : List Char → List (List Char)} {r : Record}

theorem expand_singleton {word : List Char} (hne : word ≠ [])
    (h : ∀ c ∈ word, isSeparator c = false) : expand glob word = expandWord glob word := by
  rw [expand, words_singleton hne h, List.flatMap_singleton]

theorem not_isSeparator {word : List Char} (hspace : ' ' ∉ word) (htab : '\t' ∉ word)
    (hline : '\n' ∉ word) : ∀ c ∈ word, isSeparator c = false := by
  intro c hc
  simp only [isSeparator, Bool.or_eq_false_iff, decide_eq_false_iff_not]
  refine ⟨⟨?_, ?_⟩, ?_⟩
  · exact fun heq => hspace (heq ▸ hc)
  · exact fun heq => htab (heq ▸ hc)
  · exact fun heq => hline (heq ▸ hc)

theorem expand_lambda (h : r.Ok) : expand glob r.lambda = [r.lambda] := by
  have hplain : ¬ (r.lambda.any ['*', '?', '['].contains = true ∧ glob r.lambda ≠ []) := by
    have hout : ['*', '?', '['] ⊆
        ['\n', ' ', '\t', '=', 'l', 't', 'm', '*', '?', '[', ']', '"', '_'] := by decide
    rintro ⟨hspecial, -⟩
    obtain ⟨c, hc, hspecial⟩ := List.any_eq_true.mp hspecial
    exact h.not_mem_lambda (hout (List.contains_iff_mem.mp hspecial)) hc
  rw [expand_singleton h.lambda.ne_nil (not_isSeparator (h.not_mem_lambda (by decide))
    (h.not_mem_lambda (by decide)) (h.not_mem_lambda (by decide))), expandWord, if_neg hplain]

theorem expand_betaVector (h : r.Ok) (hglob : glob r.betaVector = []) :
    expand glob r.betaVector = [r.betaVector] := by
  have hplain : ¬ (r.betaVector.any ['*', '?', '['].contains = true ∧
      glob r.betaVector ≠ []) := fun hpattern => hpattern.2 hglob
  have hne : r.betaVector ≠ [] := List.cons_ne_nil _ _
  rw [expand_singleton hne (not_isSeparator (h.not_mem_betaVector (by decide))
    (h.not_mem_betaVector (by decide)) (h.not_mem_betaVector (by decide))), expandWord,
    if_neg hplain]

end Expand

/-! ### The loop -/

section Loop

variable {glob : ℕ → List Char → List (List Char)} {k : ℕ} {r : Record}

/-- A piece with a whole record: whatever its first line is, the next piece
starts with the last one. -/
theorem applyBody_record (h : r.Ok) (hglob : glob k r.betaVector = []) (first : List Char)
    (rest : List (List Char)) (done : List (List (List Char))) :
    applyBody glob k (first :: (r.lines ++ rest), done) =
      .inl (r.betaLine :: rest, done ++ [[r.lambda, r.betaVector]]) := by
  have hpiece : tail 5 (head 8 (first :: (r.lines ++ rest))) = r.lastLines := rfl
  have hrest : tailFrom 8 (first :: (r.lines ++ rest)) = r.betaLine :: rest := rfl
  have hlambda : captured [r.lambda] = r.lambda := captured_singleton (h.not_mem_lambda (by decide))
  have hbeta : captured [r.betaVector] = r.betaVector :=
    captured_singleton (h.not_mem_betaVector (by decide))
  rw [applyBody, if_neg (List.cons_ne_nil _ _)]
  simp only [hpiece, hrest, r.grep_lambda h, r.grep_beta h, List.map_singleton,
    r.deleteThrough_lambdaLine h, r.deleteThrough_betaLine h, hlambda, hbeta, expand_lambda h,
    expand_betaVector h hglob, List.singleton_append]

/-- What is left in `working` at the end: the empty line of `echo`, or the last
line of a record. -/
def Leftover (glob : ℕ → List Char → List (List Char)) (first : List Char) : Prop :=
  first = [] ∨ ∃ r : Record, r.Ok ∧ (∀ k, glob k r.betaVector = []) ∧ first = r.betaLine

theorem applyBody_last {first : List Char} (h : Leftover glob first)
    (done : List (List (List Char))) :
    ∃ args, args.length ≤ 1 ∧ applyBody glob k ([first], done) = .inl ([], done ++ [args]) := by
  have hl : 'l' ∈ "lambda_val".toList := by decide
  have hpiece : tail 5 (head 8 [first]) = [first] := rfl
  have hrest : tailFrom 8 [first] = [] := rfl
  rcases h with rfl | ⟨r, hr, hglob, rfl⟩
  · refine ⟨[], Nat.zero_le 1, ?_⟩
    have hgrep {pattern : String} {c : Char} (hc : c ∈ pattern.toList) :
        grep pattern [[]] = [] := grep_of_not_mem hc List.not_mem_nil []
    have ht : 't' ∈ "beta".toList := by decide
    rw [applyBody, if_neg (List.cons_ne_nil _ _)]
    simp only [hpiece, hrest, hgrep hl, hgrep ht]
    rfl
  · refine ⟨[r.betaVector], Nat.le_refl 1, ?_⟩
    have hlambda : grep "lambda_val" [r.betaLine] = [] :=
      grep_of_not_mem hl hr.not_mem_betaLine []
    have hbeta : grep "beta" [r.betaLine] = [r.betaLine] := grep_of_infix r.infix_betaLine []
    have hvalue : captured [r.betaVector] = r.betaVector :=
      captured_singleton (hr.not_mem_betaVector (by decide))
    rw [applyBody, if_neg (List.cons_ne_nil _ _)]
    simp only [hpiece, hrest, hlambda, hbeta, List.map_singleton, r.deleteThrough_betaLine hr,
      hvalue, expand_betaVector hr (hglob k)]
    rfl

/-- The loop over the records that are left, and the call without a lambda at
the end. -/
theorem exists_run_applyBody {records : List Record} (h : ∀ r ∈ records, r.Ok)
    (hglob : ∀ k, ∀ r ∈ records, glob k r.betaVector = []) {first : List Char}
    (hfirst : Leftover glob first) (done : List (List (List Char))) :
    ∃ fuel args, args.length ≤ 1 ∧
      FuelLoop.run (applyBody glob) fuel k (first :: records.flatMap Record.lines, done) =
        some (done ++ records.map (fun r => [r.lambda, r.betaVector]) ++ [args]) := by
  induction records generalizing k first done with
  | nil =>
      obtain ⟨args, hargs, hbody⟩ := applyBody_last (k := k) hfirst done
      have hexit : applyBody glob (k + 1) ([], done ++ [args]) = .inr (done ++ [args]) := if_pos rfl
      refine ⟨2, args, hargs, ?_⟩
      show FuelLoop.run (applyBody glob) 2 k ([first], done) = _
      rw [FuelLoop.run_inl hbody, FuelLoop.run_inr hexit, List.map_nil, List.append_nil]
  | cons r records ih =>
      obtain ⟨hr, hrecords⟩ := List.forall_mem_cons.mp h
      have hglobr (k : ℕ) : glob k r.betaVector = [] := hglob k r List.mem_cons_self
      have hnext : Leftover glob r.betaLine := .inr ⟨r, hr, hglobr, rfl⟩
      obtain ⟨fuel, args, hargs, hrun⟩ := ih (k := k + 1) hrecords
        (fun k r' hr' => hglob k r' (List.mem_cons_of_mem _ hr')) hnext
        (done ++ [[r.lambda, r.betaVector]])
      refine ⟨fuel + 1, args, hargs, ?_⟩
      rw [List.flatMap_cons, FuelLoop.run_inl (applyBody_record hr (hglobr k) _ _ _), hrun,
        List.map_cons, List.append_assoc done]
      rfl

end Loop

/-- The lines of the file. -/
theorem textLines_betaVectors {records : List Record} (h : ∀ r ∈ records, r.Ok) :
    textLines (betaVectors records) = [] :: records.flatMap Record.lines := by
  have hnewline : "\n".toList = ['\n'] := by decide
  have htext : betaVectors records = ofLines ([] :: records.flatMap Record.lines) := by
    have hrecords : records.flatMap Record.displayed = ofLines (records.flatMap Record.lines) := by
      induction records with
      | nil => rfl
      | cons r records ih =>
          rw [List.flatMap_cons, List.flatMap_cons, r.displayed_eq,
            ih (List.forall_mem_cons.mp h).2]
          simp [ofLines]
    unfold betaVectors
    rw [hnewline, hrecords]
    rfl
  rw [htext]
  apply textLines_ofLines
  refine List.forall_mem_cons.mpr ⟨List.not_mem_nil, ?_⟩
  intro line hline
  obtain ⟨r, hr, hmem⟩ := List.mem_flatMap.mp hline
  exact (h r hr).newline_not_mem line hmem

/-- **Decoding.**  The loop ends, and the calls of `applyBeta.py` with both
arguments are one for each record, in their order. -/
theorem applyLoop_betaVectors {glob : ℕ → List Char → List (List Char)} {records : List Record}
    (h : ∀ r ∈ records, r.Ok) (hglob : ∀ k, ∀ r ∈ records, glob k r.betaVector = []) :
    ∃ fuel calls, applyLoop glob fuel (betaVectors records) = some calls ∧
      calls.filter (fun args => 2 ≤ args.length) =
        records.map fun r => [r.lambda, r.betaVector] := by
  obtain ⟨fuel, args, hargs, hrun⟩ :=
    exists_run_applyBody (k := 0) h hglob (.inl rfl) []
  refine ⟨fuel, _, by rw [applyLoop, textLines_betaVectors h, hrun], ?_⟩
  have hshort : ¬ 2 ≤ args.length := by omega
  rw [List.nil_append, List.filter_append, List.filter_eq_self.mpr, List.filter_cons_of_neg,
    List.filter_nil, List.append_nil]
  · exact fun hlong => hshort (of_decide_eq_true hlong)
  · intro call hcall
    obtain ⟨r, -, rfl⟩ := List.mem_map.mp hcall
    rfl

theorem applyLoop_betaVectors_two :
    ∃ fuel calls, applyLoop (fun _ _ => []) fuel
        (betaVectors [⟨['1'], [['0'], ['2']]⟩, ⟨['1', '0'], [['3']]⟩]) = some calls ∧
      calls.filter (fun args => 2 ≤ args.length) =
        [[['1'], ['[', '0', ',', '2', ']']], [['1', '0'], ['[', '3', ']']]] := by
  have hdigit {c : Char} (hc : c.isDigit = true) : Printed [c] :=
    ⟨List.cons_ne_nil _ _, List.forall_mem_singleton.mpr (.inl hc)⟩
  have hten : Printed ['1', '0'] :=
    ⟨List.cons_ne_nil _ _, List.forall_mem_cons.mpr
      ⟨.inl rfl, List.forall_mem_singleton.mpr (.inl rfl)⟩⟩
  have hok : ∀ r ∈ [(⟨['1'], [['0'], ['2']]⟩ : Record), ⟨['1', '0'], [['3']]⟩], r.Ok :=
    List.forall_mem_cons.mpr
      ⟨⟨hdigit rfl, List.forall_mem_cons.mpr
        ⟨hdigit rfl, List.forall_mem_singleton.mpr (hdigit rfl)⟩⟩,
      List.forall_mem_singleton.mpr ⟨hten, List.forall_mem_singleton.mpr (hdigit rfl)⟩⟩
  exact applyLoop_betaVectors hok fun _ _ _ => rfl

end A2PM.ModelBuild
