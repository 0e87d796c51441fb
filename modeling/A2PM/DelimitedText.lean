/-
A2PM/DelimitedText.lean

Tables as texts: a line a row, with delimiters between the fields.

`readlines` cuts a text into its lines and `csvFields` a line into its
fields; a file of lines is read line by line (`readlines_flatten`), and the
fields of a joined line come back if none holds the delimiter
(`csvFields_joined`).  `readFloat` reads a field: any numeral, with white
space around it (`readFloat_numeral`), so also what `%f` and `%d` print
(`readFloat_cell`).

`csvFields` is for lines without quotes; a line with one is outside of it.
-/
import A2PM.Numerals
import Mathlib.Algebra.Order.Field.Rat

namespace DelimitedText

open FormattedText

/-! ### Lines -/

/-- The lines of a text, each with its newline. -/
def readlines : List Char → List (List Char)
  | [] => []
  | c :: rest =>
      if c = '\n' then [c] :: readlines rest
      else
        match readlines rest with
        | [] => [[c]]
        | line :: lines => (c :: line) :: lines

/-- A line with its newline. -/
def IsLine (line : List Char) : Prop := ∃ body, line = body ++ ['\n'] ∧ '\n' ∉ body

theorem readlines_append {body : List Char} (h : '\n' ∉ body) (rest : List Char) :
    readlines (body ++ '\n' :: rest) = (body ++ ['\n']) :: readlines rest := by
  induction body with
  | nil => rfl
  | cons c body ih =>
      have hc : c ≠ '\n' := fun heq => h (heq ▸ List.mem_cons_self)
      have hbody := ih fun hmem => h (List.mem_cons_of_mem _ hmem)
      rw [List.cons_append, readlines, if_neg hc, hbody]
      rfl

/-- A text of complete lines is read line by line. -/
theorem readlines_flatten {lines : List (List Char)} (h : ∀ line ∈ lines, IsLine line) :
    readlines lines.flatten = lines := by
  induction lines with
  | nil => rfl
  | cons line lines ih =>
      obtain ⟨⟨body, rfl, hbody⟩, hlines⟩ := List.forall_mem_cons.mp h
      rw [List.flatten_cons, List.append_assoc, List.singleton_append, readlines_append hbody,
        ih hlines]

/-! ### Fields -/

/-- The fields with a delimiter between them. -/
def joined (fields : List (List Char)) : List Char := [','].intercalate fields

theorem joined_cons_cons (field field' : List Char) (fields : List (List Char)) :
    joined (field :: field' :: fields) = field ++ ',' :: joined (field' :: fields) := by
  simp [joined]

theorem splitOn_joined {fields : List (List Char)} (hne : fields ≠ [])
    (h : ∀ field ∈ fields, ',' ∉ field) : (joined fields).splitOn ',' = fields :=
  List.splitOn_intercalate ',' h hne

theorem mem_joined {fields : List (List Char)} {c : Char} (h : c ∈ joined fields) :
    c = ',' ∨ ∃ field ∈ fields, c ∈ field := by
  induction fields with
  | nil => cases h
  | cons field fields ih =>
      cases fields with
      | nil =>
          rw [joined, List.intercalate_singleton] at h
          exact .inr ⟨field, List.mem_cons_self, h⟩
      | cons field' fields =>
          rw [joined_cons_cons, List.mem_append, List.mem_cons] at h
          rcases h with hfield | hcomma | hrest
          · exact .inr ⟨field, List.mem_cons_self, hfield⟩
          · exact .inl hcomma
          · rcases ih hrest with hcomma | ⟨g, hg, hc⟩
            · exact .inl hcomma
            · exact .inr ⟨g, List.mem_cons_of_mem _ hg, hc⟩

/-- The fields of a line; `none` for a line with a quote or a carriage
return. -/
def csvFields (line : List Char) : Option (List (List Char)) :=
  if '"' ∈ line ∨ '\r' ∈ line then none
  else some ((line.takeWhile fun c => c ≠ '\n').splitOn ',')

/-- Characters that make up an unquoted field. -/
def Plain (field : List Char) : Prop := ∀ c ∈ field, c ∉ [',', '\n', '"', '\r']

theorem Plain.not_mem_joined {fields : List (List Char)} (h : ∀ field ∈ fields, Plain field)
    {c : Char} (hc : c ∈ ['\n', '"', '\r']) : c ∉ joined fields := by
  intro hmem
  rcases mem_joined hmem with rfl | ⟨field, hfield, hcfield⟩
  · exact absurd hc (by decide)
  · exact h field hfield c hcfield (List.mem_cons_of_mem _ hc)

/-- Fields that are joined to a line come back. -/
theorem csvFields_joined {fields : List (List Char)} (hne : fields ≠ [])
    (h : ∀ field ∈ fields, Plain field) : csvFields (joined fields ++ ['\n']) = some fields := by
  have hout {c : Char} (hc : c ∈ ['\n', '"', '\r']) : c ∉ joined fields :=
    Plain.not_mem_joined h hc
  have hquote : ¬ ('"' ∈ joined fields ++ ['\n'] ∨ '\r' ∈ joined fields ++ ['\n']) := by
    rintro (hmem | hmem)
    · exact (List.mem_append.mp hmem).elim (hout (by decide)) (by decide)
    · exact (List.mem_append.mp hmem).elim (hout (by decide)) (by decide)
  have hbody : (joined fields ++ ['\n']).takeWhile (fun c => c ≠ '\n') = joined fields := by
    rw [List.takeWhile_append_of_pos]
    · exact List.append_nil _
    · intro c hc
      exact decide_eq_true fun heq => hout (c := '\n') (by decide) (heq ▸ hc)
  rw [csvFields, if_neg hquote, hbody,
    splitOn_joined hne fun field hfield hc => h field hfield ',' hc (by decide)]

/-! ### Numbers -/

/-- A number that fills a field, with white space around it. -/
def readFloat (field : List Char) : Option ℚ :=
  (scanDouble field).bind fun r => if r.2.all Char.isWhitespace then some r.1 else none

theorem readFloat_numeral {gap gap' : List Char} (hgap : Blank gap) (hgap' : Blank gap')
    (n : DoubleNumeral) : readFloat (gap ++ (n.text ++ gap')) = some n.value := by
  have hends : Ends gap' := fun c hc => hgap' c (List.mem_of_mem_head? hc)
  have hblank : gap'.all Char.isWhitespace = true := List.all_eq_true.mpr hgap'
  rw [readFloat, scanDouble_numeral hgap n hends, Option.bind_some, if_pos hblank]

def signOf (negative : Bool) : Sign := if negative then .minus else .none

theorem signOf_text (negative : Bool) : (signOf negative).text = printSign negative := by
  cases negative <;> rfl

theorem signOf_negative (negative : Bool) : (signOf negative).negative = negative := by
  cases negative <;> rfl

/-- What `%d` prints. -/
def printedInt (z : ℤ) : DoubleNumeral where
  sign := signOf (z < 0)
  whole := Nat.toDigits 10 z.natAbs
  fraction := none
  exponent := none
  wholeIsDigit := fun _ => isDigit_of_mem_toDigits
  fractionIsDigit := fun _ hc => absurd hc List.not_mem_nil
  ne_nil := List.append_ne_nil_of_left_ne_nil Nat.toDigits_ne_nil _
  isMarker := DoubleNumeral.isMarker_none

theorem printedInt_text (z : ℤ) : (printedInt z).text = printInt z := by
  show (signOf (z < 0)).text ++ Nat.toDigits 10 z.natAbs ++ [] ++ [] = _
  rw [signOf_text, List.append_nil, List.append_nil]
  rfl

theorem printedInt_value (z : ℤ) : (printedInt z).value = z := by
  show (printedInt z).mantissa = z
  simp only [DoubleNumeral.mantissa, printedInt, Option.getD_none, List.append_nil,
    List.length_nil, signOf_negative, Nat.ofDigitChars_ten_toDigits, pow_zero, div_one,
    Nat.cast_natAbs, decide_eq_true_eq]
  by_cases hneg : z < 0
  · rw [if_pos hneg, abs_of_neg hneg, Int.cast_neg, neg_one_mul, neg_neg]
  · rw [if_neg hneg, abs_of_nonneg (Int.not_lt.mp hneg), one_mul]

/-- What `%f` prints. -/
def printedFloat (q : ℚ) : DoubleNumeral where
  sign := signOf (q < 0)
  whole := Nat.toDigits 10 (millionths q / 10 ^ 6)
  fraction := some (printFraction (millionths q % 10 ^ 6))
  exponent := none
  wholeIsDigit := fun _ => isDigit_of_mem_toDigits
  fractionIsDigit := fun _ => isDigit_of_mem_printFraction
  ne_nil := List.append_ne_nil_of_left_ne_nil Nat.toDigits_ne_nil _
  isMarker := DoubleNumeral.isMarker_none

theorem printedFloat_text (q : ℚ) : (printedFloat q).text = printFloat q := by
  show (signOf (q < 0)).text ++ Nat.toDigits 10 (millionths q / 10 ^ 6) ++
    '.' :: printFraction (millionths q % 10 ^ 6) ++ [] = _
  rw [signOf_text, List.append_nil]
  rfl

theorem printedFloat_value (q : ℚ) : (printedFloat q).value = printed q := by
  have hlt : millionths q % 10 ^ 6 < 10 ^ 6 := Nat.mod_lt _ (by decide)
  show (printedFloat q).mantissa = printed q
  simp only [DoubleNumeral.mantissa, printedFloat, Option.getD_some, signOf_negative,
    ofDigitChars_float, length_printFraction hlt, printed, decide_eq_true_eq]

/-! ### Rows of numbers -/

/-- A loop that succeeds on every item. -/
theorem mapM_eq_some {α β : Type*} {f : α → Option β} {g : α → β} {l : List α}
    (h : ∀ x ∈ l, f x = some (g x)) : l.mapM f = some (l.map g) := by
  induction l with
  | nil => rfl
  | cons x l ih =>
      obtain ⟨hx, hl⟩ := List.forall_mem_cons.mp h
      rw [List.mapM_cons, hx, ih hl]
      rfl

/-- A cell of a row: `%d` or `%f`. -/
inductive Number
  | int (z : ℤ)
  | float (q : ℚ)

namespace Number

def value : Number → Value
  | int z => .int z
  | float q => .float q

def directive : Number → Directive
  | int _ => .int
  | float _ => .float

def numeral : Number → DoubleNumeral
  | int z => printedInt z
  | float q => printedFloat q

/-- The number that is printed. -/
def printedValue : Number → ℚ
  | int z => z
  | float q => printed q

end Number

theorem Number.numeral_value (cell : Number) : cell.numeral.value = cell.printedValue := by
  cases cell with
  | int z => exact printedInt_value z
  | float q => exact printedFloat_value q

theorem Number.print_cons (cell : Number) (format : List Directive) (values : List Value) :
    print (cell.directive :: format) (cell.value :: values) =
      (print format values).map fun text => cell.numeral.text ++ text := by
  cases cell with
  | int z => rw [numeral, printedInt_text]; rfl
  | float q => rw [numeral, printedFloat_text]; rfl

/-- The conversions of a row, with a comma and a blank between two of them, and
a newline at the end. -/
def rowFormat : List Directive → List Directive
  | [] => [.literal '\n']
  | [d] => [d, .literal '\n']
  | d :: d' :: ds => d :: .literal ',' :: .literal ' ' :: rowFormat (d' :: ds)

/-- The fields of a printed row: all but the first start with a blank. -/
def rowFields : List Number → List (List Char)
  | [] => []
  | cell :: cells => cell.numeral.text :: cells.map fun cell => ' ' :: cell.numeral.text

theorem print_rowFormat {cells : List Number} (hne : cells ≠ []) :
    print (rowFormat (cells.map Number.directive)) (cells.map Number.value) =
      some (joined (rowFields cells) ++ ['\n']) := by
  induction cells with
  | nil => exact absurd rfl hne
  | cons cell cells ih =>
      cases cells with
      | nil =>
          show print (cell.directive :: [.literal '\n']) (cell.value :: []) = _
          rw [cell.print_cons]
          show some (cell.numeral.text ++ ['\n']) = some (joined [cell.numeral.text] ++ ['\n'])
          rw [joined, List.intercalate_singleton]
      | cons cell' cells =>
          show print (cell.directive :: .literal ',' :: .literal ' ' ::
            rowFormat ((cell' :: cells).map Number.directive)) (cell.value :: _) = _
          rw [cell.print_cons]
          show (((print (rowFormat ((cell' :: cells).map Number.directive))
            ((cell' :: cells).map Number.value)).map _).map _).map _ = _
          rw [ih (List.cons_ne_nil _ _)]
          -- the blank after the comma belongs to the next field
          have hrest : joined (rowFields (cell :: cell' :: cells)) =
              cell.numeral.text ++ ',' :: ' ' :: joined (rowFields (cell' :: cells)) := by
            rw [rowFields, List.map_cons, joined_cons_cons]
            cases cells with
            | nil => rfl
            | cons cell'' cells =>
                rw [List.map_cons, joined_cons_cons, rowFields, List.map_cons, joined_cons_cons]
                rfl
          simp only [Option.map_some, hrest, List.append_assoc, List.cons_append]

theorem not_mem_of_isNumeralChar {c : Char} (h : IsNumeralChar c) :
    c ∉ [',', '\n', '"', '\r'] := by
  intro hout
  simp only [List.mem_cons, List.not_mem_nil, or_false] at hout
  rcases hout with rfl | rfl | rfl | rfl
  · exact h.elim (by decide) (by decide)
  · exact h.elim (by decide) (by decide)
  · exact h.elim (by decide) (by decide)
  · exact h.elim (by decide) (by decide)

theorem plain_numeral (n : DoubleNumeral) : Plain n.text := fun _ hc =>
  not_mem_of_isNumeralChar (DoubleNumeral.isNumeralChar_of_mem hc)

/-- The fields of a printed row, each a numeral behind white space. -/
theorem rowFields_spec {cells : List Number} {field : List Char} (h : field ∈ rowFields cells) :
    Plain field := by
  cases cells with
  | nil => cases h
  | cons cell cells =>
      rcases List.mem_cons.mp h with rfl | hmem
      · exact plain_numeral cell.numeral
      · obtain ⟨cell', -, rfl⟩ := List.mem_map.mp hmem
        intro c hc
        rcases List.mem_cons.mp hc with rfl | htext
        · decide
        · exact plain_numeral cell'.numeral c htext

/-- **Round trip.**  The numbers of a printed row come back. -/
theorem mapM_readFloat_rowFields (cells : List Number) :
    (rowFields cells).mapM readFloat = some (cells.map Number.printedValue) := by
  have hfirst (cell : Number) : readFloat cell.numeral.text = some cell.printedValue := by
    have h := readFloat_numeral blank_nil blank_nil cell.numeral
    rwa [List.nil_append, List.append_nil, cell.numeral_value] at h
  have hnext (cell : Number) : readFloat (' ' :: cell.numeral.text) = some cell.printedValue := by
    have h := readFloat_numeral (blank_singleton rfl : Blank [' ']) blank_nil cell.numeral
    rwa [List.singleton_append, List.append_nil, cell.numeral_value] at h
  cases cells with
  | nil => rfl
  | cons cell cells =>
      have hrest : (cells.map fun cell => ' ' :: cell.numeral.text).mapM readFloat =
          some (cells.map Number.printedValue) := by
        rw [List.mapM_map]
        exact mapM_eq_some fun cell _ => hnext cell
      rw [rowFields, List.mapM_cons, hfirst, hrest]
      rfl

theorem rowFields_ne_nil {cells : List Number} (h : cells ≠ []) : rowFields cells ≠ [] := by
  cases cells with
  | nil => exact absurd rfl h
  | cons cell cells => exact List.cons_ne_nil _ _

end DelimitedText
