/-
A2PM/FormattedText.lean

`sprintf` and `sscanf`, for the conversions `%d`, `%f` and `%s`.

A format is the list of its directives.  `print` writes values out, and
`scan` reads them back in the way of C: white space in a format skips any
white space in the text, and the first directive that fails ends the scan.
If each conversion of a format is followed by white space, or by nothing,
`scan` reads back what `print` has written with the same format
(`scan_print`); a `%f` comes back rounded to the six decimal places that are
printed.

Numbers are exact in a text; a variable that `sscanf` writes gets them as its
type has them (`storedInt`, `storedFloat`, `storedDouble`).  `scan` reads `%f` in
the notation of `print`, without an exponent.
-/
import A2PM.MachineInt
import A2PM.RoundingError
import Mathlib.Data.List.Basic
import Mathlib.Data.Rat.Floor
import Mathlib.Tactic.Ring

namespace FormattedText

inductive Directive
  | literal (c : Char)
  | int
  | float
  | string
  deriving DecidableEq

inductive Value
  | int (z : ℤ)
  | float (q : ℚ)
  | string (text : List Char)
  deriving DecidableEq

/-- The directives of a format string. -/
def directives : List Char → List Directive
  | '%' :: 'd' :: rest => .int :: directives rest
  | '%' :: 'f' :: rest => .float :: directives rest
  | '%' :: 's' :: rest => .string :: directives rest
  | c :: rest => .literal c :: directives rest
  | [] => []

/-! ### Printing -/

def printSign (negative : Bool) : List Char := if negative then ['-'] else []

def printInt (z : ℤ) : List Char := printSign (z < 0) ++ Nat.toDigits 10 z.natAbs

/-- The absolute value in millionths, rounded half to even. -/
def millionths (q : ℚ) : ℕ :=
  let whole := ⌊|q| * 10 ^ 6⌋₊
  let half := |q| * 10 ^ 6 - whole
  if half < 1 / 2 ∨ (half = 1 / 2 ∧ whole % 2 = 0) then whole else whole + 1

/-- The value that `%f` prints. -/
def printed (q : ℚ) : ℚ := (if q < 0 then -1 else 1) * (millionths q / 10 ^ 6)

/-- The six digits behind the point. -/
def printFraction (n : ℕ) : List Char :=
  List.replicate (6 - (Nat.toDigits 10 n).length) '0' ++ Nat.toDigits 10 n

def printFloat (q : ℚ) : List Char :=
  printSign (q < 0) ++ Nat.toDigits 10 (millionths q / 10 ^ 6) ++
    '.' :: printFraction (millionths q % 10 ^ 6)

/-- `none`: the arguments do not go with the format. -/
def print : List Directive → List Value → Option (List Char)
  | [], [] => some []
  | .literal c :: format, values => (print format values).map fun text => c :: text
  | .int :: format, .int z :: values => (print format values).map fun text => printInt z ++ text
  | .float :: format, .float q :: values =>
      (print format values).map fun text => printFloat q ++ text
  | .string :: format, .string s :: values => (print format values).map fun text => s ++ text
  | _, _ => none

def sprintf (format : String) (values : List Value) : Option (List Char) :=
  print (directives format.toList) values

/-! ### Scanning -/

def skipSpace (input : List Char) : List Char := input.dropWhile Char.isWhitespace

/-- An optional sign; is it a minus? -/
def scanSign : List Char → Bool × List Char
  | '-' :: rest => (true, rest)
  | '+' :: rest => (false, rest)
  | rest => (false, rest)

/-- The number that the text has for a `%d`, however great. -/
def scanInt (input : List Char) : Option (ℤ × List Char) :=
  let (negative, rest) := scanSign (skipSpace input)
  let digits := rest.takeWhile Char.isDigit
  if digits = [] then none
  else
    let n : ℤ := Nat.ofDigitChars 10 digits 0
    some (if negative then -n else n, rest.dropWhile Char.isDigit)

/-- What follows the digits before the point: the digits behind it, if any. -/
def scanFraction : List Char → List Char × List Char
  | '.' :: rest => (rest.takeWhile Char.isDigit, rest.dropWhile Char.isDigit)
  | rest => ([], rest)

/-- The number that the text has for a `%f`, with all its digits. -/
def scanFloat (input : List Char) : Option (ℚ × List Char) :=
  let (negative, rest) := scanSign (skipSpace input)
  let whole := rest.takeWhile Char.isDigit
  let (fraction, rest) := scanFraction (rest.dropWhile Char.isDigit)
  if whole ++ fraction = [] then none
  else
    let n : ℚ := Nat.ofDigitChars 10 (whole ++ fraction) 0
    some ((if negative then -1 else 1) * (n / 10 ^ fraction.length), rest)

/-- The values read before the scan ends, as the text has them. -/
def scan : List Directive → List Char → List Value
  | [], _ => []
  | .literal c :: format, input =>
      if c.isWhitespace then scan format (skipSpace input)
      else
        match input with
        | [] => []
        | d :: rest => if c = d then scan format rest else []
  | .int :: format, input =>
      match scanInt input with
      | none => []
      | some (z, rest) => .int z :: scan format rest
  | .float :: format, input =>
      match scanFloat input with
      | none => []
      | some (q, rest) => .float q :: scan format rest
  | .string :: format, input =>
      let rest := skipSpace input
      let word := rest.takeWhile fun c => !c.isWhitespace
      if word = [] then []
      else .string word :: scan format (rest.dropWhile fun c => !c.isWhitespace)

def sscanf (text : List Char) (format : String) : List Value :=
  scan (directives format.toList) text

/-! ### Storing -/

/-- The `int` that `%d` stores: the number is read as a `long`, the next one
that there is, and cut. -/
def storedInt (z : ℤ) : ℤ := MachineInt.toInt (max (-2 ^ 63) (min z (2 ^ 63 - 1)))

/-- The `float` that `%f` stores; one beyond the greatest is not modelled. -/
def storedFloat (q : ℚ) : ℚ := FloatRounding.binary32 q

/-- The `double` that `%lf` stores, likewise. -/
def storedDouble (q : ℚ) : ℚ := FloatRounding.binary64 q

theorem storedInt_of_mem {z : ℤ} (hlow : -2 ^ 31 ≤ z) (hhigh : z < 2 ^ 31) : storedInt z = z := by
  rw [storedInt, min_eq_left (by omega), max_eq_right (by omega)]
  exact MachineInt.toInt_of_mem hlow hhigh

/-! ### Reading a number back -/

theorem skipSpace_skipSpace (input : List Char) :
    skipSpace (skipSpace input) = skipSpace input := by
  induction input with
  | nil => rfl
  | cons c rest ih =>
      cases hc : c.isWhitespace with
      | true =>
          have hskip : skipSpace (c :: rest) = skipSpace rest := List.dropWhile_cons_of_pos hc
          rw [hskip, ih]
      | false =>
          have hkeep : skipSpace (c :: rest) = c :: rest := by
            apply List.dropWhile_cons_of_neg
            simp [hc]
          rw [hkeep, hkeep]

theorem not_isWhitespace_of_isDigit {c : Char} (h : c.isDigit = true) :
    c.isWhitespace = false := by
  rw [Bool.eq_false_iff]
  intro hspace
  simp only [Char.isWhitespace, Bool.or_eq_true, decide_eq_true_eq] at hspace
  rcases hspace with ((rfl | rfl) | rfl) | rfl <;> exact absurd h (by decide)

/-- Nothing follows, or white space. -/
def Ends (text : List Char) : Prop := ∀ c ∈ text.head?, c.isWhitespace = true

theorem Ends.not_isDigit {text : List Char} (h : Ends text) :
    ∀ c ∈ text.head?, c.isDigit = false := by
  intro c hc
  rw [Bool.eq_false_iff]
  intro hdigit
  have hspace := h c hc
  rw [not_isWhitespace_of_isDigit hdigit] at hspace
  cases hspace

theorem isDigit_of_mem_toDigits {n : ℕ} {c : Char} (h : c ∈ Nat.toDigits 10 n) :
    c.isDigit = true := Nat.isDigit_of_mem_toDigits (by decide) (by decide) h

theorem toDigits_append (n : ℕ) (text : List Char) :
    ∃ d rest, Nat.toDigits 10 n ++ text = d :: rest ∧ d.isDigit = true := by
  obtain ⟨d, ds, hds⟩ := List.exists_cons_of_ne_nil (Nat.toDigits_ne_nil (n := n) (b := 10))
  refine ⟨d, ds ++ text, by rw [hds, List.cons_append], ?_⟩
  exact isDigit_of_mem_toDigits (hds ▸ List.mem_cons_self)

/-- The digits end where the number ends. -/
theorem takeWhile_digits {digits text : List Char} (hdigits : ∀ c ∈ digits, c.isDigit = true)
    (htext : ∀ c ∈ text.head?, c.isDigit = false) :
    (digits ++ text).takeWhile Char.isDigit = digits ∧
      (digits ++ text).dropWhile Char.isDigit = text := by
  induction digits with
  | nil =>
      cases text with
      | nil => exact ⟨rfl, rfl⟩
      | cons c rest =>
          have hc : c.isDigit = false := htext c rfl
          simp [hc]
  | cons d digits ih =>
      have hd : d.isDigit = true := hdigits d List.mem_cons_self
      obtain ⟨htake, hdrop⟩ := ih fun c hc => hdigits c (List.mem_cons_of_mem _ hc)
      rw [List.cons_append, List.takeWhile_cons_of_pos hd, List.dropWhile_cons_of_pos hd, htake]
      exact ⟨rfl, hdrop⟩

/-- A printed sign in front of a digit is read back. -/
theorem scanSign_printSign (negative : Bool) {n : ℕ} {text : List Char} :
    scanSign (skipSpace (printSign negative ++ Nat.toDigits 10 n ++ text)) =
      (negative, Nat.toDigits 10 n ++ text) := by
  obtain ⟨d, rest, htext, hd⟩ := toDigits_append n text
  rw [List.append_assoc, htext]
  cases negative with
  | true => rfl
  | false =>
      have hkeep : skipSpace (d :: rest) = d :: rest := by
        apply List.dropWhile_cons_of_neg
        simp [not_isWhitespace_of_isDigit hd]
      show scanSign (skipSpace (d :: rest)) = _
      rw [hkeep]
      unfold scanSign
      split
      next heq =>
          obtain ⟨rfl, -⟩ := List.cons.inj heq
          exact absurd hd (by decide)
      next heq =>
          obtain ⟨rfl, -⟩ := List.cons.inj heq
          exact absurd hd (by decide)
      next => rfl

theorem scanInt_printInt (z : ℤ) {text : List Char} (h : Ends text) :
    scanInt (printInt z ++ text) = some (z, text) := by
  have hdigits : ∀ c ∈ Nat.toDigits 10 z.natAbs, c.isDigit = true := fun _ =>
    isDigit_of_mem_toDigits
  obtain ⟨htake, hdrop⟩ := takeWhile_digits hdigits h.not_isDigit
  simp only [scanInt, printInt, scanSign_printSign, htake, hdrop, Nat.toDigits_ne_nil, if_false,
    Nat.ofDigitChars_ten_toDigits, decide_eq_true_eq]
  congr 2
  split <;> omega

/-! #### `%f` -/

theorem millionths_intCast (z : ℤ) : millionths z = z.natAbs * 10 ^ 6 := by
  have habs : |(z : ℚ)| * 10 ^ 6 = (z.natAbs * 10 ^ 6 : ℕ) := by
    rw [Nat.cast_mul, Nat.cast_natAbs, Int.cast_abs]
    norm_num
  simp only [millionths, habs, Nat.floor_natCast, sub_self]
  exact if_pos (.inl (by norm_num))

/-- An integer needs no rounding. -/
theorem printed_intCast (z : ℤ) : printed z = z := by
  have hcast : ((z.natAbs * 10 ^ 6 : ℕ) : ℚ) / 10 ^ 6 = |(z : ℚ)| := by
    rw [Nat.cast_mul, Nat.cast_natAbs, Int.cast_abs]
    norm_num
  rw [printed, millionths_intCast, hcast]
  split
  next hneg => rw [abs_of_neg hneg, neg_one_mul, neg_neg]
  next hpos => rw [abs_of_nonneg (not_lt.mp hpos), one_mul]

theorem length_printFraction {n : ℕ} (h : n < 10 ^ 6) : (printFraction n).length = 6 := by
  have hlen : (Nat.toDigits 10 n).length ≤ 6 :=
    (Nat.length_toDigits_le_iff (by decide) (by decide)).mpr h
  rw [printFraction, List.length_append, List.length_replicate, Nat.sub_add_cancel hlen]

theorem isDigit_of_mem_printFraction {n : ℕ} {c : Char} (h : c ∈ printFraction n) :
    c.isDigit = true := by
  rcases List.mem_append.mp h with hzero | hdigit
  · rw [List.eq_of_mem_replicate hzero]
    rfl
  · exact isDigit_of_mem_toDigits hdigit

theorem ofDigitChars_printFraction (n : ℕ) : Nat.ofDigitChars 10 (printFraction n) 0 = n := by
  rw [printFraction, Nat.ofDigitChars_append, Nat.ofDigitChars_replicate_zero, Nat.mul_zero,
    Nat.ofDigitChars_ten_toDigits]

/-- The digits before and behind the point are those of the number of
millionths. -/
theorem ofDigitChars_float (n : ℕ) :
    Nat.ofDigitChars 10 (Nat.toDigits 10 (n / 10 ^ 6) ++ printFraction (n % 10 ^ 6)) 0 = n := by
  have hlt : n % 10 ^ 6 < 10 ^ 6 := Nat.mod_lt n (by decide)
  rw [Nat.ofDigitChars_append, Nat.ofDigitChars_ten_toDigits, Nat.ofDigitChars_eq_ofDigitChars_zero,
    length_printFraction hlt, ofDigitChars_printFraction]
  exact Nat.div_add_mod n (10 ^ 6)

theorem scanFloat_printFloat (q : ℚ) {text : List Char} (h : Ends text) :
    scanFloat (printFloat q ++ text) = some (printed q, text) := by
  have hlt : millionths q % 10 ^ 6 < 10 ^ 6 := Nat.mod_lt _ (by decide)
  have hpoint : ∀ c ∈ ('.' :: (printFraction (millionths q % 10 ^ 6) ++ text)).head?,
      c.isDigit = false := by
    intro c hc
    obtain rfl : '.' = c := Option.some.inj hc
    rfl
  have hbefore : ∀ c ∈ Nat.toDigits 10 (millionths q / 10 ^ 6), c.isDigit = true := fun _ =>
    isDigit_of_mem_toDigits
  have hbehind : ∀ c ∈ printFraction (millionths q % 10 ^ 6), c.isDigit = true := fun _ =>
    isDigit_of_mem_printFraction
  obtain ⟨hwhole, hrest⟩ := takeWhile_digits hbefore hpoint
  obtain ⟨hfraction, hend⟩ := takeWhile_digits hbehind h.not_isDigit
  have htext : printFloat q ++ text =
      printSign (q < 0) ++ Nat.toDigits 10 (millionths q / 10 ^ 6) ++
        '.' :: (printFraction (millionths q % 10 ^ 6) ++ text) := by
    rw [printFloat, List.append_assoc, List.cons_append]
  have hne : Nat.toDigits 10 (millionths q / 10 ^ 6) ++ printFraction (millionths q % 10 ^ 6) ≠
      [] := List.append_ne_nil_of_left_ne_nil Nat.toDigits_ne_nil _
  rw [scanFloat, htext, scanSign_printSign]
  simp only [hwhole, hrest, scanFraction, hfraction, hend, hne, if_false, ofDigitChars_float,
    length_printFraction hlt, printed, decide_eq_true_eq]

/-! ### Reading a text back -/

/-- What `scan` makes of a value that `print` has written. -/
def Value.scanned : Value → Value
  | .float q => .float (printed q)
  | v => v

/-- White space, or the end of the format, follows. -/
def endsConversion : List Directive → Bool
  | [] => true
  | .literal c :: _ => c.isWhitespace
  | _ => false

/-- The conversions are of numbers, and end with white space. -/
def separated : List Directive → Bool
  | [] => true
  | .literal _ :: format => separated format
  | .int :: format | .float :: format => endsConversion format && separated format
  | .string :: _ => false

theorem ends_of_print {format : List Directive} {values : List Value} {text : List Char}
    (hends : endsConversion format = true) (h : print format values = some text) : Ends text := by
  cases format with
  | nil =>
      cases values with
      | nil =>
          obtain rfl := Option.some.inj h
          intro c hc
          cases hc
      | cons => cases h
  | cons directive format =>
      cases directive with
      | literal c =>
          obtain ⟨rest, -, rfl⟩ := Option.map_eq_some_iff.mp h
          intro d hd
          obtain rfl := Option.some.inj hd
          exact hends
      | int | float | string => cases hends

theorem scan_space {c : Char} (hc : c.isWhitespace = true) (format : List Directive)
    (input : List Char) : scan (.literal c :: format) input = scan format (skipSpace input) :=
  if_pos hc

/-- Characters that are no white space must be those of the text. -/
theorem scan_literals {word : List Char} (hword : ∀ c ∈ word, c.isWhitespace = false)
    (format : List Directive) (input : List Char) :
    scan (word.map .literal ++ format) input =
      if word <+: input then scan format (input.drop word.length) else [] := by
  induction word generalizing input with
  | nil => exact (if_pos List.nil_prefix).symm
  | cons c word ih =>
      obtain ⟨hc, hrest⟩ := List.forall_mem_cons.mp hword
      have hspace : ¬ c.isWhitespace = true := by
        rw [hc]
        exact Bool.false_ne_true
      cases input with
      | nil =>
          show (if c.isWhitespace = true then _ else []) = _
          rw [if_neg hspace, if_neg fun h => List.cons_ne_nil _ _ (List.prefix_nil.mp h)]
      | cons d input =>
          show (if c.isWhitespace = true then _ else
            if c = d then scan (word.map .literal ++ format) input else []) = _
          rw [if_neg hspace, ih hrest]
          by_cases hd : c = d
          · subst hd
            simp only [if_true, List.prefix_cons_inj]
            rfl
          · rw [if_neg hd, if_neg fun h => hd (List.cons_prefix_cons.mp h).1]

/-- White space in front of a printed text does not matter to `scan`, and
there is none before the first directive reads it. -/
theorem scan_skipSpace {format : List Directive} {values : List Value} {text : List Char}
    (h : print format values = some text) : scan format (skipSpace text) = scan format text := by
  cases format with
  | nil => rfl
  | cons directive format =>
      cases directive with
      | literal c =>
          cases hc : c.isWhitespace with
          | true => rw [scan_space hc, scan_space hc, skipSpace_skipSpace]
          | false =>
              obtain ⟨rest, -, rfl⟩ := Option.map_eq_some_iff.mp h
              have hkeep : skipSpace (c :: rest) = c :: rest := by
                apply List.dropWhile_cons_of_neg
                simp [hc]
              rw [hkeep]
      | int => rw [scan, scan, scanInt, scanInt, skipSpace_skipSpace]
      | float => rw [scan, scan, scanFloat, scanFloat, skipSpace_skipSpace]
      | string => rw [scan, scan, skipSpace_skipSpace]

/-- **Round trip.**  The values come back, with the digits that are printed. -/
theorem scan_print {format : List Directive} (hformat : separated format = true)
    {values : List Value} {text : List Char} (h : print format values = some text) :
    scan format text = values.map Value.scanned := by
  induction format generalizing values text with
  | nil =>
      cases values with
      | nil => rfl
      | cons => cases h
  | cons directive format ih =>
      cases directive with
      | literal c =>
          obtain ⟨rest, hrest, rfl⟩ := Option.map_eq_some_iff.mp h
          have hread : scan format rest = values.map Value.scanned := ih hformat hrest
          cases hc : c.isWhitespace with
          | true =>
              have hskip : skipSpace (c :: rest) = skipSpace rest :=
                List.dropWhile_cons_of_pos hc
              rw [scan_space hc, hskip, scan_skipSpace hrest, hread]
          | false =>
              show (if c.isWhitespace = true then scan format (skipSpace (c :: rest))
                else if c = c then scan format rest else []) = _
              rw [hc, if_neg Bool.false_ne_true, if_pos rfl, hread]
      | int =>
          obtain ⟨hends, hseparated⟩ := Bool.and_eq_true_iff.mp hformat
          cases values with
          | nil => cases h
          | cons value values =>
              cases value with
              | int z =>
                  obtain ⟨rest, hrest, rfl⟩ := Option.map_eq_some_iff.mp h
                  rw [scan, scanInt_printInt z (ends_of_print hends hrest), List.map_cons]
                  show Value.int z :: scan format rest = _
                  rw [ih hseparated hrest]
                  rfl
              | float | string => cases h
      | float =>
          obtain ⟨hends, hseparated⟩ := Bool.and_eq_true_iff.mp hformat
          cases values with
          | nil => cases h
          | cons value values =>
              cases value with
              | float q =>
                  obtain ⟨rest, hrest, rfl⟩ := Option.map_eq_some_iff.mp h
                  rw [scan, scanFloat_printFloat q (ends_of_print hends hrest), List.map_cons]
                  show Value.float (printed q) :: scan format rest = _
                  rw [ih hseparated hrest]
                  rfl
              | int | string => cases h
      | string => cases hformat

end FormattedText
