/-
A2PM/Numerals.lean

Numbers in a text that `print` has not written: what C reads for `%d` and
`%lf`, in any notation with a sign, leading zeros, a point and an exponent.

A numeral is its parts, with the proofs that they make one.  `scanNumbers` is
`sscanf` with a format of number conversions: a conversion skips the white
space before it, so white space between two of them adds nothing.  It reads
back the values of numerals with white space between them
(`scanNumbers_numerals`).
-/
import A2PM.FormattedText
import Mathlib.Algebra.GroupWithZero.Basic

namespace FormattedText

/-! ### Scanning -/

/-- The conversions of a format. -/
inductive Conversion
  /-- `%d` -/
  | int
  /-- `%lf` -/
  | double
  deriving DecidableEq

/-- The conversions of a format string; all else in it is white space. -/
def conversions : List Char → List Conversion
  | '%' :: 'l' :: 'f' :: rest => .double :: conversions rest
  | '%' :: 'd' :: rest => .int :: conversions rest
  | _ :: rest => conversions rest
  | [] => []

/-- An exponent behind `q`, if there is one.  A marker without digits makes the
conversion fail. -/
def scanExponent (q : ℚ) : List Char → Option (ℚ × List Char)
  | [] => some (q, [])
  | c :: rest =>
      if c = 'e' ∨ c = 'E' then
        let (negative, digits) := scanSign rest
        if digits.takeWhile Char.isDigit = [] then none
        else
          let n : ℤ := Nat.ofDigitChars 10 (digits.takeWhile Char.isDigit) 0
          some (q * 10 ^ (if negative then -n else n), digits.dropWhile Char.isDigit)
      else some (q, c :: rest)

/-- `%lf`. -/
def scanDouble (input : List Char) : Option (ℚ × List Char) :=
  (scanFloat input).bind fun r => scanExponent r.1 r.2

/-- The values read before the scan ends. -/
def scanNumbers : List Conversion → List Char → List Value
  | [], _ => []
  | .int :: format, input =>
      match scanInt input with
      | none => []
      | some (z, rest) => .int z :: scanNumbers format rest
  | .double :: format, input =>
      match scanDouble input with
      | none => []
      | some (q, rest) => .float q :: scanNumbers format rest

/-! ### Numerals -/

inductive Sign
  | none | plus | minus
  deriving DecidableEq

namespace Sign

def text : Sign → List Char
  | none => []
  | plus => ['+']
  | minus => ['-']

def negative : Sign → Bool
  | minus => true
  | _ => false

end Sign

/-- A decimal numeral of an integer. -/
structure IntNumeral where
  sign : Sign
  digits : List Char
  isDigit : ∀ c ∈ digits, c.isDigit = true
  ne_nil : digits ≠ []

namespace IntNumeral

def text (n : IntNumeral) : List Char := n.sign.text ++ n.digits

def value (n : IntNumeral) : ℤ :=
  let m : ℤ := Nat.ofDigitChars 10 n.digits 0
  if n.sign.negative then -m else m

end IntNumeral

/-- A decimal numeral of a real number: digits before the point, the digits
behind it where there is a point, and an exponent behind its marker. -/
structure DoubleNumeral where
  sign : Sign
  whole : List Char
  fraction : Option (List Char)
  exponent : Option (Char × IntNumeral)
  wholeIsDigit : ∀ c ∈ whole, c.isDigit = true
  fractionIsDigit : ∀ c ∈ fraction.getD [], c.isDigit = true
  ne_nil : whole ++ fraction.getD [] ≠ []
  isMarker : ∀ e ∈ exponent, e.1 = 'e' ∨ e.1 = 'E'

namespace DoubleNumeral

/-- Without an exponent there is no marker. -/
theorem isMarker_none : ∀ e ∈ (none : Option (Char × IntNumeral)), e.1 = 'e' ∨ e.1 = 'E' :=
  fun e he => absurd he (Option.not_mem_none e)

def fractionText (n : DoubleNumeral) : List Char :=
  match n.fraction with
  | none => []
  | some digits => '.' :: digits

def exponentText (n : DoubleNumeral) : List Char :=
  match n.exponent with
  | none => []
  | some (marker, e) => marker :: e.text

def text (n : DoubleNumeral) : List Char :=
  n.sign.text ++ n.whole ++ n.fractionText ++ n.exponentText

/-- The value without the exponent. -/
def mantissa (n : DoubleNumeral) : ℚ :=
  let m : ℚ := Nat.ofDigitChars 10 (n.whole ++ n.fraction.getD []) 0
  (if n.sign.negative then -1 else 1) * (m / 10 ^ (n.fraction.getD []).length)

def value (n : DoubleNumeral) : ℚ :=
  match n.exponent with
  | none => n.mantissa
  | some (_, e) => n.mantissa * 10 ^ e.value

end DoubleNumeral

/-- White space. -/
def Blank (text : List Char) : Prop := ∀ c ∈ text, c.isWhitespace = true

inductive Numeral
  | int (n : IntNumeral)
  | double (n : DoubleNumeral)

namespace Numeral

def text : Numeral → List Char
  | int n => n.text
  | double n => n.text

def value : Numeral → Value
  | int n => .int n.value
  | double n => .float n.value

end Numeral

/-- `text` is numerals of these values, with white space between them, and
possibly before and behind them. -/
inductive Numerals : List Value → List Char → Prop
  | nil {gap : List Char} : Blank gap → Numerals [] gap
  | cons {gap rest : List Char} {values : List Value} (n : Numeral) : Blank gap → Ends rest →
      Numerals values rest → Numerals (n.value :: values) (gap ++ (n.text ++ rest))

/-- The conversion that reads a value. -/
def Value.conversion : Value → Conversion
  | .float _ => .double
  | _ => .int

/-! ### Reading a numeral -/

theorem blank_nil : Blank [] := fun _ hc => absurd hc List.not_mem_nil

theorem blank_singleton {c : Char} (hc : c.isWhitespace = true) : Blank [c] :=
  List.forall_mem_singleton.mpr hc

theorem skipSpace_append {gap text : List Char} (hgap : Blank gap)
    (htext : ∀ c ∈ text.head?, c.isWhitespace = false) : skipSpace (gap ++ text) = text := by
  rw [skipSpace, List.dropWhile_append_of_pos hgap]
  cases text with
  | nil => rfl
  | cons c rest =>
      apply List.dropWhile_cons_of_neg
      rw [htext c rfl]
      exact Bool.false_ne_true

/-- The first character of a number: a digit, or the point. -/
def Opens (text : List Char) : Prop :=
  ∃ c rest, text = c :: rest ∧ (c.isDigit = true ∨ c = '.')

theorem Opens.append {text : List Char} (h : Opens text) (rest : List Char) :
    Opens (text ++ rest) := by
  obtain ⟨c, rest', rfl, hc⟩ := h
  exact ⟨c, rest' ++ rest, rfl, hc⟩

theorem Opens.of_digits {digits : List Char} (hne : digits ≠ [])
    (hdigits : ∀ c ∈ digits, c.isDigit = true) : Opens digits := by
  obtain ⟨c, rest, rfl⟩ := List.exists_cons_of_ne_nil hne
  exact ⟨c, rest, rfl, .inl (hdigits c List.mem_cons_self)⟩

/-- A sign in front of a number is read. -/
theorem scanSign_text (sign : Sign) {text : List Char} (h : Opens text) :
    scanSign (sign.text ++ text) = (sign.negative, text) := by
  obtain ⟨c, rest, rfl, hc⟩ := h
  cases sign with
  | plus => rfl
  | minus => rfl
  | none =>
      have hminus : c ≠ '-' := by rintro rfl; rcases hc with hc | hc <;> cases hc
      have hplus : c ≠ '+' := by rintro rfl; rcases hc with hc | hc <;> cases hc
      show scanSign (c :: rest) = _
      unfold scanSign
      split
      next heq => exact absurd (List.cons.inj heq).1 hminus
      next heq => exact absurd (List.cons.inj heq).1 hplus
      next => rfl

/-- White space in front of a signed number is skipped. -/
theorem skipSpace_sign {gap text : List Char} (hgap : Blank gap) (sign : Sign) (h : Opens text) :
    skipSpace (gap ++ (sign.text ++ text)) = sign.text ++ text := by
  apply skipSpace_append hgap
  intro c hc
  obtain ⟨d, rest, rfl, hd⟩ := h
  cases sign with
  | plus | minus =>
      obtain rfl := Option.some.inj hc
      rfl
  | none =>
      obtain rfl := Option.some.inj hc
      rcases hd with hd | rfl
      · exact not_isWhitespace_of_isDigit hd
      · rfl

theorem scanInt_numeral {gap rest : List Char} (hgap : Blank gap) (n : IntNumeral)
    (hrest : Ends rest) : scanInt (gap ++ (n.text ++ rest)) = some (n.value, rest) := by
  have hopens : Opens (n.digits ++ rest) := (Opens.of_digits n.ne_nil n.isDigit).append rest
  obtain ⟨htake, hdrop⟩ := takeWhile_digits n.isDigit hrest.not_isDigit
  rw [scanInt, IntNumeral.text, List.append_assoc, skipSpace_sign hgap n.sign hopens,
    scanSign_text n.sign hopens]
  simp only [htake, hdrop, n.ne_nil, if_false]
  rfl

/-- Neither the digits nor the point of a number go on here. -/
def Closes (text : List Char) : Prop := ∀ c ∈ text.head?, c.isDigit = false ∧ c ≠ '.'

theorem Ends.closes {text : List Char} (h : Ends text) : Closes text := fun c hc =>
  ⟨h.not_isDigit c hc, fun heq => Bool.false_ne_true (h '.' (heq ▸ hc))⟩

theorem scanFraction_text {fraction : Option (List Char)} {tail : List Char}
    (hdigits : ∀ c ∈ fraction.getD [], c.isDigit = true) (htail : Closes tail) :
    scanFraction ((fraction.elim [] fun digits => '.' :: digits) ++ tail) =
      (fraction.getD [], tail) := by
  cases fraction with
  | some digits =>
      obtain ⟨htake, hdrop⟩ := takeWhile_digits hdigits fun c hc => (htail c hc).1
      exact Prod.ext htake hdrop
  | none =>
      show scanFraction tail = ([], tail)
      unfold scanFraction
      split
      next heq => exact absurd rfl (htail '.' rfl).2
      next => rfl

/-- What stands behind the mantissa closes it. -/
theorem DoubleNumeral.closes (n : DoubleNumeral) {rest : List Char} (hrest : Ends rest) :
    Closes (n.exponentText ++ rest) := by
  unfold exponentText
  split
  next => exact hrest.closes
  next marker e heq =>
      intro c hc
      obtain rfl := Option.some.inj hc
      rcases n.isMarker (marker, e) heq with rfl | rfl <;> exact ⟨rfl, by decide⟩

theorem DoubleNumeral.fractionText_eq (n : DoubleNumeral) :
    n.fractionText = n.fraction.elim [] fun digits => '.' :: digits := by
  unfold fractionText
  cases n.fraction <;> rfl

theorem DoubleNumeral.opens (n : DoubleNumeral) (tail : List Char) :
    Opens (n.whole ++ (n.fractionText ++ tail)) := by
  -- without digits before it, the point comes first
  rcases eq_or_ne n.whole [] with hwhole | hwhole
  · cases hfraction : n.fraction with
    | none =>
        refine absurd ?_ n.ne_nil
        rw [hwhole, hfraction]
        rfl
    | some digits =>
        rw [hwhole, n.fractionText_eq, hfraction]
        exact ⟨'.', digits ++ tail, rfl, .inr rfl⟩
  · exact (Opens.of_digits hwhole n.wholeIsDigit).append _

theorem scanFloat_numeral {gap rest : List Char} (hgap : Blank gap) (n : DoubleNumeral)
    (hrest : Ends rest) :
    scanFloat (gap ++ (n.text ++ rest)) = some (n.mantissa, n.exponentText ++ rest) := by
  have htail := n.closes hrest
  have hopens := n.opens (n.exponentText ++ rest)
  -- the digits before the point end at the point, or where the mantissa closes
  have hpoint : ∀ c ∈ (n.fractionText ++ (n.exponentText ++ rest)).head?,
      c.isDigit = false := by
    intro c hc
    rw [n.fractionText_eq] at hc
    cases hfraction : n.fraction with
    | none =>
        rw [hfraction] at hc
        exact (htail c hc).1
    | some digits =>
        rw [hfraction] at hc
        obtain rfl := Option.some.inj hc
        rfl
  obtain ⟨hwhole, hbehind⟩ := takeWhile_digits n.wholeIsDigit hpoint
  have hfraction := scanFraction_text n.fractionIsDigit htail
  rw [← n.fractionText_eq] at hfraction
  have htext : n.text ++ rest =
      n.sign.text ++ (n.whole ++ (n.fractionText ++ (n.exponentText ++ rest))) := by
    simp only [DoubleNumeral.text, List.append_assoc]
  rw [scanFloat, htext, skipSpace_sign hgap n.sign hopens, scanSign_text n.sign hopens]
  simp only [hwhole, hbehind, hfraction, n.ne_nil, if_false]
  rfl

theorem scanExponent_ends (q : ℚ) {rest : List Char} (hrest : Ends rest) :
    scanExponent q rest = some (q, rest) := by
  cases rest with
  | nil => rfl
  | cons c rest =>
      have hc : c.isWhitespace = true := hrest c rfl
      apply if_neg
      rintro (rfl | rfl) <;> cases hc

theorem scanExponent_numeral (q : ℚ) {marker : Char} (hmarker : marker = 'e' ∨ marker = 'E')
    (e : IntNumeral) {rest : List Char} (hrest : Ends rest) :
    scanExponent q (marker :: (e.text ++ rest)) = some (q * 10 ^ e.value, rest) := by
  have hopens : Opens (e.digits ++ rest) := (Opens.of_digits e.ne_nil e.isDigit).append rest
  obtain ⟨htake, hdrop⟩ := takeWhile_digits e.isDigit hrest.not_isDigit
  rw [scanExponent, if_pos hmarker, IntNumeral.text, List.append_assoc,
    scanSign_text e.sign hopens]
  simp only [htake, hdrop, e.ne_nil, if_false]
  rfl

theorem scanDouble_numeral {gap rest : List Char} (hgap : Blank gap) (n : DoubleNumeral)
    (hrest : Ends rest) : scanDouble (gap ++ (n.text ++ rest)) = some (n.value, rest) := by
  rw [scanDouble, scanFloat_numeral hgap n hrest, Option.bind_some]
  cases hexponent : n.exponent with
  | none =>
      rw [DoubleNumeral.exponentText, DoubleNumeral.value, hexponent]
      exact scanExponent_ends n.mantissa hrest
  | some e =>
      rw [DoubleNumeral.exponentText, DoubleNumeral.value, hexponent]
      exact scanExponent_numeral n.mantissa (n.isMarker e hexponent) e.2 hrest

/-! ### The text of numerals -/

/-- A character of a numeral, or white space. -/
def isNumberChar (c : Char) : Bool :=
  c.isWhitespace || c.isDigit || ['+', '-', '.', 'e', 'E'].contains c

/-- A character of a numeral. -/
def IsNumeralChar (c : Char) : Prop := c.isDigit = true ∨ c ∈ ['+', '-', '.', 'e', 'E']

theorem IsNumeralChar.toNumberChar {c : Char} (h : IsNumeralChar c) : isNumberChar c = true := by
  rw [isNumberChar]
  rcases h with hdigit | hother
  · rw [hdigit, Bool.or_true, Bool.true_or]
  · rw [List.contains_iff_mem.mpr hother, Bool.or_true]

theorem Sign.isNumeralChar_of_mem {sign : Sign} {c : Char} (h : c ∈ sign.text) :
    IsNumeralChar c := by
  cases sign with
  | none => cases h
  | plus | minus =>
      obtain rfl := List.mem_singleton.mp h
      exact .inr (by decide)

theorem IntNumeral.isNumeralChar_of_mem {n : IntNumeral} {c : Char} (h : c ∈ n.text) :
    IsNumeralChar c := by
  rcases List.mem_append.mp h with hsign | hdigit
  · exact Sign.isNumeralChar_of_mem hsign
  · exact .inl (n.isDigit c hdigit)

theorem DoubleNumeral.isNumeralChar_of_mem {n : DoubleNumeral} {c : Char} (h : c ∈ n.text) :
    IsNumeralChar c := by
  simp only [text, List.mem_append] at h
  rcases h with ((hsign | hwhole) | hfraction) | hexponent
  · exact Sign.isNumeralChar_of_mem hsign
  · exact .inl (n.wholeIsDigit c hwhole)
  · rw [n.fractionText_eq] at hfraction
    cases heq : n.fraction with
    | none =>
        rw [heq] at hfraction
        cases hfraction
    | some digits =>
        rw [heq] at hfraction
        rcases List.mem_cons.mp hfraction with rfl | hdigit
        · exact .inr (by decide)
        · exact .inl (n.fractionIsDigit c (heq ▸ hdigit))
  · cases heq : n.exponent with
    | none =>
        rw [exponentText, heq] at hexponent
        cases hexponent
    | some e =>
        rw [exponentText, heq] at hexponent
        rcases List.mem_cons.mp hexponent with rfl | hnumeral
        · have hmarker := n.isMarker e heq
          apply Or.inr
          rcases hmarker with hmarker | hmarker <;> rw [hmarker] <;> decide
        · exact IntNumeral.isNumeralChar_of_mem hnumeral

theorem Numeral.isNumberChar_of_mem {n : Numeral} {c : Char} (h : c ∈ n.text) :
    isNumberChar c = true := by
  cases n with
  | int n => exact (IntNumeral.isNumeralChar_of_mem h).toNumberChar
  | double n => exact (DoubleNumeral.isNumeralChar_of_mem h).toNumberChar

theorem Blank.isNumberChar_of_mem {gap : List Char} (hgap : Blank gap) {c : Char} (h : c ∈ gap) :
    isNumberChar c = true := by
  simp [isNumberChar, hgap c h]

theorem Numerals.isNumberChar_of_mem {values : List Value} {text : List Char}
    (h : Numerals values text) {c : Char} (hc : c ∈ text) : isNumberChar c = true := by
  induction h with
  | nil hgap => exact hgap.isNumberChar_of_mem hc
  | cons n hgap _ _ ih =>
      rcases List.mem_append.mp hc with hc | hc
      · exact hgap.isNumberChar_of_mem hc
      · exact (List.mem_append.mp hc).elim Numeral.isNumberChar_of_mem ih

theorem Ends.append {text gap : List Char} (h : Ends text) (hgap : Blank gap) :
    Ends (text ++ gap) := by
  cases text with
  | nil => exact fun c hc => hgap c (List.mem_of_mem_head? hc)
  | cons d rest => exact h

/-- White space may be added at the end. -/
theorem Numerals.append {values : List Value} {text gap : List Char} (h : Numerals values text)
    (hgap : Blank gap) : Numerals values (text ++ gap) := by
  induction h with
  | nil hgap' =>
      apply Numerals.nil
      intro c hc
      exact (List.mem_append.mp hc).elim (hgap' c) (hgap c)
  | cons n hgap' hends _ ih =>
      rw [List.append_assoc, List.append_assoc]
      exact Numerals.cons n hgap' (hends.append hgap) ih

/-! ### Reading a list of numerals -/

/-- **Numbers are read back**, each with its conversion. -/
theorem scanNumbers_numerals {values : List Value} {text : List Char}
    (h : Numerals values text) : scanNumbers (values.map Value.conversion) text = values := by
  induction h with
  | nil => rfl
  | cons n hgap hrest _ ih =>
      cases n with
      | int n =>
          show scanNumbers (.int :: _) _ = _
          rw [scanNumbers, Numeral.text, scanInt_numeral hgap n hrest]
          exact congrArg _ ih
      | double n =>
          show scanNumbers (.double :: _) _ = _
          rw [scanNumbers, Numeral.text, scanDouble_numeral hgap n hrest]
          exact congrArg _ ih

/-- Numerals with one blank in front of each. -/
def plainText (ns : List Numeral) : List Char := ns.flatMap fun n => ' ' :: n.text

theorem numerals_plainText (ns : List Numeral) : Numerals (ns.map Numeral.value) (plainText ns) := by
  induction ns with
  | nil => exact .nil blank_nil
  | cons n ns ih =>
      have hends : Ends (plainText ns) := by
        intro c hc
        cases ns with
        | nil => cases hc
        | cons _ _ =>
            obtain rfl := Option.some.inj hc
            rfl
      exact .cons n (blank_singleton rfl) hends ih

end FormattedText
