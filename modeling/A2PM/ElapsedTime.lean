/-
A2PM/ElapsedTime.lean

The time of a datapoint: `get_features` of `controller/client.c` subtracts two
readings of `gettimeofday` in `double` arithmetic, and prints the result with six
decimal places.

The microseconds survive.  Each of the roundings is off by less than a fraction of a
microsecond, and together they stay below the half of one that `%f` takes off:
within 68 years of the start, the text has the exact difference of the two readings.
`get_feature` stores it in a `float`, with 24 bits (`getFeature_elapsed`).
-/
import A2PM.CpuUsage
import A2PM.FeaturesText

namespace A2PM.Client

open FloatRounding FormattedText FeaturesText

/-- What `gettimeofday` returns. -/
structure Reading where
  sec : ℕ
  usec : ℕ
  sec_le : sec ≤ 2 ^ 53
  usec_lt : usec < 10 ^ 6

/-- The time behind `Datapoint:`. -/
def elapsed (initial curr : Reading) : ℚ :=
  double (double (double (double curr.sec - double initial.sec) + double (curr.usec / 1000000)) -
    double (initial.usec / 1000000))

def Reading.micros (r : Reading) : ℤ := r.sec * 10 ^ 6 + r.usec

/-! ### Six decimal places -/

theorem millionths_eq_of_near {q : ℚ} {n : ℕ} (h : |(|q| * 10 ^ 6 - n)| < 1 / 2) :
    millionths q = n := by
  obtain ⟨hlow, hhigh⟩ := abs_lt.mp h
  have hnonneg : 0 ≤ |q| * 10 ^ 6 := by positivity
  rw [millionths]
  generalize |q| * 10 ^ 6 = y at *
  rcases le_or_gt (n : ℚ) y with hle | hlt
  · have hfloor : ⌊y⌋₊ = n := (Nat.floor_eq_iff hnonneg).mpr ⟨hle, by linarith⟩
    rw [hfloor]
    exact if_pos (.inl (by linarith))
  · obtain ⟨m, rfl⟩ : ∃ m, n = m + 1 :=
      Nat.exists_eq_succ_of_ne_zero fun hzero => by
        rw [hzero, Nat.cast_zero] at hlt
        linarith
    push_cast at hlow hlt
    have hfloor : ⌊y⌋₊ = m := (Nat.floor_eq_iff hnonneg).mpr ⟨by linarith, hlt⟩
    rw [hfloor]
    refine if_neg (not_or.mpr ⟨by linarith, fun hhalf => ?_⟩)
    linarith [hhalf.1]

/-- A number that is nearer than half a millionth is printed as the millionths. -/
theorem printed_eq_of_near {q : ℚ} {z : ℤ} (h : |q - z / 10 ^ 6| * (2 * 10 ^ 6) < 1) :
    printed q = z / 10 ^ 6 := by
  have hscaled : |q * 10 ^ 6 - z| < 1 / 2 := by
    have heq : q * 10 ^ 6 - z = (q - z / 10 ^ 6) * 10 ^ 6 := by ring
    rw [heq, abs_mul, abs_of_pos (by norm_num : (0 : ℚ) < 10 ^ 6)]
    linarith
  obtain ⟨hlow, hhigh⟩ := abs_lt.mp hscaled
  have habs : ((z.natAbs : ℕ) : ℚ) = |(z : ℚ)| := by rw [Nat.cast_natAbs, Int.cast_abs]
  rw [printed]
  split_ifs with hneg
  · have hz : (z : ℚ) ≤ 0 := by
      have hlt : (z : ℚ) < 1 := by linarith
      exact_mod_cast Int.lt_add_one_iff.mp (by exact_mod_cast hlt : z < 0 + 1)
    have hmillionths : millionths q = z.natAbs := by
      apply millionths_eq_of_near
      rw [habs, abs_of_nonpos hz, abs_of_neg hneg, abs_lt]
      constructor <;> linarith
    rw [hmillionths, habs, abs_of_nonpos hz]
    ring
  · have hz : (0 : ℚ) ≤ z := by
      have hlt : (-1 : ℚ) < z := by linarith [not_lt.mp hneg]
      exact_mod_cast Int.add_one_le_iff.mpr (by exact_mod_cast hlt : -1 < z)
    have hmillionths : millionths q = z.natAbs := by
      apply millionths_eq_of_near
      rw [habs, abs_of_nonneg hz, abs_of_nonneg (not_lt.mp hneg)]
      exact hscaled
    rw [hmillionths, habs, abs_of_nonneg hz, one_mul]

/-! ### The roundings -/

theorem abs_double_sub_le {q b : ℚ} (h : |q| ≤ b) : |double q - q| * 2 ^ 53 ≤ b :=
  (abs_rnd_sub_le 53 q).trans h

/-- The seconds are subtracted exactly. -/
theorem double_sub_sec (initial curr : Reading) :
    double (double curr.sec - double initial.sec) = (curr.sec : ℚ) - initial.sec := by
  have hrep : Representable 53 ((((curr.sec : ℤ) - initial.sec : ℤ)) : ℚ) := by
    have hcurr := curr.sec_le
    have hinitial := initial.sec_le
    apply representable_intCast
    rw [abs_le]
    omega
  rw [double_natCast curr.sec_le, double_natCast initial.sec_le]
  have hexact := hrep.rnd_eq (by decide)
  push_cast at hexact
  exact hexact

theorem usec_mem (r : Reading) : (r.usec : ℚ) / 1000000 ∈ Set.Icc 0 1 := by
  have hlt : (r.usec : ℚ) ≤ 1000000 := by exact_mod_cast r.usec_lt.le
  exact ⟨by positivity, (div_le_one (by norm_num)).mpr hlt⟩

variable {initial curr : Reading}

/-- Four roundings leave less than half a microsecond. -/
theorem elapsed_near (h : |(curr.sec : ℤ) - initial.sec| < 2 ^ 31) :
    |elapsed initial curr - ((curr.micros - initial.micros : ℤ) : ℚ) / 10 ^ 6| * (2 * 10 ^ 6) <
      1 := by
  have hspan : |(curr.sec : ℚ) - initial.sec| ≤ 2 ^ 31 := by exact_mod_cast h.le
  have hexact : ((curr.micros - initial.micros : ℤ) : ℚ) / 10 ^ 6 =
      (curr.sec : ℚ) - initial.sec + curr.usec / 1000000 - initial.usec / 1000000 := by
    rw [Reading.micros, Reading.micros]
    push_cast
    ring
  obtain ⟨hcurr, hcurr'⟩ := usec_mem curr
  obtain ⟨hinitial, hinitial'⟩ := usec_mem initial
  rw [hexact, elapsed, double_sub_sec]
  generalize (curr.sec : ℚ) - initial.sec = D at hspan
  generalize (curr.usec : ℚ) / 1000000 = a at hcurr hcurr'
  generalize (initial.usec : ℚ) / 1000000 = b at hinitial hinitial'
  have ha : |double a - a| * 2 ^ 53 ≤ 1 := abs_double_sub_le (abs_le.mpr ⟨by linarith, hcurr'⟩)
  have hb : |double b - b| * 2 ^ 53 ≤ 1 := abs_double_sub_le (abs_le.mpr ⟨by linarith, hinitial'⟩)
  rw [← le_div_iff₀ (by norm_num)] at ha hb
  obtain ⟨hDlow, hDhigh⟩ := abs_le.mp hspan
  obtain ⟨halow, hahigh⟩ := abs_le.mp ha
  obtain ⟨hblow, hbhigh⟩ := abs_le.mp hb
  have hsum : |double (D + double a) - (D + double a)| * 2 ^ 53 ≤ 2 ^ 31 + 2 :=
    abs_double_sub_le (abs_le.mpr ⟨by linarith, by linarith⟩)
  rw [← le_div_iff₀ (by norm_num)] at hsum
  obtain ⟨hslow, hshigh⟩ := abs_le.mp hsum
  have htotal : |double (double (D + double a) - double b) - (double (D + double a) - double b)| *
      2 ^ 53 ≤ 2 ^ 31 + 4 :=
    abs_double_sub_le (abs_le.mpr ⟨by linarith, by linarith⟩)
  rw [← le_div_iff₀ (by norm_num)] at htotal
  obtain ⟨htlow, hthigh⟩ := abs_le.mp htotal
  rw [← lt_div_iff₀ (by norm_num), abs_lt]
  constructor <;> linarith

/-- **The time is exact**: the text of the features has the difference of the two
readings, and `get_feature` stores the `float` next to it. -/
theorem getFeature_elapsed (h : |(curr.sec : ℤ) - initial.sec| < 2 ^ 31) (v : SystemFeatures) :
    ∃ text, getFeatures { v with time := elapsed initial curr } = some text ∧
      (sscanf text featureFormat).head? =
        some (.float (((curr.micros - initial.micros : ℤ) : ℚ) / 10 ^ 6)) ∧
      ∀ currentFeatures, (getFeature text currentFeatures).time =
        storedFloat (((curr.micros - initial.micros : ℤ) : ℚ) / 10 ^ 6) := by
  obtain ⟨text, htext, -⟩ := getFeatures_eq { v with time := elapsed initial curr }
  rw [← printed_eq_of_near (elapsed_near h)]
  refine ⟨text, htext, ?_, fun currentFeatures => ?_⟩
  · rw [sscanf_getFeatures htext]
    rfl
  · rw [getFeature_getFeatures htext]
    rfl

/-- A day and a microsecond. -/
def dayLater : Reading := ⟨1418294400, 5, by decide, by decide⟩

def atStart : Reading := ⟨1418208000, 4, by decide, by decide⟩

theorem getFeature_elapsed_dayLater :
    ∃ text, getFeatures { firstFeatures with time := elapsed atStart dayLater } = some text ∧
      (sscanf text featureFormat).head? =
        some (.float (((dayLater.micros - atStart.micros : ℤ) : ℚ) / 10 ^ 6)) ∧
      ∀ currentFeatures, (getFeature text currentFeatures).time =
        storedFloat (((dayLater.micros - atStart.micros : ℤ) : ℚ) / 10 ^ 6) :=
  getFeature_elapsed (by decide) firstFeatures

/-- The `float` next to a day and a microsecond is a day. -/
example : storedFloat (((dayLater.micros - atStart.micros : ℤ) : ℚ) / 10 ^ 6) = 86400 := by
  decide +kernel

end A2PM.Client
