/-
A2PM/RoundingError.lean

Rounding errors of sums and products.  `Near c η m x x'` says what is known of a
number `x'` that was computed for `x`: the absolute values that went into `x` add up
to `m` at the most, and the error is at most `c - 1` times `m`, and `η`.

Sums add the bounds and the offsets, a rounding multiplies the factor
(`Near.of_relative`), and so a sum that is rounded at each step has one factor more
for each of its terms (`near_foldlM`).

`rndAbove` rounds to numbers that have fewer bits near 0, as the formats have;
`toFloat` and `toDouble` also know where the formats end, and a sum of numbers far below
has all its steps (`exists_foldlM`).
-/
import A2PM.FloatRounding
import Mathlib.Algebra.BigOperators.Group.List.Basic
import Mathlib.Algebra.Order.BigOperators.Group.List
import Mathlib.Tactic.NormNum
import Mathlib.Tactic.Positivity

namespace FloatRounding

variable {K : Type*} [Field K] [LinearOrder K]

/-! ### Numbers near 0 -/

/-- `x` with `p` bits, but as a multiple of `2 ^ e`. -/
def rndAbove [FloorRing K] (p : ℕ) (e : ℤ) (x : K) : K :=
  let q := max (quantum p x) (((2 : ℕ) : K) ^ e)
  nearestEven (x / q) * q

/-- The format of a `float`, but for the infinities. -/
def binary32 [FloorRing K] (x : K) : K := rndAbove 24 (-149) x

/-- The format of a `double`, but for the infinities. -/
def binary64 [FloorRing K] (x : K) : K := rndAbove 53 (-1074) x

/-- `x` as a `float`; `none`: it is infinite. -/
def toFloat [FloorRing K] (x : K) : Option K :=
  if |binary32 x| < ((2 : ℕ) : K) ^ 128 then some (binary32 x) else none

/-- `x` as a `double`; `none`: it is infinite. -/
def toDouble [FloorRing K] (x : K) : Option K :=
  if |binary64 x| < ((2 : ℕ) : K) ^ 1024 then some (binary64 x) else none

theorem toFloat_eq_some [FloorRing K] {x r : K} (h : toFloat x = some r) : r = binary32 x :=
  (Option.some.inj (Option.ite_none_right_eq_some.mp h).2).symm

theorem toDouble_eq_some [FloorRing K] {x r : K} (h : toDouble x = some r) : r = binary64 x :=
  (Option.some.inj (Option.ite_none_right_eq_some.mp h).2).symm

variable [IsStrictOrderedRing K]

/-- Away from 0 the number has all of its bits. -/
theorem rndAbove_eq_rnd [FloorRing K] {p : ℕ} {e : ℤ} {x : K}
    (h : ((2 : ℕ) : K) ^ (e + p - 1) ≤ |x|) : rndAbove p e x = rnd p x := by
  have hone : (1 : K) < (2 : ℕ) := Nat.one_lt_cast.mpr one_lt_two
  have hpos : 0 < |x| := (zpow_pos (zero_lt_one.trans hone) _).trans_le h
  have hlog : e + p - 1 ≤ Int.log 2 |x| := (Int.zpow_le_iff_le_log one_lt_two hpos).mp h
  have hquantum : ((2 : ℕ) : K) ^ e ≤ quantum p x := zpow_le_zpow_right₀ hone.le (by omega)
  rw [rndAbove, max_eq_left hquantum, rnd]

/-- The error is that of `p` bits, and half of the least number. -/
theorem abs_rndAbove_sub_le [FloorRing K] (p : ℕ) (e : ℤ) (x : K) :
    |rndAbove p e x - x| ≤ 1 / 2 ^ p * |x| + ((2 : ℕ) : K) ^ e / 2 := by
  have hleast : (0 : K) < ((2 : ℕ) : K) ^ e := zpow_pos (Nat.cast_pos.mpr two_pos) e
  rcases eq_or_ne x 0 with rfl | hx
  · rw [rndAbove, zero_div, nearestEven_zero, Int.cast_zero, zero_mul, sub_zero, abs_zero, mul_zero,
      zero_add]
    exact div_nonneg hleast.le zero_le_two
  · have hq := quantum_pos p x
    have herror : 2 * |rndAbove p e x - x| ≤ max (quantum p x) (((2 : ℕ) : K) ^ e) :=
      abs_nearestEven_mul_sub_le (lt_max_of_lt_left hq)
    have hmax : max (quantum p x) (((2 : ℕ) : K) ^ e) ≤ quantum p x + ((2 : ℕ) : K) ^ e :=
      max_le_add_of_nonneg hq.le hleast.le
    have hquantum : quantum p x ≤ 2 * (1 / 2 ^ p * |x|) := by
      have h := quantum_mul_pow_le p hx
      rw [← le_div_iff₀ (by positivity)] at h
      calc quantum p x ≤ |x| * 2 / 2 ^ p := h
        _ = 2 * (1 / 2 ^ p * |x|) := by ring
    generalize ((2 : ℕ) : K) ^ e = least at herror hmax ⊢
    generalize 1 / 2 ^ p * |x| = relative at hquantum ⊢
    linarith

/-! ### Errors -/

/-- `x'` was computed for `x`. -/
structure Near (c η m x x' : K) : Prop where
  abs_le : |x| ≤ m
  error : |x' - x| ≤ (c - 1) * m + η

variable {c d η ζ m n x x' y y' r u δ : K}

theorem Near.nonneg (h : Near c η m x x') : 0 ≤ m := (abs_nonneg x).trans h.abs_le

theorem near_self (x : K) : Near 1 0 |x| x x where
  abs_le := le_rfl
  error := by rw [sub_self, sub_self, abs_zero, zero_mul, add_zero]

theorem Near.abs_computed_le (h : Near c η m x x') : |x'| ≤ c * m + η := by
  have htriangle : |x'| ≤ |x' - x| + |x| := by
    have hsum := abs_add_le (x' - x) x
    rwa [sub_add_cancel] at hsum
  linarith [h.abs_le, h.error]

theorem Near.mono (h : Near c η m x x') (hc : c ≤ d) (hη : η ≤ ζ) : Near d ζ m x x' where
  abs_le := h.abs_le
  error := by
    have hfactor : (c - 1) * m ≤ (d - 1) * m :=
      mul_le_mul_of_nonneg_right (sub_le_sub_right hc 1) h.nonneg
    linarith [h.error]

theorem Near.add (hx : Near c η m x x') (hy : Near c ζ n y y') :
    Near c (η + ζ) (m + n) (x + y) (x' + y') where
  abs_le := (abs_add_le x y).trans (add_le_add hx.abs_le hy.abs_le)
  error := by
    have hsum := abs_add_le (x' - x) (y' - y)
    rw [← add_sub_add_comm] at hsum
    linarith [hx.error, hy.error]

/-- A product with a number whose error is relative. -/
theorem Near.mul (hy : Near d 0 |y| y y') (hx : Near c η m x x') :
    Near (d * c) (d * |y| * η) (|y| * m) (y * x) (y' * x') where
  abs_le := by
    rw [abs_mul]
    exact mul_le_mul_of_nonneg_left hx.abs_le (abs_nonneg y)
  error := by
    have hy' : |y'| ≤ d * |y| := by
      have h := hy.abs_computed_le
      rwa [add_zero] at h
    have hx' : 0 ≤ (c - 1) * m + η := (abs_nonneg _).trans hx.error
    have hsplit : y' * x' - y * x = y' * (x' - x) + (y' - y) * x := by ring
    have hleft : |y'| * |x' - x| ≤ d * |y| * ((c - 1) * m + η) :=
      mul_le_mul hy' hx.error (abs_nonneg _) ((abs_nonneg _).trans hy')
    have herror := hy.error
    rw [add_zero] at herror
    have hright : |y' - y| * |x| ≤ (d - 1) * |y| * m :=
      mul_le_mul herror hx.abs_le (abs_nonneg _) ((abs_nonneg _).trans herror)
    calc |y' * x' - y * x| ≤ |y'| * |x' - x| + |y' - y| * |x| := by
          rw [hsplit, ← abs_mul, ← abs_mul]
          exact abs_add_le _ _
      _ ≤ d * |y| * ((c - 1) * m + η) + (d - 1) * |y| * m := add_le_add hleft hright
      _ = (d * c - 1) * (|y| * m) + d * |y| * η := by ring

/-- A rounding, with its relative error and an offset. -/
theorem Near.of_relative (h : Near c η m x x') (hu : 0 ≤ u) (hr : |r - x'| ≤ u * |x'| + δ) :
    Near (c * (1 + u)) (η * (1 + u) + δ) m x r where
  abs_le := h.abs_le
  error := by
    have htriangle : |r - x| ≤ |r - x'| + |x' - x| := abs_sub_le r x' x
    have hcomputed : u * |x'| ≤ u * (c * m + η) := mul_le_mul_of_nonneg_left h.abs_computed_le hu
    linarith [h.error]

theorem abs_rnd_sub_le_mul [FloorRing K] (p : ℕ) (x : K) : |rnd p x - x| ≤ 1 / 2 ^ p * |x| := by
  have hle := abs_rnd_sub_le p x
  rw [← le_div_iff₀ (by positivity)] at hle
  rw [one_div_mul_eq_div]
  exact hle

theorem Near.rnd [FloorRing K] (h : Near c η m x x') (p : ℕ) :
    Near (c * (1 + 1 / 2 ^ p)) (η * (1 + 1 / 2 ^ p)) m x (rnd p x') := by
  have herror : |FloatRounding.rnd p x' - x'| ≤ 1 / 2 ^ p * |x'| + 0 := by
    rw [add_zero]
    exact abs_rnd_sub_le_mul p x'
  have hnear := h.of_relative (by positivity) herror
  rwa [add_zero] at hnear

theorem Near.rndAbove [FloorRing K] (h : Near c η m x x') (p : ℕ) (e : ℤ) :
    Near (c * (1 + 1 / 2 ^ p)) (η * (1 + 1 / 2 ^ p) + ((2 : ℕ) : K) ^ e / 2) m x
      (rndAbove p e x') :=
  h.of_relative (by positivity) (abs_rndAbove_sub_le p e x')

theorem Near.binary32 [FloorRing K] (h : Near c η m x x') :
    Near (c * (1 + 1 / 2 ^ 24)) (η * (1 + 1 / 2 ^ 24) + 1 / 2 ^ 150) m x (binary32 x') := by
  have hleast : ((2 : ℕ) : K) ^ (-149 : ℤ) / 2 = 1 / 2 ^ 150 := by norm_num
  have hnear := h.rndAbove 24 (-149)
  rwa [hleast] at hnear

/-- The least `double` is far below all that matters here. -/
theorem abs_binary64_sub_le [FloorRing K] (x : K) :
    |FloatRounding.binary64 x - x| ≤ 1 / 2 ^ 53 * |x| + 1 / 2 ^ 200 := by
  have hone : (1 : K) ≤ (2 : ℕ) := Nat.one_le_cast.mpr one_le_two
  have hleast : ((2 : ℕ) : K) ^ (-1074 : ℤ) / 2 ≤ 1 / 2 ^ 200 := by
    calc ((2 : ℕ) : K) ^ (-1074 : ℤ) / 2 ≤ ((2 : ℕ) : K) ^ (-1074 : ℤ) :=
          half_le_self (zpow_nonneg (zero_le_one.trans hone) _)
      _ ≤ ((2 : ℕ) : K) ^ (-200 : ℤ) := zpow_le_zpow_right₀ hone (by decide)
      _ = 1 / 2 ^ 200 := by rw [zpow_neg, Nat.cast_ofNat, one_div, zpow_ofNat]
  exact (abs_rndAbove_sub_le 53 (-1074) x).trans (add_le_add_right hleast _)

theorem Near.binary64 [FloorRing K] (h : Near c η m x x') :
    Near (c * (1 + 1 / 2 ^ 53)) (η * (1 + 1 / 2 ^ 53) + 1 / 2 ^ 200) m x (binary64 x') :=
  h.of_relative (by positivity) (abs_binary64_sub_le x')

/-- Far below the infinities a number stays finite. -/
theorem exists_toFloat [FloorRing K] {x : K} (hx : |x| ≤ 2 ^ 120) :
    ∃ r, toFloat x = some r ∧ |r| ≤ 2 * |x| + 1 := by
  have hle : |binary32 x| ≤ 2 * |x| + 1 := by
    have h := (near_self x).binary32.abs_computed_le
    linarith [abs_nonneg x]
  refine ⟨binary32 x, if_pos (hle.trans_lt ?_), hle⟩
  rw [Nat.cast_ofNat]
  linarith

theorem exists_toDouble [FloorRing K] {x : K} (hx : |x| ≤ 2 ^ 200) :
    ∃ r, toDouble x = some r ∧ |r| ≤ 2 * |x| + 1 := by
  have hle : |binary64 x| ≤ 2 * |x| + 1 := by
    have h := (near_self x).binary64.abs_computed_le
    linarith [abs_nonneg x]
  have hsmall : 2 * |x| + 1 < 2 ^ 202 := by linarith
  refine ⟨binary64 x, if_pos ((hle.trans_lt hsmall).trans_le ?_), hle⟩
  rw [Nat.cast_ofNat]
  exact pow_le_pow_right₀ one_le_two (by decide)

/-! ### Sums -/

/-- The steps of a sum can be made as long as it stays below a bound. -/
theorem exists_foldlM {ι : Type*} {op : K → ι → Option K} {b : K} (hδ : 0 ≤ δ) (l : List ι)
    (hl : ∀ i ∈ l, ∀ s, |s| ≤ b → ∃ r, op s i = some r ∧ |r| ≤ 2 * |s| + δ)
    (hx : 2 ^ l.length * (|x| + δ) ≤ b) :
    ∃ r, l.foldlM op x = some r ∧ |r| ≤ 2 ^ l.length * (|x| + δ) := by
  induction l generalizing x with
  | nil =>
      refine ⟨x, rfl, ?_⟩
      rw [List.length_nil, pow_zero, one_mul]
      exact le_add_of_nonneg_right hδ
  | cons i l ih =>
      obtain ⟨hi, hrest⟩ := List.forall_mem_cons.mp hl
      have hone : (1 : K) ≤ 2 ^ (i :: l).length := one_le_pow₀ one_le_two
      have hxb : |x| ≤ b := by
        have hscaled := le_mul_of_one_le_left (add_nonneg (abs_nonneg x) hδ) hone
        linarith
      obtain ⟨s, hs, hsle⟩ := hi x hxb
      have hgrow : 2 ^ l.length * (|s| + δ) ≤ 2 ^ (i :: l).length * (|x| + δ) := by
        rw [List.length_cons, pow_succ, mul_assoc]
        refine mul_le_mul_of_nonneg_left ?_ (pow_nonneg zero_le_two _)
        linarith
      obtain ⟨r, hr, hrle⟩ := ih hrest (hgrow.trans hx)
      refine ⟨r, ?_, hrle.trans hgrow⟩
      rw [List.foldlM_cons, hs]
      exact hr

/-- **A sum that is rounded at each step**, as far as the steps can be made. -/
theorem near_foldlM {ι : Type*} {op : K → ι → Option K} {exact mass offset : ι → K} (hu : 0 ≤ u)
    (hδ : 0 ≤ δ) (l : List ι) (hc : 0 ≤ c)
    (hl : ∀ i ∈ l, 0 ≤ offset i ∧ ∀ s r, op s i = some r →
      ∃ t, Near c (offset i) (mass i) (exact i) t ∧ |r - (s + t)| ≤ u * |s + t| + δ)
    (h : Near c η m x x') (hr : l.foldlM op x' = some r) :
    Near (c * (1 + u) ^ l.length) ((η + (l.map fun i => offset i + δ).sum) * (1 + u) ^ l.length)
      (m + (l.map mass).sum) (x + (l.map exact).sum) r := by
  induction l generalizing c η m x x' with
  | nil =>
      obtain rfl := Option.some.inj hr
      simp only [List.length_nil, pow_zero, mul_one, List.map_nil, List.sum_nil, add_zero]
      exact h
  | cons i l ih =>
      obtain ⟨⟨hoffset, hi⟩, hrest⟩ := List.forall_mem_cons.mp hl
      rw [List.foldlM_cons] at hr
      obtain ⟨s, hs, hr⟩ := Option.bind_eq_some_iff.mp hr
      obtain ⟨t, ht, hround⟩ := hi x' s hs
      have hone : 1 ≤ 1 + u := le_add_of_nonneg_right hu
      have hgrow : δ ≤ δ * (1 + u) := le_mul_of_one_le_right hδ hone
      have hfirst : Near (c * (1 + u)) ((η + (offset i + δ)) * (1 + u)) (m + mass i) (x + exact i) s :=
        ((h.add ht).of_relative hu hround).mono le_rfl (by linarith)
      have hgrown : ∀ j ∈ l, 0 ≤ offset j ∧ ∀ s r, op s j = some r →
          ∃ t, Near (c * (1 + u)) (offset j) (mass j) (exact j) t ∧
            |r - (s + t)| ≤ u * |s + t| + δ := by
        intro j hj
        refine ⟨(hrest j hj).1, fun s r hsr => ?_⟩
        obtain ⟨t, ht, hround⟩ := (hrest j hj).2 s r hsr
        exact ⟨t, ht.mono (le_mul_of_one_le_right hc hone) le_rfl, hround⟩
      have hsum := ih (mul_nonneg hc (zero_le_one.trans hone)) hgrown hfirst hr
      have hoffsets : 0 ≤ (l.map fun j => offset j + δ).sum := by
        apply List.sum_nonneg
        rintro _ hmem
        obtain ⟨j, hj, rfl⟩ := List.mem_map.mp hmem
        exact add_nonneg (hrest j hj).1 hδ
      rw [List.length_cons, List.map_cons, List.sum_cons, List.map_cons, List.sum_cons,
        List.map_cons, List.sum_cons, ← add_assoc η, ← add_assoc m, ← add_assoc x, pow_succ']
      refine Near.mono hsum (mul_assoc _ _ _).le ?_
      have hpower : 0 ≤ (1 + u) ^ l.length := pow_nonneg (zero_le_one.trans hone) _
      have hscaled : (l.map fun j => offset j + δ).sum ≤
          (l.map fun j => offset j + δ).sum * (1 + u) :=
        le_mul_of_one_le_right hoffsets hone
      calc ((η + (offset i + δ)) * (1 + u) + (l.map fun j => offset j + δ).sum) *
            (1 + u) ^ l.length
          ≤ ((η + (offset i + δ)) * (1 + u) + (l.map fun j => offset j + δ).sum * (1 + u)) *
              (1 + u) ^ l.length :=
            mul_le_mul_of_nonneg_right (by linarith) hpower
        _ = (η + (offset i + δ) + (l.map fun j => offset j + δ).sum) *
              ((1 + u) * (1 + u) ^ l.length) := by ring

end FloatRounding
