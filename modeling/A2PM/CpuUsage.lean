/-
A2PM/CpuUsage.lean

The CPU usage of `get_features` in `controller/client.c`, from two readings of the
counters of `/proc/stat`, with the arithmetic of `unsigned long`, `float` and
`double`.

The counters run from the start of the machine, and their sums are converted to
`float` before they are subtracted.  While the sums have 24 bits the percentages
are right, if no counter has decreased (`usage_mem_iff`).  Beyond, the total is a
multiple of a power of two that grows with the sums: when it has come above the
ticks between the readings, the total is 0 or that power (`cpuTotal_coarse`).

`none` stands for an infinity, or for no number.
-/
import A2PM.FloatRounding
import Mathlib.Algebra.Order.Ring.Rat
import Mathlib.Data.BitVec
import Mathlib.Data.Rat.Floor
import Mathlib.Tactic.NormNum
import Mathlib.Tactic.Ring

namespace A2PM.Client

open FloatRounding

/-- A counter that becomes a percentage. -/
inductive Cpu
  | user | nice | system | iowait | steal | idle
  deriving DecidableEq

/-- The numbers of the first line of `/proc/stat`. -/
structure Stat where
  cpu : Cpu → BitVec 64
  dummyA : BitVec 64
  dummyB : BitVec 64
  dummyC : BitVec 64
  dummyD : BitVec 64

/-- The sum that goes into `cpu_total`. -/
def Stat.total (s : Stat) : BitVec 64 :=
  s.cpu .user + s.cpu .nice + s.cpu .system + s.cpu .idle + s.cpu .iowait + s.dummyA + s.dummyB +
    s.cpu .steal + s.dummyC + s.dummyD

/-- A conversion to `float`, or an operation on `float`s. -/
def float (q : ℚ) : ℚ := rnd 24 q

/-- An operation on `double`s. -/
def double (q : ℚ) : ℚ := rnd 53 q

/-- `cpu_total`. -/
def cpuTotal (first second : Stat) : ℚ :=
  float (float second.total.toNat - float first.total.toNat)

/-- `cpu_user` and the others. -/
def usage (first second : Stat) (c : Cpu) : Option ℚ :=
  if cpuTotal first second = 0 then none
  else some (float (double (double (float (second.cpu c - first.cpu c).toNat * 100) /
    cpuTotal first second)))

/-! ### The sums -/

def sumCpu (f : Cpu → ℕ) : ℕ :=
  f .user + f .nice + f .system + f .idle + f .iowait + f .steal

/-- The ticks that are not reported. -/
def Stat.dummies (s : Stat) : ℕ :=
  s.dummyA.toNat + s.dummyB.toNat + s.dummyC.toNat + s.dummyD.toNat

/-- All ticks of a reading. -/
def Stat.ticks (s : Stat) : ℕ := sumCpu (fun c => (s.cpu c).toNat) + s.dummies

theorem le_sumCpu (f : Cpu → ℕ) (c : Cpu) : f c ≤ sumCpu f := by
  rw [sumCpu]
  cases c <;> omega

theorem sub_le_sumCpu_sub {f g : Cpu → ℕ} (h : ∀ c, f c ≤ g c) (c : Cpu) :
    g c - f c ≤ sumCpu g - sumCpu f := by
  have huser := h .user
  have hnice := h .nice
  have hsystem := h .system
  have hidle := h .idle
  have hiowait := h .iowait
  have hsteal := h .steal
  rw [sumCpu, sumCpu]
  cases c <;> omega

theorem total_toNat {s : Stat} (h : s.ticks < 2 ^ 64) : s.total.toNat = s.ticks := by
  have hsum : s.ticks = (s.cpu .user).toNat + (s.cpu .nice).toNat + (s.cpu .system).toNat +
      (s.cpu .idle).toNat + (s.cpu .iowait).toNat + s.dummyA.toNat + s.dummyB.toNat +
      (s.cpu .steal).toNat + s.dummyC.toNat + s.dummyD.toNat := by
    rw [Stat.ticks, sumCpu, Stat.dummies]
    ring
  rw [hsum] at h ⊢
  simp only [Stat.total, BitVec.toNat_add, Nat.mod_add_mod]
  exact Nat.mod_eq_of_lt h

theorem cpu_le_ticks (s : Stat) (c : Cpu) : (s.cpu c).toNat ≤ s.ticks :=
  (le_sumCpu (fun c => (s.cpu c).toNat) c).trans (Nat.le_add_right _ _)

theorem float_natCast {n : ℕ} (h : n ≤ 2 ^ 24) : float n = n := by
  have hrep : Representable 24 ((n : ℤ) : ℚ) := representable_intCast (by
    rw [Nat.abs_cast]
    exact_mod_cast h)
  exact hrep.rnd_eq (by decide)

theorem double_natCast {n : ℕ} (h : n ≤ 2 ^ 53) : double n = n := by
  have hrep : Representable 53 ((n : ℤ) : ℚ) := representable_intCast (by
    rw [Nat.abs_cast]
    exact_mod_cast h)
  exact hrep.rnd_eq (by decide)

/-- Sums of 24 bits are subtracted exactly. -/
theorem cpuTotal_eq {first second : Stat} (hlt : first.ticks ≤ second.ticks)
    (h : second.ticks ≤ 2 ^ 24) : cpuTotal first second = (second.ticks - first.ticks : ℕ) := by
  rw [cpuTotal, total_toNat (by omega), total_toNat (by omega), float_natCast h,
    float_natCast (by omega), ← Nat.cast_sub hlt, float_natCast (by omega)]

/-! ### Small sums -/

variable {first second : Stat} {c : Cpu}

/-- The total of a short time does not vanish. -/
theorem usage_eq (hlt : first.ticks < second.ticks) (h : second.ticks ≤ 2 ^ 24) (c : Cpu) :
    usage first second c = some (float (double (double (float (second.cpu c - first.cpu c).toNat *
      100) / (second.ticks - first.ticks : ℕ)))) := by
  have htotal := cpuTotal_eq hlt.le h
  have hne : cpuTotal first second ≠ 0 := by
    rw [htotal, Nat.cast_ne_zero]
    omega
  rw [usage, if_neg hne, htotal]

/-- What is left of an exact percentage. -/
def rounded (q : ℚ) : ℚ := float (double q)

theorem rounded_nonneg {q : ℚ} (hq : 0 ≤ q) : 0 ≤ rounded q := rnd_nonneg (rnd_nonneg hq)

theorem rounded_le_hundred {q : ℚ} (hq : 0 ≤ q) (hle : q ≤ 100) : rounded q ≤ 100 := by
  have hrep (p : ℕ) (hp : 7 ≤ p) : Representable p (100 : ℚ) := by
    refine ⟨100, 0, ?_, by norm_num⟩
    calc (|100| : ℤ) ≤ 2 ^ 7 := by decide
      _ ≤ 2 ^ p := pow_le_pow_right₀ (by decide) hp
  exact (hrep 24 (by decide)).rnd_le (by decide) (rnd_nonneg hq)
    ((hrep 53 (by decide)).rnd_le (by decide) hq hle)

/-- The error of two roundings. -/
theorem abs_rounded_sub_le {q : ℚ} (hq : 0 ≤ q) : |rounded q - q| ≤ q / 2 ^ 23 := by
  have hnonneg : 0 ≤ double q := rnd_nonneg hq
  have hdouble : |double q - q| * 2 ^ 53 ≤ |q| := abs_rnd_sub_le 53 q
  have hfloat : |rounded q - double q| * 2 ^ 24 ≤ |double q| := abs_rnd_sub_le 24 (double q)
  rw [abs_of_nonneg hnonneg] at hfloat
  rw [abs_of_nonneg hq] at hdouble
  have hsum : |rounded q - q| ≤ |rounded q - double q| + |double q - q| := abs_sub_le _ _ _
  have hbound : double q ≤ q + |double q - q| := by linarith [le_abs_self (double q - q)]
  rw [le_div_iff₀ (by norm_num)]
  norm_num at hfloat hdouble ⊢
  linarith

/-- A counter that has not decreased. -/
theorem usage_of_le (hlt : first.ticks < second.ticks) (h : second.ticks ≤ 2 ^ 24)
    (hc : (first.cpu c).toNat ≤ (second.cpu c).toNat) :
    usage first second c = some (rounded
      (((second.cpu c).toNat - (first.cpu c).toNat : ℕ) * 100 /
        (second.ticks - first.ticks : ℕ))) := by
  have hsub : (second.cpu c - first.cpu c).toNat =
      (second.cpu c).toNat - (first.cpu c).toNat := BitVec.toNat_sub_of_le hc
  have hle := cpu_le_ticks second c
  have hdouble : double ((((second.cpu c).toNat - (first.cpu c).toNat : ℕ) : ℚ) * 100) =
      (((second.cpu c).toNat - (first.cpu c).toNat : ℕ) : ℚ) * 100 := by
    have hcast := double_natCast (n := ((second.cpu c).toNat - (first.cpu c).toNat) * 100) (by omega)
    rwa [Nat.cast_mul] at hcast
  rw [usage_eq hlt h, hsub, float_natCast (by omega), hdouble]
  rfl

/-- A counter that has decreased wraps. -/
theorem hundred_lt_of_lt (hlt : first.ticks < second.ticks) (h : second.ticks ≤ 2 ^ 24)
    (hc : (second.cpu c).toNat < (first.cpu c).toNat) :
    ∃ q, usage first second c = some q ∧ 100 < q := by
  have hle := cpu_le_ticks first c
  have hwrap : 2 ^ 63 ≤ (second.cpu c - first.cpu c).toNat := by
    rw [BitVec.toNat_sub]
    omega
  refine ⟨_, usage_eq hlt h c, ?_⟩
  generalize (second.cpu c - first.cpu c).toNat = n at hwrap
  have hn : (2 : ℚ) ^ 63 ≤ n := by exact_mod_cast hwrap
  have htime : ((second.ticks - first.ticks : ℕ) : ℚ) ≤ 2 ^ 24 := by
    exact_mod_cast (Nat.sub_le _ _).trans h
  have hpos : (0 : ℚ) < (second.ticks - first.ticks : ℕ) := Nat.cast_pos.mpr (Nat.sub_pos_of_lt hlt)
  generalize ((second.ticks - first.ticks : ℕ) : ℚ) = t at htime hpos
  -- each operation leaves at least half
  have hfloat : 2 ^ 62 ≤ float n := by
    calc (2 : ℚ) ^ 62 = 2 ^ 63 / 2 := by norm_num
      _ ≤ (n : ℚ) / 2 := div_le_div_of_nonneg_right hn zero_le_two
      _ ≤ float n := half_le_rnd (by decide) (Nat.cast_nonneg n)
  have hmul : 2 ^ 61 * 100 ≤ double (float n * 100) := by
    have hhalf : float n * 100 / 2 ≤ double (float n * 100) :=
      half_le_rnd (by decide) (by norm_num at hfloat; linarith)
    norm_num at hfloat ⊢
    linarith
  have hdiv : 2 ^ 37 * 100 ≤ double (float n * 100) / t := by
    rw [le_div_iff₀ hpos]
    norm_num at hmul htime ⊢
    linarith
  have hquotient : double (float n * 100) / t / 2 ≤ double (double (float n * 100) / t) :=
    half_le_rnd (by decide) (by norm_num at hdiv; linarith)
  have hresult : double (double (float n * 100) / t) / 2 ≤
      float (double (double (float n * 100) / t)) :=
    half_le_rnd (by decide) (by norm_num at hdiv; linarith)
  norm_num at hdiv
  linarith

/-- A percentage is one, and near the one it stands for, if the counter has not decreased
and no other one has. -/
theorem usage_near (hlt : first.ticks < second.ticks) (h : second.ticks ≤ 2 ^ 24)
    (hc : (first.cpu c).toNat ≤ (second.cpu c).toNat)
    (hshare : (second.cpu c).toNat - (first.cpu c).toNat ≤ second.ticks - first.ticks) :
    ∃ q, usage first second c = some q ∧ 0 ≤ q ∧ q ≤ 100 ∧
      |q - ((second.cpu c).toNat - (first.cpu c).toNat : ℕ) * 100 /
          (second.ticks - first.ticks : ℕ)| ≤
        ((second.cpu c).toNat - (first.cpu c).toNat : ℕ) * 100 /
          (second.ticks - first.ticks : ℕ) / 2 ^ 23 := by
  have hpos : (0 : ℚ) < (second.ticks - first.ticks : ℕ) := Nat.cast_pos.mpr (Nat.sub_pos_of_lt hlt)
  have hnonneg : (0 : ℚ) ≤ ((second.cpu c).toNat - (first.cpu c).toNat : ℕ) * 100 /
      (second.ticks - first.ticks : ℕ) :=
    div_nonneg (mul_nonneg (Nat.cast_nonneg _) (by norm_num)) hpos.le
  have hle : ((second.cpu c).toNat - (first.cpu c).toNat : ℕ) * 100 /
      ((second.ticks - first.ticks : ℕ) : ℚ) ≤ 100 := by
    rw [div_le_iff₀ hpos, mul_comm]
    exact mul_le_mul_of_nonneg_left (Nat.cast_le.mpr hshare) (by norm_num)
  exact ⟨_, usage_of_le hlt h hc, rounded_nonneg hnonneg, rounded_le_hundred hnonneg hle,
    abs_rounded_sub_le hnonneg⟩

/-- No counter has decreased. -/
theorem share_le (hdummies : first.dummies ≤ second.dummies)
    (hcpu : ∀ c, (first.cpu c).toNat ≤ (second.cpu c).toNat) (c : Cpu) :
    (second.cpu c).toNat - (first.cpu c).toNat ≤ second.ticks - first.ticks := by
  have h := sub_le_sumCpu_sub hcpu c
  rw [Stat.ticks, Stat.ticks]
  omega

/-- **The percentages are percentages** exactly if no counter has decreased, and then they
are right up to a `2 ^ 23`-th: while the sums have 24 bits. -/
theorem usage_mem_iff (hlt : first.ticks < second.ticks) (h : second.ticks ≤ 2 ^ 24)
    (hdummies : first.dummies ≤ second.dummies) :
    ((∀ c, ∃ q, usage first second c = some q ∧ 0 ≤ q ∧ q ≤ 100) ↔
        ∀ c, (first.cpu c).toNat ≤ (second.cpu c).toNat) ∧
      ((∀ c, (first.cpu c).toNat ≤ (second.cpu c).toNat) →
        ∀ c, ∃ q, usage first second c = some q ∧
          |q - ((second.cpu c).toNat - (first.cpu c).toNat : ℕ) * 100 /
              (second.ticks - first.ticks : ℕ)| ≤
            ((second.cpu c).toNat - (first.cpu c).toNat : ℕ) * 100 /
              (second.ticks - first.ticks : ℕ) / 2 ^ 23) := by
  refine ⟨⟨fun hall c => ?_, fun hcpu c => ?_⟩, fun hcpu c => ?_⟩
  · by_contra hless
    obtain ⟨q, hq, hlarge⟩ := hundred_lt_of_lt hlt h (not_le.mp hless)
    obtain ⟨q', hq', -, hle⟩ := hall c
    rw [hq, Option.some.injEq] at hq'
    rw [hq'] at hlarge
    exact hlarge.not_ge hle
  · obtain ⟨q, hq, hnonneg, hle, -⟩ := usage_near hlt h (hcpu c) (share_le hdummies hcpu c)
    exact ⟨q, hq, hnonneg, hle⟩
  · obtain ⟨q, hq, -, -, herror⟩ := usage_near hlt h (hcpu c) (share_le hdummies hcpu c)
    exact ⟨q, hq, herror⟩

/-- A hundred ticks, of which ten were used. -/
def stat (user idle : ℕ) : Stat where
  cpu := fun c => match c with
    | .user => user
    | .idle => idle
    | _ => 0
  dummyA := 0
  dummyB := 0
  dummyC := 0
  dummyD := 0

theorem usage_mem_iff_stat :
    ((∀ c, ∃ q, usage (stat 10 90) (stat 20 180) c = some q ∧ 0 ≤ q ∧ q ≤ 100) ↔
        ∀ c, ((stat 10 90).cpu c).toNat ≤ ((stat 20 180).cpu c).toNat) ∧
      ((∀ c, ((stat 10 90).cpu c).toNat ≤ ((stat 20 180).cpu c).toNat) →
        ∀ c, ∃ q, usage (stat 10 90) (stat 20 180) c = some q ∧
          |q - (((stat 20 180).cpu c).toNat - ((stat 10 90).cpu c).toNat : ℕ) * 100 /
              ((stat 20 180).ticks - (stat 10 90).ticks : ℕ)| ≤
            (((stat 20 180).cpu c).toNat - ((stat 10 90).cpu c).toNat : ℕ) * 100 /
              ((stat 20 180).ticks - (stat 10 90).ticks : ℕ) / 2 ^ 23) :=
  usage_mem_iff (by decide) (by decide) (by decide)

/-! ### Large sums -/

/-- A sum of `k + 1` bits as a `float`. -/
theorem float_of_bits {n k : ℕ} (hk : 24 ≤ k) (hlow : 2 ^ k ≤ n) (hhigh : n < 2 ^ (k + 1)) :
    float n = nearestEven ((n : ℚ) / 2 ^ (k - 23)) * 2 ^ (k - 23) := by
  have hlog : Int.log 2 |(n : ℚ)| = k := by
    rw [Nat.abs_cast, Int.log_natCast, Nat.log_eq_of_pow_le_of_lt_pow hlow hhigh]
  have hquantum : quantum 24 (n : ℚ) = 2 ^ (k - 23) := by
    rw [quantum, hlog, Nat.cast_ofNat, ← zpow_natCast]
    congr 1
    omega
  rw [float, rnd, hquantum]

/-- **The total is coarse** when the sums are large: it is 0, and there are no percentages, or
more than the ticks that have passed. -/
theorem cpuTotal_coarse {k : ℕ} (hk : 24 ≤ k) (hk' : k < 64) (hlow : 2 ^ k ≤ first.ticks)
    (hle : first.ticks ≤ second.ticks) (hhigh : second.ticks < 2 ^ (k + 1))
    (hfast : second.ticks - first.ticks < 2 ^ (k - 23)) :
    cpuTotal first second = 0 ∧ (∀ c, usage first second c = none) ∨
      cpuTotal first second = 2 ^ (k - 23) := by
  have hwords : 2 ^ (k + 1) ≤ 2 ^ 64 := Nat.pow_le_pow_right two_pos (by omega)
  have hQ : (0 : ℚ) < 2 ^ (k - 23) := by positivity
  have hfirst := float_of_bits hk hlow (hle.trans_lt hhigh)
  have hsecond := float_of_bits hk (hlow.trans hle) hhigh
  have hcast : (second.ticks : ℚ) < first.ticks + 2 ^ (k - 23) := by
    exact_mod_cast (by omega : second.ticks < first.ticks + 2 ^ (k - 23))
  have hquotient : (second.ticks : ℚ) / 2 ^ (k - 23) < first.ticks / 2 ^ (k - 23) + 1 := by
    rw [div_add_one hQ.ne']
    exact div_lt_div_of_pos_right hcast hQ
  have hmono : nearestEven ((first.ticks : ℚ) / 2 ^ (k - 23)) ≤
      nearestEven ((second.ticks : ℚ) / 2 ^ (k - 23)) :=
    nearestEven_mono (div_le_div_of_nonneg_right (Nat.cast_le.mpr hle) hQ.le)
  have hnear := nearestEven_lt_add_two hquotient
  have htotal : cpuTotal first second =
      float ((nearestEven ((second.ticks : ℚ) / 2 ^ (k - 23)) -
        nearestEven ((first.ticks : ℚ) / 2 ^ (k - 23)) : ℤ) * 2 ^ (k - 23)) := by
    rw [cpuTotal, total_toNat (by omega), total_toNat (by omega), hfirst, hsecond, ← sub_mul,
      ← Int.cast_sub]
  -- the sums are rounded to one multiple, or to neighbours
  obtain hsame | hnext : nearestEven ((second.ticks : ℚ) / 2 ^ (k - 23)) -
      nearestEven ((first.ticks : ℚ) / 2 ^ (k - 23)) = 0 ∨
    nearestEven ((second.ticks : ℚ) / 2 ^ (k - 23)) -
      nearestEven ((first.ticks : ℚ) / 2 ^ (k - 23)) = 1 := by omega
  · have hzero : cpuTotal first second = 0 := by
      have hfloat : float ((0 : ℕ) : ℚ) = (0 : ℕ) := float_natCast (Nat.zero_le _)
      rw [Nat.cast_zero] at hfloat
      rw [htotal, hsame, Int.cast_zero, zero_mul, hfloat]
    exact .inl ⟨hzero, fun c => if_pos hzero⟩
  · have hrep : Representable 24 ((2 : ℚ) ^ (k - 23)) := by
      refine ⟨1, (k - 23 : ℕ), by decide, ?_⟩
      rw [zpow_natCast, Nat.cast_ofNat, Int.cast_one, one_mul]
    refine .inr ?_
    rw [htotal, hnext, Int.cast_one, one_mul]
    exact hrep.rnd_eq (by decide)

/-- A hundred ticks of a processor that has been on for most of a year. -/
theorem cpuTotal_coarse_stat :
    cpuTotal (stat (2 ^ 31) 0) (stat (2 ^ 31) 100) = 0 ∧
        (∀ c, usage (stat (2 ^ 31) 0) (stat (2 ^ 31) 100) c = none) ∨
      cpuTotal (stat (2 ^ 31) 0) (stat (2 ^ 31) 100) = 2 ^ (31 - 23) :=
  cpuTotal_coarse (by decide) (by decide) (by decide) (by decide) (by decide) (by decide)

end A2PM.Client
