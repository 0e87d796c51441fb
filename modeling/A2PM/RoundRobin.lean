/-
A2PM/RoundRobin.lean

Turns taken in order: things are dealt to `n` players one at a time, the
first to player 0.

After `d` things player `i` has `share n d i`.  The next thing goes to player
`d % n` (`share_succ`), who has the least (`share_next`), so that two shares
differ by one at most (`share_le_succ`) and none exceeds `k` while at most
`n * k` things have been dealt (`share_le`).  The cursor that finds the next
player may be set back as late as at the next turn (`wrap_succ`).
-/
import Mathlib.Tactic.Ring

namespace RoundRobin

/-- What player `i` has after `d` things. -/
def share (n d i : ℕ) : ℕ := (d + (n - 1 - i)) / n

theorem share_zero {n i : ℕ} (h : i < n) : share n 0 i = 0 :=
  Nat.div_eq_of_lt (by omega)

/-- Thing number `d` goes to player `d % n`. -/
theorem share_succ {n i : ℕ} (h : i < n) (d : ℕ) :
    share n (d + 1) i = share n d i + if i = d % n then 1 else 0 := by
  have hturn : n ∣ d + (n - 1 - i) + 1 ↔ i = d % n := by
    have hdm := Nat.div_add_mod d n
    have hlt := Nat.mod_lt d (Nat.zero_lt_of_lt h)
    constructor
    · rintro ⟨k, hk⟩
      have hsum : n * k = n * (d / n) + d % n + (n - i) := by omega
      -- the last two summands are between 1 and 2n
      rcases Nat.lt_trichotomy k (d / n + 1) with hlow | rfl | hhigh
      · have := Nat.mul_le_mul_left n (Nat.le_of_lt_succ hlow)
        omega
      · rw [Nat.mul_succ] at hsum
        omega
      · have := Nat.mul_le_mul_left n (Nat.succ_le_of_lt hhigh)
        rw [Nat.mul_succ, Nat.mul_succ] at this
        omega
    · intro hi
      refine ⟨d / n + 1, ?_⟩
      rw [Nat.mul_succ]
      omega
  have hnext : d + 1 + (n - 1 - i) = d + (n - 1 - i) + 1 := by omega
  rw [share, share, hnext, Nat.succ_div]
  congr 1
  exact if_congr hturn rfl rfl

/-- The next player has had as many turns as there have been full rounds. -/
theorem share_next {n : ℕ} (h : 0 < n) (d : ℕ) : share n d (d % n) = d / n := by
  have hdm := Nat.div_add_mod d n
  have hlt := Nat.mod_lt d h
  have hsum : d + (n - 1 - d % n) = n * (d / n) + (n - 1) := by omega
  rw [share, hsum, Nat.mul_add_div h, Nat.div_eq_of_lt (Nat.sub_lt h Nat.one_pos), Nat.add_zero]

theorem share_le {n d k : ℕ} (h : 0 < n) (hd : d ≤ n * k) (i : ℕ) : share n d i ≤ k := by
  rw [share]
  refine Nat.le_of_lt_succ ((Nat.div_lt_iff_lt_mul h).mpr ?_)
  rw [Nat.succ_mul, Nat.mul_comm k n]
  omega

/-- No player is ahead of another one by more than one thing. -/
theorem share_le_succ {n : ℕ} (h : 0 < n) (d i j : ℕ) : share n d i ≤ share n d j + 1 := by
  calc share n d i ≤ (d + n) / n := Nat.div_le_div_right (by omega)
    _ = d / n + 1 := Nat.add_div_right d h
    _ ≤ share n d j + 1 := Nat.succ_le_succ (Nat.div_le_div_right (Nat.le_add_right _ _))

/-- A cursor behind the last player stands for the first one. -/
def wrap (n c : ℕ) : ℕ := if c = n then 0 else c

theorem wrap_mod {n : ℕ} (h : 0 < n) (d : ℕ) : wrap n (d % n) = d % n :=
  if_neg (Nat.mod_lt d h).ne

theorem wrap_succ {n : ℕ} (h : 0 < n) (d : ℕ) : wrap n (d % n + 1) = (d + 1) % n := by
  have hlt : d % n + 1 ≤ n := Nat.mod_lt d h
  rw [wrap, ← Nat.mod_add_mod]
  split
  next hlast => rw [hlast, Nat.mod_self]
  next hbelow => rw [Nat.mod_eq_of_lt (Nat.lt_of_le_of_ne hlt hbelow)]

end RoundRobin
