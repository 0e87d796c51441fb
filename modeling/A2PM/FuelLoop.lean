/-
A2PM/FuelLoop.lean

A loop that leaves from its body: `while(1)` with a `break`.  The body of
iteration `k` turns the state into the next one or into a result.

`run` gives the loop a number of iterations; `Ends` says that some number is
enough.  Three rules: more iterations change nothing (`run_mono`), an
invariant under which the body never leaves shows that the loop does not end
(`run_eq_none`), and one under which it leaves at iteration `n` shows that it
does (`exists_run`).
-/
import Mathlib.Data.Nat.Notation
import Mathlib.Tactic.TypeStar

namespace A2PM.FuelLoop

variable {σ ρ : Type*} {body : ℕ → σ → σ ⊕ ρ}

/-- The loop from iteration `k` on, for at most `fuel` iterations. -/
def run (body : ℕ → σ → σ ⊕ ρ) : ℕ → ℕ → σ → Option ρ
  | 0, _, _ => none
  | fuel + 1, k, s =>
      match body k s with
      | .inl s' => run body fuel (k + 1) s'
      | .inr r => some r

/-- The loop ends. -/
def Ends (body : ℕ → σ → σ ⊕ ρ) (s : σ) : Prop := ∃ fuel r, run body fuel 0 s = some r

theorem run_inl {k : ℕ} {s s' : σ} (h : body k s = .inl s') (fuel : ℕ) :
    run body (fuel + 1) k s = run body fuel (k + 1) s' := by
  rw [run, h]

theorem run_inr {k : ℕ} {s : σ} {r : ρ} (h : body k s = .inr r) (fuel : ℕ) :
    run body (fuel + 1) k s = some r := by
  rw [run, h]

/-- Fuel is a bound only. -/
theorem run_mono {fuel k : ℕ} {s : σ} {r : ρ} (h : run body fuel k s = some r) (extra : ℕ) :
    run body (fuel + extra) k s = some r := by
  induction fuel generalizing k s with
  | zero => simp [run] at h
  | succ fuel ih =>
      rw [Nat.add_right_comm]
      rcases e : body k s with s' | r'
      · rw [run_inl e] at h ⊢
        exact ih h
      · rw [run_inr e] at h ⊢
        exact h

/-- A body that keeps an invariant and never leaves under it. -/
theorem run_eq_none (Inv : ℕ → σ → Prop)
    (hstep : ∀ k s, Inv k s → ∃ s', body k s = .inl s' ∧ Inv (k + 1) s') (fuel : ℕ) {k : ℕ}
    {s : σ} (h : Inv k s) : run body fuel k s = none := by
  induction fuel generalizing k s with
  | zero => rfl
  | succ fuel ih =>
      obtain ⟨s', hs', hinv⟩ := hstep k s h
      rw [run_inl hs']
      exact ih hinv

/-- A body that keeps an invariant up to iteration `n` and leaves there. -/
theorem exists_run (Inv : ℕ → σ → Prop) {Post : ρ → Prop} {n : ℕ}
    (hstep : ∀ k s, k < n → Inv k s → ∃ s', body k s = .inl s' ∧ Inv (k + 1) s')
    (hexit : ∀ s, Inv n s → ∃ r, body n s = .inr r ∧ Post r) {k : ℕ} {s : σ} (hk : k ≤ n)
    (h : Inv k s) : ∃ fuel r, run body fuel k s = some r ∧ Post r := by
  -- induction on the number of iterations left
  induction hd : n - k generalizing k s with
  | zero =>
      obtain rfl : k = n := by omega
      obtain ⟨r, hr, hpost⟩ := hexit s h
      exact ⟨1, r, run_inr hr 0, hpost⟩
  | succ d ih =>
      obtain ⟨s', hs', hinv⟩ := hstep k s (by omega) h
      obtain ⟨fuel, r, hr, hpost⟩ := ih (by omega) hinv (by omega)
      exact ⟨fuel + 1, r, by rw [run_inl hs', hr], hpost⟩

/-- What holds of every result: the body keeps the invariant, and leaves with
`Post`. -/
theorem run_inv (Inv : ℕ → σ → Prop) (Post : ρ → Prop)
    (hstep : ∀ k s s', Inv k s → body k s = .inl s' → Inv (k + 1) s')
    (hexit : ∀ k s r, Inv k s → body k s = .inr r → Post r) {fuel k : ℕ} {s : σ} {r : ρ}
    (h : Inv k s) (hr : run body fuel k s = some r) : Post r := by
  induction fuel generalizing k s with
  | zero => simp [run] at hr
  | succ fuel ih =>
      rcases e : body k s with s' | r'
      · rw [run_inl e] at hr
        exact ih (hstep k s s' h e) hr
      · rw [run_inr e] at hr
        cases hr
        exact hexit k s _ h e

end A2PM.FuelLoop
