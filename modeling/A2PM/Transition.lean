/-
A2PM/Transition.lean

Partial labelled transition systems, given by an executable step function
`step : σ → ι → Option σ` (`none`: the label is not enabled in the state).

Three kinds of statement are made about such a system, and each has its
induction here, once:

* an invariant of every reachable state (`invariant_of_step`);
* an invariant of the runs whose steps all meet a condition `C` on the state
  before the step and its label (`along_of_allSteps`), with the exact
  form `along_iff_allSteps` for the case where a step from a good state
  leads to a good state *iff* it meets `C`; `Attempts` is for conditions
  that a step may fail by not being possible;
* progress: a goal that other steps cannot undo is reached after boundedly
  many steps of one kind (`goal_of_countP`).

`StepPath p` is the relation "some steps, all with labels in `p`, lead from
`s` to `t`"; it is what a liveness statement asks to exist.
-/
import Mathlib.Data.List.Basic
import Mathlib.Logic.Relation

namespace Transition

variable {σ ι : Type*}

/-! ### Runs -/

/-- The state that a list of labels leads to, if each step can be taken. -/
def run (step : σ → ι → Option σ) : σ → List ι → Option σ
  | s, [] => some s
  | s, l :: ls => (step s l).bind fun t => run step t ls

variable {step : σ → ι → Option σ}

@[simp] theorem run_nil (s : σ) : run step s [] = some s := rfl

@[simp] theorem run_cons (s : σ) (l : ι) (ls : List ι) :
    run step s (l :: ls) = (step s l).bind fun t => run step t ls := rfl

theorem run_cons_eq_some {s u : σ} {l : ι} {ls : List ι} :
    run step s (l :: ls) = some u ↔ ∃ t, step s l = some t ∧ run step t ls = some u := by
  simp [Option.bind_eq_some_iff]

theorem run_append (s : σ) (ls ms : List ι) :
    run step s (ls ++ ms) = (run step s ls).bind fun t => run step t ms := by
  induction ls generalizing s with
  | nil => rfl
  | cons l ls ih =>
      cases h : step s l with
      | none => simp [h]
      | some t => simp [h, ih]

theorem run_trans {s t u : σ} {ls ms : List ι} (h₁ : run step s ls = some t)
    (h₂ : run step t ms = some u) : run step s (ls ++ ms) = some u := by
  rw [run_append, h₁]
  exact h₂

/-- `s` is reachable from `s₀`. -/
def Reachable (step : σ → ι → Option σ) (s₀ s : σ) : Prop :=
  ∃ ls, run step s₀ ls = some s

/-! ### Invariants -/

/-- A property that one step preserves is preserved by a run. -/
theorem invariant_of_run {P : σ → Prop}
    (hstep : ∀ s l t, P s → step s l = some t → P t) {s t : σ} {ls : List ι}
    (hs : P s) (h : run step s ls = some t) : P t := by
  induction ls generalizing s with
  | nil =>
      obtain rfl := Option.some.inj h
      exact hs
  | cons l ls ih =>
      obtain ⟨u, hu, hrest⟩ := run_cons_eq_some.mp h
      exact ih (hstep s l u hs hu) hrest

/-- The invariant rule: initially true and preserved by each step. -/
theorem invariant_of_step {P : σ → Prop} {s₀ : σ} (h₀ : P s₀)
    (hstep : ∀ s l t, P s → step s l = some t → P t) {s : σ}
    (h : Reachable step s₀ s) : P s := by
  obtain ⟨ls, hls⟩ := h
  exact invariant_of_run hstep h₀ hls

/-- **Simulation.**  If the second system can follow each step of the first one, it can
follow its runs. -/
theorem simulation_of_run {τ : Type*} {step' : τ → ι → Option τ} {R : τ → σ → Prop}
    (hstep : ∀ t s l t', R t s → step' t l = some t' → ∃ s', step s l = some s' ∧ R t' s')
    {t t' : τ} {s : σ} {ls : List ι} (hs : R t s) (h : run step' t ls = some t') :
    ∃ s', run step s ls = some s' ∧ R t' s' := by
  induction ls generalizing t s with
  | nil =>
      obtain rfl := Option.some.inj h
      exact ⟨s, rfl, hs⟩
  | cons l ls ih =>
      obtain ⟨u, hu, hrest⟩ := run_cons_eq_some.mp h
      obtain ⟨v, hv, hR⟩ := hstep t s l u hs hu
      obtain ⟨s', hs', hR'⟩ := ih hR hrest
      exact ⟨s', run_cons_eq_some.mpr ⟨v, hv, hs'⟩, hR'⟩

/-! ### Runs whose steps meet a condition -/

/-- Every step of the run `ls` from `s` meets `C` in the state it is taken. -/
def AllSteps (step : σ → ι → Option σ) (C : σ → ι → Prop) : σ → List ι → Prop
  | _, [] => True
  | s, l :: ls => ∀ t, step s l = some t → C s l ∧ AllSteps step C t ls

/-- `P` holds in every state that the run `ls` from `s` goes through. -/
def Along (step : σ → ι → Option σ) (P : σ → Prop) : σ → List ι → Prop
  | s, [] => P s
  | s, l :: ls => P s ∧ ∀ t, step s l = some t → Along step P t ls

instance AllSteps.decidable {C : σ → ι → Prop} [∀ s l, Decidable (C s l)] :
    ∀ s ls, Decidable (AllSteps step C s ls)
  | _, [] => .isTrue trivial
  | s, l :: ls =>
      match h : step s l with
      | none => .isTrue fun t ht => absurd (h.symm.trans ht) (Option.some_ne_none t).symm
      | some u =>
          haveI : Decidable (AllSteps step C u ls) := AllSteps.decidable u ls
          decidable_of_iff (C s l ∧ AllSteps step C u ls)
            ⟨fun hu _ ht => Option.some.inj (h.symm.trans ht) ▸ hu, fun hall => hall u h⟩

theorem Along.head {P : σ → Prop} {s : σ} {ls : List ι} (h : Along step P s ls) : P s := by
  cases ls with
  | nil => exact h
  | cons l ls => exact h.1

theorem Along.last {P : σ → Prop} {s t : σ} {ls : List ι} (h : Along step P s ls)
    (hr : run step s ls = some t) : P t := by
  induction ls generalizing s with
  | nil =>
      obtain rfl := Option.some.inj hr
      exact h
  | cons l ls ih =>
      obtain ⟨u, hu, hrest⟩ := run_cons_eq_some.mp hr
      exact ih (h.2 u hu) hrest

/-- A condition on the labels alone joins the others. -/
theorem AllSteps.and_forall {C : σ → ι → Prop} {D : ι → Prop} {s : σ} {ls : List ι}
    (h : AllSteps step C s ls) (hD : ∀ l ∈ ls, D l) :
    AllSteps step (fun s l => C s l ∧ D l) s ls := by
  induction ls generalizing s with
  | nil => trivial
  | cons l ls ih =>
      intro t ht
      exact ⟨⟨(h t ht).1, hD l List.mem_cons_self⟩,
        ih (h t ht).2 fun k hk => hD k (List.mem_cons_of_mem _ hk)⟩

theorem AllSteps.of_append_right {C : σ → ι → Prop} {s t : σ} {ls ms : List ι}
    (h : AllSteps step C s (ls ++ ms)) (hr : run step s ls = some t) : AllSteps step C t ms := by
  induction ls generalizing s with
  | nil =>
      obtain rfl := Option.some.inj hr
      exact h
  | cons l ls ih =>
      obtain ⟨u, hu, hrest⟩ := run_cons_eq_some.mp hr
      exact ih (h u hu).2 hrest

theorem allSteps_of_forall {C : σ → ι → Prop} {s : σ} {ls : List ι}
    (h : ∀ l ∈ ls, ∀ s, C s l) : AllSteps step C s ls := by
  induction ls generalizing s with
  | nil => trivial
  | cons l ls ih =>
      intro t _
      exact ⟨h l List.mem_cons_self s, ih fun k hk => h k (List.mem_cons_of_mem _ hk)⟩

theorem Along.mono {P Q : σ → Prop} (hPQ : ∀ s, P s → Q s) {s : σ} {ls : List ι}
    (h : Along step P s ls) : Along step Q s ls := by
  induction ls generalizing s with
  | nil => exact hPQ s h
  | cons l ls ih => exact ⟨hPQ s h.1, fun t ht => ih (h.2 t ht)⟩

/-- The conditional invariant rule. -/
theorem along_of_allSteps {P : σ → Prop} {C : σ → ι → Prop}
    (hstep : ∀ s l t, P s → C s l → step s l = some t → P t) {s : σ} {ls : List ι}
    (hs : P s) (h : AllSteps step C s ls) : Along step P s ls := by
  induction ls generalizing s with
  | nil => exact hs
  | cons l ls ih => exact ⟨hs, fun t ht => ih (hstep s l t hs (h t ht).1 ht) (h t ht).2⟩

/-- **Exact conditions.**  If the inductive invariant `I` is kept as long as
the steps meet `C`, gives `P`, and a step that does not meet `C` leads out of
`P`, then the runs along which `P` holds are those whose steps meet `C`. -/
theorem along_iff_allSteps {I P : σ → Prop} {C : σ → ι → Prop}
    (himp : ∀ s, I s → P s)
    (hkeep : ∀ s l t, I s → C s l → step s l = some t → I t)
    (hbreak : ∀ s l t, I s → step s l = some t → P t → C s l)
    {s : σ} {ls : List ι} (hs : I s) :
    Along step P s ls ↔ AllSteps step C s ls := by
  constructor
  · intro h
    induction ls generalizing s with
    | nil => trivial
    | cons l ls ih =>
        intro u hu
        have hP : Along step P u ls := h.2 u hu
        have hC : C s l := hbreak s l u hs hu hP.head
        exact ⟨hC, ih (hkeep s l u hs hC hu) hP⟩
  · intro h
    exact (along_of_allSteps hkeep hs h).mono himp

/-! ### What is attempted -/

/-- Every step that the run `ls` from `s` attempts meets `C`, the last one
too if it cannot be taken. -/
def Attempts (step : σ → ι → Option σ) (C : σ → ι → Prop) : σ → List ι → Prop
  | _, [] => True
  | s, l :: ls => C s l ∧ ∀ t, step s l = some t → Attempts step C t ls

/-- Where an invariant makes two conditions equal, so are they along the runs
that meet them; the invariant may depend on the first one. -/
theorem attempts_congr {I : σ → Prop} {C D : σ → ι → Prop}
    (hkeep : ∀ s l t, I s → C s l → step s l = some t → I t)
    (hCD : ∀ s l, I s → (C s l ↔ D s l)) {s : σ} {ls : List ι} (hs : I s) :
    Attempts step C s ls ↔ Attempts step D s ls := by
  induction ls generalizing s with
  | nil => exact Iff.rfl
  | cons l ls ih =>
      rw [Attempts, Attempts, ← hCD s l hs]
      refine and_congr_right fun hC => forall_congr' fun t => imp_congr_right fun ht => ?_
      exact ih (hkeep s l t hs hC ht)

/-- An invariant that needs a condition on the labels. -/
theorem attempts_of_forall {I : σ → Prop} {C : σ → ι → Prop} {D : ι → Prop}
    (hkeep : ∀ s l t, I s → D l → step s l = some t → I t)
    (hC : ∀ s l, I s → D l → C s l) {s : σ} {ls : List ι} (hs : I s)
    (hD : ∀ l ∈ ls, D l) : Attempts step C s ls := by
  induction ls generalizing s with
  | nil => trivial
  | cons l ls ih =>
      have hl : D l := hD l List.mem_cons_self
      refine ⟨hC s l hs hl, fun t ht => ?_⟩
      exact ih (hkeep s l t hs hl ht) fun k hk => hD k (List.mem_cons_of_mem _ hk)

theorem Attempts.last {C : σ → ι → Prop} {s t : σ} {before after : List ι} {l : ι}
    (h : Attempts step C s (before ++ l :: after)) (hr : run step s before = some t) : C t l := by
  induction before generalizing s with
  | nil =>
      obtain rfl := Option.some.inj hr
      exact h.1
  | cons k before ih =>
      obtain ⟨u, hu, hrest⟩ := run_cons_eq_some.mp hr
      exact ih (h.2 u hu) hrest

/-- A run whose steps are all possible and keep `P`. -/
theorem exists_run_of_attempts {P : σ → Prop} {s : σ} {ls : List ι} (hs : P s)
    (h : Attempts step (fun s l => ∃ t, step s l = some t ∧ P t) s ls) :
    ∃ t, run step s ls = some t ∧ P t := by
  induction ls generalizing s with
  | nil => exact ⟨s, rfl, hs⟩
  | cons l ls ih =>
      obtain ⟨⟨u, hu, hP⟩, hrest⟩ := h
      obtain ⟨t, ht, hPt⟩ := ih hP (hrest u hu)
      exact ⟨t, run_cons_eq_some.mpr ⟨u, hu, ht⟩, hPt⟩

/-- What is attempted does not depend on what else the states record. -/
theorem attempts_map {τ : Type*} {step' : τ → ι → Option τ} {C : σ → ι → Prop} (π : τ → σ)
    (hπ : ∀ t l, (step' t l).map π = step (π t) l) (t : τ) (ls : List ι) :
    Attempts step C (π t) ls ↔ Attempts step' (fun t l => C (π t) l) t ls := by
  induction ls generalizing t with
  | nil => exact Iff.rfl
  | cons l ls ih =>
      refine and_congr Iff.rfl ⟨fun h u hu => ?_, fun h u hu => ?_⟩
      · exact (ih u).mp (h (π u) (by rw [← hπ, hu]; rfl))
      · rw [← hπ] at hu
        obtain ⟨v, hv, rfl⟩ := Option.map_eq_some_iff.mp hu
        exact (ih v).mpr (h v hv)

/-! ### Progress -/

/-- **Bounded progress.**  Once `I` holds, a step keeps `I`; the goal `G` is
never undone; the measure `μ` never grows before the goal is reached, and
drops at each step whose label is `tick`.  Then a run with more than `μ s`
ticking steps reaches the goal, whatever else happens in between. -/
theorem goal_of_countP {I G : σ → Prop} (μ : σ → ℕ) (tick : ι → Bool)
    (hI : ∀ s l t, I s → step s l = some t → I t)
    (hG : ∀ s l t, I s → G s → step s l = some t → G t)
    (hμ : ∀ s l t, I s → ¬ G s → step s l = some t →
      G t ∨ μ t + (if tick l then 1 else 0) ≤ μ s)
    {s t : σ} {ls : List ι} (hs : I s) (hr : run step s ls = some t)
    (hcount : μ s < ls.countP tick) : G t := by
  have keep : ∀ {s : σ} {ls : List ι}, I s → G s → run step s ls = some t → G t := by
    intro s ls hs hg hr
    exact (invariant_of_run (P := fun s => I s ∧ G s)
      (fun a l b h hab => ⟨hI a l b h.1 hab, hG a l b h.1 h.2 hab⟩) ⟨hs, hg⟩ hr).2
  induction ls generalizing s with
  | nil => simp at hcount
  | cons l ls ih =>
      by_cases hg : G s
      · exact keep hs hg hr
      obtain ⟨u, hu, hrest⟩ := run_cons_eq_some.mp hr
      rcases hμ s l u hs hg hu with hgu | hle
      · exact keep (hI s l u hs hu) hgu hrest
      · refine ih (hI s l u hs hu) hrest ?_
        rw [List.countP_cons] at hcount
        omega

/-! ### Paths of chosen steps -/

/-- Some run whose labels all satisfy `p` leads from `s` to `t`. -/
def StepPath (step : σ → ι → Option σ) (p : ι → Prop) (s t : σ) : Prop :=
  Relation.ReflTransGen (fun a b => ∃ l, p l ∧ step a l = some b) s t

theorem StepPath.refl {p : ι → Prop} (s : σ) : StepPath step p s s := Relation.ReflTransGen.refl

theorem StepPath.trans {p : ι → Prop} {s t u : σ} (h₁ : StepPath step p s t)
    (h₂ : StepPath step p t u) : StepPath step p s u := Relation.ReflTransGen.trans h₁ h₂

theorem StepPath.single {p : ι → Prop} {s t : σ} {l : ι} (hl : p l) (h : step s l = some t) :
    StepPath step p s t := Relation.ReflTransGen.single ⟨l, hl, h⟩

theorem StepPath.invariant {p : ι → Prop} {P : σ → Prop}
    (hstep : ∀ s l t, P s → p l → step s l = some t → P t) {s t : σ} (hs : P s)
    (h : StepPath step p s t) : P t := by
  induction h with
  | refl => exact hs
  | tail _ hl ih =>
      obtain ⟨l, hp, hlt⟩ := hl
      exact hstep _ l _ ih hp hlt

/-- **Progress by a measure.**  If from every state of `I` outside `G` some
path leads to a state of `I` with a smaller measure, then some path leads
into `G`. -/
theorem exists_path_of_measure {p : ι → Prop} {I G : σ → Prop} (μ : σ → ℕ)
    (h : ∀ s, I s → ¬ G s → ∃ t, StepPath step p s t ∧ I t ∧ μ t < μ s) {s : σ}
    (hs : I s) : ∃ t, StepPath step p s t ∧ I t ∧ G t := by
  induction hm : μ s using Nat.strongRecOn generalizing s with
  | ind m ih =>
      by_cases hg : G s
      · exact ⟨s, StepPath.refl s, hs, hg⟩
      · obtain ⟨t, hst, ht, hlt⟩ := h s hs hg
        obtain ⟨u, htu, hu, hgu⟩ := ih _ (hm ▸ hlt) ht rfl
        exact ⟨u, hst.trans htu, hu, hgu⟩

end Transition
