/-
A2PM/SharedWord.lean

Threads that call functions on one word of shared memory, on two levels.

* On the lower level a function is code, and a step is one instruction of one
  thread (`Machine.step`).
* On the upper level a call has its effect on the word, and gets its result, in
  one step (`Register.step`).

What the threads may call next, and what they make of the results, is up to a
`Client`, the same on both levels.  If the code does in its one access to the
word what the function is to do (`Implements`), then what a thread's call
amounts to, seen from above (`Machine.register`), changes in the step of the
access and in no other one.  So every run of the lower level is one of the upper
level, with the same calls and returns in the same order (`exists_run`), and what
holds of all states above holds of all states below (`invariant_of_register`).
-/
import A2PM.Transition
import A2PM.X86
import Mathlib.Logic.Function.Basic

namespace SharedWord

open X86 Transition

variable {ι F R L : Type*}

/-- Functions as code. -/
structure Code (F R : Type*) where
  instrs : F → List Instr
  /-- Load the operands. -/
  load : F → Cpu → Cpu
  /-- What is returned at the end of the code. -/
  result : F → Cpu → R

/-- Functions as operations on the word; no result: the call makes another
attempt. -/
abbrev Operations (F R : Type*) := F → Word → Word × Option R

/-- The code that the threads run between their calls. -/
structure Client (F R L : Type*) where
  /-- `none`: the thread does not call the function here. -/
  call : L → F → Option L
  ret : L → F → R → L

/-! ### The two levels -/

structure Machine (ι F L : Type*) where
  word : Word
  loc : ι → L
  /-- The call that a thread is in. -/
  frame : ι → Option (F × Frame)

inductive Action (F : Type*) where
  /-- `c`: what is in the registers. -/
  | call (f : F) (c : Cpu)
  | instr
  | ret

structure Register (ι F R L : Type*) where
  word : Word
  loc : ι → L
  /-- The call that a thread is in, and its result once it has one. -/
  pending : ι → Option (F × Option R)

inductive Event (F : Type*) where
  | call (f : F)
  | effect
  | ret

section Steps

variable [DecidableEq ι]

def Machine.step (C : Code F R) (K : Client F R L) (s : Machine ι F L) :
    ι × Action F → Option (Machine ι F L)
  | (i, .call f c) =>
      match s.frame i with
      | some _ => none
      | none => (K.call (s.loc i) f).map fun l =>
          ⟨s.word, Function.update s.loc i l,
            Function.update s.frame i (some (f, ⟨0, C.load f c⟩))⟩
  | (i, .instr) =>
      match s.frame i with
      | none => none
      | some (f, fr) => (X86.step (C.instrs f) fr s.word).map fun r =>
          ⟨r.2, s.loc, Function.update s.frame i (some (f, r.1))⟩
  | (i, .ret) =>
      match s.frame i with
      | none => none
      | some (f, fr) =>
          if (C.instrs f).length ≤ fr.pc then
            some ⟨s.word, Function.update s.loc i (K.ret (s.loc i) f (C.result f fr.cpu)),
              Function.update s.frame i none⟩
          else none

def Register.step (op : Operations F R) (K : Client F R L) (s : Register ι F R L) :
    ι × Event F → Option (Register ι F R L)
  | (i, .call f) =>
      match s.pending i with
      | some _ => none
      | none => (K.call (s.loc i) f).map fun l =>
          ⟨s.word, Function.update s.loc i l, Function.update s.pending i (some (f, none))⟩
  | (i, .effect) =>
      match s.pending i with
      | some (f, none) =>
          some ⟨(op f s.word).1, s.loc,
            Function.update s.pending i (some (f, (op f s.word).2))⟩
      | _ => none
  | (i, .ret) =>
      match s.pending i with
      | some (f, some r) =>
          some ⟨s.word, Function.update s.loc i (K.ret (s.loc i) f r),
            Function.update s.pending i none⟩
      | _ => none

/-- **What a step above is.** -/
theorem Register.step_cases {op : Operations F R} {K : Client F R L} {s t : Register ι F R L}
    {i : ι} {e : Event F} (h : Register.step op K s (i, e) = some t) :
    (∃ f l, s.pending i = none ∧ K.call (s.loc i) f = some l ∧
      t = ⟨s.word, Function.update s.loc i l, Function.update s.pending i (some (f, none))⟩) ∨
    (∃ f, s.pending i = some (f, none) ∧
      t = ⟨(op f s.word).1, Function.update s.loc i (s.loc i),
        Function.update s.pending i (some (f, (op f s.word).2))⟩) ∨
    ∃ f r, s.pending i = some (f, some r) ∧
      t = ⟨s.word, Function.update s.loc i (K.ret (s.loc i) f r),
        Function.update s.pending i none⟩ := by
  cases e with
  | call f =>
      cases hp : s.pending i with
      | some call => simp [Register.step, hp] at h
      | none =>
          simp only [Register.step, hp, Option.map_eq_some_iff] at h
          obtain ⟨l, hl, rfl⟩ := h
          exact .inl ⟨f, l, rfl, hl, rfl⟩
  | effect =>
      rcases hp : s.pending i with _ | ⟨f, _ | r⟩
      · simp [Register.step, hp] at h
      · simp only [Register.step, hp, Option.some.injEq] at h
        rw [Function.update_eq_self]
        exact .inr (.inl ⟨f, rfl, h.symm⟩)
      · simp [Register.step, hp] at h
  | ret =>
      rcases hp : s.pending i with _ | ⟨f, _ | r⟩
      · simp [Register.step, hp] at h
      · simp [Register.step, hp] at h
      · simp only [Register.step, hp, Option.some.injEq] at h
        exact .inr (.inr ⟨f, r, rfl, h.symm⟩)

end Steps

/-! ### Code that implements an operation -/

/-- What an attempt comes to has the result `r`. -/
def Gives (result : Cpu → R) (o : Outcome) (r : Option R) : Prop :=
  match o with
  | .access _ _ _ => False
  | .done c => r = some (result c)
  | .restart => r = none

/-- The access does to each word what the function is to do. -/
def Attempts (C : Code F R) (op : Operations F R) (f : F) (i : Instr) (rest : List Instr)
    (c : Cpu) : Prop :=
  ∀ m, (i.exec c m).2 = (op f m).1 ∧
    Gives (C.result f) (outcome rest (i.exec c m).1) (op f m).2

structure Implements (C : Code F R) (op : Operations F R) : Prop where
  access : ∀ f c, ∃ i rest c', outcome (C.instrs f) (C.load f c) = .access i rest c' ∧
    Attempts C op f i rest c'
  /-- Another attempt finds what the first one found. -/
  restart : ∀ f c, .jnz ∈ C.instrs f → C.load f c = c

/-- The result of a call that has one. -/
def resultOf (result : Cpu → R) : Outcome → Option R
  | .done c => some (result c)
  | _ => none

theorem Gives.resultOf_eq {result : Cpu → R} {o : Outcome} {r : Option R}
    (h : Gives result o r) : resultOf result o = r := by
  cases o with
  | access i rest c => exact h.elim
  | done c => exact h.symm
  | restart => exact h.symm

/-- An access that is still to come is as the function has it. -/
def Sound (C : Code F R) (op : Operations F R) (f : F) (o : Outcome) : Prop :=
  ∀ i rest c, o = .access i rest c → Attempts C op f i rest c

variable {C : Code F R} {op : Operations F R} {K : Client F R L}

theorem Gives.sound {f : F} {result : Cpu → R} {o : Outcome} {r : Option R}
    (h : Gives result o r) : Sound C op f o := by
  rintro i rest c rfl
  exact h.elim

namespace Implements

theorem sound_load (h : Implements C op) (f : F) (c : Cpu) :
    Sound C op f (outcome (C.instrs f) (C.load f c)) := by
  obtain ⟨i, rest, c', heq, ha⟩ := h.access f c
  intro i₁ rest₁ c₁ h₁
  obtain ⟨rfl, rfl, rfl⟩ := Outcome.access.inj (heq.symm.trans h₁)
  exact ha

theorem resultOf_load (h : Implements C op) (f : F) (c : Cpu) :
    resultOf (C.result f) (outcome (C.instrs f) (C.load f c)) = none := by
  obtain ⟨i, rest, c', heq, -⟩ := h.access f c
  rw [heq]
  rfl

/-- **One instruction**: nothing that is seen from above, or all that the
function does. -/
theorem step (h : Implements C op) {f : F} {fr fr' : Frame} {m m' : Word}
    (hs : Sound C op f (fr.outcome (C.instrs f)))
    (hstep : X86.step (C.instrs f) fr m = some (fr', m')) :
    Sound C op f (fr'.outcome (C.instrs f)) ∧
      ((m' = m ∧ resultOf (C.result f) (fr'.outcome (C.instrs f)) =
          resultOf (C.result f) (fr.outcome (C.instrs f))) ∨
        (resultOf (C.result f) (fr.outcome (C.instrs f)) = none ∧ m' = (op f m).1 ∧
          resultOf (C.result f) (fr'.outcome (C.instrs f)) = (op f m).2)) := by
  rcases step_cases hstep with ⟨hrestart, hjnz, rfl, rfl⟩ | ⟨heq, -, rfl⟩ | ⟨i, rest, c, ha, rfl, ho⟩
  · have hload : Frame.outcome (C.instrs f) ⟨0, fr.cpu⟩ =
        outcome (C.instrs f) (C.load f fr.cpu) := by
      rw [h.restart f fr.cpu hjnz]
      rfl
    rw [hload]
    refine ⟨h.sound_load f fr.cpu, .inl ⟨rfl, ?_⟩⟩
    rw [h.resultOf_load, hrestart]
    rfl
  · rw [heq]
    exact ⟨hs, .inl ⟨rfl, rfl⟩⟩
  · obtain ⟨hword, hgives⟩ := hs i rest c ha m
    rw [ho]
    refine ⟨hgives.sound, .inr ⟨?_, hword, hgives.resultOf_eq⟩⟩
    rw [ha]
    rfl

end Implements

/-! ### The lower level, seen from above -/

/-- What a call amounts to. -/
def Code.seen (C : Code F R) (call : F × Frame) : F × Option R :=
  (call.1, resultOf (C.result call.1) (call.2.outcome (C.instrs call.1)))

def Machine.register (C : Code F R) (s : Machine ι F L) : Register ι F R L where
  word := s.word
  loc := s.loc
  pending := Option.map C.seen ∘ s.frame

def Machine.Sound (C : Code F R) (op : Operations F R) (s : Machine ι F L) : Prop :=
  ∀ i f fr, s.frame i = some (f, fr) → SharedWord.Sound C op f (fr.outcome (C.instrs f))

/-- No thread is in a call. -/
def Machine.start (word : Word) (loc : ι → L) : Machine ι F L := ⟨word, loc, fun _ => none⟩

def Register.start (word : Word) (loc : ι → L) : Register ι F R L := ⟨word, loc, fun _ => none⟩

theorem Machine.sound_start (word : Word) (loc : ι → L) :
    (start word loc : Machine ι F L).Sound C op := fun _ _ _ h => nomatch h

/-- What the upper level shows of a step. -/
def Action.event : Action F → Option (Event F)
  | .call f _ => some (.call f)
  | .instr => none
  | .ret => some .ret

def Event.isEffect : Event F → Bool
  | .effect => true
  | _ => false

/-- The calls and the returns of a run. -/
def shown (ls : List (ι × Action F)) : List (ι × Event F) :=
  ls.filterMap fun l => l.2.event.map (Prod.mk l.1)

/-- The steps of the thread `i` in a call. -/
def Alone (i : ι) (l : ι × Action F) : Prop := l = (i, .instr) ∨ l = (i, .ret)

theorem pending_eq {s : Machine ι F L} {i : ι} {call : Option (F × Frame)}
    (h : s.frame i = call) : (s.register C).pending i = call.map C.seen := by
  rw [← h]
  rfl

variable [DecidableEq ι]

theorem register_update (s : Machine ι F L) (i : ι) (call : Option (F × Frame)) (word : Word)
    (loc : ι → L) :
    Machine.register C ⟨word, loc, Function.update s.frame i call⟩ =
      ⟨word, loc, Function.update (s.register C).pending i (call.map C.seen)⟩ := by
  rw [Machine.register, Function.comp_update]
  rfl

theorem Machine.Sound.update {s : Machine ι F L} (hs : s.Sound C op) {i : ι}
    {call : Option (F × Frame)}
    (h : ∀ f fr, call = some (f, fr) → SharedWord.Sound C op f (fr.outcome (C.instrs f)))
    {word : Word} {loc : ι → L} :
    Machine.Sound C op ⟨word, loc, Function.update s.frame i call⟩ := by
  intro j f fr hj
  replace hj : Function.update s.frame i call j = some (f, fr) := hj
  rcases eq_or_ne j i with rfl | hne
  · rw [Function.update_self] at hj
    exact h f fr hj
  · rw [Function.update_of_ne hne] at hj
    exact hs j f fr hj

/-- **A step below** is none or one above. -/
theorem Implements.simulates (h : Implements C op) {s t : Machine ι F L} (hs : s.Sound C op)
    {l : ι × Action F} (hstep : s.step C K l = some t) :
    t.Sound C op ∧ ∃ ls, run (Register.step op K) (s.register C) ls = some (t.register C) ∧
      ls.filter (fun e => !e.2.isEffect) = shown [l] := by
  obtain ⟨i, a⟩ := l
  cases a with
  | call f c =>
      cases hframe : s.frame i with
      | some call => simp [Machine.step, hframe] at hstep
      | none =>
          simp only [Machine.step, hframe, Option.map_eq_some_iff] at hstep
          obtain ⟨loc, hloc, rfl⟩ := hstep
          refine ⟨hs.update ?_, [(i, .call f)], ?_, rfl⟩
          · rintro f fr ⟨⟩
            exact h.sound_load f c
          · have hseen : C.seen (f, ⟨0, C.load f c⟩) = (f, none) :=
              Prod.ext rfl (h.resultOf_load f c)
            rw [register_update, Option.map_some, hseen, run_cons, Register.step, pending_eq hframe]
            show (Option.map _ (K.call (s.loc i) f)).bind _ = _
            rw [hloc]
            rfl
  | instr =>
      cases hframe : s.frame i with
      | none => simp [Machine.step, hframe] at hstep
      | some call =>
          obtain ⟨f, fr⟩ := call
          simp only [Machine.step, hframe, Option.map_eq_some_iff] at hstep
          obtain ⟨⟨fr', m⟩, hinstr, rfl⟩ := hstep
          obtain ⟨hsound, hcase⟩ := h.step (hs i f fr hframe) hinstr
          refine ⟨hs.update ?_, ?_⟩
          · rintro f fr ⟨⟩
            exact hsound
          · rw [register_update, Option.map_some]
            rcases hcase with ⟨rfl, hresult⟩ | ⟨hnone, rfl, hresult⟩
            · refine ⟨[], ?_, rfl⟩
              have hseen : C.seen (f, fr') = C.seen (f, fr) := Prod.ext rfl hresult
              have hself : (s.register C).pending i = some (C.seen (f, fr)) := pending_eq hframe
              rw [hseen, ← hself, Function.update_eq_self]
              rfl
            · refine ⟨[(i, .effect)], ?_, rfl⟩
              have hseen : C.seen (f, fr) = (f, none) := Prod.ext rfl hnone
              have hseen' : C.seen (f, fr') = (f, (op f s.word).2) := Prod.ext rfl hresult
              rw [run_cons, Register.step, pending_eq hframe, Option.map_some, hseen, hseen']
              rfl
  | ret =>
      cases hframe : s.frame i with
      | none => simp [Machine.step, hframe] at hstep
      | some call =>
          obtain ⟨f, fr⟩ := call
          simp only [Machine.step, hframe, Option.ite_none_right_eq_some, Option.some.injEq] at hstep
          obtain ⟨hend, rfl⟩ := hstep
          refine ⟨hs.update ?_, [(i, .ret)], ?_, rfl⟩
          · rintro f fr ⟨⟩
          · have hseen : C.seen (f, fr) = (f, some (C.result f fr.cpu)) := by
              rw [Code.seen, outcome_of_le hend]
              rfl
            rw [register_update, run_cons, Register.step, pending_eq hframe, Option.map_some, hseen]
            rfl

/-- **Every run below is one above.** -/
theorem Implements.exists_run (h : Implements C op) {s t : Machine ι F L} (hs : s.Sound C op)
    {ls : List (ι × Action F)} (hr : run (Machine.step C K) s ls = some t) :
    ∃ es, run (Register.step op K) (s.register C) es = some (t.register C) ∧
      es.filter (fun e => !e.2.isEffect) = shown ls := by
  induction ls generalizing s with
  | nil =>
      obtain rfl := Option.some.inj hr
      exact ⟨[], rfl, rfl⟩
  | cons l ls ih =>
      obtain ⟨u, hu, hrest⟩ := run_cons_eq_some.mp hr
      obtain ⟨hsound, es, hes, hshown⟩ := h.simulates hs hu
      obtain ⟨es', hes', hshown'⟩ := ih hsound hrest
      refine ⟨es ++ es', run_trans hes hes', ?_⟩
      rw [List.filter_append, hshown, hshown']
      exact (List.filterMap_append (l := [l])).symm

/-- The invariant rule for the upper level. -/
theorem Implements.invariant_of_register (h : Implements C op) {P : Register ι F R L → Prop}
    {word : Word} {loc : ι → L} (h₀ : P (.start word loc))
    (hstep : ∀ s e t, P s → Register.step op K s e = some t → P t) {s : Machine ι F L}
    (hs : Reachable (Machine.step C K) (.start word loc) s) : P (s.register C) := by
  obtain ⟨ls, hls⟩ := hs
  obtain ⟨es, hes, -⟩ := h.exists_run (Machine.sound_start word loc) hls
  exact invariant_of_run hstep h₀ hes

theorem Implements.sound_of_reachable (h : Implements C op) {word : Word} {loc : ι → L}
    {s : Machine ι F L} (hs : Reachable (Machine.step C K) (.start word loc) s) : s.Sound C op :=
  invariant_of_step (Machine.sound_start word loc) (fun _ _ _ hs hstep => (h.simulates hs hstep).1)
    hs

/-! ### A thread that runs alone -/

section Alone

variable {s : Machine ι F L} {i : ι} {f : F} {fr : Frame}

theorem step_instr (hframe : s.frame i = some (f, fr)) {fr' : Frame} {m : Word}
    (hstep : X86.step (C.instrs f) fr s.word = some (fr', m)) :
    s.step C K (i, .instr) = some ⟨m, s.loc, Function.update s.frame i (some (f, fr'))⟩ := by
  rw [Machine.step, hframe]
  show Option.map _ (X86.step (C.instrs f) fr s.word) = _
  rw [hstep]
  rfl

theorem lt_of_step {code : List Instr} {fr' : Frame} {m m' : Word}
    (h : X86.step code fr m = some (fr', m')) : fr.pc < code.length := by
  obtain ⟨i, hi, -⟩ := Option.map_eq_some_iff.mp h
  exact (List.getElem?_eq_some_iff.mp hi).1

/-- A call that has its result returns. -/
theorem exists_return_of_result {r : R} (hframe : s.frame i = some (f, fr))
    (hresult : resultOf (C.result f) (fr.outcome (C.instrs f)) = some r) :
    StepPath (Machine.step C K) (Alone i) s
      ⟨s.word, Function.update s.loc i (K.ret (s.loc i) f r), Function.update s.frame i none⟩ := by
  induction hn : (C.instrs f).length - fr.pc generalizing s fr with
  | zero =>
      have hend : (C.instrs f).length ≤ fr.pc := Nat.sub_eq_zero_iff_le.mp hn
      rw [outcome_of_le hend] at hresult
      obtain rfl := Option.some.inj hresult
      refine StepPath.single (l := (i, .ret)) (.inr rfl) ?_
      rw [Machine.step, hframe]
      exact if_pos hend
  | succ n ih =>
      cases hstep : X86.step (C.instrs f) fr s.word with
      | none =>
          have hle := le_of_step_eq_none hstep
          omega
      | some p =>
          obtain ⟨fr', m⟩ := p
          have hinstr := StepPath.single (p := Alone i) (.inl rfl)
            (step_instr (K := K) hframe hstep)
          rcases step_cases hstep with ⟨ho, -⟩ | ⟨ho, hpc, rfl⟩ | ⟨j, rest, c, ho, -⟩
          · rw [ho] at hresult
            cases hresult
          · have hself := Function.update_self i (some (f, fr')) s.frame
            have hrest := ih (s := ⟨s.word, s.loc, Function.update s.frame i (some (f, fr'))⟩)
              hself (by rw [ho]; exact hresult) (by omega)
            rw [Function.update_idem] at hrest
            exact hinstr.trans hrest
          · rw [ho] at hresult
            cases hresult

/-- A call that has not had its effect comes to it. -/
theorem Implements.exists_effect (h : Implements C op) (hframe : s.frame i = some (f, fr))
    (hs : SharedWord.Sound C op f (fr.outcome (C.instrs f)))
    (hresult : resultOf (C.result f) (fr.outcome (C.instrs f)) = none) :
    ∃ fr', StepPath (Machine.step C K) (Alone i) s
        ⟨(op f s.word).1, s.loc, Function.update s.frame i (some (f, fr'))⟩ ∧
      resultOf (C.result f) (fr'.outcome (C.instrs f)) = (op f s.word).2 := by
  induction hn : fr.remaining (C.instrs f) using Nat.strongRecOn generalizing s fr with
  | ind n ih =>
      subst hn
      cases hstep : X86.step (C.instrs f) fr s.word with
      | none =>
          rw [outcome_of_le (le_of_step_eq_none hstep)] at hresult
          cases hresult
      | some p =>
          obtain ⟨fr', m⟩ := p
          have hinstr := StepPath.single (p := Alone i) (.inl rfl)
            (step_instr (K := K) hframe hstep)
          have hself := Function.update_self i (some (f, fr')) s.frame
          rcases step_cases hstep with ⟨ho, hjnz, rfl, rfl⟩ | ⟨ho, hpc, rfl⟩ |
            ⟨j, rest, c, ho, rfl, ho'⟩
          · have hload : Frame.outcome (C.instrs f) ⟨0, fr.cpu⟩ =
                outcome (C.instrs f) (C.load f fr.cpu) := by
              rw [h.restart f fr.cpu hjnz]
              rfl
            have hlt : Frame.remaining (C.instrs f) ⟨0, fr.cpu⟩ <
                fr.remaining (C.instrs f) := by
              obtain ⟨j, rest, c, heq, -⟩ := h.access f fr.cpu
              exact remaining_lt_of_restart ho (hload.trans heq)
            obtain ⟨fr₁, hpath, hres⟩ := ih _ hlt
              (s := ⟨s.word, s.loc, Function.update s.frame i (some (f, ⟨0, fr.cpu⟩))⟩) hself
              (by rw [hload]; exact h.sound_load f fr.cpu)
              (by rw [hload]; exact h.resultOf_load f fr.cpu) rfl
            rw [Function.update_idem] at hpath
            exact ⟨fr₁, hinstr.trans hpath, hres⟩
          · obtain ⟨fr₁, hpath, hres⟩ := ih _ (remaining_lt_of_eq ho hpc (lt_of_step hstep))
              (s := ⟨s.word, s.loc, Function.update s.frame i (some (f, fr'))⟩) hself
              (by rw [ho]; exact hs) (by rw [ho]; exact hresult) rfl
            rw [Function.update_idem] at hpath
            exact ⟨fr₁, hinstr.trans hpath, hres⟩
          · obtain ⟨hword, hgives⟩ := hs j rest c ho s.word
            rw [hword] at hinstr
            rw [← ho'] at hgives
            exact ⟨fr', hinstr, hgives.resultOf_eq⟩

/-- **A thread that runs alone** returns from its call, unless the function makes
it wait. -/
theorem Implements.exists_return (h : Implements C op) (hs : s.Sound C op)
    (hframe : s.frame i = some (f, fr))
    (hresult : resultOf (C.result f) (fr.outcome (C.instrs f)) = none) {r : R}
    (hop : (op f s.word).2 = some r) :
    StepPath (Machine.step C K) (Alone i) s
      ⟨(op f s.word).1, Function.update s.loc i (K.ret (s.loc i) f r),
        Function.update s.frame i none⟩ := by
  obtain ⟨fr', hpath, hres⟩ := h.exists_effect (K := K) hframe (hs i f fr hframe) hresult
  have hself := Function.update_self i (some (f, fr')) s.frame
  have hreturn := exists_return_of_result (K := K)
    (s := ⟨(op f s.word).1, s.loc, Function.update s.frame i (some (f, fr'))⟩) hself
    (hres.trans hop)
  rw [Function.update_idem] at hreturn
  exact hpath.trans hreturn

end Alone

end SharedWord
