/-
A2PM/ThreadIds.lean

thread.c: the loop of `__helper_create_thread`, by which any number of threads
take their `tid` from one counter, and what becomes of the argument that
`create_threads` hands to all of them.

In every interleaving the tids are 1, 2, 3, ... in the order in which the threads
have changed the counter (`Named`), and a thread has failed only as often as others have
come before it.
-/
import A2PM.Atomic
import Mathlib.Algebra.Group.Nat.Defs
import Mathlib.Data.Fintype.Card

namespace A2PM.Thread

open X86 SharedWord Transition A2PM.Atomic

variable {ι : Type*}

/-! ### The loop -/

/-- The variables of a thread. -/
inductive Helper where
  /-- At the beginning of an iteration; `fails` iterations have failed. -/
  | loop (fails : ℕ)
  /-- `tid` is `oldCounter + 1`. -/
  | read (oldCounter : Word) (fails : ℕ)
  | leave (tid : Word) (fails : ℕ)

/-- `while(true)`. -/
def helper : Client Function (Option Word) Helper where
  call
    | .loop fails, .atomicRead => some (.loop fails)
    | .read oldCounter fails, .iCAS oldVal newVal =>
        if oldVal = oldCounter ∧ newVal = oldCounter + 1 then some (.read oldCounter fails) else none
    | _, _ => none
  ret
    | .loop fails, _, r => .read (r.getD 0) fails
    | .read oldCounter fails, _, r =>
        if r = some 0 then .loop (fails + 1) else .leave (oldCounter + 1) fails
    | .leave tid fails, _, _ => .leave tid fails

/-- The counter after `k` threads have changed it. -/
def counter (k : ℕ) : Word := BitVec.ofNat 32 k

theorem counter_succ (k : ℕ) : counter (k + 1) = counter k + 1 := by
  rw [counter, BitVec.ofNat_add]
  rfl

/-- Where a thread may be; `order`: the threads that have changed the counter. -/
inductive Phase (order : List ι) (i : ι) :
    Helper → Option (Function × Option (Option Word)) → Prop where
  | loop {n : ℕ} (hi : i ∉ order) (hn : n ≤ order.length) : Phase order i (.loop n) none
  | reading {n : ℕ} (hi : i ∉ order) (hn : n ≤ order.length) :
      Phase order i (.loop n) (some (.atomicRead, none))
  | found {n m : ℕ} (hi : i ∉ order) (hn : n ≤ m) (hm : m ≤ order.length) :
      Phase order i (.loop n) (some (.atomicRead, some (some (counter m))))
  | ready {n m : ℕ} (hi : i ∉ order) (hn : n ≤ m) (hm : m ≤ order.length) :
      Phase order i (.read (counter m) n) none
  | trying {n m : ℕ} (hi : i ∉ order) (hn : n ≤ m) (hm : m ≤ order.length) :
      Phase order i (.read (counter m) n)
        (some (.iCAS (counter m) (counter m + 1), none))
  | failed {n : ℕ} {old new : Word} (hi : i ∉ order) (hn : n < order.length) :
      Phase order i (.read old n) (some (.iCAS old new, some (some 0)))
  | passed {n k : ℕ} {new : Word} (hk : order[k]? = some i) (hn : n ≤ k) :
      Phase order i (.read (counter k) n) (some (.iCAS (counter k) new, some (some 1)))
  | left {n k : ℕ} (hk : order[k]? = some i) (hn : n ≤ k) :
      Phase order i (.leave (counter (k + 1)) n) none

/-- Another thread has changed the counter. -/
theorem Phase.append {order : List ι} {i j : ι} {l : Helper}
    {call : Option (Function × Option (Option Word))} (h : Phase order i l call) (hj : i ≠ j) :
    Phase (order ++ [j]) i l call := by
  have hlength : order.length ≤ (order ++ [j]).length := by simp
  have hnot (hi : i ∉ order) : i ∉ order ++ [j] := by simp [hi, hj]
  have hget {k : ℕ} (hk : order[k]? = some i) : (order ++ [j])[k]? = some i := by
    obtain ⟨hlt, -⟩ := List.getElem?_eq_some_iff.mp hk
    rw [List.getElem?_append_left hlt, hk]
  cases h with
  | loop hi hn => exact .loop (hnot hi) (hn.trans hlength)
  | reading hi hn => exact .reading (hnot hi) (hn.trans hlength)
  | found hi hn hm => exact .found (hnot hi) hn (hm.trans hlength)
  | ready hi hn hm => exact .ready (hnot hi) hn (hm.trans hlength)
  | trying hi hn hm => exact .trying (hnot hi) hn (hm.trans hlength)
  | failed hi hn => exact .failed (hnot hi) (hn.trans_le hlength)
  | passed hk hn => exact .passed (hget hk) hn
  | left hk hn => exact .left (hget hk) hn

/-- The threads that have changed the counter, in order. -/
structure Numbered (order : List ι) (s : Register ι Function (Option Word) Helper) : Prop where
  nodup : order.Nodup
  word : s.word = counter order.length
  phase : ∀ i, Phase order i (s.loc i) (s.pending i)

theorem numbered_start :
    Numbered [] (.start 0 fun _ => .loop 0 : Register ι Function (Option Word) Helper) :=
  ⟨List.nodup_nil, rfl, fun _ => .loop List.not_mem_nil le_rfl⟩

section Steps

variable [DecidableEq ι] {s t : Register ι Function (Option Word) Helper} {order : List ι}

/-- A thread gets to another phase, and the other ones stay where they are. -/
theorem phase_update {i : ι} {l : Helper}
    {call : Option (Function × Option (Option Word))}
    (hphase : ∀ j, j ≠ i → Phase order j (s.loc j) (s.pending j)) (hi : Phase order i l call)
    (j : ι) :
    Phase order j (Function.update s.loc i l j) (Function.update s.pending i call j) := by
  rcases eq_or_ne j i with rfl | hj
  · rw [Function.update_self, Function.update_self]
    exact hi
  · rw [Function.update_of_ne hj, Function.update_of_ne hj]
    exact hphase j hj

/-- What a compare-and-swap of the counter does. -/
theorem Numbered.iCAS (h : Numbered order s) {i : ι} {n m : ℕ} (hi : i ∉ order) (hn : n ≤ m)
    (hm : m ≤ order.length) :
    ∃ order', Numbered order'
      ⟨(op (.iCAS (counter m) (counter m + 1)) s.word).1,
        Function.update s.loc i (.read (counter m) n),
        Function.update s.pending i (some (.iCAS (counter m) (counter m + 1),
          (op (.iCAS (counter m) (counter m + 1)) s.word).2))⟩ := by
  rw [op, h.word]
  by_cases heq : counter order.length = counter m
  · refine ⟨order ++ [i], ?_, ?_, phase_update ?_ ?_⟩
    · refine h.nodup.append (List.nodup_singleton i) ?_
      exact List.disjoint_singleton.mpr hi
    · rw [if_pos heq, ← heq, List.length_append, List.length_singleton, counter_succ]
    · exact fun j hj => (h.phase j).append hj
    · rw [beq_iff_eq.mpr heq, ← heq]
      exact .passed (by simp) (hn.trans hm)
  · refine ⟨order, h.nodup, if_neg heq, phase_update (fun j _ => h.phase j) ?_⟩
    rw [beq_eq_false_iff_ne.mpr heq]
    have hlt : m < order.length := lt_of_le_of_ne hm fun hlen => heq (by rw [hlen])
    exact .failed hi (hn.trans_lt hlt)

/-- **A step** keeps the numbering, or adds the thread that takes it. -/
theorem Numbered.step (h : Numbered order s) {e : ι × Event Function}
    (hstep : Register.step op helper s e = some t) : ∃ order', Numbered order' t := by
  obtain ⟨i, e⟩ := e
  have hi := h.phase i
  rcases Register.step_cases hstep with ⟨f, l, hp, hl, rfl⟩ | ⟨f, hp, rfl⟩ | ⟨f, r, hp, rfl⟩
  · rw [hp] at hi
    generalize s.loc i = loc at hi hl
    refine ⟨order, h.nodup, h.word, phase_update (fun j _ => h.phase j) ?_⟩
    cases hi with
    | loop hnot hn =>
        cases f with
        | atomicRead =>
            cases hl
            exact .reading hnot hn
        | _ => cases hl
    | ready hnot hn hm =>
        cases f with
        | iCAS old new =>
            obtain ⟨⟨rfl, rfl⟩, heq⟩ := Option.ite_none_right_eq_some.mp hl
            obtain rfl := Option.some.inj heq
            exact .trying hnot hn hm
        | _ => cases hl
    | left hk hn => cases f <;> cases hl
  · rw [hp] at hi
    generalize hloc : s.loc i = loc at hi
    cases hi with
    | reading hnot hn =>
        refine ⟨order, h.nodup, h.word, phase_update (fun j _ => h.phase j) ?_⟩
        rw [op, h.word]
        exact .found hnot hn le_rfl
    | trying hnot hn hm => exact h.iCAS hnot hn hm
  · rw [hp] at hi
    generalize s.loc i = loc at hi
    refine ⟨order, h.nodup, h.word, phase_update (fun j _ => h.phase j) ?_⟩
    cases hi with
    | found hnot hn hm => exact .ready hnot hn hm
    | failed hnot hn => exact .loop hnot hn
    | passed hk hn =>
        show Phase order i (.leave (counter _ + 1) _) none
        rw [← counter_succ]
        exact .left hk hn

end Steps

/-- **The tids** are 1, 2, 3, ... in the order in which the threads have changed
the counter, and a thread has failed only as often as others have come before
it. -/
theorem exists_numbered [DecidableEq ι] {s : Machine ι Function Helper}
    (hs : Reachable (Machine.step code helper) (.start 0 fun _ => .loop 0) s) :
    ∃ order, Numbered order (s.register code) :=
  implements.invariant_of_register (P := fun s => ∃ order, Numbered order s)
    ⟨[], numbered_start⟩ (fun _ _ _ ⟨_, h⟩ hstep => h.step hstep) hs

theorem Numbered.leave [DecidableEq ι] {s : Machine ι Function Helper} {order : List ι}
    (h : Numbered order (s.register code)) {i : ι} {tid : Word} {n : ℕ}
    (hi : s.loc i = .leave tid n) :
    ∃ k, order[k]? = some i ∧ tid = counter (k + 1) ∧ n ≤ k := by
  have hphase := h.phase i
  have hloc : (s.register code).loc i = .leave tid n := hi
  rw [hloc] at hphase
  generalize (s.register code).pending i = call at hphase
  cases hphase with
  | left hk hn => exact ⟨_, hk, rfl, hn⟩

theorem toNat_counter {k : ℕ} (hk : k < 2 ^ 32) : (counter k).toNat = k := by
  rw [counter, BitVec.toNat_ofNat, Nat.mod_eq_of_lt hk]

/-- **Each thread gets a `tid` of its own**, from 1 to the number of threads, and
has failed fewer times than its `tid`. -/
theorem tid_unique [DecidableEq ι] [Fintype ι] (hcard : Fintype.card ι < 2 ^ 32)
    {s : Machine ι Function Helper}
    (hs : Reachable (Machine.step code helper) (.start 0 fun _ => .loop 0) s) {i : ι} {tid : Word}
    {fails : ℕ} (hi : s.loc i = .leave tid fails) :
    fails < tid.toNat ∧ tid.toNat ≤ Fintype.card ι ∧
      ∀ j fails', s.loc j = .leave tid fails' → i = j := by
  obtain ⟨order, h⟩ := exists_numbered hs
  obtain ⟨k, hk, rfl, hn⟩ := h.leave hi
  have hlt : k < order.length := (List.getElem?_eq_some_iff.mp hk).1
  have hlength : order.length ≤ Fintype.card ι := h.nodup.length_le_card
  rw [toNat_counter (by omega)]
  refine ⟨by omega, by omega, fun j fails' hj => ?_⟩
  obtain ⟨k', hk', htid, -⟩ := h.leave hj
  have hlt' : k' < order.length := (List.getElem?_eq_some_iff.mp hk').1
  have hnat := congrArg BitVec.toNat htid
  rw [toNat_counter (by omega), toNat_counter (by omega)] at hnat
  obtain rfl : k = k' := by omega
  exact Option.some.inj (hk.symm.trans hk')

/-- A thread reads the counter. -/
def readCounter (i : Bool) : List (Bool × Action Function) :=
  [(i, .call .atomicRead cpu₀), (i, .instr), (i, .ret)]

/-- A thread that has read `oldCounter` attempts to change the counter. -/
def changeCounter (i : Bool) (oldCounter : Word) : List (Bool × Action Function) :=
  [(i, .call (.iCAS oldCounter (oldCounter + 1)) cpu₀), (i, .instr), (i, .instr), (i, .instr),
    (i, .instr), (i, .ret)]

/-- The second thread comes in between. -/
def twoThreads : List (Bool × Action Function) :=
  readCounter false ++ readCounter true ++ changeCounter true 0 ++ changeCounter false 0 ++
    readCounter false ++ changeCounter false 1

theorem tid_unique_twoThreads :
    ∃ s : Machine Bool Function Helper,
      run (Machine.step code helper) (.start 0 fun _ => .loop 0) twoThreads = some s ∧
      s.loc false = .leave 2 1 ∧ 1 < (2 : Word).toNat ∧ (2 : Word).toNat ≤ Fintype.card Bool ∧
      ∀ j fails', s.loc j = .leave 2 fails' → false = j :=
  ⟨_, rfl, rfl, tid_unique (by decide) ⟨twoThreads, rfl⟩ rfl⟩

/-! ### The argument of the threads -/

/-- Where a thread is in `__helper_create_thread`. -/
inductive Point where
  | getTid
  /-- `real_arg->start_routine(real_arg->arg)`. -/
  | call
  | routine
  /-- `free(real_arg)`. -/
  | free
  | done
deriving DecidableEq

/-- `create_threads` and the threads that it has created so far. -/
structure Creation where
  i : ℕ
  /-- `none`: not initialised. -/
  num : Option ℤ
  /-- The threads, by the iteration that has created them. -/
  threads : ℕ → Option Point
  freed : Bool
  /-- A thread has accessed `real_arg` after it was freed, or freed it again. -/
  fault : Bool

inductive Creation.Label where
  /-- An iteration, in which `new_thread` returns `result`. -/
  | create (result : ℤ)
  /-- The thread `k` does what is next. -/
  | thread (k : ℕ)

namespace Creation

def start : Creation := ⟨0, none, fun _ => none, false, false⟩

def step (n : ℕ) (s : Creation) : Label → Option Creation
  | .create result =>
      if s.i < n then
        some { s with
          i := s.i + 1
          num := some result
          threads := Function.update s.threads s.i (if result = 0 then some .getTid else none) }
      else none
  | .thread k =>
      match s.threads k with
      | some .getTid => some { s with threads := Function.update s.threads k (some .call) }
      | some .call =>
          some { s with
            threads := Function.update s.threads k (some .routine), fault := s.fault || s.freed }
      | some .routine => some { s with threads := Function.update s.threads k (some .free) }
      | some .free =>
          some { s with
            threads := Function.update s.threads k (some .done)
            freed := true
            fault := s.fault || s.freed }
      | _ => none

/-- There is one thread at most, and it frees the argument at its end. -/
structure Single (s : Creation) : Prop where
  fault : s.fault = false
  le : s.i ≤ 1
  created : ∀ k, s.threads k ≠ none → k < s.i
  freed : s.freed = true → s.threads 0 = some .done

theorem single_start : start.Single :=
  ⟨rfl, Nat.zero_le 1, fun _ h => absurd rfl h, fun h => nomatch h⟩

/-- The thread gets to another point before it frees the argument. -/
theorem Single.update {s : Creation} (h : s.Single) {k : ℕ} {p q : Point}
    (hk : s.threads k = some p) (hp : p ≠ .done) :
    s.freed = false ∧ ∀ freed, (freed = true → q = .done) →
      Single { s with threads := Function.update s.threads k (some q), freed := freed } := by
  have hlt : k < s.i := h.created k (by rw [hk]; exact Option.some_ne_none p)
  have hle := h.le
  obtain rfl : k = 0 := by omega
  have hfreed : s.freed = false := by
    rw [← Bool.not_eq_true]
    intro hfreed
    exact hp (Option.some.inj (hk.symm.trans (h.freed hfreed)))
  refine ⟨hfreed, fun freed hq => ⟨h.fault, h.le, fun j hj => ?_, fun hf => ?_⟩⟩
  · rcases eq_or_ne j 0 with rfl | hne
    · exact hlt
    · refine h.created j fun hnone => hj ?_
      show Function.update s.threads 0 (some q) j = none
      rw [Function.update_of_ne hne, hnone]
  · show Function.update s.threads 0 (some q) 0 = _
    rw [Function.update_self, hq hf]

theorem Single.step {n : ℕ} (hn : n ≤ 1) {s t : Creation} (h : s.Single) {l : Label}
    (hstep : s.step n l = some t) : t.Single := by
  cases l with
  | create result =>
      obtain ⟨hlt, ht⟩ := Option.ite_none_right_eq_some.mp hstep
      obtain rfl := Option.some.inj ht
      have hzero : s.i = 0 := by omega
      have hnone (k : ℕ) : s.threads k = none := by
        by_contra hk
        exact absurd (h.created k hk) (by omega)
      have hfreed : s.freed = false := by
        rw [← Bool.not_eq_true]
        intro hfreed
        exact absurd ((hnone 0).symm.trans (h.freed hfreed)) (by simp)
      refine ⟨h.fault, by show s.i + 1 ≤ 1; omega, fun k hk => ?_, fun hf => ?_⟩
      · show k < s.i + 1
        by_contra hge
        have hki : k ≠ s.i := by omega
        apply hk
        show Function.update s.threads s.i _ k = none
        rw [Function.update_of_ne hki, hnone]
      · exact absurd (hfreed.symm.trans hf) (by decide)
  | thread k =>
      cases hk : s.threads k with
      | none => simp [Creation.step, hk] at hstep
      | some p =>
          cases p with
          | done => simp [Creation.step, hk] at hstep
          | getTid =>
              simp only [Creation.step, hk, Option.some.injEq] at hstep
              obtain ⟨hfreed, hsingle⟩ := h.update (q := .call) hk (by decide)
              subst hstep
              exact hsingle s.freed fun hf => absurd (hfreed.symm.trans hf) (by decide)
          | call =>
              simp only [Creation.step, hk, Option.some.injEq] at hstep
              obtain ⟨hfreed, hsingle⟩ := h.update (q := .routine) hk (by decide)
              subst hstep
              rw [hfreed, Bool.or_false]
              exact hsingle false fun hf => nomatch hf
          | routine =>
              simp only [Creation.step, hk, Option.some.injEq] at hstep
              obtain ⟨hfreed, hsingle⟩ := h.update (q := .free) hk (by decide)
              subst hstep
              exact hsingle s.freed fun hf => absurd (hfreed.symm.trans hf) (by decide)
          | free =>
              simp only [Creation.step, hk, Option.some.injEq] at hstep
              obtain ⟨hfreed, hsingle⟩ := h.update (q := .done) hk (by decide)
              subst hstep
              rw [hfreed, Bool.or_false]
              exact hsingle true fun _ => rfl

/-- The first thread ends before the second one begins. -/
def oneAfterTheOther : List Label :=
  [.create 0, .create 0, .thread 0, .thread 0, .thread 0, .thread 0, .thread 1, .thread 1]

/-- **The argument** is not accessed after it was freed, in any interleaving,
exactly if `create_threads` creates no more than one thread. -/
theorem createThreads_safe_iff (n : ℕ) :
    (∀ s, Reachable (step n) start s → s.fault = false) ↔ n ≤ 1 := by
  constructor
  · intro hsafe
    by_contra hn
    have h0 : 0 < n := by omega
    have h1 : 1 < n := by omega
    have hrun : ∃ s, run (step n) start oneAfterTheOther = some s ∧ s.fault = true := by
      simp [oneAfterTheOther, step, start, h0, h1]
    obtain ⟨s, hr, hfault⟩ := hrun
    rw [hsafe s ⟨_, hr⟩] at hfault
    cases hfault
  · intro hn s hs
    exact (invariant_of_step single_start (fun _ _ _ h hstep => h.step hn hstep) hs).fault

end Creation

end A2PM.Thread
