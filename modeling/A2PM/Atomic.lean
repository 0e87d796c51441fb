/-
A2PM/Atomic.lean

atomic.c and atomic.h: each function as the instructions of its `__asm__`
statement, and as what it is to do to the counter or the lock.

The results come by way of the carry flag.  `iCAS` takes ZF there through `ah`
(`cf_bt_lahf`); the functions that test a bit have it there already.  The code
of every function implements it (`implements`), so that a run of any number of
threads on one word, instruction by instruction, is one in which the calls take
place one at a time.
-/
import A2PM.SharedWord

namespace A2PM.Atomic

open X86 SharedWord Transition

/-- A call on the word, a `count` or a `lock`. -/
inductive Function where
  | atomicRead
  | atomicSet (i : Word)
  | iCAS (oldVal newVal : Word)
  | atomicTestAndSet
  | atomicTestAndReset
  | atomicAdd (i : Word)
  | atomicSub (i : Word)
  | atomicInc
  | atomicDec
  | atomicIncAndTest
  | spinLock
  | spinTrylock
  | spinUnlock

/-- A `bool`. -/
def bool (b : Bool) : Word := if b then 1 else 0

/-- The results `res`, `result` and `c` are operand `%0` of the code (`%1` in
`atomic_inc_and_test`). -/
def code : Code Function (Option Word) where
  instrs
    | .atomicRead => [.load]
    | .atomicSet i => [.store i]
    | .iCAS _ newVal => [.cmpxchgl newVal, .lahf, .bt 14, .adcq]
    | .atomicTestAndSet | .spinTrylock => [.btsl 0, .adcl]
    | .atomicTestAndReset => [.btrl 0, .adcl]
    | .atomicAdd i => [.addl i]
    | .atomicSub i => [.subl i]
    | .atomicInc => [.incl]
    | .atomicDec => [.decl]
    | .atomicIncAndTest => [.incl, .sete]
    | .spinLock => [.movl 1, .xchgl, .testl, .jnz]
    | .spinUnlock => [.movl 0, .xchgl]
  load
    | .iCAS oldVal _, c => { c.setEax oldVal with out := 0 }
    | .atomicTestAndSet, c | .atomicTestAndReset, c | .atomicIncAndTest, c | .spinTrylock, c =>
        { c with out := 0 }
    | _, c => c
  result
    | .atomicRead, c => some c.eax
    | .iCAS _ _, c => some (bool (c.out != 0))
    | .atomicTestAndSet, c | .spinTrylock, c => some (bool (c.out.setWidth 32 == 0#32))
    | .atomicTestAndReset, c => some (c.out.setWidth 32)
    | .atomicIncAndTest, c => some (bool (c.out.setWidth 8 != 0#8))
    | _, _ => none

/-- What the functions are to do. -/
def op : Operations Function (Option Word)
  | .atomicRead, m => (m, some (some m))
  | .atomicSet i, _ => (i, some none)
  | .iCAS oldVal newVal, m => (if m = oldVal then newVal else m, some (some (bool (m == oldVal))))
  | .atomicTestAndSet, m | .spinTrylock, m => (m ||| 1, some (some (bool !m.getLsbD 0)))
  | .atomicTestAndReset, m => (m &&& ~~~1, some (some (bool (m.getLsbD 0))))
  | .atomicAdd i, m => (m + i, some none)
  | .atomicSub i, m => (m - i, some none)
  | .atomicInc, m => (m + 1, some none)
  | .atomicDec, m => (m - 1, some none)
  | .atomicIncAndTest, m => (m + 1, some (some (bool (m + 1 == 0))))
  | .spinLock, m => (1, if m = 0 then some none else none)
  | .spinUnlock, _ => (0, some none)

/-! ### The results -/

theorem getLsbD_ah (f : Flags) : f.ah.getLsbD 6 = f.zf := by
  rcases f with ⟨_ | _, _ | _, _ | _, _ | _, _ | _⟩ <;> rfl

/-- Bit 14 of `ax` is ZF. -/
theorem getLsbD_lahf (c : Cpu) : ((Instr.lahf.execLocal c).rax).getLsbD 14 = c.flags.zf := by
  show BitVec.getLsbD (w := 48 + 8 + 8)
    (c.rax.extractLsb' 16 48 ++ c.flags.ah ++ c.rax.extractLsb' 0 8) 14 = _
  rw [BitVec.getLsbD_append, if_neg (by decide), BitVec.getLsbD_append, if_pos (by decide)]
  exact getLsbD_ah c.flags

theorem adcq_zero {c : Cpu} (h : c.out = 0) :
    ((Instr.adcq.execLocal c).out != 0) = c.flags.cf := by
  show (c.out + c.out + (BitVec.ofBool c.flags.cf).setWidth 64 != 0) = _
  rw [h]
  cases c.flags.cf <;> rfl

theorem adcl_zero {c : Cpu} (h : c.out = 0) :
    (Instr.adcl.execLocal c).out.setWidth 32 = bool c.flags.cf := by
  show ((c.out.setWidth 32 + c.out.setWidth 32 +
    (BitVec.ofBool c.flags.cf).setWidth 32).setWidth 64).setWidth 32 = _
  rw [h]
  cases c.flags.cf <;> rfl

theorem sete_ne_zero (c : Cpu) :
    ((Instr.sete.execLocal c).out.setWidth 8 != 0#8) = c.flags.zf := by
  show (BitVec.setWidth (v := 8) (w := 56 + 8)
    (c.out.extractLsb' 8 56 ++ (BitVec.ofBool c.flags.zf).setWidth 8) != 0#8) = _
  rw [BitVec.setWidth_append_eq_right]
  cases c.flags.zf <;> rfl

/-! ### The code implements the functions -/

/-- The carry flag gets ZF. -/
theorem cf_bt_lahf (c : Cpu) :
    ((Instr.bt 14).execLocal (Instr.lahf.execLocal c)).flags.cf = c.flags.zf := getLsbD_lahf c

theorem eax_setEax (c : Cpu) (v : Word) : (c.setEax v).eax = v :=
  BitVec.setWidth_setWidth_of_le v (by decide)

theorem zf_ofSub (x y : Word) : (Flags.ofSub x y).zf = (y == x) := by
  show (x - y == 0) = (y == x)
  rw [Bool.eq_iff_iff, beq_iff_eq, beq_iff_eq, eq_comm (a := y)]
  show x - y = 0#32 ↔ x = y
  rw [BitVec.sub_eq_iff_eq_add, BitVec.zero_add]

theorem exec_cmpxchgl (v : Word) (c : Cpu) (m : Word) :
    ((Instr.cmpxchgl v).exec c m).2 = (if m = c.eax then v else m) ∧
      ((Instr.cmpxchgl v).exec c m).1.flags.zf = (m == c.eax) ∧
      ((Instr.cmpxchgl v).exec c m).1.out = c.out := by
  rw [Instr.exec]
  split
  next h => exact ⟨(if_pos h.symm).symm, zf_ofSub c.eax m, rfl⟩
  next h => exact ⟨(if_neg (Ne.symm h)).symm, zf_ofSub c.eax m, rfl⟩

theorem attempts_iCAS (oldVal newVal : Word) (c : Cpu) :
    Attempts code op (.iCAS oldVal newVal) (.cmpxchgl newVal) [.lahf, .bt 14, .adcq]
      (code.load (.iCAS oldVal newVal) c) := by
  intro m
  have heax : (code.load (.iCAS oldVal newVal) c).eax = oldVal := eax_setEax c oldVal
  obtain ⟨hword, hzf, hout⟩ := exec_cmpxchgl newVal (code.load (.iCAS oldVal newVal) c) m
  rw [heax] at hword hzf
  refine ⟨hword, ?_⟩
  generalize ((Instr.cmpxchgl newVal).exec (code.load (.iCAS oldVal newVal) c) m).1 = c' at *
  have hcf := (cf_bt_lahf c').trans hzf
  have hres := adcq_zero (c := (Instr.bt 14).execLocal (Instr.lahf.execLocal c')) hout
  show some (some (bool (m == oldVal))) = some (some (bool (_ != _)))
  rw [← hcf, ← hres]

theorem attempts_atomicTestAndSet (c : Cpu) :
    Attempts code op .atomicTestAndSet (.btsl 0) [.adcl] (code.load .atomicTestAndSet c) := by
  intro m
  refine ⟨rfl, ?_⟩
  have hres := adcl_zero (c := { c with out := 0, flags.cf := m.getLsbD 0 }) rfl
  show some (some (bool !m.getLsbD 0)) = some (some (bool (BitVec.setWidth 32 _ == 0#32)))
  refine congrArg (some ∘ some ∘ bool) ?_
  refine Eq.trans ?_ (congrArg (· == 0#32) hres.symm)
  cases m.getLsbD 0 <;> rfl

theorem attempts_atomicTestAndReset (c : Cpu) :
    Attempts code op .atomicTestAndReset (.btrl 0) [.adcl] (code.load .atomicTestAndReset c) := by
  intro m
  have hres := adcl_zero (c := { c with out := 0, flags.cf := m.getLsbD 0 }) rfl
  exact ⟨rfl, congrArg (some ∘ some) hres.symm⟩

theorem attempts_atomicIncAndTest (c : Cpu) :
    Attempts code op .atomicIncAndTest .incl [.sete] (code.load .atomicIncAndTest c) := by
  intro m
  have hres := sete_ne_zero (Instr.incl.exec (code.load .atomicIncAndTest c) m).1
  refine ⟨rfl, congrArg (some ∘ some ∘ bool) (Eq.trans ?_ hres.symm)⟩
  show _ = (m + 1 + (BitVec.ofBool false).setWidth 32 == 0)
  have hzero : (BitVec.ofBool false).setWidth 32 = 0#32 := rfl
  rw [hzero, BitVec.add_zero]

theorem attempts_spinLock (c : Cpu) :
    Attempts code op .spinLock .xchgl [.testl, .jnz] ((Instr.movl 1).execLocal c) := by
  intro m
  have heax : ((Instr.movl 1).execLocal c).eax = 1 := eax_setEax c 1
  refine ⟨heax, ?_⟩
  have hzf : (Instr.testl.execLocal ((Instr.movl 1).execLocal c |>.setEax m)).flags.zf =
      (m == 0) := by
    show ((((Instr.movl 1).execLocal c).setEax m).eax == 0#32) = (m == 0)
    rw [eax_setEax]
    rfl
  show Gives _ (if (Instr.testl.execLocal ((Instr.movl 1).execLocal c |>.setEax m)).flags.zf
    then _ else .restart) (if m = 0 then some none else none)
  rw [hzf]
  by_cases hm : m = 0
  · rw [if_pos (beq_iff_eq.mpr hm), if_pos hm]
    rfl
  · rw [if_neg (mt beq_iff_eq.mp hm), if_neg hm]
    rfl

theorem implements : Implements code op where
  access f c := by
    cases f with
    | iCAS oldVal newVal => exact ⟨_, _, _, rfl, attempts_iCAS oldVal newVal c⟩
    | atomicRead =>
        refine ⟨_, _, _, rfl, fun m => ⟨rfl, ?_⟩⟩
        show some (some m) = some (some (c.setEax m).eax)
        rw [eax_setEax]
    | atomicSet i => exact ⟨_, _, _, rfl, fun m => ⟨rfl, rfl⟩⟩
    | atomicTestAndSet => exact ⟨_, _, _, rfl, attempts_atomicTestAndSet c⟩
    | atomicTestAndReset => exact ⟨_, _, _, rfl, attempts_atomicTestAndReset c⟩
    | atomicAdd i => exact ⟨_, _, _, rfl, fun m => ⟨rfl, rfl⟩⟩
    | atomicSub i => exact ⟨_, _, _, rfl, fun m => ⟨rfl, rfl⟩⟩
    | atomicInc => exact ⟨_, _, _, rfl, fun m => ⟨rfl, rfl⟩⟩
    | atomicDec => exact ⟨_, _, _, rfl, fun m => ⟨rfl, rfl⟩⟩
    | atomicIncAndTest => exact ⟨_, _, _, rfl, attempts_atomicIncAndTest c⟩
    | spinLock => exact ⟨_, _, _, rfl, attempts_spinLock c⟩
    | spinTrylock => exact ⟨_, _, _, rfl, attempts_atomicTestAndSet c⟩
    | spinUnlock => exact ⟨_, _, _, rfl, fun m => ⟨eax_setEax c 0, rfl⟩⟩
  restart f c hjnz := by
    cases f with
    | spinLock => rfl
    | _ => simp [code] at hjnz

/-! ### Runs -/

variable {ι L : Type*} [DecidableEq ι] {K : Client Function (Option Word) L} {word : Word}
  {loc : ι → L}

/-- **The calls are atomic**: whatever the threads call on the word, and however
their instructions interleave, the word and the results are as if each call had
been executed at one moment between its beginning and its return. -/
theorem calls_atomic {s : Machine ι Function L} (ls : List (ι × Action Function))
    (hr : run (Machine.step code K) (.start word loc) ls = some s) :
    ∃ es, run (Register.step op K) (.start word loc) es = some (s.register code) ∧
      es.filter (fun e => !e.2.isEffect) = shown ls :=
  implements.exists_run (Machine.sound_start word loc) hr

omit [DecidableEq ι] in
theorem op_eq_none_iff (f : Function) (m : Word) :
    (op f m).2 = none ↔ f = .spinLock ∧ m ≠ 0 := by
  cases f with
  | spinLock =>
      rw [op]
      by_cases hm : m = 0 <;> simp [hm]
  | _ => simp [op]

/-- Registers at the beginning of a call. -/
def cpu₀ : Cpu := ⟨0, 0, ⟨false, false, false, false, false⟩⟩

/-- A thread that calls one function. -/
def once : Client Function (Option Word) (Option (Option Word)) where
  call _ _ := some none
  ret _ _ r := some r

/-- Two threads increment a counter of -2; the instructions of the first one come before
and after those of the second one. -/
def increments : List (Bool × Action Function) :=
  [(false, .call .atomicIncAndTest cpu₀), (false, .instr), (true, .call .atomicIncAndTest cpu₀), (true, .instr),
    (true, .instr), (true, .ret), (false, .instr), (false, .ret)]

theorem calls_atomic_increments :
    ∃ s : Machine Bool Function (Option (Option Word)),
      run (Machine.step code once) (.start (-2) fun _ => none) increments = some s ∧
      ∃ es, run (Register.step op once) (.start (-2) fun _ => none) es =
          some (s.register code) ∧
        es.filter (fun e => !e.2.isEffect) = shown increments :=
  ⟨_, rfl, calls_atomic increments rfl⟩

/-- A thread is inside `spin_lock` without the lock, while the word is not 0: locked
by whatever thread, or changed by another function. -/
def Waits (i : ι) (s : Machine ι Function L) : Prop :=
  (s.register code).pending i = some (.spinLock, none) ∧ s.word ≠ 0

/-- Nothing that the thread does itself ends the waiting. -/
theorem Waits.step {i : ι} {s t : Machine ι Function L} (hs : s.Sound code op) (h : Waits i s)
    {l : ι × Action Function} (hl : Alone i l) (hstep : s.step code K l = some t) : Waits i t := by
  obtain ⟨⟨f, fr⟩, hframe, hseen⟩ := Option.map_eq_some_iff.mp h.1
  obtain ⟨rfl, hresult⟩ := Prod.mk.inj hseen
  rcases hl with rfl | rfl
  · simp only [Machine.step, hframe, Option.map_eq_some_iff] at hstep
    obtain ⟨⟨fr', m⟩, hinstr, rfl⟩ := hstep
    have hseen' : (Machine.register code ⟨m, s.loc, Function.update s.frame i
        (some (.spinLock, fr'))⟩).pending i = some (code.seen (.spinLock, fr')) := by
      rw [register_update]
      exact Function.update_self ..
    rcases (implements.step (hs i _ fr hframe) hinstr).2 with ⟨rfl, hres⟩ | ⟨-, rfl, hres⟩
    · refine ⟨?_, h.2⟩
      rw [hseen', Code.seen, hres, hresult]
    · refine ⟨?_, (by decide : (1 : Word) ≠ 0)⟩
      rw [hseen', Code.seen, hres, (op_eq_none_iff .spinLock s.word).mpr ⟨rfl, h.2⟩]
  · simp only [Machine.step, hframe, Option.ite_none_right_eq_some] at hstep
    rw [outcome_of_le hstep.1] at hresult
    cases hresult

/-- **A thread that runs alone** returns from its call exactly if it is not waiting
inside `spin_lock` while the word is not 0. -/
theorem returns_alone_iff {s : Machine ι Function L}
    (hs : Reachable (Machine.step code K) (.start word loc) s) {i : ι} {f : Function} {fr : Frame}
    (hframe : s.frame i = some (f, fr)) :
    (∃ t, StepPath (Machine.step code K) (Alone i) s t ∧ t.frame i = none) ↔ ¬ Waits i s := by
  have hsound := implements.sound_of_reachable hs
  constructor
  · rintro ⟨t, hpath, hnone⟩ hwaits
    have hstep (s : Machine ι Function L) (l : ι × Action Function) (t : Machine ι Function L)
        (hs : s.Sound code op ∧ Waits i s) (hl : Alone i l) (hlt : s.step code K l = some t) :
        t.Sound code op ∧ Waits i t :=
      ⟨(implements.simulates hs.1 hlt).1, hs.2.step hs.1 hl hlt⟩
    obtain ⟨-, ht, -⟩ := StepPath.invariant hstep ⟨hsound, hwaits⟩ hpath
    rw [pending_eq hnone] at ht
    cases ht
  · intro hwaits
    cases hresult : resultOf (code.result f) (fr.outcome (code.instrs f)) with
    | some r => exact ⟨_, exists_return_of_result hframe hresult, Function.update_self ..⟩
    | none =>
        cases hop : (op f s.word).2 with
        | some r =>
            exact ⟨_, implements.exists_return hsound hframe hresult hop, Function.update_self ..⟩
        | none =>
            obtain ⟨rfl, hword⟩ := (op_eq_none_iff f s.word).mp hop
            refine absurd ⟨?_, hword⟩ hwaits
            rw [pending_eq hframe, Option.map_some, Code.seen, hresult]

/-- The first thread takes the lock, and the second one attempts to. -/
def attempt : List (Bool × Action Function) :=
  [(false, .call .spinLock cpu₀), (true, .call .spinLock cpu₀), (false, .instr), (false, .instr), (true, .instr),
    (true, .instr)]

theorem returns_alone_iff_attempt :
    ∃ s : Machine Bool Function (Option (Option Word)),
      run (Machine.step code once) (.start 0 fun _ => none) attempt = some s ∧
      ((∃ t, StepPath (Machine.step code once) (Alone true) s t ∧ t.frame true = none) ↔
        ¬ Waits true s) :=
  ⟨_, rfl, returns_alone_iff ⟨attempt, rfl⟩ rfl⟩

end A2PM.Atomic
