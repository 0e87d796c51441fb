/-
A2PM/X86.lean

Some instructions of the x86-64 on the registers of a processor and on one word
of memory, which other processors also access.

Most instructions do not access the word.  So code that accesses it once comes,
from whatever point it has got to, to one of three ends (`outcome`): to the
access, to the end of the code, or to a jump back to its beginning.  The end does
not change with the instructions that lead to it (`outcome_of_isLocal`); what the
other processors do in the meantime has no influence on it.
-/
import Mathlib.Data.Nat.Notation

namespace X86

abbrev Word := BitVec 32

/-- The flags without OF, in the order in which `lahf` loads them. -/
structure Flags where
  sf : Bool
  zf : Bool
  af : Bool
  pf : Bool
  cf : Bool

structure Cpu where
  rax : BitVec 64
  /-- The register of the operand `%0`. -/
  out : BitVec 64
  flags : Flags

def Cpu.eax (c : Cpu) : Word := c.rax.setWidth 32

/-- What is written to the lower half clears the upper half. -/
def Cpu.setEax (c : Cpu) (v : Word) : Cpu := { c with rax := v.setWidth 64 }

/-- `m` is the word of memory, and the instructions on it are locked. -/
inductive Instr where
  /-- `movl m, %eax`. -/
  | load
  /-- `movl v, m`. -/
  | store (v : Word)
  /-- `xchgl %eax, m`. -/
  | xchgl
  /-- `cmpxchgl v, m`. -/
  | cmpxchgl (v : Word)
  /-- `btsl $n, m`. -/
  | btsl (n : Fin 32)
  /-- `btrl $n, m`. -/
  | btrl (n : Fin 32)
  /-- `addl v, m`. -/
  | addl (v : Word)
  /-- `subl v, m`. -/
  | subl (v : Word)
  /-- `incl m`. -/
  | incl
  /-- `decl m`. -/
  | decl
  /-- `movl v, %eax`. -/
  | movl (v : Word)
  /-- `testl %eax, %eax`. -/
  | testl
  | lahf
  /-- `bt $n, %ax`. -/
  | bt (n : Fin 16)
  /-- `adcl %0, %0`. -/
  | adcl
  /-- `adcq %0, %0`. -/
  | adcq
  /-- `sete %0`. -/
  | sete
  /-- `jnz` to the first instruction. -/
  | jnz

/-! ### One instruction -/

/-- An even number of bits of the lowest byte. -/
def parity {w : ℕ} (r : BitVec w) : Bool := (List.range 8).countP r.getLsbD % 2 == 0

def Flags.ofResult {w : ℕ} (r : BitVec w) (af cf : Bool) : Flags :=
  ⟨r.msb, r == 0, af, parity r, cf⟩

/-- The flags of `x + y + c`. -/
def Flags.ofAdd {w : ℕ} (x y : BitVec w) (c : Bool) : Flags :=
  .ofResult (x + y + (BitVec.ofBool c).setWidth w) (BitVec.carry 4 x y c) (BitVec.carry w x y c)

/-- The flags of `x - y`. -/
def Flags.ofSub {w : ℕ} (x y : BitVec w) : Flags :=
  .ofResult (x - y) ((x.setWidth 4).ult (y.setWidth 4)) (x.ult y)

/-- What `lahf` loads into `ah`. -/
def Flags.ah (f : Flags) : BitVec 8 :=
  BitVec.ofBool f.sf ++ BitVec.ofBool f.zf ++ 0#1 ++ BitVec.ofBool f.af ++ 0#1 ++
    BitVec.ofBool f.pf ++ 1#1 ++ BitVec.ofBool f.cf

/-- Flags that an instruction leaves undefined stay as they are. -/
def Instr.exec : Instr → Cpu → Word → Cpu × Word
  | load, c, m => (c.setEax m, m)
  | store v, c, _ => (c, v)
  | xchgl, c, m => (c.setEax m, c.eax)
  | cmpxchgl v, c, m =>
      if c.eax = m then ({ c with flags := .ofSub c.eax m }, v)
      else ({ c with flags := .ofSub c.eax m }.setEax m, m)
  | btsl n, c, m => ({ c with flags.cf := m.getLsb n }, m ||| BitVec.twoPow 32 n)
  | btrl n, c, m => ({ c with flags.cf := m.getLsb n }, m &&& ~~~BitVec.twoPow 32 n)
  | addl v, c, m => ({ c with flags := .ofAdd m v false }, m + v)
  | subl v, c, m => ({ c with flags := .ofSub m v }, m - v)
  | incl, c, m => ({ c with flags := { Flags.ofAdd m 1 false with cf := c.flags.cf } }, m + 1)
  | decl, c, m => ({ c with flags := { Flags.ofSub m 1 with cf := c.flags.cf } }, m - 1)
  | movl v, c, m => (c.setEax v, m)
  | testl, c, m => ({ c with flags := .ofResult c.eax c.flags.af false }, m)
  | lahf, c, m =>
      ({ c with rax := c.rax.extractLsb' 16 48 ++ c.flags.ah ++ c.rax.extractLsb' 0 8 }, m)
  | bt n, c, m => ({ c with flags.cf := c.rax.getLsbD n }, m)
  | adcl, c, m =>
      let x := c.out.setWidth 32
      let r := x + x + (BitVec.ofBool c.flags.cf).setWidth 32
      ({ c with out := r.setWidth 64, flags := .ofAdd x x c.flags.cf }, m)
  | adcq, c, m =>
      let r := c.out + c.out + (BitVec.ofBool c.flags.cf).setWidth 64
      ({ c with out := r, flags := .ofAdd c.out c.out c.flags.cf }, m)
  | sete, c, m =>
      ({ c with out := c.out.extractLsb' 8 56 ++ (BitVec.ofBool c.flags.zf).setWidth 8 }, m)
  | jnz, c, m => (c, m)

/-- The instruction does not access the word. -/
def Instr.isLocal : Instr → Bool
  | load | store _ | xchgl | cmpxchgl _ | btsl _ | btrl _ | addl _ | subl _ | incl | decl => false
  | movl _ | testl | lahf | bt _ | adcl | adcq | sete | jnz => true

/-- What a local instruction does to the registers. -/
def Instr.execLocal (i : Instr) (c : Cpu) : Cpu := (i.exec c 0).1

theorem Instr.exec_of_isLocal {i : Instr} (h : i.isLocal = true) (c : Cpu) (m : Word) :
    i.exec c m = (i.execLocal c, m) := by
  cases i <;> first | rfl | cases h

/-! ### Code -/

/-- How far code has got. -/
structure Frame where
  pc : ℕ
  cpu : Cpu

/-- The number of the instruction that follows. -/
def Instr.next (i : Instr) (f : Frame) : ℕ :=
  match i with
  | jnz => if f.cpu.flags.zf then f.pc + 1 else 0
  | _ => f.pc + 1

/-- The next instruction of the code; `none`: there is none left. -/
def step (code : List Instr) (f : Frame) (m : Word) : Option (Frame × Word) :=
  code[f.pc]?.map fun i => (⟨i.next f, (i.exec f.cpu m).1⟩, (i.exec f.cpu m).2)

/-- What code comes to. -/
inductive Outcome where
  /-- The access `i`, before the code `rest`. -/
  | access (i : Instr) (rest : List Instr) (c : Cpu)
  | done (c : Cpu)
  | restart

/-- What the rest of some code comes to. -/
def outcome : List Instr → Cpu → Outcome
  | [], c => .done c
  | .jnz :: rest, c => if c.flags.zf then outcome rest c else .restart
  | i :: rest, c => if i.isLocal then outcome rest (i.execLocal c) else .access i rest c

def Frame.outcome (code : List Instr) (f : Frame) : Outcome := X86.outcome (code.drop f.pc) f.cpu

theorem outcome_cons {i : Instr} (hi : i ≠ .jnz) (rest : List Instr) (c : Cpu) :
    outcome (i :: rest) c =
      if i.isLocal then outcome rest (i.execLocal c) else .access i rest c := by
  cases i <;> first | rfl | exact absurd rfl hi

/-! ### A step and the outcome -/

variable {code : List Instr} {f f' : Frame} {m m' : Word}

/-- **What a step is**: the end of a jump back, a local instruction or the
access. -/
theorem step_cases (h : step code f m = some (f', m')) :
    (f.outcome code = .restart ∧ .jnz ∈ code ∧ f' = ⟨0, f.cpu⟩ ∧ m' = m) ∨
    (f'.outcome code = f.outcome code ∧ f'.pc = f.pc + 1 ∧ m' = m) ∨
    ∃ i rest c, f.outcome code = .access i rest c ∧ m' = (i.exec c m).2 ∧
      f'.outcome code = outcome rest (i.exec c m).1 := by
  obtain ⟨i, hi, heq⟩ := Option.map_eq_some_iff.mp h
  obtain ⟨rfl, rfl⟩ := Prod.mk.inj heq
  obtain ⟨hlt, hget⟩ := List.getElem?_eq_some_iff.mp hi
  have hdrop : code.drop f.pc = i :: code.drop (f.pc + 1) := by
    rw [List.drop_eq_getElem_cons hlt, hget]
  by_cases hjnz : i = .jnz
  · subst hjnz
    by_cases hzf : f.cpu.flags.zf = true
    · refine .inr (.inl ⟨?_, if_pos hzf, rfl⟩)
      have hnext : Instr.jnz.next f = f.pc + 1 := if_pos hzf
      rw [Frame.outcome, Frame.outcome, hdrop, hnext]
      exact (if_pos hzf).symm
    · refine .inl ⟨?_, List.mem_of_getElem hget, ?_, rfl⟩
      · rw [Frame.outcome, hdrop]
        exact if_neg hzf
      · have hnext : Instr.jnz.next f = 0 := if_neg hzf
        rw [hnext]
        rfl
  · have hnext : i.next f = f.pc + 1 := by cases i <;> first | rfl | exact absurd rfl hjnz
    rw [hnext]
    by_cases hlocal : i.isLocal = true
    · refine .inr (.inl ⟨?_, rfl, ?_⟩)
      · show outcome (code.drop (f.pc + 1)) (i.exec f.cpu m).1 = _
        rw [Frame.outcome, hdrop, outcome_cons hjnz, if_pos hlocal, Instr.exec_of_isLocal hlocal]
      · rw [Instr.exec_of_isLocal hlocal]
    · refine .inr (.inr ⟨i, code.drop (f.pc + 1), f.cpu, ?_, rfl, rfl⟩)
      rw [Frame.outcome, hdrop, outcome_cons hjnz, if_neg hlocal]

theorem outcome_of_le (h : code.length ≤ f.pc) : f.outcome code = .done f.cpu := by
  rw [Frame.outcome, List.drop_eq_nil_of_le h]
  rfl

theorem le_of_step_eq_none (h : step code f m = none) : code.length ≤ f.pc :=
  List.getElem?_eq_none_iff.mp (Option.map_eq_none_iff.mp h)

/-- How many instructions there can be before the access. -/
def Frame.remaining (code : List Instr) (f : Frame) : ℕ :=
  (match f.outcome code with
    | .restart => code.length + 1
    | _ => 0) + (code.length - f.pc)

theorem remaining_lt_of_restart {i : Instr} {rest : List Instr} {c c' : Cpu}
    (h : f.outcome code = .restart) (h' : Frame.outcome code ⟨0, c⟩ = .access i rest c') :
    Frame.remaining code ⟨0, c⟩ < f.remaining code := by
  rw [Frame.remaining, Frame.remaining, h, h']
  show 0 + (code.length - 0) < code.length + 1 + (code.length - f.pc)
  omega

theorem remaining_lt_of_eq (h : f'.outcome code = f.outcome code) (hpc : f'.pc = f.pc + 1)
    (hlt : f.pc < code.length) : f'.remaining code < f.remaining code := by
  rw [Frame.remaining, Frame.remaining, h, hpc]
  omega

end X86
