/-
A2PM/SpinLock.lean

The spin lock of atomic.c under threads that keep to its use: they take it by
`spin_lock`, or by `spin_trylock` where that returns `true`, and release only
what they have taken.

The invariant (`Inv`) is stated and kept on the level on which the calls take
place one at a time: `lock` is 1 for as long as some thread owns it, from the
effect of its call on, and that thread is the only one.
-/
import A2PM.Atomic

namespace A2PM.Atomic

open X86 SharedWord Transition

variable {ι : Type*} [DecidableEq ι]

/-- The local state of a thread says whether it has the lock. -/
def user : Client Function (Option Word) Bool where
  call
    | false, .spinLock | false, .spinTrylock => some false
    | true, .spinUnlock => some false
    | _, _ => none
  ret
    | _, .spinLock, _ => true
    | _, .spinTrylock, r => r != some 0
    | _, _, _ => false

/-- Where a thread may be, by whether it owns the lock. -/
inductive Phase : Bool → Bool → Option (Function × Option (Option Word)) → Prop where
  | outside : Phase false false none
  | inside : Phase true true none
  | locking : Phase false false (some (.spinLock, none))
  | locked : Phase true false (some (.spinLock, some none))
  | trying : Phase false false (some (.spinTrylock, none))
  | tried (b : Bool) : Phase b false (some (.spinTrylock, some (some (bool b))))
  | unlocking : Phase true false (some (.spinUnlock, none))
  | unlocked : Phase false false (some (.spinUnlock, some none))

/-- `o`: the thread that owns the lock. -/
def Inv (s : Register ι Function (Option Word) Bool) : Prop :=
  ∃ o : Option ι, s.word = bool o.isSome ∧ ∀ i, Phase (o == some i) (s.loc i) (s.pending i)

theorem inv_start : Inv (.start 0 fun _ => false : Register ι Function (Option Word) Bool) :=
  ⟨none, rfl, fun _ => .outside⟩

/-- One thread gets to another phase, and the other ones own the lock no more and
no less than before. -/
theorem Inv.of_update {s : Register ι Function (Option Word) Bool} {o : Option ι} (o' : Option ι)
    (hphase : ∀ i, Phase (o == some i) (s.loc i) (s.pending i)) {i : ι} {word : Word} {l : Bool}
    {call : Option (Function × Option (Option Word))} (hword : word = bool o'.isSome)
    (hi : Phase (o' == some i) l call) (ho : ∀ j, j ≠ i → (o' == some j) = (o == some j)) :
    Inv ⟨word, Function.update s.loc i l, Function.update s.pending i call⟩ := by
  refine ⟨o', hword, fun j => ?_⟩
  show Phase _ (Function.update s.loc i l j) (Function.update s.pending i call j)
  rcases eq_or_ne j i with rfl | hj
  · rw [Function.update_self, Function.update_self]
    exact hi
  · rw [Function.update_of_ne hj, Function.update_of_ne hj, ho j hj]
    exact hphase j

theorem op_spinTrylock (b : Bool) :
    op .spinTrylock (bool b) = (1, some (some (bool !b))) := by
  have hword : bool b ||| 1 = 1 := by cases b <;> decide
  have hbit : (bool b).getLsbD 0 = b := by cases b <;> decide
  rw [op, hword, hbit]

theorem some_beq_some_of_ne {i j : ι} (hj : j ≠ i) : (some i == some j) = (none == some j) :=
  beq_eq_false_iff_ne.mpr fun h => hj (Option.some.inj h).symm

theorem Inv.step {s t : Register ι Function (Option Word) Bool} {e : ι × Event Function}
    (h : Inv s) (hstep : Register.step op user s e = some t) : Inv t := by
  obtain ⟨o, hword, hphase⟩ := h
  obtain ⟨i, e⟩ := e
  have hi := hphase i
  rcases Register.step_cases hstep with ⟨f, l, hp, hl, rfl⟩ | ⟨f, hp, rfl⟩ | ⟨f, r, hp, rfl⟩
  · rw [hp] at hi
    generalize s.loc i = held at hi hl
    refine Inv.of_update o hphase hword ?_ fun _ _ => rfl
    generalize (o == some i) = b at hi
    cases hi with
    | outside =>
        cases f with
        | spinLock =>
            cases hl
            exact .locking
        | spinTrylock =>
            cases hl
            exact .trying
        | _ => cases hl
    | inside =>
        cases f with
        | spinUnlock =>
            cases hl
            exact .unlocking
        | _ => cases hl
  · rw [hp] at hi
    generalize s.loc i = held at hi
    generalize hb : (o == some i) = b at hi
    cases hi with
    | locking =>
        cases o with
        | none =>
            refine Inv.of_update (some i) hphase rfl ?_ fun j hj => some_beq_some_of_ne hj
            rw [hword, beq_self_eq_true]
            exact .locked
        | some j =>
            refine Inv.of_update _ hphase rfl ?_ fun _ _ => rfl
            rw [hb, hword]
            exact .locking
    | trying =>
        cases o with
        | none =>
            refine Inv.of_update (some i) hphase ?_ ?_ fun j hj => some_beq_some_of_ne hj
            · rw [hword, op_spinTrylock]
              rfl
            · rw [hword, op_spinTrylock, beq_self_eq_true]
              exact .tried true
        | some j =>
            refine Inv.of_update (some j) hphase ?_ ?_ fun _ _ => rfl
            · rw [hword, op_spinTrylock]
              rfl
            · rw [hb, hword, op_spinTrylock]
              exact .tried false
    | unlocking =>
        obtain rfl := beq_iff_eq.mp hb
        refine Inv.of_update none hphase rfl .unlocked fun j hj => ?_
        exact (some_beq_some_of_ne hj).symm
  · rw [hp] at hi
    generalize s.loc i = held at hi
    refine Inv.of_update o hphase hword ?_ fun _ _ => rfl
    generalize (o == some i) = b at hi
    cases hi with
    | locked => exact .inside
    | tried =>
        cases b with
        | true => exact .inside
        | false => exact .outside
    | unlocked => exact .outside

/-- **Mutual exclusion**, instruction by instruction: a thread that has the lock
is the only one, and `lock` is 1. -/
theorem mutual_exclusion {s : Machine ι Function Bool}
    (hs : Reachable (Machine.step code user) (.start 0 fun _ => false) s) {i j : ι}
    (hi : s.loc i = true) : s.word = 1 ∧ (s.loc j = true → i = j) := by
  obtain ⟨o, hword, hphase⟩ : Inv (s.register code) :=
    implements.invariant_of_register inv_start (fun _ _ _ h hstep => h.step hstep) hs
  have howner {k : ι} (hk : s.loc k = true) : o = some k := by
    have hk' := hphase k
    have hloc : (s.register code).loc k = true := hk
    rw [hloc] at hk'
    generalize hb : (o == some k) = b at hk'
    generalize (s.register code).pending k = call at hk'
    cases hk' with
    | inside => exact beq_iff_eq.mp hb
  have ho := howner hi
  refine ⟨?_, fun hj => Option.some.inj (ho.symm.trans (howner hj))⟩
  rw [ho] at hword
  exact hword

/-- A thread takes the lock while another one tries to. -/
def twoTakers : List (Bool × Action Function) :=
  [(false, .call .spinLock cpu₀), (true, .call .spinTrylock cpu₀), (false, .instr), (false, .instr), (true, .instr),
    (false, .instr), (true, .instr), (true, .ret), (false, .instr), (false, .ret)]

theorem mutual_exclusion_twoTakers :
    ∃ s : Machine Bool Function Bool,
      run (Machine.step code user) (.start 0 fun _ => false) twoTakers = some s ∧
      s.loc false = true ∧ s.word = 1 ∧ (s.loc true = true → false = true) :=
  ⟨_, rfl, rfl, mutual_exclusion ⟨twoTakers, rfl⟩ rfl⟩

end A2PM.Atomic
