/-
A2PM/Blocks.lean

Blocks of memory at addresses, as `malloc` and `realloc` hand them out.

An address that is not in use has no block, and an access that leaves its
block, or has none, is `none`.  `Holds h p n xs` says that the block at `p` has
at least `n` cells, of which the first ones are `xs`.  The two rules,
`realloc_spec` and `write_spec`, say what an operation does to the block that
it is about, and that the other ones are as they were.
-/
import A2PM.SlotTable
import Mathlib.Data.List.Infix
import Mathlib.Logic.Function.Basic

namespace Blocks

variable {α : Type*}

abbrev Heap (α : Type*) := ℕ → Option (List α)

/-- `realloc`: the block at `p` becomes one of `n` cells at `p'`; either it
stays where it is or the address is a new one.  (`fresh`: the memory that is
added.) -/
def realloc (h : Heap α) (p n p' : ℕ) (fresh : ℕ → α) : Option (Heap α) :=
  (h p).bind fun block =>
    if p' = p ∨ h p' = none then
      some (Function.update (Function.update h p none) p' (some (SlotTable.realloc n fresh block)))
    else none

/-- Write `xs` to the cells from `i` on. -/
def write (h : Heap α) (p i : ℕ) (xs : List α) : Option (Heap α) :=
  (h p).bind fun block =>
    if i + xs.length ≤ block.length then
      some (Function.update h p (some (block.take i ++ xs ++ block.drop (i + xs.length))))
    else none

/-- Read the first `n` cells. -/
def read (h : Heap α) (p n : ℕ) : Option (List α) :=
  (h p).bind fun block => if n ≤ block.length then some (block.take n) else none

/-- The block at `p` has `n` cells or more, and begins with `xs`. -/
def Holds (h : Heap α) (p n : ℕ) (xs : List α) : Prop :=
  ∃ block, h p = some block ∧ n ≤ block.length ∧ xs <+: block

theorem Holds.mono {h : Heap α} {p m n : ℕ} {xs : List α} (hh : Holds h p n xs) (hmn : m ≤ n) :
    Holds h p m xs := by
  obtain ⟨block, hblock, hn, hxs⟩ := hh
  exact ⟨block, hblock, Nat.le_trans hmn hn, hxs⟩

/-- What it begins with fits. -/
theorem Holds.full {h : Heap α} {p n : ℕ} {xs : List α} (hh : Holds h p n xs) :
    Holds h p xs.length xs := by
  obtain ⟨block, hblock, -, hxs⟩ := hh
  exact ⟨block, hblock, hxs.length_le, hxs⟩

theorem Holds.congr {h h' : Heap α} {p n : ℕ} {xs : List α} (hh : Holds h p n xs)
    (heq : h' p = h p) : Holds h' p n xs := by
  rwa [Holds, heq]

/-- A larger block keeps what the old one held. -/
theorem realloc_spec {h : Heap α} {p n m p' : ℕ} {xs : List α} (fresh : ℕ → α)
    (hh : Holds h p m xs) (hp : p' = p ∨ h p' = none) (hn : xs.length ≤ n) :
    ∃ h', realloc h p n p' fresh = some h' ∧ Holds h' p' n xs ∧ (p' ≠ p → h' p = none) ∧
      ∀ q, q ≠ p → q ≠ p' → h' q = h q := by
  obtain ⟨block, hblock, -, hxs⟩ := hh
  have hr : realloc h p n p' fresh =
      some (Function.update (Function.update h p none) p'
        (some (SlotTable.realloc n fresh block))) := by
    rw [realloc, hblock, Option.bind_some, if_pos hp]
  refine ⟨_, hr, ⟨_, Function.update_self _ _ _, ?_, ?_⟩, fun hne => ?_, fun q hq hq' => ?_⟩
  · rw [SlotTable.length_realloc]
  · rw [List.prefix_iff_eq_take, SlotTable.take_realloc hxs.length_le hn]
    exact List.prefix_iff_eq_take.mp hxs
  · rw [Function.update_of_ne (Ne.symm hne), Function.update_self]
  · rw [Function.update_of_ne hq', Function.update_of_ne hq]

/-- Writing behind what the block holds. -/
theorem write_spec {h : Heap α} {p n : ℕ} {xs : List α} (ys : List α) (hh : Holds h p n xs)
    (hn : xs.length + ys.length ≤ n) :
    ∃ h', write h p xs.length ys = some h' ∧ Holds h' p n (xs ++ ys) ∧
      ∀ q, q ≠ p → h' q = h q := by
  obtain ⟨block, hblock, hlen, hxs⟩ := hh
  have hroom := Nat.le_trans hn hlen
  have htake : block.take xs.length = xs := (List.prefix_iff_eq_take.mp hxs).symm
  have hw : write h p xs.length ys =
      some (Function.update h p
        (some (block.take xs.length ++ ys ++ block.drop (xs.length + ys.length)))) := by
    rw [write, hblock, Option.bind_some, if_pos hroom]
  refine ⟨_, hw, ⟨_, Function.update_self _ _ _, ?_, ?_⟩, fun q hq => ?_⟩
  · rw [htake, List.length_append, List.length_append, List.length_drop]
    omega
  · rw [htake]
    exact List.prefix_append _ _
  · exact Function.update_of_ne hq _ _

theorem realloc_eq_some {h h' : Heap α} {p n p' : ℕ} {fresh : ℕ → α}
    (hr : realloc h p n p' fresh = some h') : p' = p ∨ h p' = none := by
  obtain ⟨block, -, hr⟩ := Option.bind_eq_some_iff.mp hr
  exact (Option.ite_none_right_eq_some.mp hr).1

/-- A write touches one block. -/
theorem write_frame {h h' : Heap α} {p i : ℕ} {xs : List α} (hw : write h p i xs = some h')
    {q : ℕ} (hq : q ≠ p) : h' q = h q := by
  obtain ⟨block, -, hw⟩ := Option.bind_eq_some_iff.mp hw
  obtain ⟨-, hw⟩ := Option.ite_none_right_eq_some.mp hw
  rw [← Option.some.inj hw]
  exact Function.update_of_ne hq _ _

end Blocks
