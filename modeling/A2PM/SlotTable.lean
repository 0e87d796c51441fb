/-
A2PM/SlotTable.lean

Compact tables in a growing block of memory.

A `SlotTable` is a block of cells with two counters beside it: `current`
cells from the start are in use, and the block is believed to have
`allocated` cells.  Entries are appended behind the used part, after
doubling the block when it is full; an entry is removed by moving the last
used cell over it, so the used part has no gaps but its order changes.

An access outside the block is `none`, so that "every access is in bounds"
is "the operation returns `some`".  The specification lemmas
(`push_spec`, `removeFirst_spec`, `modifyFirst_spec`) describe each
operation by what it does to `live`, the list of used cells, up to
permutation where cells move.
-/
import Mathlib.Data.List.Basic
import Mathlib.Tactic.Common
import Mathlib.Tactic.Linarith

/-- A block of cells, the first `current` of them in use. -/
structure SlotTable (α : Type*) where
  cells : List α
  current : ℕ
  allocated : ℕ
  deriving DecidableEq

namespace SlotTable

variable {α : Type*}

/-- The cells in use. -/
def live (t : SlotTable α) : List α := t.cells.take t.current

/-- The counters tell the truth: the block has `allocated` cells, at least
one, and no more than that are in use. -/
structure Wf (t : SlotTable α) : Prop where
  pos : 0 < t.allocated
  le : t.current ≤ t.allocated
  len : t.cells.length = t.allocated

/-- Resize a block to `n` cells: what fits of the old contents is kept, the
cells beyond it hold whatever the memory held before (`fresh`). -/
def realloc (n : ℕ) (fresh : ℕ → α) (l : List α) : List α :=
  (List.range n).map fun i => (l[i]?).getD (fresh i)

/-- Double the block if all cells are in use. -/
def ensure (fresh : ℕ → α) (t : SlotTable α) : SlotTable α :=
  if t.current = t.allocated then
    { t with cells := realloc (2 * t.allocated) fresh t.cells, allocated := t.allocated * 2 }
  else t

/-- Overwrite cell `i` by a function of what it held. -/
def modify (t : SlotTable α) (i : ℕ) (f : α → α) : Option (SlotTable α) :=
  (t.cells[i]?).map fun x => { t with cells := t.cells.set i (f x) }

/-- Take the first unused cell into use. -/
def bump (t : SlotTable α) : SlotTable α := { t with current := t.current + 1 }

/-- Append: make room, fill in the first unused cell, take it into use. -/
def push (fresh : ℕ → α) (f : α → α) (t : SlotTable α) : Option (SlotTable α) :=
  ((t.ensure fresh).modify (t.ensure fresh).current f).map bump

/-- Copy the last used cell over cell `i` and give the last one up. -/
def removeAt (t : SlotTable α) (i : ℕ) : Option (SlotTable α) :=
  (t.cells[t.current - 1]?).bind fun x =>
    (t.modify i fun _ => x).map fun t' => { t' with current := t.current - 1 }

/-- Remove the first used cell that satisfies `p`, if there is one. -/
def removeFirst (p : α → Bool) (t : SlotTable α) : Option (SlotTable α) :=
  match t.live.findIdx? p with
  | none => some t
  | some i => t.removeAt i

/-- Overwrite the first used cell that satisfies `p`, if there is one. -/
def modifyFirst (p : α → Bool) (f : α → α) (t : SlotTable α) : Option (SlotTable α) :=
  match t.live.findIdx? p with
  | none => some t
  | some i => t.modify i f

/-! ### Lengths and contents -/

theorem Wf.length_live {t : SlotTable α} (h : t.Wf) : t.live.length = t.current := by
  have := h.le
  have := h.len
  simp only [live, List.length_take]
  omega

@[simp] theorem length_realloc (n : ℕ) (fresh : ℕ → α) (l : List α) :
    (realloc n fresh l).length = n := by simp [realloc]

theorem take_realloc {n k : ℕ} {fresh : ℕ → α} {l : List α} (hk : k ≤ l.length)
    (hn : k ≤ n) : (realloc n fresh l).take k = l.take k := by
  apply List.ext_getElem
  · simp only [List.length_take, length_realloc]
    omega
  · intro i h₁ h₂
    have hi : i < l.length := by
      rw [List.length_take] at h₂
      omega
    simp [realloc, hi]

theorem ensure_spec (fresh : ℕ → α) {t : SlotTable α} (h : t.Wf) :
    (t.ensure fresh).Wf ∧ (t.ensure fresh).current < (t.ensure fresh).allocated ∧
      (t.ensure fresh).live = t.live := by
  obtain ⟨hpos, hle, hlen⟩ := h
  unfold ensure
  split
  · rename_i hfull
    refine ⟨⟨by dsimp only; omega, by dsimp only; omega, ?_⟩, by dsimp only; omega, ?_⟩
    · rw [length_realloc, Nat.mul_comm]
    · have hk : t.current ≤ t.cells.length := by omega
      have hn : t.current ≤ 2 * t.allocated := by omega
      exact take_realloc hk hn
  · exact ⟨⟨hpos, hle, hlen⟩, by omega, rfl⟩

theorem modify_eq_some {t : SlotTable α} {i : ℕ} (f : α → α) (hi : i < t.cells.length) :
    t.modify i f = some { t with cells := t.cells.set i (f t.cells[i]) } := by
  simp [modify, hi]

/-- Two updates of one cell are one. -/
theorem modify_modify (t : SlotTable α) (i : ℕ) (f g : α → α) :
    (t.modify i f).bind (fun u => u.modify i g) = t.modify i (g ∘ f) := by
  by_cases hi : i < t.cells.length
  · have hset : i < (t.cells.set i (f t.cells[i])).length := by rwa [List.length_set]
    rw [modify_eq_some f hi, modify_eq_some (g ∘ f) hi, Option.bind_some, modify_eq_some g hset,
      List.getElem_set_self, List.set_set]
    rfl
  · have hnone : ∀ f : α → α, t.modify i f = none := by
      intro f
      rw [modify, List.getElem?_eq_none (Nat.le_of_not_lt hi)]
      rfl
    rw [hnone, hnone]
    rfl

theorem Wf.set {t : SlotTable α} (h : t.Wf) (i : ℕ) (x : α) :
    ({ t with cells := t.cells.set i x } : SlotTable α).Wf :=
  ⟨h.pos, h.le, by simpa using h.len⟩

/-! ### Appending -/

/-- Where there is room, filling in the first unused cell adds one entry:
some old cell contents `x`, overwritten by `f`. -/
theorem fillNext_spec (f : α → α) {t : SlotTable α} (h : t.Wf) (hlt : t.current < t.allocated) :
    ∃ t' x, (t.modify t.current f).map bump = some t' ∧ t'.Wf ∧ t'.current = t.current + 1 ∧
      t'.cells[t.current]? = some (f x) ∧ t'.live = t.live ++ [f x] := by
  have hi : t.current < t.cells.length := by rw [h.len]; exact hlt
  refine ⟨{ t with cells := t.cells.set t.current (f t.cells[t.current]),
                   current := t.current + 1 }, t.cells[t.current], ?_, ?_, rfl, ?_, ?_⟩
  · rw [modify_eq_some f hi]
    rfl
  · exact ⟨h.pos, hlt, by simpa using h.len⟩
  · simp [hi]
  · simp only [live]
    rw [List.take_set, List.take_succ_eq_append_getElem hi, List.set_append_right]
    · simp only [List.length_take]
      rw [Nat.min_eq_left (Nat.le_of_lt hi), Nat.sub_self]
      rfl
    · simp only [List.length_take]
      omega

/-- Appending stays in bounds, and adds one entry. -/
theorem push_spec (fresh : ℕ → α) (f : α → α) {t : SlotTable α} (h : t.Wf) :
    ∃ t' x, t.push fresh f = some t' ∧ t'.Wf ∧ t'.current = t.current + 1 ∧
      t'.cells[t.current]? = some (f x) ∧ t'.live = t.live ++ [f x] := by
  obtain ⟨hwf, hlt, hlive⟩ := ensure_spec fresh h
  have hcur : (t.ensure fresh).current = t.current := by
    unfold ensure
    split <;> rfl
  obtain ⟨t', x, ht', hwf', hcur', hcell, hlive'⟩ := fillNext_spec f hwf hlt
  rw [hcur] at hcur' hcell
  rw [hlive] at hlive'
  exact ⟨t', x, ht', hwf', hcur', hcell, hlive'⟩

/-- Make room and prepare the first unused cell; no entry changes.  Filling in
the prepared cell then adds an entry. -/
theorem prepareNext_spec (fresh : ℕ → α) (f : α → α) {t : SlotTable α} (h : t.Wf) :
    ∃ u, (t.ensure fresh).modify (t.ensure fresh).current f = some u ∧ u.Wf ∧ u.live = t.live ∧
      ∀ g : α → α, ∃ v x, (u.modify u.current g).map bump = some v ∧ v.Wf ∧
        v.live = t.live ++ [g (f x)] := by
  obtain ⟨hwf, hlt, hlive⟩ := ensure_spec fresh h
  have hlen : (t.ensure fresh).current < (t.ensure fresh).cells.length := by
    rw [hwf.len]
    exact hlt
  have hmodify := modify_eq_some f hlen
  refine ⟨_, hmodify, hwf.set _ _, ?_, fun g => ?_⟩
  · rw [← hlive]
    exact List.take_set_of_le (le_refl _)
  · obtain ⟨v, x, hv, hvwf, -, -, hvlive⟩ := fillNext_spec (g ∘ f) hwf hlt
    rw [← modify_modify, hmodify, Option.bind_some] at hv
    exact ⟨v, x, hv, hvwf, hlive ▸ hvlive⟩

/-! ### Removing -/

/-- The list without its `i`-th element, to whose place the last one has
been moved. -/
def swapRemove (l : List α) (i : ℕ) : List α :=
  match l.getLast? with
  | none => []
  | some x => (l.set i x).dropLast

theorem swapRemove_eq {l : List α} {x : α} (hx : l.getLast? = some x) (i : ℕ) :
    swapRemove l i = (l.set i x).dropLast := by
  rw [swapRemove, hx]

theorem mem_of_mem_swapRemove {l : List α} {i : ℕ} {y : α} (h : y ∈ swapRemove l i) : y ∈ l := by
  cases hlast : l.getLast? with
  | none =>
      rw [swapRemove, hlast] at h
      cases h
  | some x =>
      rw [swapRemove_eq hlast] at h
      rcases List.mem_or_eq_of_mem_set (List.dropLast_subset _ h) with hy | rfl
      · exact hy
      · exact List.mem_of_getLast? hlast

theorem map_swapRemove {β : Type*} (f : α → β) (l : List α) (i : ℕ) :
    (swapRemove l i).map f = swapRemove (l.map f) i := by
  cases hlast : l.getLast? with
  | none =>
      obtain rfl := List.getLast?_eq_none_iff.mp hlast
      rfl
  | some x =>
      have hmap : (l.map f).getLast? = some (f x) := by rw [List.getLast?_map, hlast, Option.map_some]
      rw [swapRemove_eq hlast, swapRemove_eq hmap, List.map_dropLast, List.map_set]

/-- Two lists of one length stay aligned. -/
theorem zip_swapRemove {β : Type*} {l : List α} {m : List β} (h : l.length = m.length) (i : ℕ) :
    (swapRemove l i).zip (swapRemove m i) = swapRemove (l.zip m) i := by
  have hfst : (swapRemove (l.zip m) i).map Prod.fst = swapRemove l i := by
    rw [map_swapRemove, List.map_fst_zip h.le]
  have hsnd : (swapRemove (l.zip m) i).map Prod.snd = swapRemove m i := by
    rw [map_swapRemove, List.map_snd_zip h.ge]
  exact (List.zip_of_prod hfst hsnd).symm

theorem length_swapRemove (l : List α) (i : ℕ) : (swapRemove l i).length = l.length - 1 := by
  cases hlast : l.getLast? with
  | none =>
      obtain rfl := List.getLast?_eq_none_iff.mp hlast
      rfl
  | some x => rw [swapRemove_eq hlast, List.length_dropLast, List.length_set]

/-- Moving the last element over another one and dropping the last place
removes that one. -/
theorem perm_swapRemove {l : List α} {i : ℕ} (hi : i < l.length) :
    l.Perm (l[i] :: swapRemove l i) := by
  obtain ⟨ys, x, rfl⟩ : ∃ ys x, l = ys ++ [x] := by
    refine (List.eq_nil_or_concat' l).resolve_left ?_
    rintro rfl
    exact Nat.not_lt_zero i hi
  rw [swapRemove_eq List.getLast?_concat]
  by_cases h : i < ys.length
  · rw [List.getElem_append_left h, List.set_append_left _ _ h, List.dropLast_concat]
    calc (ys ++ [x]).Perm (x :: ys) := List.perm_append_singleton x ys
      _ = x :: (ys.take i ++ ys[i] :: ys.drop (i + 1)) := by
          rw [List.getElem_cons_drop, List.take_append_drop]
      _ |>.Perm (x :: ys[i] :: (ys.take i ++ ys.drop (i + 1))) :=
          List.perm_middle.cons x
      _ |>.Perm (ys[i] :: x :: (ys.take i ++ ys.drop (i + 1))) := List.Perm.swap _ _ _
      _ |>.Perm (ys[i] :: (ys.take i ++ x :: ys.drop (i + 1))) :=
          (List.perm_middle.symm).cons _
      _ = ys[i] :: ys.set i x := by rw [List.set_eq_take_append_cons_drop, if_pos h]
  · have hi' : i = ys.length := by
      rw [List.length_append, List.length_singleton] at hi
      omega
    subst hi'
    simp

/-- The last entry is moved to the place of the one that is removed. -/
theorem removeAt_live {t : SlotTable α} (h : t.Wf) {i : ℕ} (hi : i < t.live.length) :
    ∃ t', t.removeAt i = some t' ∧ t'.Wf ∧ t'.allocated = t.allocated ∧
      t'.current + 1 = t.current ∧ t'.live = swapRemove t.live i := by
  have hcur : i < t.current := h.length_live ▸ hi
  have hle := h.le
  have hlen := h.len
  have hlast : t.current - 1 < t.cells.length := by omega
  have hic : i < t.cells.length := by omega
  refine ⟨{ t with cells := t.cells.set i t.cells[t.current - 1], current := t.current - 1 },
    ?_, ⟨h.pos, by dsimp only; omega, by simpa using hlen⟩, rfl, by dsimp only; omega, ?_⟩
  · simp [removeAt, modify, hlast, hic]
  · have hget : t.live.getLast? = some t.cells[t.current - 1] := by
      rw [List.getLast?_eq_getElem?, h.length_live, live, List.getElem?_take_of_lt (by omega),
        List.getElem?_eq_getElem hlast]
    have hset : (t.live.set i t.cells[t.current - 1]).dropLast =
        (t.cells.set i t.cells[t.current - 1]).take (t.current - 1) := by
      rw [List.dropLast_eq_take, List.length_set, h.length_live, live, ← List.take_set,
        List.take_take, Nat.min_eq_left (Nat.sub_le _ _)]
    rw [swapRemove_eq hget, hset]
    rfl

theorem removeAt_spec {t : SlotTable α} (h : t.Wf) {i : ℕ} (hi : i < t.live.length) :
    ∃ t', t.removeAt i = some t' ∧ t'.Wf ∧ t'.allocated = t.allocated ∧
      t'.current + 1 = t.current ∧ t.live.Perm (t.live[i] :: t'.live) := by
  obtain ⟨t', ht', hwf, hallocated, hcurrent, hlive⟩ := removeAt_live h hi
  exact ⟨t', ht', hwf, hallocated, hcurrent, hlive ▸ perm_swapRemove hi⟩

/-- Where the entry that `removeFirst` removes was, the last one is. -/
theorem removeFirst_live (p : α → Bool) {t t' : SlotTable α} (h : t.Wf)
    (ht : t.removeFirst p = some t') :
    t'.live = match t.live.findIdx? p with
      | none => t.live
      | some i => swapRemove t.live i := by
  unfold removeFirst at ht
  cases hf : t.live.findIdx? p with
  | none =>
      rw [hf] at ht
      obtain rfl := Option.some.inj ht
      rfl
  | some i =>
      rw [hf] at ht
      obtain ⟨hi, -, -⟩ := List.findIdx?_eq_some_iff_getElem.mp hf
      obtain ⟨u, hu, -, -, -, hlive⟩ := removeAt_live h hi
      obtain rfl := Option.some.inj (hu.symm.trans ht)
      exact hlive

/-- Removing stays in bounds; it removes the first entry that satisfies
`p`, or nothing if there is none. -/
theorem removeFirst_spec (p : α → Bool) {t : SlotTable α} (h : t.Wf) :
    ∃ t', t.removeFirst p = some t' ∧ t'.Wf ∧ t'.allocated = t.allocated ∧
      (t.live.find? p = none → t' = t) ∧
      (∀ e, t.live.find? p = some e → t.live.Perm (e :: t'.live)) := by
  unfold removeFirst
  cases hf : t.live.findIdx? p with
  | none =>
      refine ⟨t, rfl, h, rfl, fun _ => rfl, fun e he => ?_⟩
      have := List.findIdx?_eq_none_iff.mp hf e (List.mem_of_find?_eq_some he)
      rw [List.find?_some he] at this
      cases this
  | some i =>
      obtain ⟨hi, hpi, hmin⟩ := List.findIdx?_eq_some_iff_getElem.mp hf
      obtain ⟨t', ht', hwf, hal, -, hperm⟩ := removeAt_spec h hi
      have hfind : t.live.find? p = some t.live[i] :=
        List.find?_eq_some_iff_getElem.mpr ⟨hpi, i, hi, rfl, fun j hj => by
          simpa using hmin j hj⟩
      refine ⟨t', ht', hwf, hal, fun hn => ?_, fun e he => ?_⟩
      · rw [hfind] at hn
        cases hn
      · rw [hfind] at he
        obtain rfl := Option.some.inj he
        exact hperm

/-! ### Updating in place -/

/-- Updating the first entry that satisfies `p` stays in bounds and changes
that entry only. -/
theorem modifyFirst_spec (p : α → Bool) (f : α → α) {t : SlotTable α} (h : t.Wf) :
    ∃ t', t.modifyFirst p f = some t' ∧ t'.Wf ∧ t'.allocated = t.allocated ∧
      t'.current = t.current ∧
      (t.live.findIdx? p = none → t' = t) ∧
      (∀ i, t.live.findIdx? p = some i → ∃ hi : i < t.live.length,
        t'.live = t.live.set i (f t.live[i])) := by
  unfold modifyFirst
  cases hf : t.live.findIdx? p with
  | none => exact ⟨t, rfl, h, rfl, rfl, fun _ => rfl, fun i hi => by cases hi⟩
  | some i =>
      obtain ⟨hi, -, -⟩ := List.findIdx?_eq_some_iff_getElem.mp hf
      have hcur : i < t.current := h.length_live ▸ hi
      have hle := h.le
      have hlen := h.len
      have hic : i < t.cells.length := by omega
      refine ⟨_, modify_eq_some f hic, h.set i _, rfl, rfl, fun hn => by (cases hn), ?_⟩
      intro j hj
      obtain rfl := Option.some.inj hj
      refine ⟨hi, ?_⟩
      simp only [live, List.getElem_take, List.take_set]

end SlotTable
