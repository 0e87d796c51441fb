/-
A2PM/Segmentation.lean

The greedy segmentation of a list into windows.

A window starts at some element, goes on as long as the elements are not far
from it, and is closed by the first one that is far from it, or by the last
one of the list.  The closing element is not part of the window: it starts the
next one.  So every element but the last one is in exactly one window
(`Greedy.flatMap_elements`).

`Greedy` says this, and `windows` computes it (`greedy_windows`); a list has
no other greedy segmentation (`greedy_iff`).  What a quantity gains over the
windows adds up to what it gains over the list (`Greedy.sum_sub`).
-/
import Mathlib.Algebra.BigOperators.Group.List.Basic
import Mathlib.Data.List.Chain

namespace Segmentation

variable {α : Type*}

structure Window (α : Type*) where
  first : α
  others : List α
  closing : α

namespace Window

def elements (w : Window α) : List α := w.first :: w.others

def size (w : Window α) : ℕ := w.elements.length

end Window

/-- The segmentation of a list; the last element is left over. -/
inductive Greedy (far : α → α → Prop) : List α → List (Window α) → Prop
  | last (x : α) : Greedy far [x] []
  | window {first closing : α} {others rest : List α} {ws : List (Window α)}
      (hnear : ∀ x ∈ others, ¬ far first x) (hclose : far first closing ∨ rest = [])
      (hrest : Greedy far (closing :: rest) ws) :
      Greedy far (first :: (others ++ closing :: rest)) (⟨first, others, closing⟩ :: ws)

/-- Every element but the last one is in one window, in order. -/
theorem Greedy.flatMap_elements {far : α → α → Prop} {l : List α} {ws : List (Window α)}
    (h : Greedy far l ws) : ws.flatMap Window.elements = l.dropLast := by
  induction h with
  | last x => rfl
  | window _ _ _ ih =>
      rw [List.flatMap_cons, ih, Window.elements, ← List.cons_append,
        List.dropLast_append_of_ne_nil (List.cons_ne_nil _ _)]

/-- The elements of a window, in the list that it is a window of. -/
theorem Greedy.elements_sublist {far : α → α → Prop} {l : List α} {ws : List (Window α)}
    (h : Greedy far l ws) {w : Window α} (hw : w ∈ ws) : w.elements.Sublist l := by
  have hall : (ws.flatMap Window.elements).Sublist l := h.flatMap_elements ▸ l.dropLast_sublist
  rw [List.flatMap_def] at hall
  exact (List.sublist_flatten_of_mem (List.mem_map_of_mem hw)).trans hall

theorem Greedy.size_lt_length {far : α → α → Prop} {l : List α} {ws : List (Window α)}
    (h : Greedy far l ws) {w : Window α} (hw : w ∈ ws) : w.size < l.length := by
  induction h with
  | last x => cases hw
  | @window first closing others rest ws _ _ _ ih =>
      rw [List.length_cons, List.length_append]
      rcases List.mem_cons.mp hw with rfl | hw
      · show (first :: others).length < _
        rw [List.length_cons, List.length_cons]
        omega
      · have hlt := ih hw
        omega

/-! ### From one window to the next -/

theorem getLast_window {first closing : α} {others rest : List α}
    (h : first :: (others ++ closing :: rest) ≠ []) :
    (first :: (others ++ closing :: rest)).getLast h =
      (closing :: rest).getLast (List.cons_ne_nil _ _) := by
  rw [List.getLast_cons (by simp), List.getLast_append_of_ne_nil]

/-- What `g` gains over the windows, added up. -/
theorem Greedy.sum_sub {A : Type*} [AddCommGroup A] (g : α → A) {far : α → α → Prop} {l : List α}
    {ws : List (Window α)} (h : Greedy far l ws) (hl : l ≠ []) :
    (ws.map fun w => g w.closing - g w.first).sum = g (l.getLast hl) - g (l.head hl) := by
  induction h with
  | last x => simp
  | @window first closing others rest ws _ _ _ ih =>
      have hrest := ih (List.cons_ne_nil closing rest)
      rw [List.head_cons] at hrest
      rw [List.map_cons, List.sum_cons, hrest, getLast_window, List.head_cons]
      exact sub_add_sub_cancel' _ _ _

/-- The element that closes a window starts the next one. -/
theorem Greedy.isChain {far : α → α → Prop} {l : List α} {ws : List (Window α)}
    (h : Greedy far l ws) : ws.IsChain fun w w' => w.closing = w'.first := by
  induction h with
  | last x => exact .nil
  | window _ _ hrest ih =>
      cases hrest with
      | last => exact .singleton _
      | window => exact List.isChain_cons_cons.mpr ⟨rfl, ih⟩

/-- The last element of the list closes the last window. -/
theorem Greedy.closing_last {far : α → α → Prop} {l : List α} {ws : List (Window α)}
    (h : Greedy far l ws) (hl : l ≠ []) : ∀ w ∈ ws.getLast?, w.closing = l.getLast hl := by
  induction h with
  | last x => simp
  | @window first closing others rest ws _ _ hrest ih =>
      intro w hw
      rw [getLast_window]
      cases hrest with
      | last =>
          obtain rfl := Option.some.inj hw
          rfl
      | window =>
          rw [List.getLast?_cons_cons] at hw
          exact ih (List.cons_ne_nil _ _) w hw

/-! ### The segmentation of a list -/

section

variable (far : α → α → Prop) [DecidableRel far]

/-- The windows from the one on that has started with `first` and `others`. -/
def windowsFrom (first : α) (others : List α) : List α → List (Window α)
  | [] => []
  | [x] => [⟨first, others, x⟩]
  | x :: y :: rest =>
      if far first x then ⟨first, others, x⟩ :: windowsFrom x [] (y :: rest)
      else windowsFrom first (others ++ [x]) (y :: rest)

def windows : List α → List (Window α)
  | [] => []
  | first :: rest => windowsFrom far first [] rest

variable {far}

theorem greedy_windowsFrom {first : α} {others rest : List α}
    (hnear : ∀ x ∈ others, ¬ far first x) (hrest : rest ≠ []) :
    Greedy far (first :: (others ++ rest)) (windowsFrom far first others rest) := by
  fun_induction windowsFrom far first others rest with
  | case1 => exact absurd rfl hrest
  | case2 first others x => exact .window hnear (.inr rfl) (.last x)
  | case3 first others x y rest hfar ih =>
      exact .window hnear (.inl hfar) (ih (by simp) (List.cons_ne_nil _ _))
  | case4 first others x y rest hfar ih =>
      have hnear' : ∀ z ∈ others ++ [x], ¬ far first z := by
        intro z hz
        rcases List.mem_append.mp hz with hz | hz
        · exact hnear z hz
        · rw [List.mem_singleton.mp hz]
          exact hfar
      have hsegments := ih hnear' (List.cons_ne_nil _ _)
      rw [List.append_assoc] at hsegments
      exact hsegments

theorem greedy_windows {l : List α} (h : l ≠ []) : Greedy far l (windows far l) := by
  cases l with
  | nil => exact absurd rfl h
  | cons first rest =>
      cases rest with
      | nil => exact .last first
      | cons x rest =>
          have hnear : ∀ z ∈ ([] : List α), ¬ far first z := by simp
          exact greedy_windowsFrom hnear (List.cons_ne_nil x rest)

/-- Elements that are not far from the first one join its window. -/
theorem windowsFrom_append {first closing : α} {others xs rest : List α}
    (hnear : ∀ x ∈ xs, ¬ far first x) :
    windowsFrom far first others (xs ++ closing :: rest) =
      windowsFrom far first (others ++ xs) (closing :: rest) := by
  induction xs generalizing others with
  | nil => rw [List.nil_append, List.append_nil]
  | cons x xs ih =>
      obtain ⟨y, tail, htail⟩ : ∃ y tail, xs ++ closing :: rest = y :: tail :=
        List.exists_cons_of_ne_nil (by simp)
      have hx : ¬ far first x := hnear x List.mem_cons_self
      have hstep : windowsFrom far first others (x :: (xs ++ closing :: rest)) =
          windowsFrom far first (others ++ [x]) (xs ++ closing :: rest) := by
        rw [htail, windowsFrom, if_neg hx]
      rw [List.cons_append, hstep, ih fun z hz => hnear z (List.mem_cons_of_mem _ hz),
        List.append_assoc]
      rfl

/-- A list has one greedy segmentation. -/
theorem Greedy.eq_windows {l : List α} {ws : List (Window α)} (h : Greedy far l ws) :
    ws = windows far l := by
  induction h with
  | last x => rfl
  | @window first closing others rest ws hnear hclose hrest ih =>
      rw [windows, windowsFrom_append hnear, List.nil_append, ih]
      cases rest with
      | nil => rfl
      | cons y rest =>
          have hfar : far first closing := hclose.resolve_right (List.cons_ne_nil y rest)
          rw [windowsFrom, if_pos hfar]
          rfl

theorem greedy_iff {l : List α} {ws : List (Window α)} (h : l ≠ []) :
    Greedy far l ws ↔ ws = windows far l := by
  constructor
  · exact Greedy.eq_windows
  · intro hws
    rw [hws]
    exact greedy_windows h

end

end Segmentation
