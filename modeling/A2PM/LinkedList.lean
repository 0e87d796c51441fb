/-
A2PM/LinkedList.lean

The singly linked lists of `model_build/list.c`: nodes in a heap, each with a
link to the next one, and the two ends of a list.

The link of the tail is not part of a list: `insertRear` does not read it and
sets it only when another node follows.  `Segment` follows links from an
address over the nodes it visits to the address where it arrives, and `Holds`
says what a list holds by it; reading a list from head to tail gives that back
(`Holds.reads`).
-/
import Mathlib.Data.List.Nodup
import Mathlib.Logic.Function.Basic
import Mathlib.Data.Nat.Notation
import Mathlib.Tactic.TypeStar

namespace A2PM.ModelBuild

/-- A `list_link`: an address, or `NULL`. -/
abbrev Link := Option ℕ

/-- A node: its data and its link. -/
structure Cell (α : Type*) where
  data : α
  next : Link

/-- The nodes at their addresses. -/
abbrev Heap (α : Type*) := ℕ → Option (Cell α)

/-- `list`. -/
structure LinkedList where
  head : Link
  tail : Link

namespace LinkedList

variable {α : Type*}

/-- `initList`. -/
def initList : LinkedList := ⟨none, none⟩

/-- `insertRear`; `none` where it follows a link that leads to no node. -/
def insertRear (heap : Heap α) (l : LinkedList) (temp : ℕ) : Option (Heap α × LinkedList) :=
  match l.head with
  | none => some (heap, ⟨some temp, some temp⟩)
  | some _ =>
      l.tail.bind fun tail => (heap tail).map fun c =>
        (Function.update heap tail (some { c with next := some temp }),
          { l with tail := some temp })

/-- The data from an address to the tail, for at most `fuel` nodes. -/
def readFrom (heap : Heap α) (l : LinkedList) : ℕ → Link → Option (List α)
  | _, none => some []
  | 0, some _ => none
  | fuel + 1, some p =>
      (heap p).bind fun c =>
        if l.tail = some p then some [c.data]
        else (readFrom heap l fuel c.next).map fun rest => c.data :: rest

/-- Read from head to tail, the list is `xs`. -/
def Reads (heap : Heap α) (l : LinkedList) (xs : List α) : Prop :=
  ∃ fuel, l.readFrom heap fuel l.head = some xs

/-! ### Segments -/

/-- The links lead from the first address over these nodes to the second. -/
inductive Segment (heap : Heap α) : Link → List (ℕ × α) → Link → Prop
  | nil (a : Link) : Segment heap a [] a
  | cons {p : ℕ} {c : Cell α} {rest : List (ℕ × α)} {b : Link} : heap p = some c →
      Segment heap c.next rest b → Segment heap (some p) ((p, c.data) :: rest) b

namespace Segment

variable {heap heap' : Heap α} {a b : Link} {nodes more : List (ℕ × α)}

theorem append {c : Link} (h : Segment heap a nodes b) (h' : Segment heap b more c) :
    Segment heap a (nodes ++ more) c := by
  induction h with
  | nil => exact h'
  | cons hp _ ih => exact cons hp (ih h')

theorem split (h : Segment heap a (nodes ++ more) b) :
    ∃ c, Segment heap a nodes c ∧ Segment heap c more b := by
  induction nodes generalizing a with
  | nil => exact ⟨a, nil a, h⟩
  | cons node nodes ih =>
      cases h with
      | cons hp hrest =>
          obtain ⟨c, hnodes, hmore⟩ := ih hrest
          exact ⟨c, cons hp hnodes, hmore⟩

theorem eq_nil (h : Segment heap none nodes b) : nodes = [] := by
  cases h
  rfl

/-- A segment depends on the nodes that it visits. -/
theorem congr (h : Segment heap a nodes b) (hheap : ∀ node ∈ nodes, heap' node.1 = heap node.1) :
    Segment heap' a nodes b := by
  induction h with
  | nil a => exact nil a
  | cons hp _ ih =>
      refine cons ((hheap _ List.mem_cons_self).trans hp) (ih fun node hnode => ?_)
      exact hheap node (List.mem_cons_of_mem _ hnode)

theorem eq_start (h : Segment heap a [] b) : b = a := by
  cases h
  rfl

theorem start_eq {node : ℕ × α} {rest : List (ℕ × α)} (h : Segment heap a (node :: rest) b) :
    a = some node.1 := by
  cases h
  rfl

/-- The nodes of a segment are in the heap. -/
theorem cell_of_mem (h : Segment heap a nodes b) {node : ℕ × α} (hnode : node ∈ nodes) :
    ∃ c, heap node.1 = some c ∧ c.data = node.2 := by
  induction h with
  | nil => cases hnode
  | cons hp _ ih =>
      rcases List.mem_cons.mp hnode with rfl | hnode
      · exact ⟨_, hp, rfl⟩
      · exact ih hnode

/-- A segment arrives where the link of its last node leads. -/
theorem next_eq {p : ℕ} {x : α} {c : Cell α} (h : Segment heap a (nodes ++ [(p, x)]) b)
    (hp : heap p = some c) : b = c.next := by
  obtain ⟨_, -, hlast⟩ := h.split
  cases hlast with
  | cons hp' hend =>
      obtain rfl := Option.some.inj (hp'.symm.trans hp)
      exact hend.eq_start

end Segment

/-! ### What a list holds -/

/-- The list consists of these nodes, the last of which is the tail. -/
structure Holds (heap : Heap α) (l : LinkedList) (nodes : List (ℕ × α)) : Prop where
  segment : ∃ b, Segment heap l.head nodes b
  tail : l.tail = nodes.getLast?.map Prod.fst
  empty : nodes = [] → l.head = none
  nodup : (nodes.map Prod.fst).Nodup

variable {heap heap' : Heap α} {l : LinkedList} {nodes : List (ℕ × α)}

theorem holds_initList (heap : Heap α) : initList.Holds heap [] :=
  ⟨⟨none, .nil none⟩, rfl, fun _ => rfl, List.nodup_nil⟩

/-- A list depends on its own nodes. -/
theorem Holds.congr (h : l.Holds heap nodes)
    (hheap : ∀ node ∈ nodes, heap' node.1 = heap node.1) : l.Holds heap' nodes := by
  obtain ⟨b, hsegment⟩ := h.segment
  exact ⟨⟨b, hsegment.congr hheap⟩, h.tail, h.empty, h.nodup⟩

/-- The tail is the node that no other node of the list follows. -/
theorem Holds.tail_iff (h : l.Holds heap nodes) {before rest : List (ℕ × α)} {node : ℕ × α}
    (hnodes : nodes = before ++ node :: rest) : l.tail = some node.1 ↔ rest = [] := by
  rw [h.tail, hnodes]
  rcases List.eq_nil_or_concat' rest with rfl | ⟨rest, last, rfl⟩
  · simp
  · have hnodup := h.nodup
    rw [hnodes, List.map_append, List.nodup_append] at hnodup
    have hne : last.1 ≠ node.1 := by
      intro heq
      apply (List.nodup_cons.mp hnodup.2.1).1
      rw [← heq]
      exact List.mem_map_of_mem (List.mem_append_right rest List.mem_cons_self)
    have hlast : (before ++ node :: (rest ++ [last])).getLast? = some last := by
      rw [← List.cons_append, ← List.append_assoc, List.getLast?_concat]
    rw [hlast]
    refine iff_of_false ?_ (List.append_ne_nil_of_right_ne_nil _ (List.cons_ne_nil _ _))
    exact fun heq => hne (Option.some.inj heq)

theorem Holds.nodup_append (h : l.Holds heap nodes) {temp : ℕ} {x : α}
    (htemp : temp ∉ nodes.map Prod.fst) : ((nodes ++ [(temp, x)]).map Prod.fst).Nodup := by
  rw [List.map_append, List.nodup_append]
  refine ⟨h.nodup, List.nodup_singleton _, ?_⟩
  rintro p hp q hq rfl
  obtain rfl := List.mem_singleton.mp hq
  exact htemp hp

/-- On a list with a tail, `insertRear` links the tail to the new node. -/
theorem insertRear_of_tail {tail temp : ℕ} {ct : Cell α} (hhead : l.head ≠ none)
    (htail : l.tail = some tail) (hct : heap tail = some ct) :
    l.insertRear heap temp =
      some (Function.update heap tail (some { ct with next := some temp }),
        { l with tail := some temp }) := by
  obtain ⟨p, hp⟩ := Option.ne_none_iff_exists'.mp hhead
  rw [insertRear, hp, htail]
  show (heap tail).map _ = _
  rw [hct]
  rfl

/-- A node that is not in the list becomes its last one, and no node outside
the list changes. -/
theorem Holds.insertRear (h : l.Holds heap nodes) {temp : ℕ} {c : Cell α}
    (htemp : temp ∉ nodes.map Prod.fst) (hc : heap temp = some c) :
    ∃ heap' l', l.insertRear heap temp = some (heap', l') ∧
      l'.Holds heap' (nodes ++ [(temp, c.data)]) ∧
      ∀ p, p ∉ nodes.map Prod.fst → heap' p = heap p := by
  obtain ⟨b, hsegment⟩ := h.segment
  rcases List.eq_nil_or_concat' nodes with rfl | ⟨before, last, rfl⟩
  · have hempty : l.insertRear heap temp = some (heap, ⟨some temp, some temp⟩) := by
      rw [LinkedList.insertRear, h.empty rfl]
    exact ⟨_, _, hempty, ⟨⟨c.next, .cons hc (.nil _)⟩, rfl, nofun, h.nodup_append htemp⟩,
      fun _ _ => rfl⟩
  · obtain ⟨a, hbefore, hlast⟩ := hsegment.split
    cases hlast with
    | @cons tail ct _ _ htail hend =>
        have hne : temp ≠ tail := by
          rintro rfl
          exact htemp (by simp)
        have hout : ∀ node ∈ before, node.1 ≠ tail := by
          have hnodup := h.nodup
          rw [List.map_append, List.nodup_append] at hnodup
          exact fun node hnode => hnodup.2.2 node.1 (List.mem_map_of_mem hnode) tail
            List.mem_cons_self
        have hhead : l.head ≠ none := by
          intro hnone
          rw [hnone] at hsegment
          exact List.append_ne_nil_of_right_ne_nil _ (List.cons_ne_nil _ _) hsegment.eq_nil
        have hltail : l.tail = some tail := by
          rw [h.tail, List.getLast?_concat]
          rfl
        have hrear : l.insertRear heap temp = _ := insertRear_of_tail hhead hltail htail
        -- the new link, at the tail, is all that changes
        have hlinked := Function.update_self tail (some { ct with next := some temp }) heap
        refine ⟨_, _, hrear, ⟨⟨c.next, ?_⟩, ?_, ?_, h.nodup_append htemp⟩, ?_⟩
        · have hbefore' := hbefore.congr fun node hnode =>
            Function.update_of_ne (hout node hnode) (some { ct with next := some temp }) heap
          have htemp' := (Function.update_of_ne hne (some { ct with next := some temp }) heap).trans hc
          exact (hbefore'.append (.cons hlinked (.nil _))).append (.cons htemp' (.nil _))
        · rw [List.getLast?_concat]
          rfl
        · intro hnil
          exact absurd hnil (List.append_ne_nil_of_right_ne_nil _ (List.cons_ne_nil _ _))
        · intro p hp
          refine Function.update_of_ne ?_ ..
          rintro rfl
          exact hp (by simp)

theorem readFrom_segment {a b : Link} (h : Segment heap a nodes b)
    (hne : nodes ≠ []) (htail : l.tail = nodes.getLast?.map Prod.fst)
    (hnodup : (nodes.map Prod.fst).Nodup) :
    l.readFrom heap nodes.length a = some (nodes.map Prod.snd) := by
  -- along the segment; without a repetition the tail is met at the end only
  induction h with
  | nil => exact absurd rfl hne
  | @cons p c rest b hp hrest ih =>
      rw [List.length_cons, readFrom, hp, Option.bind_some]
      cases rest with
      | nil => exact if_pos htail
      | cons next rest =>
          -- the tail is behind this node
          rw [List.getLast?_cons_cons] at htail
          rw [List.map_cons, List.nodup_cons] at hnodup
          obtain ⟨hp', hnodup⟩ := hnodup
          have hlater : l.tail ≠ some p := by
            intro hhere
            obtain ⟨last, hlast, heq⟩ := Option.map_eq_some_iff.mp (htail.symm.trans hhere)
            have hmem : last.1 ∈ (next :: rest).map Prod.fst :=
              List.mem_map_of_mem (List.mem_of_getLast? hlast)
            rw [heq] at hmem
            exact hp' hmem
          rw [if_neg hlater, ih (List.cons_ne_nil _ _) htail hnodup]
          rfl

/-- Reading is not changed by more fuel. -/
theorem readFrom_mono {fuel : ℕ} {a : Link} {xs : List α} (h : l.readFrom heap fuel a = some xs)
    (extra : ℕ) : l.readFrom heap (fuel + extra) a = some xs := by
  induction fuel generalizing a xs with
  | zero =>
      cases a with
      | none =>
          cases extra <;> exact h
      | some p => cases h
  | succ fuel ih =>
      cases a with
      | none =>
          rw [Nat.add_right_comm]
          exact h
      | some p =>
          rw [Nat.add_right_comm]
          rw [readFrom, Option.bind_eq_some_iff] at h ⊢
          obtain ⟨c, hc, h⟩ := h
          refine ⟨c, hc, ?_⟩
          split at h
          next htail => rw [if_pos htail, h]
          next htail =>
              obtain ⟨rest, hrest, rfl⟩ := Option.map_eq_some_iff.mp h
              rw [if_neg htail, ih hrest]
              rfl

theorem Reads.eq {xs ys : List α} (hx : l.Reads heap xs) (hy : l.Reads heap ys) : xs = ys := by
  obtain ⟨m, hm⟩ := hx
  obtain ⟨n, hn⟩ := hy
  have hmore := readFrom_mono hm n
  rw [Nat.add_comm, readFrom_mono hn m] at hmore
  exact (Option.some.inj hmore).symm

/-- From head to tail the nodes are read in their order. -/
theorem Holds.reads (h : l.Holds heap nodes) : l.Reads heap (nodes.map Prod.snd) := by
  rcases eq_or_ne nodes [] with rfl | hne
  · refine ⟨0, ?_⟩
    rw [h.empty rfl]
    rfl
  · obtain ⟨b, hsegment⟩ := h.segment
    exact ⟨nodes.length, readFrom_segment hsegment hne h.tail h.nodup⟩

end LinkedList

end A2PM.ModelBuild
