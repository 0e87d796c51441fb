/-
A2PM/ListOperations.lean

All operations of `model_build/list.c` on a list in the heap, and what a list
represents after any sequence of them.

`Represents` says that the links lead from `head` over the nodes to `NULL`,
with `tail` the last node.  Each operation keeps it and does to the sequence of
nodes what `Op.apply` says (`step_represents`): two surgeries on a segment, a
node linked in after another one (`Segment.insertAfter`) and a node taken out
(`Segment.skip`), are behind all cases.  The two searches walk the list, so
they end after as many steps as it has nodes.

Keys are rational, and `==` compares one with an integer.
-/
import A2PM.LinkedList
import A2PM.Transition
import Mathlib.Algebra.Order.Ring.Rat

namespace A2PM.ModelBuild

namespace LinkedList

variable {α : Type*}

/-! ### The operations -/

/-- `insertFront` -/
def insertFront (heap : Heap α) (l : LinkedList) (temp : ℕ) : Option (Heap α × LinkedList) :=
  match l.head with
  | none => some (heap, ⟨some temp, some temp⟩)
  | some _ => (heap temp).map fun c =>
      (Function.update heap temp (some { c with next := l.head }), { l with head := some temp })

variable (key : α → ℚ)

/-- The loop of `insertNext` and `deleteNode`, from `t` on: the node with key
`x`, if there is one, and `tp`, the node before it. -/
def search (heap : Heap α) (x : ℤ) : ℕ → Link → Link → Option (Link × Link)
  | _, tp, none => some (tp, none)
  | 0, _, some _ => none
  | fuel + 1, tp, some t =>
      (heap t).bind fun c =>
        if key c.data = x then some (tp, some t) else search heap x fuel (some t) c.next

/-- `insertNext` -/
def insertNext (fuel : ℕ) (heap : Heap α) (l : LinkedList) (temp : ℕ) (x : ℤ) :
    Option (Heap α × LinkedList) :=
  (search key heap x fuel l.head l.head).bind fun found =>
    match found.2 with
    | none => some (heap, l)
    | some t => (heap t).bind fun ct =>
        match ct.next with
        | none =>
            some (Function.update heap t (some { ct with next := some temp }),
              { l with tail := some temp })
        | some _ => (heap temp).map fun c =>
            (Function.update (Function.update heap temp (some { c with next := ct.next })) t
              (some { ct with next := some temp }), l)

/-- What `deleteNode` does before `free`, where it has found `t` behind
`tp`. -/
def unlink (heap : Heap α) (l : LinkedList) (tp : Link) (t : ℕ) : Option (Heap α × LinkedList) :=
  (heap t).bind fun ct =>
    if tp = some t then
      l.head.bind fun head => (heap head).map fun ch =>
        match ch.next with
        | none => (heap, ⟨none, none⟩)
        | some _ => (heap, { l with head := ct.next })
    else
      tp.bind fun p => (heap p).map fun cp =>
        match ct.next with
        | none => (Function.update heap p (some { cp with next := none }),
            { l with tail := some p })
        | some _ => (Function.update heap p (some { cp with next := ct.next }), l)

/-- `deleteNode` -/
def deleteNode (fuel : ℕ) (heap : Heap α) (l : LinkedList) (x : ℤ) :
    Option (Heap α × LinkedList) :=
  (search key heap x fuel l.head l.head).bind fun found =>
    match found.2 with
    | none => some (heap, l)
    | some t => (unlink heap l found.1 t).map fun r => (Function.update r.1 t none, r.2)

/-- The calls; the node that is inserted is at `temp`, holds `d`, and has no
link. -/
inductive Op (α : Type*)
  | insertFront (temp : ℕ) (d : α)
  | insertRear (temp : ℕ) (d : α)
  | insertNext (temp : ℕ) (d : α) (x : ℤ)
  | deleteNode (x : ℤ)

/-- A node that the caller has made. -/
def make (heap : Heap α) (temp : ℕ) (d : α) : Heap α := Function.update heap temp (some ⟨d, none⟩)

/-- A call. -/
def step (fuel : ℕ) (s : Heap α × LinkedList) : Op α → Option (Heap α × LinkedList)
  | .insertFront temp d => insertFront (make s.1 temp d) s.2 temp
  | .insertRear temp d => insertRear (make s.1 temp d) s.2 temp
  | .insertNext temp d x => insertNext key fuel (make s.1 temp d) s.2 temp x
  | .deleteNode x => deleteNode key fuel s.1 s.2 x

/-! ### The sequence of nodes -/

/-- After the first node with key `x`. -/
def insertAfter (x : ℤ) (new : ℕ × α) : List (ℕ × α) → List (ℕ × α)
  | [] => []
  | node :: rest =>
      if key node.2 = x then node :: new :: rest else node :: insertAfter x new rest

/-- What a call does to the sequence. -/
def Op.apply (nodes : List (ℕ × α)) : Op α → List (ℕ × α)
  | insertFront temp d => (temp, d) :: nodes
  | insertRear temp d => nodes ++ [(temp, d)]
  | insertNext temp d x => insertAfter key x (temp, d) nodes
  | deleteNode x => nodes.eraseP fun node => key node.2 = x

/-- The node that a call inserts is not in the list. -/
def Op.Fresh (nodes : List (ℕ × α)) : Op α → Prop
  | insertFront temp _ | insertRear temp _ | insertNext temp _ _ => temp ∉ nodes.map Prod.fst
  | deleteNode _ => True

/-- So it is for each of the calls in turn. -/
def AllFresh : List (ℕ × α) → List (Op α) → Prop
  | _, [] => True
  | nodes, op :: ops => op.Fresh nodes ∧ AllFresh (op.apply key nodes) ops

instance (nodes : List (ℕ × α)) : (op : Op α) → Decidable (op.Fresh nodes)
  | .insertFront temp _ => inferInstanceAs (Decidable (temp ∉ nodes.map Prod.fst))
  | .insertRear temp _ => inferInstanceAs (Decidable (temp ∉ nodes.map Prod.fst))
  | .insertNext temp _ _ => inferInstanceAs (Decidable (temp ∉ nodes.map Prod.fst))
  | .deleteNode _ => .isTrue trivial

instance decidableAllFresh :
    (nodes : List (ℕ × α)) → (ops : List (Op α)) → Decidable (AllFresh key nodes ops)
  | _, [] => .isTrue trivial
  | nodes, op :: ops =>
      have := decidableAllFresh (op.apply key nodes) ops
      inferInstanceAs (Decidable (op.Fresh nodes ∧ AllFresh key (op.apply key nodes) ops))

/-- The sequence after the calls. -/
def contents (ops : List (Op α)) : List (ℕ × α) := ops.foldl (Op.apply key) []

/-! ### Surgery on a segment -/

namespace Segment

variable {heap heap' : Heap α} {a b : Link} {before rest nodes : List (ℕ × α)} {node : ℕ × α}

/-- A node of a segment, with the links to it and from it. -/
theorem split_cons (h : Segment heap a (before ++ node :: rest) b) :
    ∃ c, heap node.1 = some c ∧ c.data = node.2 ∧ Segment heap a before (some node.1) ∧
      Segment heap c.next rest b := by
  obtain ⟨middle, hbefore, hafter⟩ := h.split
  cases hafter with
  | @cons p c _ _ hp hrest => exact ⟨c, hp, rfl, hbefore, hrest⟩

theorem join {c : Cell α} (hbefore : Segment heap a before (some node.1))
    (hcell : heap node.1 = some c) (hdata : c.data = node.2) (hrest : Segment heap c.next rest b) :
    Segment heap a (before ++ node :: rest) b := by
  obtain ⟨p, x⟩ := node
  obtain rfl : c.data = x := hdata
  exact hbefore.append (.cons hcell hrest)

/-- A node is linked in. -/
theorem insertAfter {c : Cell α} {temp : ℕ} {d : α}
    (h : Segment heap a (before ++ node :: rest) b) (hcell : heap node.1 = some c)
    (hnode : heap' node.1 = some { c with next := some temp })
    (htemp : heap' temp = some ⟨d, c.next⟩)
    (hframe : ∀ n ∈ before ++ rest, heap' n.1 = heap n.1) :
    Segment heap' a (before ++ node :: (temp, d) :: rest) b := by
  obtain ⟨c', hcell', hdata, hbefore, hrest⟩ := h.split_cons
  obtain rfl := Option.some.inj (hcell.symm.trans hcell')
  apply join (hbefore.congr fun n hn => hframe n (List.mem_append_left rest hn)) hnode hdata
  exact .cons htemp (hrest.congr fun n hn => hframe n (List.mem_append_right before hn))

/-- A node is taken out. -/
theorem skip {prev : ℕ × α} {cp c : Cell α}
    (h : Segment heap a (before ++ prev :: node :: rest) b) (hprev : heap prev.1 = some cp)
    (hcell : heap node.1 = some c) (hprev' : heap' prev.1 = some { cp with next := c.next })
    (hframe : ∀ n ∈ before ++ rest, heap' n.1 = heap n.1) :
    Segment heap' a (before ++ prev :: rest) b := by
  obtain ⟨cp', hp, hdata, hbefore, hafter⟩ := h.split_cons
  obtain rfl := Option.some.inj (hprev.symm.trans hp)
  have hafter : Segment heap cp.next ([] ++ node :: rest) b := hafter
  obtain ⟨c', hc, -, -, hrest⟩ := hafter.split_cons
  obtain rfl := Option.some.inj (hcell.symm.trans hc)
  apply join (hbefore.congr fun n hn => hframe n (List.mem_append_left rest hn)) hprev' hdata
  exact hrest.congr fun n hn => hframe n (List.mem_append_right before hn)

/-- Up to `NULL` there is a next node exactly if one follows. -/
theorem next_eq_none_iff (h : Segment heap a nodes none) : a = none ↔ nodes = [] := by
  cases h with
  | nil => exact iff_of_true rfl rfl
  | cons => exact iff_of_false (Option.some_ne_none _) (List.cons_ne_nil _ _)

theorem ne_nil_of_next (h : Segment heap a nodes none) {q : ℕ} (ha : a = some q) : nodes ≠ [] := by
  intro hnil
  exact absurd (ha.symm.trans (h.next_eq_none_iff.mpr hnil)) (Option.some_ne_none q)

end Segment

/-- The links from `a` lead to the node at `p`. -/
def Reaches (heap : Heap α) (a : Link) (p : ℕ) : Prop :=
  ∃ nodes, Segment heap a nodes (some p)

/-- What is reached on the way to `NULL` is a node of the way. -/
theorem Reaches.mem {heap : Heap α} {a : Link} {p : ℕ} {nodes : List (ℕ × α)}
    (h : Reaches heap a p) (hnodes : Segment heap a nodes none) : p ∈ nodes.map Prod.fst := by
  obtain ⟨way, hway⟩ := h
  induction way generalizing a nodes with
  | nil =>
      rw [← hway.eq_start] at hnodes
      cases hnodes with
      | cons => exact List.mem_cons_self
  | cons node way ih =>
      cases hway with
      | cons hp hrest =>
          cases hnodes with
          | cons hp' hrest' =>
              obtain rfl := Option.some.inj (hp.symm.trans hp')
              exact List.mem_cons_of_mem _ (ih hrest' hrest)

/-! ### What a list represents -/

/-- The links lead from the head over these nodes to `NULL`, the tail is the
last of them, and none is met twice. -/
structure Represents (s : Heap α × LinkedList) (nodes : List (ℕ × α)) : Prop where
  segment : Segment s.1 s.2.head nodes none
  tail : s.2.tail = nodes.getLast?.map Prod.fst
  nodup : (nodes.map Prod.fst).Nodup

theorem represents_initList (heap : Heap α) : Represents (heap, initList) [] :=
  ⟨.nil none, rfl, List.nodup_nil⟩

namespace Represents

variable {s : Heap α × LinkedList} {nodes before rest : List (ℕ × α)} {node : ℕ × α}

theorem holds (h : Represents s nodes) : s.2.Holds s.1 nodes :=
  ⟨⟨none, h.segment⟩, h.tail, fun hnil => h.segment.next_eq_none_iff.mpr hnil, h.nodup⟩

theorem head_eq_none_iff (h : Represents s nodes) : s.2.head = none ↔ s.2.tail = none := by
  rw [h.segment.next_eq_none_iff, h.tail, Option.map_eq_none_iff, List.getLast?_eq_none_iff]

/-- A new node changes nothing in the list. -/
theorem make (h : Represents s nodes) {temp : ℕ} (htemp : temp ∉ nodes.map Prod.fst) (d : α) :
    Represents (LinkedList.make s.1 temp d, s.2) nodes := by
  refine ⟨h.segment.congr fun n hn => Function.update_of_ne ?_ _ _, h.tail, h.nodup⟩
  intro heq
  exact htemp (heq ▸ List.mem_map_of_mem hn)

/-- The other nodes are elsewhere. -/
theorem ne_of_mem (h : Represents s (before ++ node :: rest)) {n : ℕ × α}
    (hn : n ∈ before ++ rest) : n.1 ≠ node.1 := by
  have hnodup := h.nodup
  rw [List.map_append, List.map_cons, List.nodup_middle, List.nodup_cons, ← List.map_append]
    at hnodup
  intro heq
  exact hnodup.1 (heq ▸ List.mem_map_of_mem hn)

end Represents

/-! ### The search -/

variable {key} {x : ℤ} {heap : Heap α} {nodes before rest : List (ℕ × α)} {node : ℕ × α}

/-- There is no node with the key. -/
theorem search_absent {a : Link} (h : Segment heap a nodes none)
    (habsent : ∀ n ∈ nodes, key n.2 ≠ x) {fuel : ℕ} (hfuel : nodes.length ≤ fuel) (tp : Link) :
    ∃ tp', search key heap x fuel tp a = some (tp', none) := by
  induction nodes generalizing a fuel tp with
  | nil =>
      rw [← h.eq_start]
      exact ⟨tp, by cases fuel <;> rfl⟩
  | cons n nodes ih =>
      obtain ⟨fuel, rfl⟩ : ∃ m, fuel = m + 1 := ⟨fuel - 1, by rw [List.length_cons] at hfuel; omega⟩
      obtain ⟨hn, hnodes⟩ := List.forall_mem_cons.mp habsent
      cases h with
      | @cons p c _ _ hp hrest =>
          rw [search, hp, Option.bind_some, if_neg hn]
          exact ih hrest hnodes (Nat.le_of_succ_le_succ hfuel) _

/-- The first node with the key, and the one before it. -/
theorem search_found {a : Link} (h : Segment heap a (before ++ node :: rest) none)
    (hbefore : ∀ n ∈ before, key n.2 ≠ x) (hnode : key node.2 = x) {fuel : ℕ}
    (hfuel : before.length < fuel) (tp : Link) :
    search key heap x fuel tp a =
      some ((before.getLast?.map fun n => some n.1).getD tp, some node.1) := by
  induction before generalizing a fuel tp with
  | nil =>
      obtain ⟨fuel, rfl⟩ : ∃ m, fuel = m + 1 := ⟨fuel - 1, by omega⟩
      cases h with
      | cons hp hrest =>
          rw [search, hp, Option.bind_some, if_pos hnode]
          rfl
  | cons n before ih =>
      obtain ⟨fuel, rfl⟩ : ∃ m, fuel = m + 1 := ⟨fuel - 1, by omega⟩
      obtain ⟨hn, hlater⟩ := List.forall_mem_cons.mp hbefore
      rw [List.cons_append] at h
      cases h with
      | @cons p c _ _ hp hrest =>
          rw [search, hp, Option.bind_some, if_neg hn,
            ih hrest hlater (Nat.lt_of_succ_lt_succ hfuel)]
          cases before with
          | nil => rfl
          | cons m before =>
              -- the node before it is behind `n`
              rw [List.getLast?_cons_cons, List.getLast?_eq_some_getLast (List.cons_ne_nil _ _)]
              rfl

/-- A list without the key, or its first node with it. -/
theorem absent_or_found (key : α → ℚ) (x : ℤ) (nodes : List (ℕ × α)) :
    (∀ n ∈ nodes, key n.2 ≠ x) ∨ ∃ before node rest, nodes = before ++ node :: rest ∧
      (∀ n ∈ before, key n.2 ≠ x) ∧ key node.2 = x := by
  by_cases h : ∃ n ∈ nodes, key n.2 = x
  · obtain ⟨n, hn, hkey⟩ := h
    obtain ⟨node, before, rest, hbefore, hnode, hnodes, -⟩ :=
      List.exists_of_eraseP (p := fun n => key n.2 = x) hn (decide_eq_true hkey)
    exact .inr ⟨before, node, rest, hnodes, fun n hn heq => hbefore n hn (decide_eq_true heq),
      of_decide_eq_true hnode⟩
  · exact .inl fun n hn heq => h ⟨n, hn, heq⟩

theorem insertAfter_absent {new : ℕ × α} (h : ∀ n ∈ nodes, key n.2 ≠ x) :
    insertAfter key x new nodes = nodes := by
  induction nodes with
  | nil => rfl
  | cons n nodes ih =>
      obtain ⟨hn, hnodes⟩ := List.forall_mem_cons.mp h
      rw [insertAfter, if_neg hn, ih hnodes]

theorem insertAfter_found {new : ℕ × α} (hbefore : ∀ n ∈ before, key n.2 ≠ x)
    (hnode : key node.2 = x) :
    insertAfter key x new (before ++ node :: rest) = before ++ node :: new :: rest := by
  induction before with
  | nil => exact if_pos hnode
  | cons n before ih =>
      obtain ⟨hn, hlater⟩ := List.forall_mem_cons.mp hbefore
      rw [List.cons_append, insertAfter, if_neg hn, ih hlater]
      rfl

theorem eraseP_absent (h : ∀ n ∈ nodes, key n.2 ≠ x) :
    (nodes.eraseP fun n => key n.2 = x) = nodes :=
  List.eraseP_of_forall_not fun n hn heq => h n hn (of_decide_eq_true heq)

theorem eraseP_found (hbefore : ∀ n ∈ before, key n.2 ≠ x) (hnode : key node.2 = x) :
    ((before ++ node :: rest).eraseP fun n => key n.2 = x) = before ++ rest := by
  rw [List.eraseP_append_right _ fun n hn heq => hbefore n hn (of_decide_eq_true heq)]
  exact congrArg (before ++ ·)
    (List.eraseP_cons_of_pos (p := fun n : ℕ × α => key n.2 = x) (decide_eq_true hnode))

/-! ### What the operations do -/

namespace Represents

variable {l : LinkedList} {temp : ℕ} {d : α}

/-- The list with a node linked in somewhere. -/
theorem nodup_insert (h : Represents (heap, l) (before ++ rest))
    (htemp : temp ∉ (before ++ rest).map Prod.fst) :
    ((before ++ (temp, d) :: rest).map Prod.fst).Nodup := by
  rw [List.map_append, List.map_cons, List.nodup_middle, List.nodup_cons, ← List.map_append]
  exact ⟨htemp, h.nodup⟩

theorem insertFront (h : Represents (heap, l) nodes) (htemp : temp ∉ nodes.map Prod.fst)
    (hc : heap temp = some ⟨d, none⟩) :
    ∃ s', LinkedList.insertFront heap l temp = some s' ∧ Represents s' ((temp, d) :: nodes) := by
  have hnodup : (((temp, d) :: nodes).map Prod.fst).Nodup :=
    List.nodup_cons.mpr ⟨htemp, h.nodup⟩
  rw [LinkedList.insertFront]
  cases hhead : l.head with
  | none =>
      obtain rfl := h.segment.next_eq_none_iff.mp hhead
      exact ⟨_, rfl, .cons hc (.nil _), rfl, hnodup⟩
  | some p =>
      refine ⟨_, by rw [hc]; rfl, ?_, ?_, hnodup⟩
      · apply Segment.cons (Function.update_self ..)
        show Segment _ (some p) nodes none
        rw [← hhead]
        refine h.segment.congr fun n hn => Function.update_of_ne ?_ ..
        intro heq
        exact htemp (heq ▸ List.mem_map_of_mem hn)
      · have hne : nodes ≠ [] := by
          intro hnil
          have hnone := h.segment.next_eq_none_iff.mpr hnil
          exact absurd (hhead.symm.trans hnone) (Option.some_ne_none _)
        show l.tail = _
        rw [h.tail, List.getLast?_cons_of_ne_nil hne]

theorem insertRear (h : Represents (heap, l) nodes) (htemp : temp ∉ nodes.map Prod.fst)
    (hc : heap temp = some ⟨d, none⟩) :
    ∃ s', LinkedList.insertRear heap l temp = some s' ∧ Represents s' (nodes ++ [(temp, d)]) := by
  obtain ⟨heap', l', hrear, hholds, hframe⟩ := h.holds.insertRear htemp hc
  obtain ⟨b, hsegment⟩ := hholds.segment
  -- the link of the new node is still `NULL`
  obtain rfl : b = none := hsegment.next_eq ((hframe temp htemp).trans hc)
  exact ⟨_, hrear, hsegment, hholds.tail, hholds.nodup⟩

theorem insertNext_absent (h : Represents (heap, l) nodes) (habsent : ∀ n ∈ nodes, key n.2 ≠ x)
    {fuel : ℕ} (hfuel : nodes.length ≤ fuel) :
    ∃ s', LinkedList.insertNext key fuel heap l temp x = some s' ∧ Represents s' nodes := by
  obtain ⟨tp, hsearch⟩ := search_absent h.segment habsent hfuel l.head
  exact ⟨(heap, l), by rw [LinkedList.insertNext, hsearch]; rfl, h⟩

theorem insertNext_found (h : Represents (heap, l) (before ++ node :: rest))
    (hbefore : ∀ n ∈ before, key n.2 ≠ x) (hnode : key node.2 = x) {fuel : ℕ}
    (hfuel : before.length < fuel) (htemp : temp ∉ (before ++ node :: rest).map Prod.fst)
    (hc : heap temp = some ⟨d, none⟩) :
    ∃ s', LinkedList.insertNext key fuel heap l temp x = some s' ∧
      Represents s' (before ++ node :: (temp, d) :: rest) := by
  have hsegment : Segment heap l.head (before ++ node :: rest) none := h.segment
  obtain ⟨ct, hct, hdata, -, hrest⟩ := hsegment.split_cons
  have hsearch := search_found hsegment hbefore hnode hfuel l.head
  have hne : temp ≠ node.1 := by
    rintro rfl
    exact htemp (List.mem_map_of_mem (List.mem_append_right before List.mem_cons_self))
  have hout : ∀ n ∈ before ++ rest, n.1 ≠ temp := by
    rintro n hn rfl
    have hsub : (before ++ rest).Sublist (before ++ node :: rest) :=
      (List.sublist_cons_self node rest).append_left before
    exact htemp (List.mem_map_of_mem (hsub.subset hn))
  have hnodup : ((before ++ node :: (temp, d) :: rest).map Prod.fst).Nodup := by
    have hmiddle : Represents (heap, l) ((before ++ [node]) ++ rest) := by
      rwa [List.append_assoc, List.singleton_append]
    have hfresh : temp ∉ ((before ++ [node]) ++ rest).map Prod.fst := by
      rwa [List.append_assoc, List.singleton_append]
    have hinsert := hmiddle.nodup_insert (d := d) hfresh
    rwa [List.append_assoc, List.singleton_append] at hinsert
  rw [LinkedList.insertNext, hsearch, Option.bind_some]
  show ∃ s', (heap node.1).bind _ = some s' ∧ _
  rw [hct, Option.bind_some]
  cases hnext : ct.next with
  | none =>
      obtain rfl := hrest.next_eq_none_iff.mp hnext
      refine ⟨_, rfl, ?_, ?_, hnodup⟩
      · apply hsegment.insertAfter hct (Function.update_self ..)
        · rw [hnext]
          exact (Function.update_of_ne hne ..).trans hc
        · intro n hn
          exact Function.update_of_ne (h.ne_of_mem hn) ..
      · show some temp = _
        rw [List.getLast?_append]
        rfl
  | some q =>
      refine ⟨_, by rw [hc]; rfl, ?_, ?_, hnodup⟩
      · apply hsegment.insertAfter hct (Function.update_self ..)
        · rw [hnext]
          exact (Function.update_of_ne hne ..).trans (Function.update_self ..)
        · intro n hn
          exact (Function.update_of_ne (h.ne_of_mem hn) ..).trans
            (Function.update_of_ne (hout n hn) ..)
      · show l.tail = _
        have hlast : rest ≠ [] := hrest.ne_nil_of_next hnext
        rw [h.tail, List.getLast?_append_cons, List.getLast?_append_cons,
          List.getLast?_cons_of_ne_nil hlast, List.getLast?_cons_cons,
          List.getLast?_cons_of_ne_nil hlast]

theorem deleteNode_absent (h : Represents (heap, l) nodes) (habsent : ∀ n ∈ nodes, key n.2 ≠ x)
    {fuel : ℕ} (hfuel : nodes.length ≤ fuel) :
    ∃ s', LinkedList.deleteNode key fuel heap l x = some s' ∧ Represents s' nodes := by
  obtain ⟨tp, hsearch⟩ := search_absent h.segment habsent hfuel l.head
  exact ⟨(heap, l), by rw [LinkedList.deleteNode, hsearch]; rfl, h⟩

/-- `free` of a node outside of the list. -/
theorem free (h : Represents (heap, l) nodes) {t : ℕ} (ht : t ∉ nodes.map Prod.fst) :
    Represents (Function.update heap t none, l) nodes := by
  refine ⟨h.segment.congr fun n hn => Function.update_of_ne ?_ _ _, h.tail, h.nodup⟩
  intro heq
  exact ht (heq ▸ List.mem_map_of_mem hn)

theorem nodup_remove (h : Represents (heap, l) (before ++ node :: rest)) :
    node.1 ∉ (before ++ rest).map Prod.fst ∧ ((before ++ rest).map Prod.fst).Nodup := by
  have hnodup := h.nodup
  rw [List.map_append, List.map_cons, List.nodup_middle, List.nodup_cons, ← List.map_append]
    at hnodup
  exact hnodup

/-- The first node is taken out. -/
theorem unlink_head (h : Represents (heap, l) (node :: rest)) :
    ∃ s', unlink heap l (some node.1) node.1 = some s' ∧ Represents s' rest := by
  have hsegment : Segment heap l.head ([] ++ node :: rest) none := h.segment
  obtain ⟨ct, hct, -, hhead, hrest⟩ := hsegment.split_cons
  have hnodup : (rest.map Prod.fst).Nodup := (List.nodup_cons.mp h.nodup).2
  rw [unlink, hct, Option.bind_some, if_pos rfl, ← hhead.eq_start, Option.bind_some, hct,
    Option.map_some]
  refine ⟨_, rfl, ?_⟩
  cases hnext : ct.next with
  | none =>
      obtain rfl := hrest.next_eq_none_iff.mp hnext
      exact represents_initList heap
  | some q =>
      have hlast : rest ≠ [] := hrest.ne_nil_of_next hnext
      refine ⟨?_, ?_, hnodup⟩
      · show Segment heap (some q) rest none
        rwa [← hnext]
      · show l.tail = _
        rw [h.tail, List.getLast?_cons_of_ne_nil hlast]

/-- Any other node is. -/
theorem unlink_later {prev : ℕ × α} (h : Represents (heap, l) (before ++ prev :: node :: rest)) :
    ∃ s', unlink heap l (some prev.1) node.1 = some s' ∧
      Represents s' (before ++ prev :: rest) := by
  have hsegment : Segment heap l.head (before ++ prev :: node :: rest) none := h.segment
  have hmiddle : Represents (heap, l) ((before ++ [prev]) ++ node :: rest) := by
    rwa [List.append_assoc, List.singleton_append]
  obtain ⟨cp, hcp, -, -, hafter⟩ := hsegment.split_cons
  have hafter : Segment heap cp.next ([] ++ node :: rest) none := hafter
  obtain ⟨ct, hct, -, -, hrest⟩ := hafter.split_cons
  have hne : ¬ some prev.1 = some node.1 := fun heq =>
    hmiddle.ne_of_mem (List.mem_append_left rest (List.mem_append_right before List.mem_cons_self))
      (Option.some.inj heq)
  have hnodup : ((before ++ prev :: rest).map Prod.fst).Nodup := by
    have hremove := hmiddle.nodup_remove.2
    rwa [List.append_assoc, List.singleton_append] at hremove
  have hframe (c : Cell α) : ∀ n ∈ before ++ rest,
      Function.update heap prev.1 (some c) n.1 = heap n.1 := by
    intro n hn
    have hsub : (before ++ rest).Sublist (before ++ node :: rest) :=
      (List.sublist_cons_self node rest).append_left before
    exact Function.update_of_ne (h.ne_of_mem (hsub.subset hn)) ..
  rw [unlink, hct, Option.bind_some, if_neg hne, Option.bind_some, hcp, Option.map_some]
  refine ⟨_, rfl, ?_⟩
  cases hnext : ct.next with
  | none =>
      obtain rfl := hrest.next_eq_none_iff.mp hnext
      refine ⟨hsegment.skip hcp hct ?_ (hframe _), ?_, hnodup⟩
      · rw [hnext]
        exact Function.update_self ..
      · rw [List.getLast?_append_cons]
        rfl
  | some q =>
      have hlast : rest ≠ [] := hrest.ne_nil_of_next hnext
      refine ⟨hsegment.skip hcp hct ?_ (hframe _), ?_, hnodup⟩
      · rw [hnext]
        exact Function.update_self ..
      · show l.tail = _
        rw [h.tail, List.getLast?_append_cons, List.getLast?_append_cons, List.getLast?_cons_cons,
          List.getLast?_cons_of_ne_nil hlast, List.getLast?_cons_of_ne_nil hlast]

theorem deleteNode_found (h : Represents (heap, l) (before ++ node :: rest))
    (hbefore : ∀ n ∈ before, key n.2 ≠ x) (hnode : key node.2 = x) {fuel : ℕ}
    (hfuel : before.length < fuel) :
    ∃ s', LinkedList.deleteNode key fuel heap l x = some s' ∧ Represents s' (before ++ rest) ∧
      s'.1 node.1 = none := by
  have hsegment : Segment heap l.head (before ++ node :: rest) none := h.segment
  have hsearch := search_found hsegment hbefore hnode hfuel l.head
  have hunlink : ∃ s', unlink heap l ((before.getLast?.map fun n => some n.1).getD l.head) node.1 =
      some s' ∧ Represents s' (before ++ rest) := by
    rcases List.eq_nil_or_concat' before with rfl | ⟨before, prev, rfl⟩
    · have hhead : l.head = some node.1 := hsegment.start_eq
      rw [hhead]
      exact h.unlink_head
    · rw [List.getLast?_concat, List.append_assoc]
      rw [List.append_assoc] at h
      exact h.unlink_later
  obtain ⟨⟨heap', l'⟩, hs', hrep⟩ := hunlink
  refine ⟨(Function.update heap' node.1 none, l'), ?_, hrep.free h.nodup_remove.1,
    Function.update_self ..⟩
  rw [LinkedList.deleteNode, hsearch, Option.bind_some]
  show (unlink heap l _ node.1).map _ = _
  rw [hs']
  rfl

/-- **Each call** does to the sequence of nodes what it should. -/
theorem step {s : Heap α × LinkedList} (h : Represents s nodes) {op : Op α} (hop : op.Fresh nodes)
    {fuel : ℕ} (hfuel : nodes.length ≤ fuel) :
    ∃ s', LinkedList.step key fuel s op = some s' ∧ Represents s' (op.apply key nodes) := by
  obtain ⟨heap, l⟩ := s
  cases op with
  | insertFront temp d => exact (h.make hop d).insertFront hop (Function.update_self ..)
  | insertRear temp d => exact (h.make hop d).insertRear hop (Function.update_self ..)
  | insertNext temp d x =>
      have hmake : Represents (LinkedList.make heap temp d, l) nodes := h.make hop d
      show ∃ s', LinkedList.insertNext key fuel _ l temp x = some s' ∧
        Represents s' (insertAfter key x (temp, d) nodes)
      rcases absent_or_found key x nodes with habsent | ⟨before, node, rest, rfl, hbefore, hnode⟩
      · rw [insertAfter_absent habsent]
        exact hmake.insertNext_absent habsent hfuel
      · rw [insertAfter_found hbefore hnode]
        rw [List.length_append, List.length_cons] at hfuel
        exact hmake.insertNext_found hbefore hnode (by omega) hop (Function.update_self ..)
  | deleteNode x =>
      show ∃ s', LinkedList.deleteNode key fuel heap l x = some s' ∧
        Represents s' (nodes.eraseP fun n => key n.2 = x)
      rcases absent_or_found key x nodes with habsent | ⟨before, node, rest, rfl, hbefore, hnode⟩
      · rw [eraseP_absent habsent]
        exact h.deleteNode_absent habsent hfuel
      · rw [eraseP_found hbefore hnode]
        rw [List.length_append, List.length_cons] at hfuel
        have hlt : before.length < fuel := by omega
        obtain ⟨s', hs', hrep, -⟩ := h.deleteNode_found hbefore hnode hlt
        exact ⟨s', hs', hrep⟩

end Represents

/-! ### Any sequence of calls -/

theorem length_insertAfter_le (new : ℕ × α) (nodes : List (ℕ × α)) :
    (insertAfter key x new nodes).length ≤ nodes.length + 1 := by
  induction nodes with
  | nil => exact Nat.zero_le _
  | cons n nodes ih =>
      rw [insertAfter]
      split
      next => exact Nat.le_refl _
      next => exact Nat.succ_le_succ ih

/-- A call adds at most one node. -/
theorem length_apply_le (op : Op α) (nodes : List (ℕ × α)) :
    (op.apply key nodes).length ≤ nodes.length + 1 := by
  cases op with
  | insertFront => exact Nat.le_refl _
  | insertRear => exact (List.length_append ..).le
  | insertNext temp d x => exact length_insertAfter_le _ nodes
  | deleteNode x => exact (List.length_eraseP_le ..).trans (Nat.le_succ _)

theorem run_represents {s : Heap α × LinkedList} (h : Represents s nodes) {ops : List (Op α)}
    (hops : AllFresh key nodes ops) {fuel : ℕ} (hfuel : nodes.length + ops.length ≤ fuel) :
    ∃ s', Transition.run (step key fuel) s ops = some s' ∧
      Represents s' (ops.foldl (Op.apply key) nodes) ∧
      (ops.foldl (Op.apply key) nodes).length ≤ fuel := by
  induction ops generalizing s nodes with
  | nil => exact ⟨s, rfl, h, hfuel⟩
  | cons op ops ih =>
      obtain ⟨hop, hrest⟩ := hops
      rw [List.length_cons] at hfuel
      obtain ⟨t, ht, hrep⟩ := h.step hop (show nodes.length ≤ fuel by omega)
      have hlength : (op.apply key nodes).length ≤ nodes.length + 1 := length_apply_le op nodes
      rw [Transition.run_cons, ht]
      exact ih hrep hrest (by omega)

/-- **The lists of `list.c`.**  From a list that `initList` has started, the
calls end, and `head`, `tail` and the links represent the sequence that the
calls make; what `deleteNode` then frees is reached no more. -/
theorem run_refines (key : α → ℚ) (heap : Heap α) {ops : List (Op α)} (h : AllFresh key [] ops)
    {fuel : ℕ} (hfuel : ops.length ≤ fuel) :
    ∃ s, Transition.run (step key fuel) (heap, initList) ops = some s ∧
      (s.2.head = none ↔ s.2.tail = none) ∧
      Segment s.1 s.2.head (contents key ops) none ∧
      ((contents key ops).map Prod.fst).Nodup ∧
      s.2.tail = (contents key ops).getLast?.map Prod.fst ∧
      (∀ p ∈ s.2.tail, ∃ c, s.1 p = some c ∧ c.next = none) ∧
      ∀ (x : ℤ) (node : ℕ × α), (contents key ops).find? (fun n => key n.2 = x) = some node →
        ∃ s', step key fuel s (.deleteNode x) = some s' ∧ s'.1 node.1 = none ∧
          ¬ Reaches s'.1 s'.2.head node.1 := by
  have hfuel : ([] : List (ℕ × α)).length + ops.length ≤ fuel := by rwa [List.length_nil, zero_add]
  obtain ⟨s, hs, hrep, hlength⟩ := run_represents (represents_initList heap) h hfuel
  refine ⟨s, hs, hrep.head_eq_none_iff, hrep.segment, hrep.nodup, hrep.tail, ?_, ?_⟩
  · intro p hp
    obtain ⟨last, hlast, rfl⟩ := Option.map_eq_some_iff.mp (hrep.tail.symm.trans hp)
    obtain ⟨before, hnodes⟩ := List.getLast?_eq_some_iff.mp hlast
    have hsegment := hrep.segment
    rw [hnodes] at hsegment
    obtain ⟨c, hc, -, -, hend⟩ := hsegment.split_cons
    exact ⟨c, hc, hend.eq_start.symm⟩
  · intro x node hfind
    obtain ⟨hnode, before, rest, hnodes, hbefore⟩ := List.find?_eq_some_iff_append.mp hfind
    change Represents s (contents key ops) at hrep
    change (contents key ops).length ≤ fuel at hlength
    rw [hnodes] at hrep hlength
    rw [List.length_append, List.length_cons] at hlength
    have hbefore : ∀ n ∈ before, key n.2 ≠ x := by
      intro n hn heq
      have hnot := hbefore n hn
      rw [decide_eq_true heq] at hnot
      cases hnot
    obtain ⟨s', hs', hrep', hfreed⟩ := hrep.deleteNode_found hbefore (of_decide_eq_true hnode)
      (show before.length < fuel by omega)
    exact ⟨s', hs', hfreed, fun hreach => hrep.nodup_remove.1 (hreach.mem hrep'.segment)⟩

/-- Insert at both ends and behind the first node, and take out the node in
the middle. -/
theorem run_refines_four :
    ∃ s, Transition.run (step (fun d : ℚ => d) 4) ((fun _ => none : Heap ℚ), initList)
        [.insertFront 10 5, .insertRear 11 7, .insertNext 12 6 5, .deleteNode 6] = some s ∧
      Segment s.1 s.2.head [(10, 5), (11, 7)] none ∧ s.2.tail = some 11 := by
  have hfresh : AllFresh (fun d : ℚ => d) []
      [.insertFront 10 5, .insertRear 11 7, .insertNext 12 6 5, .deleteNode 6] := by
    decide +kernel
  obtain ⟨s, hs, -, hsegment, -, htail, -⟩ :=
    run_refines (fun d : ℚ => d) (fun _ => none) hfresh (Nat.le_refl 4)
  exact ⟨s, hs, hsegment, htail⟩

end LinkedList

end A2PM.ModelBuild
