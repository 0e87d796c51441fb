/-
A2PM/AggregationSafety.lean

`aggregate` on the lists that `read_db_file` leaves behind, pointer by
pointer.

The loop goes from node to node by their links until one is `NULL`.  In a list
of two or more nodes it is at each node once and does what the model on lists
does (`aggregateList_eq`).  An empty list has no head to read, and the only
node of a list closes a window without datapoints; `aggregate` tests for
neither (`aggregate_safe_iff`).
-/
import A2PM.ParserSafety

namespace A2PM.ModelBuild

open MachineInt Segmentation LinkedList

/-! ### Following the links -/

inductive Fault
  /-- A pointer that leads to no node is followed. -/
  | badPointer
  /-- An `int` is divided by `num_nodes`, which is 0. -/
  | divisionByZero
  /-- The loop goes on. -/
  | outOfFuel

/-- The loop from `curr_node` on, for at most `fuel` nodes; `followed` are the
nodes that it has been at.  `tail->key` is read at each of them, not only where
a window is opened. -/
def follow (heap : Heap Node) (l : LinkedList) :
    ℕ → Link → Vars → List ℕ → Except Fault (Vars × List ℕ)
  | _, none, s, followed => .ok (s, followed)
  | 0, some _, _, _ => .error .outOfFuel
  | fuel + 1, some p, s, followed =>
      match heap p, l.tail.bind heap with
      | some curr, some tail =>
          match body tail.data (decide (l.tail = some p)) curr.data s with
          | none => .error .divisionByZero
          | some s => follow heap l fuel curr.next s (followed ++ [p])
      | _, _ => .error .badPointer

/-- `aggregate` on one list, with what has been put out and followed before. -/
def aggregateList (heap : Heap Node) (fuel : ℕ) (acc : List Node × List ℕ) (l : LinkedList) :
    Except Fault (List Node × List ℕ) :=
  match l.head.bind heap with
  | none => .error .badPointer
  | some head =>
      (follow heap l fuel l.head
        { initTime := head.data.key
          numNodes := 0
          computeRTTC := true
          aggregated := .zero
          aggregatedDatapoints := acc.1 } acc.2).map fun r => (r.1.aggregatedDatapoints, r.2)

/-- `aggregate` on all lists. -/
def aggregateLists (heap : Heap Node) (fuel : ℕ) (lists : List LinkedList) :
    Except Fault (List Node × List ℕ) :=
  lists.foldlM (aggregateList heap fuel) ([], [])

/-- `aggregate` returns, and has been at every node that was inserted, at each
of them once, and at nothing else. -/
def Safe (s : ReadState) : Prop :=
  ∃ fuel output, aggregateLists s.heap fuel s.inputDatapoints = .ok (output, List.range s.allocated)

/-- A list of at least two datapoints, with counters that are not 0. -/
def Aggregable (heap : Heap Node) (l : LinkedList) : Prop :=
  ∃ nodes, l.Reads heap nodes ∧ 2 ≤ nodes.length ∧ ∀ w ∈ windows Far nodes, Counted w

/-! ### One list -/

variable {heap : Heap Node} {l : LinkedList} {nodes : List (ℕ × Node)}

/-- A list that has ended. -/
theorem follow_none (fuel : ℕ) (s : Vars) (followed : List ℕ) :
    follow heap l fuel none s followed = .ok (s, followed) := by
  cases fuel <;> rfl

/-- The next node. -/
theorem follow_succ (fuel p : ℕ) (s : Vars) (followed : List ℕ) :
    follow heap l (fuel + 1) (some p) s followed =
      match heap p, l.tail.bind heap with
      | some curr, some tail =>
          match body tail.data (decide (l.tail = some p)) curr.data s with
          | none => .error .divisionByZero
          | some s => follow heap l fuel curr.next s (followed ++ [p])
      | _, _ => .error .badPointer := (rfl)

theorem follow_mono {fuel : ℕ} {a : Link} {s : Vars} {followed : List ℕ} {r : Vars × List ℕ}
    (h : follow heap l fuel a s followed = .ok r) (extra : ℕ) :
    follow heap l (fuel + extra) a s followed = .ok r := by
  induction fuel generalizing a s followed with
  | zero =>
      cases a with
      | none =>
          rw [follow_none] at h ⊢
          exact h
      | some p => cases h
  | succ fuel ih =>
      cases a with
      | none =>
          rw [follow_none] at h ⊢
          exact h
      | some p =>
          rw [Nat.add_right_comm, follow_succ]
          rw [follow_succ] at h
          split at h
          next =>
              split at h
              next => cases h
              next => exact ih h
          next => cases h

/-- From a node on, the loop does what the loop on lists does with the
datapoints from there on. -/
theorem follow_segment (h : l.Holds heap nodes) {tail : Cell Node}
    (htail : l.tail.bind heap = some tail) {before rest : List (ℕ × Node)}
    (hnodes : nodes = before ++ rest) {a : Link} (hrest : Segment heap a rest none) (extra : ℕ)
    (s : Vars) (followed : List ℕ) :
    follow heap l (rest.length + extra) a s followed =
      match loop tail.data (rest.map Prod.snd) s with
      | none => .error .divisionByZero
      | some s => .ok (s, followed ++ rest.map Prod.fst) := by
  induction rest generalizing before a s followed with
  | nil =>
      obtain rfl := hrest.eq_start
      rw [follow_none, List.map_nil, List.map_nil, List.append_nil]
      rfl
  | cons node rest ih =>
      cases hrest with
      | @cons p c _ _ hp hrest =>
          have hlast : decide (l.tail = some p) = (rest.map Prod.snd).isEmpty := by
            rw [Bool.eq_iff_iff, decide_eq_true_iff, h.tail_iff hnodes, List.isEmpty_iff,
              List.map_eq_nil_iff]
          rw [List.length_cons, Nat.add_right_comm, follow_succ, hp, htail, hlast, List.map_cons,
            loop]
          cases hbody : body tail.data (rest.map Prod.snd).isEmpty c.data s with
          | none => simp only [hbody, Option.bind_none]
          | some s' =>
              have hassoc : nodes = before ++ [(p, c.data)] ++ rest := by
                rw [hnodes, List.append_assoc, List.singleton_append]
              simp only [hbody, Option.bind_some]
              rw [ih hassoc hrest, List.map_cons, List.append_assoc, List.singleton_append]

/-- On a list of two or more nodes that ends with `NULL`, `aggregate` does what
it does with their datapoints. -/
theorem aggregateList_segment (h : l.Holds heap nodes) (hsegment : Segment heap l.head nodes none)
    (htwo : 2 ≤ nodes.length) (extra : ℕ) (acc : List Node × List ℕ) :
    aggregateList heap (nodes.length + extra) acc l =
      match aggregateRun acc.1 (nodes.map Prod.snd) with
      | none => .error .divisionByZero
      | some output => .ok (output, acc.2 ++ nodes.map Prod.fst) := by
  have hne : nodes ≠ [] := List.ne_nil_of_length_pos (Nat.zero_lt_of_lt htwo)
  obtain ⟨tail, htail, hdata⟩ := hsegment.cell_of_mem (List.getLast_mem hne)
  have hlast : l.tail.bind heap = some tail := by
    rw [h.tail, List.getLast?_eq_getLast_of_ne_nil hne]
    exact htail
  have hfollow (s : Vars) := follow_segment h hlast (List.nil_append nodes).symm hsegment extra s
  obtain ⟨node, rest, rfl⟩ := List.exists_cons_of_ne_nil hne
  obtain ⟨head, hhead, hvalue⟩ := hsegment.cell_of_mem List.mem_cons_self
  have hstart : l.head.bind heap = some head := by
    rw [hsegment.start_eq]
    exact hhead
  have hrun : aggregateRun acc.1 ((node :: rest).map Prod.snd) =
      (loop tail.data ((node :: rest).map Prod.snd) ⟨node.2.key, 0, true, .zero, acc.1⟩).map
        Vars.aggregatedDatapoints := by
    have hgetLast : ((node :: rest).map Prod.snd).getLast (List.cons_ne_nil _ _) = tail.data := by
      rw [List.getLast_map, hdata]
    rw [← hgetLast]
    rfl
  rw [hrun]
  simp only [aggregateList, hstart, hfollow, hvalue]
  cases loop tail.data ((node :: rest).map Prod.snd) ⟨node.2.key, 0, true, .zero, acc.1⟩ <;> rfl

/-- The only node of a list closes a window without datapoints. -/
theorem follow_singleton {p : ℕ} {c : Cell Node} (hp : heap p = some c) (htail : l.tail = some p)
    (fuel : ℕ) {s : Vars} (hs : s.numNodes = 0) (followed : List ℕ) :
    ∃ fault, follow heap l fuel (some p) s followed = .error fault := by
  cases fuel with
  | zero => exact ⟨.outOfFuel, rfl⟩
  | succ fuel =>
      have hlast : l.tail.bind heap = some c := by
        rw [htail]
        exact hp
      simp only [follow_succ, hp, hlast, decide_eq_true htail, body_tail_eq_none _ _ hs]
      exact ⟨.divisionByZero, rfl⟩

/-- `aggregate` does not return from a list of less than two nodes. -/
theorem aggregateList_short (h : l.Holds heap nodes) (hshort : nodes.length < 2) (fuel : ℕ)
    (acc : List Node × List ℕ) : ∃ fault, aggregateList heap fuel acc l = .error fault := by
  match nodes, hshort with
  | [], _ =>
      rw [aggregateList, h.empty rfl]
      exact ⟨.badPointer, rfl⟩
  | [node], _ =>
      obtain ⟨b, hsegment⟩ := h.segment
      obtain ⟨c, hc, -⟩ := hsegment.cell_of_mem List.mem_cons_self
      obtain ⟨fault, hfault⟩ := follow_singleton hc h.tail fuel
        (s := ⟨c.data.key, 0, true, .zero, acc.1⟩) rfl acc.2
      simp only [aggregateList, hsegment.start_eq, Option.bind_some, hc, hfault]
      exact ⟨fault, rfl⟩

/-- What a list has to be like is said of the nodes that it holds. -/
theorem aggregable_iff (h : l.Holds heap nodes) :
    Aggregable heap l ↔
      2 ≤ nodes.length ∧ ∀ w ∈ windows Far (nodes.map Prod.snd), Counted w := by
  constructor
  · rintro ⟨xs, hreads, htwo, hcounted⟩
    obtain rfl := hreads.eq h.reads
    rw [List.length_map] at htwo
    exact ⟨htwo, hcounted⟩
  · rintro ⟨htwo, hcounted⟩
    exact ⟨_, h.reads, (List.length_map _).symm ▸ htwo, hcounted⟩

/-- `aggregate` returns from a list that can be aggregated, and has been at its
nodes, and it does not return from any other list. -/
theorem aggregateList_cases (h : l.Holds heap nodes)
    (hended : 2 ≤ nodes.length → Segment heap l.head nodes none) {fuel : ℕ}
    (hfuel : nodes.length ≤ fuel) (acc : List Node × List ℕ) :
    (Aggregable heap l ∧
        ∃ output, aggregateList heap fuel acc l = .ok (output, acc.2 ++ nodes.map Prod.fst)) ∨
      (¬ Aggregable heap l ∧ ∃ fault, aggregateList heap fuel acc l = .error fault) := by
  rw [aggregable_iff h]
  rcases Nat.lt_or_ge nodes.length 2 with hshort | htwo
  · right
    exact ⟨fun h => absurd h.1 (Nat.not_le.mpr hshort), aggregateList_short h hshort fuel acc⟩
  · obtain ⟨extra, rfl⟩ := Nat.exists_eq_add_of_le hfuel
    have hrun := aggregateRun_emitted ⟨nodes.map Prod.snd, (List.length_map _).symm ▸ htwo⟩ acc.1
    simp only at hrun
    rw [aggregateList_segment h (hended htwo) htwo, hrun]
    by_cases hcounted : ∀ w ∈ windows Far (nodes.map Prod.snd), Counted w
    · rw [if_pos hcounted]
      exact .inl ⟨⟨htwo, hcounted⟩, _, rfl⟩
    · rw [if_neg hcounted]
      exact .inr ⟨fun h => hcounted h.2, _, rfl⟩

theorem aggregateList_mono {fuel : ℕ} {acc r : List Node × List ℕ}
    (h : aggregateList heap fuel acc l = .ok r) (extra : ℕ) :
    aggregateList heap (fuel + extra) acc l = .ok r := by
  cases hhead : l.head.bind heap with
  | none =>
      rw [aggregateList, hhead] at h
      cases h
  | some head =>
      simp only [aggregateList, hhead] at h ⊢
      generalize hs : (Vars.mk _ _ _ _ _) = s at h ⊢
      cases hfollow : follow heap l fuel l.head s acc.2 with
      | error fault =>
          rw [hfollow] at h
          cases h
      | ok r' =>
          rw [hfollow] at h
          rw [follow_mono hfollow]
          exact h

/-! ### All lists -/

theorem foldlM_aggregateList_mono {fuel : ℕ} {lists : List LinkedList} {acc r : List Node × List ℕ}
    (h : lists.foldlM (aggregateList heap fuel) acc = .ok r) (extra : ℕ) :
    lists.foldlM (aggregateList heap (fuel + extra)) acc = .ok r := by
  induction lists generalizing acc with
  | nil => exact h
  | cons l lists ih =>
      rw [List.foldlM_cons] at h ⊢
      cases hl : aggregateList heap fuel acc l with
      | error fault =>
          rw [hl] at h
          cases h
      | ok acc' =>
          rw [hl] at h
          rw [aggregateList_mono hl]
          exact ih h

/-- `aggregate` returns, and has been at all nodes, iff all lists can be
aggregated. -/
theorem foldlM_aggregateList_iff {runs : List (LinkedList × List (ℕ × Node))} {fuel : ℕ}
    (hholds : ∀ run ∈ runs, run.1.Holds heap run.2)
    (hended : ∀ run ∈ runs, 2 ≤ run.2.length → Segment heap run.1.head run.2 none)
    (hfuel : ∀ run ∈ runs, run.2.length ≤ fuel) (acc : List Node × List ℕ) :
    (∃ output, (runs.map Prod.fst).foldlM (aggregateList heap fuel) acc =
        .ok (output, acc.2 ++ (runs.flatMap Prod.snd).map Prod.fst)) ↔
      ∀ l ∈ runs.map Prod.fst, Aggregable heap l := by
  induction runs generalizing acc with
  | nil =>
      refine iff_of_true ⟨acc.1, ?_⟩ (List.forall_mem_nil _)
      rw [List.flatMap_nil, List.map_nil, List.map_nil, List.append_nil]
      rfl
  | cons run runs ih =>
      rw [List.forall_mem_cons] at hholds hended hfuel
      rw [List.map_cons, List.forall_mem_cons, List.foldlM_cons, List.flatMap_cons,
        List.map_append, ← List.append_assoc]
      rcases aggregateList_cases hholds.1 hended.1 hfuel.1 acc with
        ⟨hrun, output, heq⟩ | ⟨hrun, fault, heq⟩
      · rw [heq]
        exact (ih hholds.2 hended.2 hfuel.2 _).trans (iff_and_self.mpr fun _ => hrun)
      · rw [heq]
        refine iff_of_false ?_ fun h => hrun h.1
        rintro ⟨output, hok⟩
        cases hok

theorem ReadState.Lists.safe_iff {s : ReadState} {runs : List (LinkedList × List (ℕ × Node))}
    (h : s.Lists runs) : Safe s ↔ ∀ l ∈ s.inputDatapoints, Aggregable s.heap l := by
  -- a list has at most all nodes
  have hlength : ∀ run ∈ runs, run.2.length ≤ s.allocated := by
    intro run hrun
    have hsublist := List.sublist_flatten_of_mem (List.mem_map_of_mem (f := Prod.snd) hrun)
    have htotal := congrArg List.length h.inserted
    rw [List.length_map, List.length_range, List.flatMap_def] at htotal
    exact htotal ▸ hsublist.length_le
  have hiff (extra : ℕ) := foldlM_aggregateList_iff h.holds h.ended
    (fun run hrun => Nat.le_add_right_of_le (k := extra) (hlength run hrun)) ([], [])
  rw [h.inserted, List.nil_append] at hiff
  rw [Safe, h.lists]
  constructor
  · rintro ⟨fuel, output, hok⟩
    apply (hiff fuel).mp
    rw [Nat.add_comm]
    exact ⟨output, foldlM_aggregateList_mono hok s.allocated⟩
  · intro hall
    obtain ⟨output, hok⟩ := (hiff 0).mpr hall
    exact ⟨_, output, hok⟩

/-- **Safe aggregation.**  After any text that `read_db_file` returns from,
`aggregate` is safe iff each run has two or more datapoints and no counter is
0 when its window is closed. -/
theorem aggregate_safe_iff (aNewPoint : Cell Node) (text : List Char) (s : ReadState)
    (h : readDbFile aNewPoint text = .ok s) :
    Safe s ↔ ∀ l ∈ s.inputDatapoints, Aggregable s.heap l := by
  obtain ⟨runs, hlists⟩ := readDbFile_lists h
  exact hlists.safe_iff

/-! ### Databases of one run -/

/-- Runs of two datapoints and more, as long as there are not too many. -/
theorem aggregable_of_length (h : l.Holds heap nodes) (htwo : 2 ≤ nodes.length)
    (hle : nodes.length ≤ 2 ^ 32) : Aggregable heap l := by
  rw [aggregable_iff h]
  refine ⟨htwo, fun w hw => counted_of_lt ?_⟩
  have hne : nodes.map Prod.snd ≠ [] :=
    List.ne_nil_of_length_pos ((List.length_map _).symm ▸ Nat.zero_lt_of_lt htwo)
  have hsize := (greedy_windows hne).size_lt_length hw
  rw [List.length_map] at hsize
  exact hsize.trans_le hle

/-- The one list of a database of one run. -/
theorem exists_list {blocks : List Block} {text : List Char} (h : IsDatabase [blocks] text) :
    ∃ s l nodes, readDbFile ⟨.zero, none⟩ text = .ok s ∧ s.inputDatapoints = [l] ∧
      l.Holds s.heap nodes ∧ nodes.length = blocks.length := by
  obtain ⟨s, hs, hparsed⟩ := readDbFile_parsed h (Nat.le_of_ble_eq_true rfl) ⟨.zero, none⟩
  obtain ⟨l, lists, ⟨nodes, hholds, hblocks, -⟩, hrest, hlists⟩ :=
    List.forall₂_cons_right_iff.mp hparsed
  rw [List.forall₂_nil_right_iff] at hrest
  exact ⟨s, l, nodes, hs, hrest ▸ hlists, hholds, hblocks.length_eq⟩

theorem isDatabase_twoBlocks :
    IsDatabase [[zeroBlock, zeroBlock]]
      (newActiveMachine.toList :: (zeroLines ++ zeroLines)).flatten := by
  refine ⟨[newActiveMachine.toList :: (zeroLines ++ zeroLines)], .cons ?_ .nil, ?_⟩
  · exact ⟨[zeroLines, zeroLines], zeroBlock, 0, [],
      .cons isLine_zeroLines (.cons isLine_zeroLines .nil), by decide, .nil, rfl⟩
  · rw [List.flatten_singleton]

theorem aggregate_safe_twoBlocks :
    ∃ s, readDbFile ⟨.zero, none⟩
        (newActiveMachine.toList :: (zeroLines ++ zeroLines)).flatten = .ok s ∧ Safe s := by
  obtain ⟨s, l, nodes, hs, hlists, hholds, hlength⟩ := exists_list isDatabase_twoBlocks
  refine ⟨s, hs, (aggregate_safe_iff _ _ s hs).mpr ?_⟩
  rw [hlists, List.forall_mem_singleton]
  apply aggregable_of_length hholds
  · rw [hlength]
    exact Nat.le_refl 2
  · rw [hlength]
    exact Nat.le_of_ble_eq_true rfl

theorem isDatabase_noBlocks : IsDatabase [[]] newActiveMachine.toList := by
  refine ⟨[[newActiveMachine.toList]], .cons ?_ .nil, ?_⟩
  · exact ⟨[], zeroBlock, 0, [], .nil, by decide, .nil, rfl⟩
  · rw [List.flatten_singleton, List.flatten_singleton]

/-- A header with no datapoint behind it. -/
theorem noBlocks_not_safe :
    ∃ s, readDbFile ⟨.zero, none⟩ newActiveMachine.toList = .ok s ∧ ¬ Safe s := by
  obtain ⟨s, l, nodes, hs, hlists, hholds, hlength⟩ := exists_list isDatabase_noBlocks
  refine ⟨s, hs, ?_⟩
  obtain ⟨runs, h⟩ := readDbFile_lists hs
  rw [h.safe_iff, hlists, List.forall_mem_singleton, aggregable_iff hholds, hlength]
  exact fun h => absurd h.1 (by decide)

end A2PM.ModelBuild
