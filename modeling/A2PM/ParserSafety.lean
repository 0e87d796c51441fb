/-
A2PM/ParserSafety.lean

`read_db_file` on a text of any content.

The parser rejects a line with an unknown token, and a datapoint in front of
the first header, in its own way.  It has no test for a line in which
`strtok` finds no token, nor for a keyword with nothing behind its colon, nor
for the number of runs; a text that reaches none of these lines is parsed or
rejected (`readDbFile_survives_iff`).

`Lists` says what the parser has built after any lines: each list holds the
nodes of its run, all nodes that have been allocated are in the lists in their
order, and a list with a second node ends with `NULL`.  Only the first node of
all can have a link that nothing has set.
-/
import A2PM.DatabaseParser
import A2PM.Transition

namespace A2PM.ModelBuild

open FormattedText TextInput Transition LinkedList

/-! ### What a line does -/

/-- The line has a token, and a second one behind a keyword. -/
def TokensPresent (line : List Char) : Prop :=
  ¬ OnlyDelimiters ":" line ∧ ∀ keyword ∈ keywords, ∀ a b, OnlyDelimiters ":" a →
    OnlyDelimiters ":" b → line ≠ a ++ keyword.toList ++ b

/-- What the parser can do with a line. -/
inductive LineRead (s : ReadState) (line : List Char) : Except Stop ReadState → Prop
  | header : line = newActiveMachine.toList →
      LineRead s line { s with lineCount := s.lineCount + 1 }.newRun
  | null : line ≠ newActiveMachine.toList → ¬ TokensPresent line →
      LineRead s line (.error .nullString)
  | unknown (token : List Char) : line ≠ newActiveMachine.toList → TokensPresent line →
      LineRead s line (.error (.unknownToken token (s.lineCount + 1)))
  | filled (targets : List Target) (values : List Value) : line ≠ newActiveMachine.toList →
      TokensPresent line → LineRead s line (.ok (s.filled targets values))
  | added (targets : List Target) (values : List Value) : line ≠ newActiveMachine.toList →
      TokensPresent line → LineRead s line (s.filled targets values).addDatapoint

/-- The tokens that the parser knows are the keywords. -/
theorem fieldsOf_eq_none_iff {token : List Char} :
    fieldsOf token = none ↔ ∀ keyword ∈ keywords, token ≠ keyword.toList := by
  rw [fieldsOf]
  split_ifs with h₁ h₂ h₃ h₄
  · exact iff_of_false not_false fun h => h "Datapoint" (by decide) h₁
  · exact iff_of_false not_false fun h => h "Memory" (by decide) h₂
  · exact iff_of_false not_false fun h => h "Swap" (by decide) h₃
  · exact iff_of_false not_false fun h => h "CPU" (by decide) h₄
  · refine iff_of_true rfl ?_
    rw [keywords, List.forall_mem_cons, List.forall_mem_cons, List.forall_mem_cons,
      List.forall_mem_singleton]
    exact ⟨h₁, h₂, h₃, h₄⟩

/-- A keyword between delimiters is a token without a second one. -/
theorem strtok_keyword_iff {line : List Char} {keyword : String} (h : keyword ∈ keywords) :
    (∃ rest, strtok ":" line = some (keyword.toList, rest) ∧ strtok ":" rest = none) ↔
      ∃ a b, OnlyDelimiters ":" a ∧ OnlyDelimiters ":" b ∧ line = a ++ keyword.toList ++ b := by
  obtain ⟨hne, hseparator, -⟩ := keyword_spec h
  apply strtok_only_iff hne
  intro c hc
  have hcolon : c ≠ ':' := fun heq => hseparator (heq ▸ hc)
  simpa using hcolon

theorem tokensPresent_of_strtok {line token rest : List Char}
    (htoken : strtok ":" line = some (token, rest))
    (hrest : ∀ keyword ∈ keywords, token = keyword.toList → strtok ":" rest ≠ none) :
    TokensPresent line := by
  constructor
  · intro honly
    rw [strtok_eq_none_iff.mpr honly] at htoken
    cases htoken
  · intro keyword hkeyword a b ha hb hline
    obtain ⟨rest', htoken', hnone⟩ := (strtok_keyword_iff hkeyword).mpr ⟨a, b, ha, hb, hline⟩
    obtain ⟨rfl, rfl⟩ := Prod.mk.inj (Option.some.inj (htoken.symm.trans htoken'))
    exact hrest keyword hkeyword rfl hnone

theorem processLine_lineRead (s : ReadState) (line : List Char) :
    LineRead s (cString line) (processLine s line) := by
  simp only [processLine]
  split
  next hheader => exact .header hheader
  next hheader =>
      split
      next hnone =>
          exact .null hheader fun hpresent => hpresent.1 (strtok_eq_none_iff.mp hnone)
      next token rest htoken =>
          split
          next hunknown =>
              apply LineRead.unknown token hheader
              apply tokensPresent_of_strtok htoken
              intro keyword hkeyword heq
              exact absurd heq (fieldsOf_eq_none_iff.mp hunknown keyword hkeyword)
          next format targets hfields =>
              have hkeyword : ∃ keyword ∈ keywords, token = keyword.toList := by
                by_contra hnone
                push Not at hnone
                rw [fieldsOf_eq_none_iff.mpr hnone] at hfields
                cases hfields
              split
              next hnone =>
                  apply LineRead.null hheader
                  intro hpresent
                  obtain ⟨keyword, hkeyword, rfl⟩ := hkeyword
                  obtain ⟨a, b, ha, hb, hline⟩ :=
                    (strtok_keyword_iff hkeyword).mp ⟨rest, htoken, hnone⟩
                  exact hpresent.2 keyword hkeyword a b ha hb hline
              next text _ htext =>
                  have hpresent : TokensPresent (cString line) := by
                    apply tokensPresent_of_strtok htoken
                    intro _ _ _ hnone
                    rw [hnone] at htext
                    cases htext
                  split
                  · exact .added targets _ hheader hpresent
                  · exact .filled targets _ hheader hpresent

/-! ### The lists after any lines -/

/-- The parser's lists with the nodes that they hold. -/
structure ReadState.Lists (s : ReadState) (runs : List (LinkedList × List (ℕ × Node))) :
    Prop where
  lists : s.inputDatapoints = runs.map Prod.fst
  holds : ∀ run ∈ runs, run.1.Holds s.heap run.2
  ended : ∀ run ∈ runs, 2 ≤ run.2.length → Segment s.heap run.1.head run.2 none
  /-- Every node that has been allocated is in one list. -/
  inserted : (runs.flatMap Prod.snd).map Prod.fst = List.range s.allocated
  current : s.currList = if runs = [] then none else some (runs.length - 1)
  record : s.allocated ≠ 0 → s.aNewPoint.next = none

namespace ReadState.Lists

variable {s s' : ReadState} {runs : List (LinkedList × List (ℕ × Node))}

theorem initial (aNewPoint : Cell Node) : (ReadState.initial aNewPoint).Lists [] where
  lists := rfl
  holds := List.forall_mem_nil _
  ended := List.forall_mem_nil _
  inserted := rfl
  current := rfl
  record := fun h => absurd rfl h

theorem newRun (h : s.Lists runs) (hs : s.newRun = .ok s') :
    s'.Lists (runs ++ [(initList, [])]) := by
  rw [ReadState.newRun] at hs
  by_cases hroom : s.currRun < maxRuns
  · rw [if_pos hroom] at hs
    obtain rfl := Except.ok.inj hs
    constructor
    · rw [List.map_append, ← h.lists]
      rfl
    · exact List.forall_mem_append.mpr ⟨h.holds,
        List.forall_mem_singleton.mpr (holds_initList s.heap)⟩
    · refine List.forall_mem_append.mpr ⟨h.ended, List.forall_mem_singleton.mpr ?_⟩
      intro htwo
      exact absurd htwo (Nat.not_succ_le_zero 1)
    · rw [List.flatMap_append, List.flatMap_singleton, List.append_nil]
      exact h.inserted
    · have hlength : s.currRun = runs.length := by
        rw [currRun, h.lists, List.length_map]
      simp [hlength]
    · exact h.record
  · rw [if_neg hroom] at hs
    cases hs

theorem filled (h : s.Lists runs) (targets : List Target) (values : List Value) :
    (s.filled targets values).Lists runs :=
  ⟨h.lists, h.holds, h.ended, h.inserted, h.current, h.record⟩

/-- The addresses of the nodes have been allocated, and are different. -/
theorem mem_lt (h : s.Lists runs) {run : LinkedList × List (ℕ × Node)} (hrun : run ∈ runs)
    {node : ℕ × Node} (hnode : node ∈ run.2) : node.1 < s.allocated := by
  rw [← List.mem_range, ← h.inserted]
  exact List.mem_map_of_mem (List.mem_flatMap.mpr ⟨run, hrun, hnode⟩)

/-- The copy of the record becomes the last node of the last list. -/
theorem addDatapoint {before : List (LinkedList × List (ℕ × Node))} {l : LinkedList}
    {nodes : List (ℕ × Node)} (h : s.Lists (before ++ [(l, nodes)])) :
    ∃ s' l', s.addDatapoint = .ok s' ∧
      s'.Lists (before ++ [(l', nodes ++ [(s.allocated, s.aNewPoint.data)])]) := by
  have hmem : (l, nodes) ∈ before ++ [(l, nodes)] := List.mem_append_right _ List.mem_cons_self
  have hfresh : s.allocated ∉ nodes.map Prod.fst := by
    intro hin
    obtain ⟨node, hnode, heq⟩ := List.mem_map.mp hin
    exact absurd (h.mem_lt hmem hnode) (heq ▸ Nat.lt_irrefl _)
  have hheap : ∀ run ∈ before ++ [(l, nodes)], ∀ node ∈ run.2,
      Function.update s.heap s.allocated (some s.aNewPoint) node.1 = s.heap node.1 := by
    intro run hrun node hnode
    exact Function.update_of_ne (Nat.ne_of_lt (h.mem_lt hrun hnode)) ..
  obtain ⟨heap', l', hinsert, hholds, hframe⟩ :=
    ((h.holds _ hmem).congr (hheap _ hmem)).insertRear hfresh (Function.update_self ..)
  -- the other lists do not share a node with this one
  have hother : ∀ run ∈ before, ∀ node ∈ run.2, heap' node.1 = s.heap node.1 := by
    intro run hrun node hnode
    have hrun' : run ∈ before ++ [(l, nodes)] := List.mem_append_left _ hrun
    rw [hframe, hheap run hrun' node hnode]
    intro hin
    have hnodup := List.nodup_range (n := s.allocated)
    rw [← h.inserted, List.flatMap_append, List.map_append, List.nodup_append] at hnodup
    have hfirst : node.1 ∈ (before.flatMap Prod.snd).map Prod.fst :=
      List.mem_map_of_mem (List.mem_flatMap.mpr ⟨run, hrun, hnode⟩)
    exact hnodup.2.2 _ hfirst _ (by simpa using hin) rfl
  have hcurrent : s.currList = some before.length := by
    rw [h.current, if_neg (List.append_ne_nil_of_right_ne_nil _ (List.cons_ne_nil _ _)),
      List.length_append, List.length_singleton, Nat.add_sub_cancel]
  have hlists : s.inputDatapoints = before.map Prod.fst ++ [l] := by
    rw [h.lists, List.map_append]
    rfl
  have hget : s.inputDatapoints[before.length]? = some l := by
    rw [hlists, ← List.length_map (f := Prod.fst), List.getElem?_concat_length]
  refine ⟨{ s with
    heap := heap'
    allocated := s.allocated + 1
    inputDatapoints := s.inputDatapoints.set before.length l'
    aNewPoint := ⟨.zero, none⟩
    readNodes := s.readNodes + 1 }, l', ?_, ?_, ?_, ?_, ?_, ?_, ?_⟩
  · simp only [ReadState.addDatapoint, hcurrent, hget, Option.bind_some, hinsert]
  · show s.inputDatapoints.set before.length l' = _
    rw [hlists, List.set_append_right _ _ (Nat.le_of_eq (List.length_map _)), List.length_map,
      Nat.sub_self, List.map_append]
    rfl
  · refine List.forall_mem_append.mpr ⟨fun run hrun => ?_, List.forall_mem_singleton.mpr hholds⟩
    exact (h.holds run (List.mem_append_left _ hrun)).congr (hother run hrun)
  · refine List.forall_mem_append.mpr ⟨fun run hrun hlength => ?_,
      List.forall_mem_singleton.mpr fun hlength => ?_⟩
    · exact (h.ended run (List.mem_append_left _ hrun) hlength).congr (hother run hrun)
    -- the record has been cleared since the list's first node was copied from it
    · have hpos : 0 < nodes.length := by
        rw [List.length_append] at hlength
        exact Nat.le_of_succ_le_succ hlength
      obtain ⟨node, rest, rfl⟩ := List.exists_cons_of_length_pos hpos
      have hallocated : s.allocated ≠ 0 :=
        Nat.ne_of_gt (Nat.zero_lt_of_lt (h.mem_lt hmem List.mem_cons_self))
      obtain ⟨b, hsegment⟩ := hholds.segment
      have hnew : heap' s.allocated = some s.aNewPoint := by
        rw [hframe _ hfresh, Function.update_self]
      obtain rfl := hsegment.next_eq hnew
      rw [h.record hallocated] at hsegment
      exact hsegment
  · have hinserted := h.inserted
    rw [List.flatMap_append, List.flatMap_singleton] at hinserted ⊢
    rw [← List.append_assoc, List.map_append, hinserted, List.range_succ]
    rfl
  · show s.currList = _
    rw [hcurrent, if_neg (List.append_ne_nil_of_right_ne_nil _ (List.cons_ne_nil _ _)),
      List.length_append, List.length_singleton, Nat.add_sub_cancel]
  · exact fun _ => rfl

/-- Without a list, or with a new node in the last one. -/
theorem addDatapoint_cases (h : s.Lists runs) :
    s.addDatapoint = .error .assertion ∨
      ∃ s' runs', s.addDatapoint = .ok s' ∧ s'.Lists runs' := by
  rcases List.eq_nil_or_concat' runs with rfl | ⟨before, ⟨l, nodes⟩, rfl⟩
  · left
    have hnone : s.currList = none := h.current
    rw [ReadState.addDatapoint, hnone]
  · obtain ⟨s', l', hs', hlists⟩ := h.addDatapoint
    exact .inr ⟨s', _, hs', hlists⟩

theorem processLine (h : s.Lists runs) {line : List Char} (hs : processLine s line = .ok s') :
    ∃ runs', s'.Lists runs' := by
  have hread := processLine_lineRead s line
  rw [hs] at hread
  generalize hresult : (Except.ok s' : Except Stop ReadState) = result at hread
  cases hread with
  | header _ =>
      have hcounted : { s with lineCount := s.lineCount + 1 }.Lists runs :=
        ⟨h.lists, h.holds, h.ended, h.inserted, h.current, h.record⟩
      exact ⟨_, hcounted.newRun hresult.symm⟩
  | null _ _ => cases hresult
  | unknown token _ _ => cases hresult
  | filled targets values _ _ =>
      obtain rfl := Except.ok.inj hresult
      exact ⟨runs, h.filled targets values⟩
  | added targets values _ _ =>
      rcases (h.filled targets values).addDatapoint_cases with hstop | ⟨s'', runs', hs'', hlists⟩
      · cases hresult.trans hstop
      · obtain rfl := Except.ok.inj (hresult.trans hs'')
        exact ⟨runs', hlists⟩

theorem processLines (h : s.Lists runs) {lines : List (List Char)}
    (hs : processLines s lines = .ok s') : ∃ runs', s'.Lists runs' := by
  induction lines generalizing s runs with
  | nil =>
      obtain rfl := Except.ok.inj hs
      exact ⟨runs, h⟩
  | cons line rest ih =>
      cases hline : A2PM.ModelBuild.processLine s line with
      | error stop =>
          rw [A2PM.ModelBuild.processLines, List.foldlM_cons, hline] at hs
          cases hs
      | ok t =>
          obtain ⟨runs', hlists⟩ := h.processLine hline
          rw [processLines_cons hline] at hs
          exact ih hlists hs

end ReadState.Lists

theorem readDbFile_lists {aNewPoint : Cell Node} {text : List Char} {s : ReadState}
    (h : readDbFile aNewPoint text = .ok s) : ∃ runs, s.Lists runs :=
  (ReadState.Lists.initial aNewPoint).processLines h

/-! ### The parser on any text -/

/-- The parser's own ways to stop. -/
def Stop.Reported : Stop → Prop
  | .unknownToken _ _ | .assertion => True
  | .nullString | .outOfBounds | .badLink => False

/-- The parser returns, or stops in its own way. -/
def Survives : Except Stop ReadState → Prop
  | .ok _ => True
  | .error stop => stop.Reported

/-- A header finds room for its run, and any other line has its tokens. -/
def Readable (s : ReadState) (line : List Char) : Prop :=
  if cString line = newActiveMachine.toList then s.currRun < maxRuns
  else TokensPresent (cString line)

theorem survives_processLine_iff {s : ReadState} {runs : List (LinkedList × List (ℕ × Node))}
    (h : s.Lists runs) (line : List Char) : Survives (processLine s line) ↔ Readable s line := by
  have hread := processLine_lineRead s line
  rw [Readable]
  generalize processLine s line = result at hread ⊢
  cases hread with
  | header hheader =>
      rw [if_pos hheader, ReadState.newRun]
      split
      next hroom => exact iff_of_true trivial hroom
      next hroom => exact iff_of_false id hroom
  | null hheader hpresent =>
      rw [if_neg hheader]
      exact iff_of_false id hpresent
  | unknown token hheader hpresent =>
      rw [if_neg hheader]
      exact iff_of_true trivial hpresent
  | filled targets values hheader hpresent =>
      rw [if_neg hheader]
      exact iff_of_true trivial hpresent
  | added targets values hheader hpresent =>
      rw [if_neg hheader]
      rcases (h.filled targets values).addDatapoint_cases with hstop | ⟨s', runs', hs', -⟩
      · rw [hstop]
        exact iff_of_true trivial hpresent
      · rw [hs']
        exact iff_of_true trivial hpresent

/-- One iteration of the loop, if the parser goes on. -/
def readStep (s : ReadState) (line : List Char) : Option ReadState := (processLine s line).toOption

/-- The parser survives the lines iff it survives each line that it gets to. -/
theorem survives_processLines_iff (s : ReadState) (lines : List (List Char)) :
    Survives (processLines s lines) ↔
      Attempts readStep (fun s line => Survives (processLine s line)) s lines := by
  induction lines generalizing s with
  | nil => exact iff_of_true trivial trivial
  | cons line rest ih =>
      cases hline : processLine s line with
      | error stop =>
          have hstop : processLines s (line :: rest) = .error stop := by
            rw [processLines, List.foldlM_cons, hline]
            rfl
          rw [hstop]
          simp [Attempts, readStep, hline, Except.toOption]
      | ok s' =>
          rw [processLines_cons hline, ih]
          simp [Attempts, readStep, hline, Except.toOption, Survives]

/-- **Any text.**  `read_db_file` parses a text or rejects it iff every line
that it gets to can be read. -/
theorem readDbFile_survives_iff (aNewPoint : Cell Node) (text : List Char) :
    Survives (readDbFile aNewPoint text) ↔
      Attempts readStep Readable (.initial aNewPoint)
        (lines maxLineLength one_lt_maxLineLength text) := by
  refine (survives_processLines_iff _ _).trans ?_
  refine attempts_congr (I := fun s => ∃ runs, s.Lists runs) ?_ ?_ ⟨[], .initial aNewPoint⟩
  · rintro s line s' ⟨runs, h⟩ - hs
    cases hline : processLine s line with
    | error stop =>
        rw [readStep, hline] at hs
        cases hs
    | ok t =>
        rw [readStep, hline] at hs
        obtain rfl := Option.some.inj hs
        exact h.processLine hline
  · rintro s line ⟨runs, h⟩
    exact survives_processLine_iff h line

/-- A text that is cut off behind the colon of its first line. -/
theorem cut_behind_colon : ¬ Survives (readDbFile ⟨.zero, none⟩ "Datapoint:".toList) := by
  intro hsurvives
  rw [readDbFile, lines_last _ (by decide) (by decide) (by decide), survives_processLines_iff]
    at hsurvives
  have hread := (survives_processLine_iff (.initial _) _).mp hsurvives.1
  have hheader : cString "Datapoint:".toList ≠ newActiveMachine.toList := by decide
  rw [Readable, if_neg hheader] at hread
  have hcolon : OnlyDelimiters ":" [':'] := List.forall_mem_singleton.mpr rfl
  exact hread.2 "Datapoint" (by decide) [] [':'] (List.forall_mem_nil _) hcolon (by decide)

end A2PM.ModelBuild
